import GraphQL.Schema.Build

/-! # Checking schemas

The problems of a schema, in the order of its root types, types and directives.
-/

namespace GraphQL.Schema

variable {σ : Type} (schema : Schema σ)

def rootProblems (kind : OperationKind) : List SchemaProblem :=
  match schema.rootName? kind with
  | none => []
  | some name =>
    match schema.type? name with
    | some (.object _) => []
    | some _ => [.rootNotObject kind name]
    | none => if kind = .query then [.noQueryRoot] else [.unknownRoot kind name]

def inputTypeProblems (place : Coordinate) (type : TypeRef) : List SchemaProblem :=
  match schema.type? type.innermost with
  | none => [.unknownType type.innermost place]
  | some t => if t.isInput then [] else [.notInput place type]

def outputTypeProblems (place : Coordinate) (type : TypeRef) : List SchemaProblem :=
  match schema.type? type.innermost with
  | none => [.unknownType type.innermost place]
  | some t => if t.isOutput then [] else [.notOutput place type]

/-- The problems of one field, where `earlier` are the fields before it. -/
def fieldProblems (type : String) (earlier : List (FieldDefinition σ))
    (field : FieldDefinition σ) : List SchemaProblem :=
  (if earlier.any (·.name = field.name) then [.repeatedField type field.name] else [])
    ++ schema.outputTypeProblems (.field type field.name) field.type
    ++ field.arguments.flatMap fun a =>
      schema.inputTypeProblems (.argument type field.name a.name) a.type

def fieldsProblems (type : String) (fields : List (FieldDefinition σ)) : List SchemaProblem :=
  (if fields.isEmpty then [.noFields type] else [])
    ++ fields.zipIdx.flatMap fun (field, i) => schema.fieldProblems type (fields.take i) field

/-- Whether a type has the fields of one of its interfaces. -/
def interfaceProblems (type : String) (fields : List (FieldDefinition σ)) (interface : String) :
    List SchemaProblem :=
  match schema.type? interface with
  | some (.interface t) =>
    (t.fields.value.filter fun f => !fields.any (·.name = f.name)).map fun f =>
      .missingInterfaceField interface f.name type
  | _ => [.notAnInterface type interface]

def unionProblems (t : UnionType σ) : List SchemaProblem :=
  (if t.members.value.isEmpty then [.noMembers t.name] else [])
    ++ (t.members.value.filter fun m => (schema.object? m).isNone).map fun m =>
      .memberNotObject t.name m

/-- Names that literals could not tell from other kinds of literals. -/
def reservedNames : List String := ["true", "false", "null"]

def enumProblems (t : EnumType) : List SchemaProblem :=
  (if t.values.value.isEmpty then [.noValues t.name] else [])
    ++ (t.values.value.filter fun v => reservedNames.contains v.name).map fun v =>
      .reservedValue t.name v.name

/-- Exactly one field of a one-of input object is given, so none may insist on being given. -/
def oneOfProblems (place : Coordinate) (field : InputDefinition) : List SchemaProblem :=
  (if field.type.isNonNull then [.oneOfNonNull place] else [])
    ++ (if field.default.isSome then [.oneOfDefault place] else [])

def inputObjectProblems (t : InputObjectType) : List SchemaProblem :=
  (if t.fields.value.isEmpty then [.noInputFields t.name] else [])
    ++ t.fields.value.flatMap fun field =>
      let place := Coordinate.field t.name field.name
      schema.inputTypeProblems place field.type
        ++ (if t.isOneOf then oneOfProblems place field else [])

def typeProblems : TypeDefinition σ → List SchemaProblem
  | .scalar _ => []
  | .object t => schema.fieldsProblems t.name t.fields.value
      ++ t.interfaces.value.flatMap (schema.interfaceProblems t.name t.fields.value)
  | .interface t => schema.fieldsProblems t.name t.fields.value
      ++ t.interfaces.value.flatMap (schema.interfaceProblems t.name t.fields.value)
  | .union t => schema.unionProblems t
  | .enum t => enumProblems t
  | .inputObject t => schema.inputObjectProblems t

def directiveProblems (d : DirectiveDefinition) : List SchemaProblem :=
  d.arguments.flatMap fun a => schema.inputTypeProblems (.directiveArgument d.name a.name) a.type

/-- All problems of a schema. -/
def problems : List SchemaProblem :=
  schema.rootProblems .query ++ schema.rootProblems .mutation ++ schema.rootProblems .subscription
    ++ schema.types.flatMap schema.typeProblems
    ++ schema.directives.flatMap schema.directiveProblems

def isValid : Bool := schema.problems.isEmpty

end GraphQL.Schema
