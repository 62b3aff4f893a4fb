import GraphQL.Coercion.Untyped
import GraphQL.Coercion.Input

/-! # Coercing literals

A literal of a document becomes a value of the type that is expected. Variables have been coerced
before. The first problem counts.
-/

namespace GraphQL

/-- A coerced literal; nothing for a variable without a value. -/
abbrev LiteralResult := Except CoercionError (Option Value)

def CoercionProblem.refuse {α : Type} (problem : CoercionProblem) : Except CoercionError α :=
  .error { problem }

/-- A value inside `n` lists of one item. -/
def LiteralResult.nested (n : Nat) (r : Except CoercionError Value) : LiteralResult :=
  r.map fun v => some (n.repeat (fun v => .list [v]) v)

section

variable {σ : Type} (schema : Schema σ) (defaultOf : DefaultCoercion) (scope : Scope)

def ScalarType.ofLiteral (t : ScalarType) (l : Literal) : Except CoercionError Value :=
  let result := match t.literal with
    | some read => read (l.replaceVariables scope)
    | none => t.input (l.toValue scope)
  result.mapError fun e => { problem := .refusedByScalar e.message }

def EnumType.ofLiteral (t : EnumType) (l : Literal) : Except CoercionError Value :=
  match l with
  | .enum name =>
    match t.named? name with
    | some found => .ok found.value
    | none => (CoercionProblem.unknownEnumValue t.name name).refuse
  | _ => (CoercionProblem.enumNotName t.name l).refuse

/-- Whether a literal is null or a variable that is null or has no value. -/
def Literal.isNullIn (l : Literal) : Bool :=
  match l with
  | .variable name =>
    match scope.get? name with
    | some v => v.isNull
    | none => true
  | _ => l.isNull

/-- What a one-of object literal must satisfy. -/
def checkOneOf (t : InputObjectType) (fields : List (Located String × Located Literal)) :
    Except CoercionError Unit :=
  match fields with
  | [(key, field)] =>
    if field.item.isNullIn scope then (CoercionProblem.nullInOneOf key.item).refuse else .ok ()
  | _ => (CoercionProblem.notExactlyOne t.name).refuse

/-- One field of an input object, if it has a value. -/
def InputDefinition.ofLiterals (members : Entries (TypeRef → LiteralResult))
    (d : InputDefinition) : LiteralResult := do
  let given ← match members.get? d.name with
    | some member => member d.type
    | none => .ok none
  match given, d.default with
  | some v, _ => return some v
  | none, some default => return some (← defaultOf default d.type)
  | none, none =>
    if d.type.isNonNull then (CoercionProblem.missingField d.name d.type).refuse else return none

/-- Coerces the fields one after the other. -/
def fieldsOfLiterals (members : Entries (TypeRef → LiteralResult)) :
    List InputDefinition → Object → Except CoercionError Object
  | [], coerced => .ok coerced
  | d :: rest, coerced => do
    match ← d.ofLiterals defaultOf members with
    | some v => fieldsOfLiterals members rest (coerced.insert d.name v)
    | none => fieldsOfLiterals members rest coerced

def InputObjectType.ofLiteral (t : InputObjectType) (members : Entries (TypeRef → LiteralResult))
    (l : Literal) : Except CoercionError Value :=
  match l with
  | .object fields => do
    match fields.find? fun (key, _) => (t.field? key.item).isNone with
    | some (key, _) => (CoercionProblem.unknownField key.item t.name).refuse
    | none =>
      if t.isOneOf then checkOneOf scope t fields
      return .object (← fieldsOfLiterals defaultOf members t.fields.value [])
  | _ => (CoercionProblem.notAnObject t.name).refuse

/-- The literal `l`, neither null nor a variable, as a value of the type called `name`. -/
def literalNamed (members : Entries (TypeRef → LiteralResult)) (l : Literal) (name : String) :
    Except CoercionError Value :=
  match schema.type? name with
  | some (.scalar t) => t.ofLiteral scope l
  | some (.enum t) => t.ofLiteral l
  | some (.inputObject t) => t.ofLiteral defaultOf scope members l
  | _ => (CoercionProblem.notInputType name).refuse

/-- The items of a list; a variable without a value becomes null where that is allowed. -/
def itemsOfLiterals (item : TypeRef) :
    List (TypeRef → LiteralResult) → Except CoercionError (List Value)
  | [] => .ok []
  | member :: rest => do
    match ← member item with
    | some v => return v :: (← itemsOfLiterals item rest)
    | none =>
      if item.isNonNull then (CoercionProblem.null item).refuse
      else return .null :: (← itemsOfLiterals item rest)

mutual

/-- A literal as a value of the expected type. A literal that is no list stands for a list of
it. -/
def literalAs : Literal → TypeRef → LiteralResult
  | .variable name, t =>
    match scope.get? name with
    | none => .ok none
    | some v => if v.isNull && t.isNonNull then (CoercionProblem.null t).refuse else .ok (some v)
  | .null, t => if t.isNonNull then (CoercionProblem.null t).refuse else .ok (some .null)
  | .list items, t =>
    match t.item? with
    | some item => (itemsOfLiterals item (literalItems items)).map fun vs => some (.list vs)
    | none => (literalNamed schema defaultOf scope [] (.list items) t.innermost).map some
  | .object fields, t =>
    .nested t.listDepth
      (literalNamed schema defaultOf scope (literalMembers fields) (.object fields) t.innermost)
  | l, t => .nested t.listDepth (literalNamed schema defaultOf scope [] l t.innermost)

def literalItems : List (Located Literal) → List (TypeRef → LiteralResult)
  | [] => []
  | ⟨l, _⟩ :: rest => (fun t => literalAs l t) :: literalItems rest

def literalMembers :
    List (Located String × Located Literal) → Entries (TypeRef → LiteralResult)
  | [] => []
  | (key, ⟨l, _⟩) :: rest => (key.item, fun t => literalAs l t) :: literalMembers rest

end

end

end GraphQL
