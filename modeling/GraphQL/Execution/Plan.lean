import GraphQL.Execution.Request

/-! # Fields to execute

A field with its definition and all its uses under one response key; the first use counts for its
name, arguments and directives.
-/

namespace GraphQL

structure FieldPlan (σ : Type) where
  parent : ObjectType σ
  field : FieldDefinition σ
  use : FieldUse
  others : List FieldUse

/-- Why a field has no value. -/
inductive FieldProblem where
  | aborted (reason : String)
  | null (coordinate : Coordinate)
  | notOutputType (name : String)
  | notAList (coordinate : Coordinate)
  | negativeInitialCount
  | otherObject (type : String) (value : HostValue)
  | unresolvedType (type : String) (coordinate : Coordinate)
  | unknownObject (type name : String)
  | notAnObject (type name : String)
  | impossibleObject (type name : String)
  | notAScalar (type : String) (value : HostValue)
  | nullFromScalar (type : String) (value : Value)
  | notAnEnumValue (type : String) (value : HostValue)
  | undefinedSubscription (name : String)
  | noSubscriber (name : String)
  | noRootField

def FieldProblem.message : FieldProblem → String
  | aborted reason => reason
  | null c => "Cannot return null for non-nullable field " ++ c.text
  | notOutputType name =>
    "Cannot complete value of unexpected output type \"" ++ name ++ "\"."
  | notAList c =>
    "Expected Iterable, but did not find one for field \"" ++ c.text ++ "\"."
  | negativeInitialCount => "initialCount must be a positive integer"
  | otherObject type value =>
    "Expected value of type \"" ++ type ++ "\" but got: " ++ value.text ++ "."
  | unresolvedType type c =>
    "Abstract type \"" ++ type ++ "\" must resolve to an Object type at runtime for field \""
      ++ c.text ++ "\". Either the \"" ++ type
      ++ "\" type should provide a \"resolveType\" function or each possible type should "
      ++ "provide an \"isTypeOf\" function."
  | unknownObject type name =>
    "Abstract type \"" ++ type ++ "\" was resolved to a type \"" ++ name
      ++ "\" that does not exist inside the schema."
  | notAnObject type name =>
    "Abstract type \"" ++ type ++ "\" was resolved to a non-object type \"" ++ name ++ "\"."
  | impossibleObject type name =>
    "Runtime Object type \"" ++ name ++ "\" is not a possible type for \"" ++ type ++ "\"."
  | notAScalar type value =>
    "Scalar \"" ++ type ++ "\" cannot represent value: " ++ value.text
  | nullFromScalar type value =>
    "Expected `" ++ type ++ ".serialize(" ++ value.text
      ++ ")` to return non-nullable value, returned: null"
  | notAnEnumValue type value =>
    "Enum \"" ++ type ++ "\" cannot represent value: " ++ value.text
  | undefinedSubscription name =>
    "The subscription field \"" ++ name ++ "\" is not defined."
  | noSubscriber name =>
    "Subscription field \"" ++ name ++ "\" has no source stream resolver."
  | noRootField => "Subscription must select one top level field."

def FieldProblem.error (p : FieldProblem) : FieldError := .ofMessage p.message

/-- An argument error at a path of the response. -/
def ArgumentError.at (path : Path) (e : ArgumentError) : ExecutionError :=
  ⟨[e.start], path, .ofMessage e.item.message⟩

namespace FieldPlan

variable {σ : Type} (plan : FieldPlan σ)

def uses : List FieldUse := plan.use :: plan.others

def node : FieldNode := plan.use.node

def coordinate : Coordinate := .field plan.parent.name plan.field.name

/-- An error at all uses of the field. -/
def error (path : Path) (e : FieldError) : ExecutionError :=
  ⟨plan.uses.map (·.node.span.start), path, e⟩

def problem (path : Path) (p : FieldProblem) : ExecutionError := plan.error path p.error

/-- The variables that the arguments and directives of the field see. -/
def scope (ctx : ExecutionContext σ) : Scope := ⟨ctx.variableValues, plan.use.fragmentVariables⟩

def arguments (ctx : ExecutionContext σ) (path : Path) : Except ExecutionError Object :=
  (ctx.schema.coerceArguments (plan.scope ctx) plan.node.arguments plan.node.span
    plan.field.arguments).mapError (·.at path)

/-- What callbacks are told about the field. -/
def info (ctx : ExecutionContext σ) (path : Path) : FieldInfo where
  parentType := plan.parent.name
  fieldName := plan.field.name
  returnType := plan.field.type
  path := path
  nodes := plan.uses.map (·.node)
  operation := ctx.operation
  variableValues := ctx.variableValues
  root := ctx.root
  fragments := ctx.fragments

end FieldPlan

/-- The value of a field without a resolver: what object data holds under its name. -/
def defaultFieldValue (source : HostValue) (name : String) : HostValue :=
  match source.dataField? name with
  | some v => .data v
  | none => .null

end GraphQL
