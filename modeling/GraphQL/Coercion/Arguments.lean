import GraphQL.Coercion.Default
import GraphQL.Document.Basic

/-! # Arguments

The arguments of fields and directives, and those of fragment spreads, which bind the variables
that the fragment declares.
-/

namespace GraphQL

/-- A coercion error and the part of the document it is about. -/
abbrev ArgumentError := Located CoercionError

namespace Schema

variable {σ : Type} (schema : Schema σ) (scope : Scope)

/-- An argument that is not given, or given as the variable `unset` without a value. -/
def missingArgument (d : InputDefinition) (unset : Option String) (span : Span) :
    Except ArgumentError (Option Value) :=
  match d.default with
  | some default =>
    match schema.coerceDefault default d.type with
    | .ok v => .ok (some v)
    | .error e => .error ⟨e, span⟩
  | none =>
    if d.type.isNonNull then
      match unset with
      | some name => .error ⟨{ problem := .unsetArgument d.name d.type name }, span⟩
      | none => .error ⟨{ problem := .missingArgument d.name d.type }, span⟩
    else .ok none

/-- An argument that is given. -/
def givenArgument (d : InputDefinition) (l : Located Literal) :
    Except ArgumentError (Option Value) :=
  if l.item.isNullIn scope && d.type.isNonNull then
    .error ⟨{ problem := .nullArgument d.name d.type }, l.span⟩
  else match schema.coerceLiteral scope l.item d.type with
    | .ok v => .ok v
    | .error e => .error ⟨{ problem := .invalidArgument d.name l.item e.problem }, l.span⟩

/-- The value of one argument, if it has one. `span` is that of the field or directive. -/
def coerceArgument (arguments : Option Arguments) (span : Span) (d : InputDefinition) :
    Except ArgumentError (Option Value) :=
  match arguments.bind (·.get? d.name) with
  | none => schema.missingArgument d none span
  | some l =>
    match l.item with
    | .variable name =>
      if scope.isUnset name then schema.missingArgument d (some name) l.span
      else schema.givenArgument scope d l
    | _ => schema.givenArgument scope d l

/-- The arguments of a field or directive, as its definitions demand; the first error counts. -/
def coerceArguments (arguments : Option Arguments) (span : Span)
    (definitions : List InputDefinition) : Except ArgumentError Object :=
  definitions.foldlM (fun coerced d => do
    match ← schema.coerceArgument scope arguments span d with
    | some v => return coerced.insert d.name v
    | none => return coerced) []

/-- The arguments of the use of a directive. -/
def coerceDirective (d : DirectiveDefinition) (node : Located Directive) :
    Except ArgumentError Object :=
  schema.coerceArguments scope node.item.arguments node.span d.arguments

/-- A literal as a value, if it is one. -/
def literalValue? (l : Literal) (t : TypeRef) : Option Value :=
  match schema.coerceLiteral scope l t with
  | .ok v => v
  | .error _ => none

/-- The value of a variable of a fragment. Its default stands in for an argument that is missing
or invalid. -/
def fragmentVariable? (arguments : Option Arguments) (d : VariableDefinition) : Option Value :=
  let t := d.type.item
  let given := (arguments.bind (·.get? d.name.item)).bind fun l =>
    schema.literalValue? scope l.item t
  given <|> d.default.bind fun l => schema.literalValue? .empty l.item t

/-- The variables of a fragment where it is spread with `arguments`. -/
def coerceFragmentVariables (definitions : List VariableDefinition)
    (arguments : Option Arguments) : FragmentVariables where
  names := definitions.map (·.name.item)
  values := Entries.ofList (definitions.filterMap fun d =>
    (schema.fragmentVariable? scope arguments d).map fun v => (d.name.item, v))

end Schema

end GraphQL
