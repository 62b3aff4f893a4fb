import GraphQL.Schema.Basic

/-! # The built-in directives

They are listed in the order in which a schema checks them.
-/

namespace GraphQL.DirectiveDefinition

def nonNullBoolean : TypeRef := .nonNullNamed "Boolean"

/-- A condition that holds unless a request says otherwise. -/
def conditionByDefault (description : String) : InputDefinition where
  name := "if"
  description := some description
  type := nonNullBoolean
  default := some (.literal (.boolean true))

def label : InputDefinition where
  name := "label"
  description := some "Unique name"
  type := .named "String"

def skipIf : DirectiveDefinition where
  name := "skip"
  description := some ("Directs the executor to skip this field or fragment when the `if` "
    ++ "argument is true.")
  locations := [.field, .fragmentSpread, .inlineFragment]
  arguments :=
    [{ name := "if", description := some "Skipped when true.", type := nonNullBoolean }]

def includeIf : DirectiveDefinition where
  name := "include"
  description := some ("Directs the executor to include this field or fragment only when the "
    ++ "`if` argument is true.")
  locations := [.field, .fragmentSpread, .inlineFragment]
  arguments :=
    [{ name := "if", description := some "Included when true.", type := nonNullBoolean }]

def defer : DirectiveDefinition where
  name := "defer"
  description := some ("Directs the executor to defer this fragment when the `if` argument is "
    ++ "true or undefined.")
  locations := [.fragmentSpread, .inlineFragment]
  arguments := [conditionByDefault "Deferred when true or undefined.", label]

def stream : DirectiveDefinition where
  name := "stream"
  description := some ("Directs the executor to stream plural fields when the `if` argument is "
    ++ "true or undefined.")
  locations := [.field]
  arguments :=
    [conditionByDefault "Stream when true or undefined.", label,
      { name := "initialCount"
        description := some "Number of items to return immediately"
        type := .nonNullNamed "Int"
        default := some (.literal (.int 0)) }]

def deprecated : DirectiveDefinition where
  name := "deprecated"
  description := some "Marks an element of a GraphQL schema as no longer supported."
  locations := [.fieldDefinition, .argumentDefinition, .inputFieldDefinition, .enumValue]
  arguments :=
    [{ name := "reason"
       type := .named "String"
       default := some (.literal (.string "No longer supported")) }]

def specifiedBy : DirectiveDefinition where
  name := "specifiedBy"
  description := some "Exposes a URL that specifies the behavior of this scalar."
  locations := [.scalar]
  arguments := [{ name := "url", type := .nonNullNamed "String" }]

def oneOf : DirectiveDefinition where
  name := "oneOf"
  description := some ("Indicates exactly one field must be supplied and this field must not be "
    ++ "`null`.")
  locations := [.inputObject]
  arguments := []

/-- The directives that every schema has. -/
def builtins : List DirectiveDefinition :=
  [includeIf, deprecated, oneOf, defer, specifiedBy, stream, skipIf]

theorem builtins_names_nodup : (builtins.map (·.name)).Nodup := by decide

end GraphQL.DirectiveDefinition
