import GraphQL.Outline.Values
import GraphQL.Coercion.Problem

/-! # Outlines of coercion errors -/

namespace GraphQL

open Outline

instance : Outlined CoercionError where
  outline e := .object
    [member "message" e.message, member "path" e.pathText, member "value" e.value]

end GraphQL
