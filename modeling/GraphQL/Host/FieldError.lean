import GraphQL.Value.Json

/-! # Field errors

What a callback of the host reports when it fails: a message, and data for clients if there is any.
-/

namespace GraphQL

/-- Extensions that are null are left out of responses. -/
structure FieldError where
  message : String
  extensions : Value
deriving Inhabited

/-- An error with a message only. -/
def FieldError.ofMessage (message : String) : FieldError := ⟨message, .null⟩

end GraphQL
