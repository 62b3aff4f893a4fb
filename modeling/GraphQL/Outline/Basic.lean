import GraphQL.Json.Basic

/-! # Outlines

Tools look at the parts of the library as JSON. An outline shows all of a part: a value with the
kind of every scalar, a document with every span. What is missing is null.
-/

namespace GraphQL

class Outlined (α : Type) where
  outline : α → Json

export Outlined (outline)

namespace Outline

variable {α β : Type} [Outlined α] [Outlined β]

/-- A member of an object. -/
def member (key : String) (a : α) : String × Json := (key, outline a)

/-- An object with one member, whose key says what the member is. -/
def only (key : String) (a : α) : Json := .object [member key a]

instance : Outlined Json := ⟨id⟩

instance : Outlined String := ⟨.string⟩

instance : Outlined Bool := ⟨.bool⟩

instance : Outlined Nat := ⟨fun n => .int n⟩

instance : Outlined (Option α) := ⟨fun a => (a.map outline).getD .null⟩

instance : Outlined (List α) := ⟨fun as => .array (as.map outline)⟩

instance : Outlined (α × β) := ⟨fun (a, b) => .array [outline a, outline b]⟩

end Outline

end GraphQL
