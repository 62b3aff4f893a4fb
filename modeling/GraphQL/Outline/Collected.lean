import GraphQL.Outline.Values
import GraphQL.Execution.Collected

/-! # Outlines of collected fields

Every group is shown with the uses of its response key, and every deferred fragment with its own
groups.
-/

namespace GraphQL

open Outline

instance : Outlined FieldUse where
  outline u := .object
    [member "name" u.node.name.item, member "at" u.node.span.start,
      member "fragment_variables" (u.fragmentVariables.map fun f => Value.object f.values)]

/-- The members that describe collected fields, given those of the deferred fragments. -/
def collectedMembers (c : Collected) (deferred : List Json) : List (String × Json) :=
  [member "groups" c.groups, member "deferred" deferred, member "is_empty" c.isEmpty]

mutual

def Collected.members : Collected → List (String × Json)
  | ⟨groups, deferred⟩ => collectedMembers ⟨groups, deferred⟩ (deferredOutlines deferred)

def Deferred.outline : Deferred → Json
  | ⟨label, fields⟩ => .object [member "label" label, ("fields", .object fields.members)]

def deferredOutlines : List Deferred → List Json
  | [] => []
  | d :: rest => d.outline :: deferredOutlines rest

end

end GraphQL
