import GraphQL.Document.Basic
import GraphQL.Coercion.Scope

/-! # Collected fields

What is selected on one object: the fields grouped by response key, in the order in which the keys
first appear, and the deferred fragments, each again with its fields.
-/

namespace GraphQL

/-- A place where a field is selected, and the variables of the fragment around it if that declares
any. -/
structure FieldUse where
  node : FieldNode
  fragmentVariables : Option FragmentVariables
deriving Inhabited

abbrev FieldGroups := Entries (List FieldUse)

/-- Adds a use of a field to those with the same response key. -/
def FieldGroups.add (key : String) (use : FieldUse) : FieldGroups → FieldGroups
  | [] => [(key, [use])]
  | (k, uses) :: rest =>
    if k = key then (k, uses ++ [use]) :: rest else (k, uses) :: FieldGroups.add key use rest

mutual

structure Collected where
  groups : List (String × List FieldUse)
  deferred : List Deferred

/-- A fragment whose fields are delivered later. -/
structure Deferred where
  label : Option String
  fields : Collected

end

namespace Collected

def empty : Collected := ⟨[], []⟩

def isEmpty (c : Collected) : Bool := c.groups.isEmpty && c.deferred.isEmpty

/-- Adds a use of a field. -/
def add (c : Collected) (use : FieldUse) : Collected :=
  { c with groups := FieldGroups.add use.node.responseKey use c.groups }

/-- Adds a deferred fragment after the others. -/
def defer (c : Collected) (label : Option String) (fields : Collected) : Collected :=
  { c with deferred := c.deferred ++ [⟨label, fields⟩] }

end Collected

end GraphQL
