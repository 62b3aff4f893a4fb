import GraphQL.Value.Basic

/-! # Variables in scope

Inside a fragment that declares variables, those stand before the variables of the operation, also
where they have no value.
-/

namespace GraphQL

/-- The variables a fragment declares, and the values of those that have one. -/
structure FragmentVariables where
  names : List String
  values : Object
deriving Inhabited

def FragmentVariables.declares (f : FragmentVariables) (name : String) : Bool :=
  f.names.contains name

structure Scope where
  operation : Object
  fragment : Option FragmentVariables := none
deriving Inhabited

namespace Scope

/-- The scope where no variable has a value. -/
def empty : Scope := ⟨[], none⟩

/-- The value of a variable, if it has one. -/
def get? (s : Scope) (name : String) : Option Value :=
  match s.fragment with
  | some f => if f.declares name then f.values.get? name else s.operation.get? name
  | none => s.operation.get? name

/-- Whether a literal is a variable without a value. -/
def isUnset (s : Scope) (name : String) : Bool := (s.get? name).isNone

end Scope

end GraphQL
