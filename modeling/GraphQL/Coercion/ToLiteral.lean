import GraphQL.Coercion.Untyped
import GraphQL.Schema.Build

/-! # Writing values as literals

A value of an input type is written as the literal that is coerced to it.
-/

namespace GraphQL

def ScalarType.write (t : ScalarType) (v : Value) : Option Literal :=
  match t.toLiteral with
  | some write => write v
  | none => some (.ofValue v)

/-- The fields of an input object that have a value, in the order of their definitions. -/
def InputObjectType.write (t : InputObjectType) (members : Entries (TypeRef → Option Literal)) :
    Option Literal :=
  let given : List (Option (String × Literal)) := t.fields.value.filterMap fun d =>
    (members.get? d.name).map fun member => (member d.type).map fun l => (d.name, l)
  (given.mapM id).map .objectOf

section

variable {σ : Type} (schema : Schema σ)

def writeNamed (members : Option (Entries (TypeRef → Option Literal))) (v : Value)
    (name : String) : Option Literal :=
  match schema.type? name with
  | some (.scalar t) => t.write v
  | some (.enum t) => (t.seenAs? v).map fun found => .enum found.name
  | some (.inputObject t) => members.bind t.write
  | _ => none

mutual

/-- A value of the type as a literal; nothing if it is not of the type. -/
def writeAs : Value → TypeRef → Option Literal
  | .null, t => if t.isNonNull then none else some .null
  | .list items, t =>
    match t.item? with
    | some item =>
      let written : List (Option Literal) := (writeItems items).map fun member => member item
      (written.mapM id).map .listOf
    | none => writeNamed schema none (.list items) t.innermost
  | .object fields, t => writeNamed schema (some (writeMembers fields)) (.object fields) t.innermost
  | .scalar s, t => writeNamed schema none (.scalar s) t.innermost

def writeItems : List Value → List (TypeRef → Option Literal)
  | [] => []
  | v :: rest => (fun t => writeAs v t) :: writeItems rest

def writeMembers : List (String × Value) → Entries (TypeRef → Option Literal)
  | [] => []
  | (key, v) :: rest => (key, fun t => writeAs v t) :: writeMembers rest

end

end

end GraphQL
