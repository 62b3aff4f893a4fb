import GraphQL.Coercion.Literal

/-! # Coercing defaults

The default of an input field may be an object that leaves out fields with defaults. Such a chain
of defaults that is longer than there are input fields comes back to a field that it has passed,
and so never ends.
-/

namespace GraphQL.Schema

variable {σ : Type} (schema : Schema σ)

/-- How many input fields there are. -/
def inputFieldCount : Nat :=
  schema.types.foldl (fun count t => match t with
    | .inputObject t => count + t.fields.value.length
    | _ => count) 0

/-- Coerces a default by a chain of at most so many defaults. -/
def defaultWithin : Nat → DefaultCoercion
  | 0, _, _ => CoercionProblem.endlessDefault.refuse
  | n + 1, .value v, t =>
    let c := inputAs schema (defaultWithin n) v t
    match c.refusal? with
    | none => .ok c.value
    | some e => .error e
  | n + 1, .literal l, t => do
    return (← literalAs schema (defaultWithin n) .empty l t).getD .null

/-- The default of an argument or input field as a value of its type. -/
def coerceDefault : DefaultCoercion := schema.defaultWithin (schema.inputFieldCount + 1)

/-- An external value as a value of the type `t`. -/
def coerceInput (v : Value) (t : TypeRef) : Except (List CoercionError) Value :=
  (inputAs schema schema.coerceDefault v t).toExcept

/-- A literal as a value of the type `t`; nothing for a variable without a value. -/
def coerceLiteral (scope : Scope) (l : Literal) (t : TypeRef) : LiteralResult :=
  literalAs schema schema.coerceDefault scope l t

end GraphQL.Schema
