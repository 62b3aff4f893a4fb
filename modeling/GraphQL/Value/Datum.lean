import GraphQL.Value.Json

/-! # Data from other sources

A self-describing source presents its data as one of the kinds below, each of which values,
scalars and objects either accept or refuse.
-/

namespace GraphQL

/-- A piece of data as its source presents it. -/
inductive Datum where
  | absent
  | present (inner : Datum)
  | unit
  | bytes
  | int (n : Int)
  | float (x : Float)
  | string (s : String)

namespace Datum

def value : Datum → Except ReadError Value
  | .absent => .ok .null
  | .present inner => inner.value
  | .unit => .ok .null
  | .bytes => .error (.wrongKind "byte array" "a valid input value")
  | .int n => .ok (.scalar (.ofInt n))
  | .float x => .ok (.float x)
  | .string s => .ok (.string s)

def scalar : Datum → Except ReadError Scalar
  | .absent => .error (.wrongKind "Option value" "a valid scalar value")
  | .present _ => .error (.wrongKind "Option value" "a valid scalar value")
  | .unit => .error (.wrongKind "unit value" "a valid scalar value")
  | .bytes => .error (.wrongKind "byte array" "a valid scalar value")
  | .int n => .ok (.ofInt n)
  | .float x => .ok (.float x)
  | .string s => .ok (.string s)

def object (d : Datum) : Except ReadError Object := do Object.ofValue (← d.value)

end Datum

end GraphQL
