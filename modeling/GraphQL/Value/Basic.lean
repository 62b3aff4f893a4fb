/-! # Values

The data of responses and of external inputs. The fields of an object keep the order in which
they were added; adding a field that is there replaces its value in place. Two objects are equal
when they hold equal values under the same keys, in any order.
-/

namespace GraphQL

/-- A leaf. Whole numbers outside 32 bits are floats. -/
inductive Scalar where
  | int (n : Int32)
  | float (x : Float)
  | string (s : String)
  | boolean (b : Bool)
deriving Inhabited

namespace Scalar

def beq : Scalar → Scalar → Bool
  | .int a, .int b => a == b
  | .float a, .float b => a == b
  | .string a, .string b => a == b
  | .boolean a, .boolean b => a == b
  | _, _ => false

instance : BEq Scalar := ⟨beq⟩

def int? : Scalar → Option Int32
  | .int n => some n
  | _ => none

/-- The number a scalar holds; whole numbers are widened. -/
def float? : Scalar → Option Float
  | .int n => some (Float.ofInt n.toInt)
  | .float x => some x
  | _ => none

def string? : Scalar → Option String
  | .string s => some s
  | _ => none

def boolean? : Scalar → Option Bool
  | .boolean b => some b
  | _ => none

end Scalar

/-- Whether a whole number with its sign fits 32 bits. -/
def isInt32 (n : Int) : Bool := Int32.minValue.toInt ≤ n && n ≤ Int32.maxValue.toInt

/-- A whole number as a scalar. -/
def Scalar.ofInt (n : Int) : Scalar :=
  if isInt32 n then .int (Int32.ofInt n) else .float (Float.ofInt n)

/-- The entries of an object, keyed by name, in insertion order. -/
abbrev Entries (α : Type) := List (String × α)

namespace Entries

variable {α : Type}

/-- Adds an entry, in the place of one with the same key if there is one. -/
def insert (key : String) (value : α) : Entries α → Entries α
  | [] => [(key, value)]
  | (k, v) :: rest => if k = key then (k, value) :: rest else (k, v) :: insert key value rest

/-- Adds entries one after the other. -/
def ofList (entries : List (String × α)) : Entries α :=
  entries.foldl (fun es (k, v) => Entries.insert k v es) []

def get? (key : String) (es : Entries α) : Option α := es.lookup key

def contains (key : String) (es : Entries α) : Bool := (es.lookup key).isSome

def keys (es : Entries α) : List String := es.map Prod.fst

end Entries

inductive Value where
  | null
  | scalar (s : Scalar)
  | list (items : List Value)
  | object (fields : List (String × Value))
deriving Inhabited

abbrev Object := Entries Value

namespace Value

def string (s : String) : Value := .scalar (.string s)

def boolean (b : Bool) : Value := .scalar (.boolean b)

def float (x : Float) : Value := .scalar (.float x)

def int (n : Int32) : Value := .scalar (.int n)

def isNull : Value → Bool
  | .null => true
  | _ => false

def scalar? : Value → Option Scalar
  | .scalar s => some s
  | _ => none

def int? (v : Value) : Option Int32 := v.scalar?.bind Scalar.int?

def float? (v : Value) : Option Float := v.scalar?.bind Scalar.float?

def string? (v : Value) : Option String := v.scalar?.bind Scalar.string?

def boolean? (v : Value) : Option Bool := v.scalar?.bind Scalar.boolean?

def object? : Value → Option Object
  | .object o => some o
  | _ => none

def list? : Value → Option (List Value)
  | .list items => some items
  | _ => none

mutual

/-- Equality of values: of lists item by item, of objects key by key. -/
def beq : Value → Value → Bool
  | .null, .null => true
  | .scalar a, .scalar b => a == b
  | .list a, .list b => beqItems a b
  | .object a, .object b => a.length == b.length && beqFields a b
  | _, _ => false

def beqItems : List Value → List Value → Bool
  | [], [] => true
  | a :: as, b :: bs => beq a b && beqItems as bs
  | _, _ => false

/-- Whether each of the first fields is in the second object. -/
def beqFields : List (String × Value) → Object → Bool
  | [], _ => true
  | (k, a) :: rest, o =>
    (match o.lookup k with
      | some b => beq a b
      | none => false) && beqFields rest o

end

instance : BEq Value := ⟨beq⟩

mutual

/-- Whether no object of the value has two fields with one key. -/
def DistinctKeys : Value → Prop
  | .object fields => (fields.map Prod.fst).Nodup ∧ DistinctKeysFields fields
  | .list items => DistinctKeysItems items
  | _ => True

def DistinctKeysItems : List Value → Prop
  | [] => True
  | v :: rest => v.DistinctKeys ∧ DistinctKeysItems rest

def DistinctKeysFields : List (String × Value) → Prop
  | [] => True
  | (_, v) :: rest => v.DistinctKeys ∧ DistinctKeysFields rest

end

end Value

end GraphQL
