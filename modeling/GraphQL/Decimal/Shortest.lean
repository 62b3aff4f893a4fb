import GraphQL.Decimal.Binary64

/-! # The shortest digits that read back

Of all decimals that round to a number, those with the fewest digits are taken, and of these the
nearest to it. Two that are equally near differ by one in the last digit; a `Tie` says which of
them is meant.
-/

namespace GraphQL.Decimal

/-- `digits * 10 ^ exponent` -/
structure Scientific where
  digits : Nat
  exponent : Int
deriving DecidableEq, Repr

/-- The same number without zeros at the end of its digits. -/
def Scientific.trimmed (s : Scientific) : Scientific :=
  let zeros := ((toString s.digits).toList.reverse.takeWhile (· == '0')).length
  ⟨s.digits / Nat.pow 10 zeros, s.exponent + zeros⟩

inductive Tie where
  | up
  | even
deriving DecidableEq, Repr

/-- How many digits stand before the point; for numbers below a tenth, minus the zeros after it. -/
def pointPosition (r : Ratio) : Int :=
  (toString (r.floorDecimal (-400))).length - 400

/-- Of the multiples `c` and `c + 1` of `10 ^ e` that round to `m`, the nearer one. -/
def nearerNeighbour (tie : Tie) (m : Magnitude) (e : Int) : Option Scientific :=
  let c := m.value.floorDecimal e
  let below : Scientific := ⟨c, e⟩
  let above : Scientific := ⟨c + 1, e⟩
  match m.rounds (.ofDecimal c e), m.rounds (.ofDecimal (c + 1) e) with
  | true, true =>
    let middle := Ratio.ofDecimal (10 * c + 5) (e - 1)
    if m.value.lt middle then below
    else if middle.lt m.value then above
    else match tie with
      | .up => above
      | .even => if c % 2 = 0 then below else above
  | true, false => below
  | false, true => above
  | false, false => none

/-- Tries 1, 2, ... 17 digits; 17 always suffice. -/
def shortest (tie : Tie) (m : Magnitude) : Scientific :=
  let point := pointPosition m.value
  match (List.range 17).findSome? fun n : Nat => nearerNeighbour tie m (point - (n + 1 : Nat)) with
  | some s => s.trimmed
  | none => ⟨m.value.floorDecimal (point - 17), point - 17⟩

end GraphQL.Decimal
