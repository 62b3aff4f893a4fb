/-! # Binary64 numbers as integers times powers of two

A finite number is `significand * 2 ^ exponent` with a sign. The reals that round to it form an
interval, whose ends belong to it exactly when the significand is even.
-/

namespace GraphQL.Decimal

/-- The magnitude of a finite nonzero number. -/
structure Magnitude where
  significand : Nat
  exponent : Int
  /-- Whether the next smaller number is only half as far away as the next larger one. -/
  narrowBelow : Bool
deriving DecidableEq, Repr

inductive Binary64 where
  | notANumber
  | infinite (negative : Bool)
  | zero (negative : Bool)
  | finite (negative : Bool) (magnitude : Magnitude)
deriving DecidableEq, Repr

/-- How many fractions there are: they have 52 bits. -/
def Binary64.fractions : Nat := Nat.pow 2 52

/-- How many exponents there are: they have 11 bits. -/
def Binary64.exponents : Nat := Nat.pow 2 11

/-- Reads the sign bit, the bits of the exponent and the bits of the fraction. -/
def Binary64.ofBits (bits : Nat) : Binary64 :=
  let negative : Bool := bits / fractions / exponents % 2 == 1
  let biased : Nat := bits / fractions % exponents
  let fraction : Nat := bits % fractions
  if biased = 2047 then
    if fraction = 0 then .infinite negative else .notANumber
  else if biased = 0 then
    if fraction = 0 then .zero negative else .finite negative ⟨fraction, -1074, false⟩
  else .finite negative ⟨fraction + fractions, (biased : Int) - 1075, fraction == 0 && 1 < biased⟩

def Binary64.ofFloat (x : Float) : Binary64 := .ofBits x.toBits.toNat

/-- A nonnegative rational number. -/
structure Ratio where
  num : Nat
  den : Nat
deriving DecidableEq, Repr

namespace Ratio

/-- `n * 2 ^ e` -/
def ofBinary (n : Nat) (e : Int) : Ratio :=
  if 0 ≤ e then ⟨n * Nat.pow 2 e.toNat, 1⟩ else ⟨n, Nat.pow 2 (-e).toNat⟩

/-- `n * 10 ^ e` -/
def ofDecimal (n : Nat) (e : Int) : Ratio :=
  if 0 ≤ e then ⟨n * Nat.pow 10 e.toNat, 1⟩ else ⟨n, Nat.pow 10 (-e).toNat⟩

def lt (a b : Ratio) : Bool := a.num * b.den < b.num * a.den

def le (a b : Ratio) : Bool := a.num * b.den ≤ b.num * a.den

/-- How many times `10 ^ e` fits. -/
def floorDecimal (a : Ratio) (e : Int) : Nat :=
  if 0 ≤ e then a.num / (a.den * Nat.pow 10 e.toNat) else a.num * Nat.pow 10 (-e).toNat / a.den

end Ratio

namespace Magnitude

def value (m : Magnitude) : Ratio := .ofBinary m.significand m.exponent

/-- Halfway to the next smaller number. -/
def lower (m : Magnitude) : Ratio :=
  .ofBinary (4 * m.significand - (if m.narrowBelow then 1 else 2)) (m.exponent - 2)

/-- Halfway to the next larger number. -/
def upper (m : Magnitude) : Ratio := .ofBinary (4 * m.significand + 2) (m.exponent - 2)

/-- Whether `r` rounds to this number. -/
def rounds (m : Magnitude) (r : Ratio) : Bool :=
  if m.significand % 2 = 0 then m.lower.le r && r.le m.upper
  else m.lower.lt r && r.lt m.upper

end Magnitude

namespace Binary64

/-- The whole number that this is, if it is one. -/
def whole? : Binary64 → Option Int
  | notANumber => none
  | infinite _ => none
  | zero _ => some 0
  | finite negative m =>
    let r := m.value
    if r.num % r.den = 0 then
      let n : Int := (r.num / r.den : Nat)
      some (if negative then -n else n)
    else none

def isFinite : Binary64 → Bool
  | notANumber => false
  | infinite _ => false
  | _ => true

end Binary64

end GraphQL.Decimal
