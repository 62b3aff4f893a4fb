import GraphQL.Decimal.Shortest

/-! # Layouts of floating point numbers

A layout says when a number is written with an exponent, whether a whole number keeps a point,
and how an exponent is signed.
-/

namespace GraphQL.Decimal

structure Layout where
  tie : Tie
  /-- The least and greatest power of ten of a leading digit that need no exponent, if any does. -/
  positional : Option (Int × Int)
  keepsPoint : Bool
  plusSign : Bool

def zeros (n : Nat) : String := String.ofList (List.replicate n '0')

/-- The digits with a point after the first `point` of them, filled up with zeros. -/
def spelledOut (keepsPoint : Bool) (digits : String) (point : Int) : String :=
  let n := digits.length
  if point ≤ 0 then "0." ++ zeros (-point).toNat ++ digits
  else if point.toNat < n then
    String.ofList (digits.toList.take point.toNat) ++ "."
      ++ String.ofList (digits.toList.drop point.toNat)
  else digits ++ zeros (point.toNat - n) ++ (if keepsPoint then ".0" else "")

/-- The digits with a point after the first of them, and the power of ten of the first. -/
def withExponent (plusSign : Bool) (digits : String) (leading : Int) : String :=
  let mantissa := match digits.toList with
    | first :: second :: rest => String.ofList (first :: '.' :: second :: rest)
    | _ => digits
  mantissa ++ "e" ++ (if plusSign && 0 ≤ leading then "+" else "") ++ toString leading

namespace Layout

def magnitude (layout : Layout) (m : Magnitude) : String :=
  let s := shortest layout.tie m
  let digits := toString s.digits
  let point := s.exponent + digits.length
  let isPositional := match layout.positional with
    | none => true
    | some (least, greatest) => least ≤ point - 1 && point - 1 ≤ greatest
  if isPositional then spelledOut layout.keepsPoint digits point
  else withExponent layout.plusSign digits (point - 1)

def text (layout : Layout) (x : Float) : String :=
  let sign (negative : Bool) : String := if negative then "-" else ""
  match Binary64.ofFloat x with
  | .notANumber => "NaN"
  | .infinite negative => sign negative ++ "inf"
  | .zero negative => sign negative ++ (if layout.keepsPoint then "0.0" else "0")
  | .finite negative m => sign negative ++ layout.magnitude m

/-- JSON text always marks a number as a float, and turns to exponents from `1e16` and below
`1e-5`. -/
def json : Layout := ⟨.even, some (-5, 15), true, true⟩

/-- Messages have no exponents. -/
def plain : Layout := ⟨.up, none, false, false⟩

/-- Debug notation marks a number as a float, and turns to exponents from `1e16` and below
`1e-4`. -/
def debug : Layout := ⟨.up, some (-4, 15), true, false⟩

end Layout

end GraphQL.Decimal
