/-! # Reading decimals

`nearest` rounds a decimal to the nearest binary64 number. `scaled` is the quicker way that JSON
is read: the digits, as far as they fit 64 bits, times one power of ten in floating point
arithmetic, which can be one unit off for long numbers and refuses to overflow.
-/

namespace GraphQL.Decimal

def digitsValue (digits : List Char) : Nat :=
  digits.foldl (fun n c => n * 10 + (c.toNat - '0'.toNat)) 0

/-- Whether a whole number with its sign fits 64 bits. -/
def isInt64 (n : Int) : Bool := Int64.minValue.toInt ≤ n && n ≤ Int64.maxValue.toInt

/-- A decimal as written: the digits before and after the point and the exponent. -/
structure Written where
  negative : Bool
  whole : List Char
  fraction : List Char
  exponentNegative : Bool
  exponent : List Char

/-- Splits a number text, which need not be complete: `+`, missing digits and a missing exponent
are taken as they come. -/
def Written.ofText (text : List Char) : Written × List Char :=
  let (negative, text) := match text with
    | '-' :: rest => (true, rest)
    | '+' :: rest => (false, rest)
    | _ => (false, text)
  let whole := text.takeWhile Char.isDigit
  let text := text.dropWhile Char.isDigit
  let (fraction, text) := match text with
    | '.' :: rest => (rest.takeWhile Char.isDigit, rest.dropWhile Char.isDigit)
    | _ => ([], text)
  let (exponentNegative, exponent, text) := match text with
    | 'e' :: '-' :: rest => (true, rest.takeWhile Char.isDigit, rest.dropWhile Char.isDigit)
    | 'E' :: '-' :: rest => (true, rest.takeWhile Char.isDigit, rest.dropWhile Char.isDigit)
    | 'e' :: '+' :: rest => (false, rest.takeWhile Char.isDigit, rest.dropWhile Char.isDigit)
    | 'E' :: '+' :: rest => (false, rest.takeWhile Char.isDigit, rest.dropWhile Char.isDigit)
    | 'e' :: rest => (false, rest.takeWhile Char.isDigit, rest.dropWhile Char.isDigit)
    | 'E' :: rest => (false, rest.takeWhile Char.isDigit, rest.dropWhile Char.isDigit)
    | _ => (false, [], text)
  (⟨negative, whole, fraction, exponentNegative, exponent⟩, text)

/-- The decimal that a whole text is, if it is one. The digits before or after the point may be
missing, but not both. -/
def Written.ofWhole (text : List Char) : Option Written :=
  let (w, rest) := Written.ofText text
  let hasExponent := text.any fun c => c == 'e' || c == 'E'
  if rest.isEmpty && !(w.whole ++ w.fraction).isEmpty && (!hasExponent || !w.exponent.isEmpty)
  then some w else none

namespace Written

def exponentValue (w : Written) : Int :=
  if w.exponentNegative then -(digitsValue w.exponent : Int) else digitsValue w.exponent

def signed (w : Written) (x : Float) : Float := if w.negative then -x else x

/-- The nearest binary64 number; infinity from halfway past the greatest one. -/
def nearest (w : Written) : Float :=
  let digits := digitsValue (w.whole ++ w.fraction)
  let exponent := w.exponentValue - w.fraction.length
  let point := (toString digits).length + exponent
  w.signed <|
    if digits = 0 || point < -330 then 0
    else if 310 < point then 1 / 0
    else if 0 ≤ exponent then Float.ofScientific digits false exponent.toNat
    else Float.ofScientific digits true (-exponent).toNat

/-- The digits that fit 64 bits, and how many digits after the point and before it were used or
left out, as an exponent. Once a digit after the point does not fit, the others are ignored. -/
def significand (w : Written) : Nat × Int :=
  let fits (n : Nat) (c : Char) : Bool := n * 10 + (c.toNat - '0'.toNat) < UInt64.size
  let step (state : Nat × Nat) (c : Char) : Nat × Nat :=
    if state.2 = 0 && fits state.1 c then (state.1 * 10 + (c.toNat - '0'.toNat), 0)
    else (state.1, state.2 + 1)
  let (whole, dropped) := w.whole.foldl step (0, 0)
  let used := w.fraction.foldl (fun (state : Nat × Nat × Bool) c =>
    if state.2.2 && fits state.1 c then
      (state.1 * 10 + (c.toNat - '0'.toNat), state.2.1 + 1, true)
    else (state.1, state.2.1, false)) (whole, 0, true)
  (used.1, (dropped : Int) - used.2.1)

/-- `x * 10 ^ e`, by steps of at most `1e308`; nothing if it overflows. -/
def scaleBy (steps : Nat) (x : Float) (e : Int) : Option Float :=
  if e.natAbs ≤ 308 then
    let power := Float.ofScientific 1 false e.natAbs
    if 0 ≤ e then
      let y := x * power
      if y.isInf then none else some y
    else some (x / power)
  else if x == 0 then some x
  else if 0 ≤ e then none
  else match steps with
    | 0 => some 0
    | steps + 1 => scaleBy steps (x / Float.ofScientific 1 false 308) (e + 308)

/-- The greatest exponent that is read as a number. -/
def greatestExponent : Nat := 2147483647

/-- What JSON makes of a decimal; nothing if it is too large. -/
def scaled (w : Written) : Option Float :=
  let (digits, exponent) := w.significand
  if greatestExponent < digitsValue w.exponent then
    if digits ≠ 0 && !w.exponentNegative then none else some (w.signed 0)
  else
    (scaleBy 4 (Float.ofNat digits) (exponent + w.exponentValue)).map w.signed

end Written

end GraphQL.Decimal
