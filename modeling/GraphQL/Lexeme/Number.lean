import GraphQL.Lexeme.Fault

/-! # Numbers

A number is an optional minus sign, a whole part without needless leading zeros, then optionally
a point with digits and an exponent with digits. A number that runs into a letter, an underscore
or another point is one bad token and not two good ones.
-/

namespace GraphQL.Lexeme

/-- Past one or more digits. -/
def digits (source : List Char) : Scanned :=
  match source with
  | [] => .error (.here .unexpectedEndOfFile [])
  | c :: rest =>
    if c.isDigit then .ok (rest.dropWhile Char.isDigit)
    else .error (.here (.unexpectedCharacter c) (c :: rest))

/-- Past the digits before the point. -/
def wholePart (source : List Char) : Scanned :=
  match source with
  | '0' :: c :: rest =>
    if c.isDigit then .error ⟨.invalidNumber, source, some (rest.dropWhile Char.isDigit)⟩
    else .ok (c :: rest)
  | _ => digits source

/-- Past an optional point and its digits, with whether there was one. -/
def fraction (source : List Char) : Except Fault (List Char × Bool) :=
  match source with
  | '.' :: rest => (digits rest).map (·, true)
  | _ => .ok (source, false)

/-- Past an optional sign. -/
def afterSign : List Char → List Char
  | '+' :: rest => rest
  | '-' :: rest => rest
  | source => source

/-- Past an optional exponent, with whether there was one. -/
def exponent (source : List Char) : Except Fault (List Char × Bool) :=
  match source with
  | 'e' :: rest => (digits (afterSign rest)).map (·, true)
  | 'E' :: rest => (digits (afterSign rest)).map (·, true)
  | _ => .ok (source, false)

/-- Nothing may follow a number that could belong to it. -/
def endOfNumber (source : List Char) : Except Fault Unit :=
  match source with
  | c :: rest =>
    if c = '.' || isNameStart c then .error (.here (.unexpectedCharacter c) (c :: rest)) else .ok ()
  | [] => .ok ()

/-- Past a number, with whether it is a float. -/
def number (source : List Char) : Except Fault (List Char × Bool) := do
  let unsigned := match source with
    | '-' :: rest => rest
    | _ => source
  let rest ← wholePart unsigned
  let (rest, hasFraction) ← fraction rest
  let (rest, hasExponent) ← exponent rest
  endOfNumber rest
  return (rest, hasFraction || hasExponent)

end GraphQL.Lexeme
