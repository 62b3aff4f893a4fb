import GraphQL.Json.Basic
import GraphQL.Decimal.Reading

/-! # Reading JSON

`Json.readValue` reads one value from the start of a text and gives what follows it; `Json.read`
reads a text that holds one value and nothing else but blanks. Values nest at most 127 deep.
-/

namespace GraphQL.Json

def isBlank (c : Char) : Bool := c = ' ' || c = '\t' || c = '\n' || c = '\r'

def afterBlanks (source : List Char) : List Char := source.dropWhile isBlank

def hexValue? (c : Char) : Option Nat :=
  if c.isDigit then some (c.toNat - '0'.toNat)
  else if 'a' ≤ c && c ≤ 'f' then some (c.toNat - 'a'.toNat + 10)
  else if 'A' ≤ c && c ≤ 'F' then some (c.toNat - 'A'.toNat + 10)
  else none

/-- The code unit that four hexadecimal digits give. -/
def unit? (a b c d : Char) : Option Nat := do
  let a ← hexValue? a
  let b ← hexValue? b
  let c ← hexValue? c
  let d ← hexValue? d
  return ((a * 16 + b) * 16 + c) * 16 + d

/-- The character after a backslash. -/
def unescape? (c : Char) : Option Char :=
  match c with
  | '"' => some '"'
  | '\\' => some '\\'
  | '/' => some '/'
  | 'b' => some '\x08'
  | 'f' => some '\x0c'
  | 'n' => some '\n'
  | 'r' => some '\r'
  | 't' => some '\t'
  | _ => none

def isHighSurrogate (u : Nat) : Bool := 0xD800 ≤ u && u < 0xDC00

def isLowSurrogate (u : Nat) : Bool := 0xDC00 ≤ u && u < 0xE000

/-- The rest of a string and what follows its closing quote. Code units that are halves of a pair
must come in pairs. -/
def stringBody : List Char → Option (List Char × List Char)
  | [] => none
  | '"' :: rest => some ([], rest)
  | '\\' :: rest =>
    match rest with
    | 'u' :: a :: b :: c :: d :: more =>
      match unit? a b c d with
      | none => none
      | some u =>
        if isHighSurrogate u then
          match more with
          | '\\' :: 'u' :: a :: b :: c :: d :: more =>
            match unit? a b c d with
            | none => none
            | some v =>
              if isLowSurrogate v then
                (stringBody more).map fun (s, rest) =>
                  (Char.ofNat (0x10000 + (u - 0xD800) * 0x400 + (v - 0xDC00)) :: s, rest)
              else none
          | _ => none
        else if isLowSurrogate u then none
        else (stringBody more).map fun (s, rest) => (Char.ofNat u :: s, rest)
    | c :: more =>
      match unescape? c with
      | none => none
      | some e => (stringBody more).map fun (s, rest) => (e :: s, rest)
    | [] => none
  | c :: rest => if c < ' ' then none else (stringBody rest).map fun (s, rest) => (c :: s, rest)

/-- Whether digits are a whole part: one zero, or digits that do not start with one. -/
def isWholePart (digits : List Char) : Bool :=
  match digits with
  | [] => false
  | ['0'] => true
  | '0' :: _ => false
  | _ => true

/-- Past a number. Each part must be complete: digits after the point and in the exponent. -/
def number (source : List Char) : Option (Json × List Char) :=
  match source with
  | '+' :: _ => none
  | _ =>
    let (w, rest) := Decimal.Written.ofText source
    let taken := source.take (source.length - rest.length)
    let hasPoint := taken.contains '.'
    let hasExponent := taken.any fun c => c = 'e' || c = 'E'
    if !isWholePart w.whole || (hasPoint && w.fraction.isEmpty)
        || (hasExponent && w.exponent.isEmpty) then none
    else
      let n : Nat := Decimal.digitsValue w.whole
      if hasPoint || hasExponent then w.scaled.map fun x => (.float x, rest)
      else if w.negative then
        if 0 < n && Decimal.isInt64 (-(n : Int)) then some (.int (-(n : Int)), rest)
        else w.scaled.map fun x => (.float x, rest)
      else if n < UInt64.size then some (.int n, rest)
      else w.scaled.map fun x => (.float x, rest)

/-- Past a word, if the text starts with it. -/
def afterWord (word : String) (source : List Char) : Option (List Char) :=
  if word.toList.isPrefixOf source then some (source.drop word.length) else none

mutual

/-- Reads one value, whose arrays and objects nest at most `depth` deep. `fuel` bounds the number of
steps; twice the length of the text is enough. -/
def value (fuel depth : Nat) (source : List Char) : Option (Json × List Char) :=
  match fuel with
  | 0 => none
  | fuel + 1 =>
    match afterBlanks source with
    | [] => none
    | 'n' :: rest => (afterWord "ull" rest).map (.null, ·)
    | 't' :: rest => (afterWord "rue" rest).map (.bool true, ·)
    | 'f' :: rest => (afterWord "alse" rest).map (.bool false, ·)
    | '"' :: rest => (stringBody rest).map fun (s, rest) => (.string (String.ofList s), rest)
    | '[' :: rest =>
      match depth with
      | 0 => none
      | depth + 1 =>
        match afterBlanks rest with
        | ']' :: rest => some (.array [], rest)
        | rest => (items fuel depth rest).map fun (values, rest) => (.array values, rest)
    | '\x7b' :: rest =>
      match depth with
      | 0 => none
      | depth + 1 =>
        match afterBlanks rest with
        | '\x7d' :: rest => some (.object [], rest)
        | rest => (members fuel depth rest).map fun (values, rest) => (.object values, rest)
    | source => number source

/-- The items of an array from the first one on, up to its closing bracket. -/
def items (fuel depth : Nat) (source : List Char) : Option (List Json × List Char) :=
  match fuel with
  | 0 => none
  | fuel + 1 => do
    let (first, rest) ← value fuel depth source
    match afterBlanks rest with
    | ',' :: rest =>
      let (others, rest) ← items fuel depth rest
      return (first :: others, rest)
    | ']' :: rest => return ([first], rest)
    | _ => none

/-- The members of an object from the first one on, up to its closing brace. -/
def members (fuel depth : Nat) (source : List Char) : Option (List (String × Json) × List Char) :=
  match fuel with
  | 0 => none
  | fuel + 1 =>
    match afterBlanks source with
    | '"' :: rest => do
      let (key, rest) ← stringBody rest
      match afterBlanks rest with
      | ':' :: rest =>
        let (first, rest) ← value fuel depth rest
        let member := (String.ofList key, first)
        match afterBlanks rest with
        | ',' :: rest =>
          let (others, rest) ← members fuel depth rest
          return (member :: others, rest)
        | '\x7d' :: rest => return ([member], rest)
        | _ => none
      | _ => none
    | _ => none

end

/-- How deep the arrays and objects of a text may nest. -/
def depthLimit : Nat := 127

/-- One value from the start of a text, and what follows it. -/
def readValue (source : String) : Option (Json × List Char) :=
  value (2 * source.length + 2) depthLimit source.toList

/-- The value of a text that holds nothing else. -/
def read (source : String) : Option Json := do
  let (v, rest) ← readValue source
  if rest.all isBlank then some v else none

end GraphQL.Json
