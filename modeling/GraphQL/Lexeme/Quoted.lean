import GraphQL.Lexeme.Fault

/-! # Quoted strings

`quoted` finds the closing quote of a string; `unescape` turns what stands between the quotes
into the characters it denotes. Both know the same escapes: a backslash before one of
`b f n r t \ / "`, or before `u` and four hexadecimal digits that name a character.
-/

namespace GraphQL.Lexeme

def isHexDigit (c : Char) : Bool :=
  c.isDigit || ('a' ≤ c && c ≤ 'f') || ('A' ≤ c && c ≤ 'F')

def hexDigit (c : Char) : Nat :=
  if c.isDigit then c.toNat - '0'.toNat
  else if 'a' ≤ c then c.toNat - 'a'.toNat + 10
  else c.toNat - 'A'.toNat + 10

/-- The character whose code hexadecimal digits give, if there is one. A plus sign may stand before
the digits. -/
def codeCharacter (text : List Char) : Option Char :=
  let digits := match text with
    | '+' :: digits => digits
    | _ => text
  if !digits.isEmpty && digits.all isHexDigit then
    let code := digits.foldl (fun code digit => code * 16 + hexDigit digit) 0
    if code.isValidChar then some (Char.ofNat code) else none
  else none

/-- The character whose code four hexadecimal digits give, if there is one. -/
def hexCharacter (a b c d : Char) : Option Char :=
  if [a, b, c, d].all isHexDigit then codeCharacter [a, b, c, d] else none

/-- What a backslash and one more character stand for. -/
def simpleEscape (c : Char) : Option Char :=
  match c with
  | 'b' => some '\x08'
  | 'f' => some '\x0c'
  | 'n' => some '\n'
  | 'r' => some '\r'
  | 't' => some '\t'
  | '\\' => some '\\'
  | '/' => some '/'
  | '"' => some '"'
  | _ => none

/-- The hexadecimal digits of a code, of which there are at most four. -/
def codeDigits (source : List Char) : List Char := (source.take 4).takeWhile isHexDigit

/-- The escape of a code that is cut short or names no character, as far as it is hexadecimal. -/
def codeEscape (digits : List Char) : String := "\\u" ++ String.ofList (codeDigits digits)

/-- Past the digits of a code. -/
def afterCode (source : List Char) : List Char := source.drop (codeDigits source).length

/-- Past the closing quote of a string, from after its opening quote. -/
def quoted (source : List Char) : Scanned :=
  match source with
  | [] => .error (.here .unterminatedString [])
  | '"' :: rest => .ok rest
  | '\\' :: rest =>
    match rest with
    | [] => .error (.here .unterminatedString [])
    | 'u' :: a :: b :: c :: d :: more =>
      match hexCharacter a b c d with
      | some _ => quoted more
      | none => .error ⟨.unknownEscapeSequence (codeEscape [a, b, c, d]), source,
          some (afterCode (a :: b :: c :: d :: more))⟩
    | 'u' :: digits =>
      if digits.all isHexDigit then .error (.here .unterminatedString [])
      else .error ⟨.unknownEscapeSequence (codeEscape digits), source, some (afterCode digits)⟩
    | c :: more =>
      match simpleEscape c with
      | some _ => quoted more
      | none => .error ⟨.unknownEscapeSequence ("\\" ++ c.toString), source, some more⟩
  | c :: rest =>
    if c = '\n' || c = '\r' then .error ⟨.unterminatedString, source, some rest⟩
    else if isSourceCharacter c then quoted rest
    else .error ⟨.unknownCharacterInString c, source, some rest⟩

/-- The characters that the inside of a quoted string denotes. -/
def unescape : List Char → List Char
  | [] => []
  | '\\' :: rest =>
    match rest with
    | [] => []
    | 'u' :: a :: b :: c :: d :: more => (codeCharacter [a, b, c, d]).toList ++ unescape more
    | 'u' :: digits => (codeCharacter digits).toList
    | c :: more => (simpleEscape c).getD c :: unescape more
  | c :: rest => c :: unescape rest

end GraphQL.Lexeme
