/-! # Texts in diagnostics

Diagnostics show a text in quotes and write out what cannot be seen in it: control and format
characters, spaces other than the usual one, private characters and combining marks.
-/

namespace GraphQL.Text

/-- The first and last code point of ranges of characters that are written out. -/
def hiddenRanges : List (Nat × Nat) :=
  [(0x0, 0x1f), (0x7f, 0xa0), (0xad, 0xad), (0x300, 0x36f), (0x483, 0x489), (0x591, 0x5bd),
    (0x600, 0x605), (0x610, 0x61a), (0x61c, 0x61c), (0x64b, 0x65f), (0x6dd, 0x6dd),
    (0x1680, 0x1680), (0x180b, 0x180f), (0x1ab0, 0x1ace), (0x1dc0, 0x1dff), (0x2000, 0x200f),
    (0x2028, 0x202f), (0x205f, 0x206f), (0x20d0, 0x20f0), (0x3000, 0x3000), (0xe000, 0xf8ff),
    (0xfe00, 0xfe0f), (0xfe20, 0xfe2f), (0xfeff, 0xfeff), (0xfff0, 0xfffb), (0xfffe, 0xffff),
    (0xe0000, 0x10ffff)]

def isHidden (c : Char) : Bool :=
  hiddenRanges.any fun (first, last) => first ≤ c.toNat && c.toNat ≤ last

/-- A code point in lower case hexadecimal digits. -/
def codePointText (c : Char) : String := String.ofList (Nat.toDigits 16 c.toNat)

def escaped (c : Char) : String :=
  match c with
  | '\x00' => "\\0"
  | '\t' => "\\t"
  | '\n' => "\\n"
  | '\r' => "\\r"
  | '"' => "\\\""
  | '\\' => "\\\\"
  | c => if isHidden c then "\\u\x7b" ++ codePointText c ++ "\x7d" else c.toString

/-- A text as diagnostics show it. -/
def shown (s : String) : String := "\"" ++ String.join (s.toList.map escaped) ++ "\""

/-- A text that may be missing as diagnostics show it. -/
def shownOptional (s : Option String) : String :=
  match s with
  | some s => "Some(" ++ shown s ++ ")"
  | none => "None"

end GraphQL.Text
