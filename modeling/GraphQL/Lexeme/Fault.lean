import GraphQL.Token

/-! # Scanning one token

A scanner takes the characters from where a token starts and gives the characters past it. When
there is no token it gives a fault: the error, the characters from where it is reported, and those
from where reading may go on.
-/

namespace GraphQL.Lexeme

structure Fault where
  error : LexError
  rest : List Char
  /-- What is left to be read; nothing where reading ends with the fault. -/
  left : Option (List Char)
deriving DecidableEq, Repr

abbrev Scanned := Except Fault (List Char)

/-- The characters of `source` that come before `rest`, which it ends with. -/
def taken (source rest : List Char) : List Char := source.take (source.length - rest.length)

/-- A fault that is reported where it was found, and behind which reading goes on. -/
def Fault.here (error : LexError) (rest : List Char) : Fault := ⟨error, rest, some rest⟩

/-- Tabs, line breaks, and everything from the space up. -/
def isSourceCharacter (c : Char) : Bool := c = '\t' || c = '\n' || c = '\r' || ' ' ≤ c

def isNameStart (c : Char) : Bool := c = '_' || c.isAlpha

def isNameContinue (c : Char) : Bool := isNameStart c || c.isDigit

/-- A letter or underscore, then letters, digits and underscores. -/
def IsName (s : List Char) : Prop := ∃ c rest, s = c :: rest ∧ isNameStart c ∧ rest.all isNameContinue

end GraphQL.Lexeme
