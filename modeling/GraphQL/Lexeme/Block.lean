import GraphQL.Lexeme.Fault

/-! # Block strings

A block string ends at the first triple quote that no backslash precedes. Its lines lose their
common indentation, and blank lines at either end are dropped. The first line starts after the
opening quotes, so it has no indentation to lose and none to compare.
-/

namespace GraphQL.Lexeme

/-- Past the closing quotes of a block string, from after its opening quotes. -/
def block (source : List Char) : Scanned :=
  match source with
  | '\\' :: '"' :: '"' :: '"' :: rest => block rest
  | '"' :: '"' :: '"' :: rest => .ok rest
  | [] => .error (.here .unterminatedBlockString [])
  | c :: rest =>
    if isSourceCharacter c then block rest
    else .error ⟨.unknownCharacterInString c, source, some rest⟩

/-- Each escaped triple quote becomes a triple quote. -/
def unescapeQuotes : List Char → List Char
  | '\\' :: '"' :: '"' :: '"' :: rest => '"' :: '"' :: '"' :: unescapeQuotes rest
  | c :: rest => c :: unescapeQuotes rest
  | [] => []

/-- The lines of a text. A line ends at a line feed, a carriage return, or both in turn. -/
def splitLines : List Char → List (List Char)
  | '\r' :: '\n' :: rest => [] :: splitLines rest
  | c :: rest =>
    if c = '\n' || c = '\r' then [] :: splitLines rest
    else match splitLines rest with
      | line :: lines => (c :: line) :: lines
      | [] => [[c]]
  | [] => [[]]

def isIndent (c : Char) : Bool := c = ' ' || c = '\t'

def isBlankLine (line : List Char) : Bool := line.all isIndent

def indentOf (line : List Char) : Nat := (line.takeWhile isIndent).length

/-- The least indentation of the lines that are not blank. -/
def commonIndent (lines : List (List Char)) : Nat :=
  (((lines.filter (!isBlankLine ·)).map indentOf).min?).getD 0

/-- Takes up to `n` characters of indentation off a line. -/
def stripIndent (n : Nat) (line : List Char) : List Char := line.drop (min n (indentOf line))

def trimBlankLines (lines : List (List Char)) : List (List Char) :=
  ((lines.dropWhile isBlankLine).reverse.dropWhile isBlankLine).reverse

/-- The characters that the inside of a block string denotes. -/
def dedent (raw : List Char) : List Char :=
  let lines := match splitLines (unescapeQuotes raw) with
    | first :: others => first :: others.map (stripIndent (commonIndent others))
    | [] => []
  List.intercalate ['\n'] (trimBlankLines lines)

end GraphQL.Lexeme
