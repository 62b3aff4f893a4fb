import GraphQL.Lexeme.Number
import GraphQL.Lexeme.Quoted
import GraphQL.Lexeme.Block

/-! # The tokens of a source

Between tokens stand blanks, commas, byte order marks and comments. A lexer gives the items of a
source one after the other, tokens and what keeps tokens from being read, up to the end of the file.
Documents are read from the tokens before the first failure.
-/

namespace GraphQL.Lexeme

/-- Characters that separate tokens and mean nothing. -/
def isIgnored (c : Char) : Bool :=
  c = '\t' || c = ' ' || c = '\n' || c = '\r' || c = ',' || c = '\ufeff'

/-- Past what separates tokens. `inComment` is set inside a comment, which ends with its line. -/
def afterGap (inComment : Bool) : List Char → List Char
  | [] => []
  | c :: rest =>
    if inComment then afterGap (!(c = '\n' || c = '\r')) rest
    else if isIgnored c then afterGap false rest
    else if c = '#' then afterGap true rest
    else c :: rest

def punctuator? (c : Char) : Option Punctuator :=
  match c with
  | '!' => some .bang
  | '$' => some .dollar
  | '(' => some .parenOpen
  | ')' => some .parenClose
  | '[' => some .bracketOpen
  | ']' => some .bracketClose
  | '\x7b' => some .braceOpen
  | '\x7d' => some .braceClose
  | ':' => some .colon
  | '=' => some .equals
  | '@' => some .at
  | '|' => some .pipe
  | _ => none

/-- The rest of an ellipsis, after its first point. The fault is reported where it starts. -/
def ellipsis (source : List Char) : Scanned :=
  match source with
  | '.' :: '.' :: '.' :: rest => .ok rest
  | ['.', '.'] => .error (.here .unexpectedEndOfFile [])
  | ['.'] => .error (.here .unexpectedEndOfFile [])
  | _ => .error ⟨.unexpectedCharacter '.', source, some (source.dropWhile (· = '.')).tail⟩

/-- The text between a string's quotes, which take `width` characters at either end. -/
def between (width : Nat) (source rest : List Char) : String :=
  let text := taken source rest
  String.ofList ((text.drop width).take (text.length - 2 * width))

/-- The token that starts with `c`, with the characters past it. -/
def scan (c : Char) (rest : List Char) : Except Fault (Token × List Char) :=
  let source := c :: rest
  let text (stop : List Char) : String := String.ofList (taken source stop)
  match punctuator? c with
  | some p => .ok (.punctuator p, rest)
  | none =>
    if c = '.' then (ellipsis source).map fun stop => (.punctuator .ellipsis, stop)
    else if c = '"' then
      match rest with
      | '"' :: '"' :: body => (block body).map fun stop => (.block (between 3 source stop), stop)
      | _ => (quoted rest).map fun stop => (.quoted (between 1 source stop), stop)
    else if c = '-' || c.isDigit then
      (number source).map fun (stop, isFloat) =>
        (if isFloat then .float (text stop) else .int (text stop), stop)
    else if isNameStart c then
      let stop := rest.dropWhile isNameContinue
      .ok (.name (text stop), stop)
    else .error ⟨.unknownCharacter c, source, none⟩

/-- A token of a source, or what keeps one from being read, with its place. -/
abbrev Item := Except (Located LexError) (Located Token)

/-- How far the items of a source were read. -/
structure Lexer where
  position : Position
  /-- The characters from there on; nothing once the last item was read. -/
  rest : Option (List Char)

namespace Lexer

def ofSource (source : String) : Lexer := ⟨.origin, some source.toList⟩

/-- The next item and what comes after it. The end of the file is the last item, unless a character
that starts no token is met before. -/
def next (l : Lexer) : Option (Item × Lexer) :=
  l.rest.map fun source =>
    let start := afterGap false source
    let p := l.position.afterAll (taken source start)
    let past (rest : List Char) : Position := p.afterAll (taken start rest)
    match start with
    | [] => (.ok (.atPoint p .endOfFile), ⟨p, none⟩)
    | c :: rest =>
      match scan c rest with
      | .ok (token, stop) => (.ok ⟨token, p, past stop⟩, ⟨past stop, some stop⟩)
      | .error fault =>
        (.error (.atPoint (past fault.rest) fault.error), ⟨past (fault.left.getD fault.rest), fault.left⟩)

end Lexer

/-- What was read of a source: its tokens, the end of the file last, unless reading failed. -/
structure Reading where
  tokens : List (Located Token)
  failure : Option (Located LexError)
deriving Repr

/-- Reads on to the end of the file or the first failure, at most `limit` items. -/
def readFrom : Nat → Lexer → Reading
  | 0, _ => ⟨[], none⟩
  | limit + 1, l =>
    match l.next with
    | none => ⟨[], none⟩
    | some (.error e, _) => ⟨[], some e⟩
    | some (.ok token, l) =>
      let later := readFrom limit l
      { later with tokens := token :: later.tokens }

/-- The tokens of a source. Each takes a character, but for the end of the file. -/
def read (source : String) : Reading := readFrom (source.length + 1) (.ofSource source)

end GraphQL.Lexeme
