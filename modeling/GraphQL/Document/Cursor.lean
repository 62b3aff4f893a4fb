import GraphQL.Lexeme.Reader

/-! # Reading from tokens

A `Read` takes tokens from the front of a list that ends with the end of the file, which is never
taken. It gives an item, or an error and where it is reported.
-/

namespace GraphQL

inductive ParseError where
  | unexpectedToken (text : String)
  | unexpectedEndOfFile
  | lexical (error : LexError)
  | invalidLiteral (problem : String)
  /-- Reading past the last token or without end, which never happens. -/
  | astray
deriving DecidableEq, Repr

def ParseError.message : ParseError → String
  | .unexpectedToken text => "Unexpected \"" ++ text ++ "\""
  | .unexpectedEndOfFile => "Unexpected end of input"
  | .lexical e => e.message
  | .invalidLiteral problem => problem
  | .astray => "Reading went astray"

abbrev Read (α : Type) := StateT (List (Located Token)) (Except (Located ParseError)) α

namespace Read

variable {α : Type}

def astray : Read α := throw (.nowhere .astray)

/-- The next token, which stays. -/
def peek : Read (Located Token) := fun tokens =>
  match tokens with
  | [] => astray tokens
  | t :: _ => .ok (t, tokens)

/-- Takes the next token. -/
def next : Read (Located Token) := fun tokens =>
  match tokens with
  | [] => astray tokens
  | t :: rest =>
    if t.item = .endOfFile then .error ⟨.unexpectedEndOfFile, t.span⟩ else .ok (t, rest)

/-- Refuses the next token. -/
def unexpected : Read α := do
  let t ← next
  throw (t.map fun t => .unexpectedToken t.text)

/-- Takes the next token if it is `expected`, and refuses it otherwise. -/
def expect (expected : Token) : Read (Located Token) := do
  let t ← peek
  if t.item = expected then next else unexpected

/-- Takes the next token if it is `expected`. At the end of the file more is always wanted. -/
def skip (expected : Token) : Read (Option (Located Token)) := do
  let t ← peek
  if t.item = expected then return some (← next)
  else if t.item = .endOfFile then throw (.atPoint t.start .unexpectedEndOfFile)
  else return none

def expectName : Read (Located String) := do
  let t ← peek
  match t.item with
  | .name n => return (← next).map fun _ => n
  | _ => unexpected

def expectKeyword (keyword : String) : Read (Located Token) := do
  let t ← peek
  if t.item = .name keyword then next else unexpected

/-- Items up to `closing`, of which there are at most `limit`. -/
def upTo (closing : Token) (item : Read α) : Nat → Read (List α × Located Token)
  | 0 => astray
  | limit + 1 => do
    match ← skip closing with
    | some stop => return ([], stop)
    | none =>
      let first ← item
      let (others, stop) ← upTo closing item limit
      return (first :: others, stop)

/-- A list in brackets, with the span from the opening to the closing one. -/
def bracketed (limit : Nat) (opening closing : Token) (item : Read α) : Read (Located (List α)) := do
  let start ← expect opening
  let (items, stop) ← upTo closing item limit
  return ⟨items, start.start, stop.stop⟩

/-- A list in brackets that holds at least one item. -/
def bracketedNonempty (limit : Nat) (opening closing : Token) (item : Read α) :
    Read (Located (List α)) := do
  let start ← expect opening
  let first ← item
  let (others, stop) ← upTo closing item limit
  return ⟨first :: others, start.start, stop.stop⟩

/-- How many tokens are left. -/
def remaining : Read Nat := fun tokens => .ok (tokens.length, tokens)

/-- Runs a reader on a source. The source must be all tokens. -/
def run (source : String) (read : Read α) : Except (Located ParseError) (α × List (Located Token)) :=
  let reading := Lexeme.read source
  match reading.failure with
  | some e => .error (e.map .lexical)
  | none => StateT.run read reading.tokens

end Read

end GraphQL
