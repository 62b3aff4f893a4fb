import GraphQL.Document.Basic
import GraphQL.Document.Cursor
import GraphQL.Decimal.Reading

/-! # Reading documents

Recursive descent over the tokens. Nested parts are read with a bound on their depth; the number
of tokens left is always enough, since each level takes at least one.
-/

namespace GraphQL

namespace Read

/-- The number that an integer token denotes, if it has 64 bits. -/
def int64? (digits : String) : Option Int64 :=
  let n : Int := match digits.toList with
    | '-' :: rest => -(Decimal.digitsValue rest : Int)
    | digits => Decimal.digitsValue digits
  if Decimal.isInt64 n then some (Int64.ofInt n) else none

/-- The literal that a number or string token denotes. -/
def scalarLiteral? : Token → Option (Except ParseError Literal)
  | .int digits => some <| match int64? digits with
    | some n => .ok (.int n)
    | none => .error (.invalidLiteral ("Integer \"" ++ digits ++ "\" is too large"))
  | .float digits => some (.ok (.float (Decimal.Written.ofText digits.toList).1.nearest))
  | .quoted raw => some (.ok (.string (String.ofList (Lexeme.unescape raw.toList))))
  | .block raw => some (.ok (.string (String.ofList (Lexeme.dedent raw.toList))))
  | _ => none

/-- The literal that a name stands for. -/
def nameLiteral (name : String) : Literal :=
  if name = "true" then .boolean true
  else if name = "false" then .boolean false
  else if name = "null" then .null
  else .enum name

mutual

/-- A literal, nested at most `depth` deep. Where `const` is set, variables are refused. -/
def literalWithin (const : Bool) : Nat → Read (Located Literal)
  | 0 => astray
  | depth + 1 => do
    let t ← peek
    match t.item with
    | .punctuator .bracketOpen =>
      let items ← bracketed (depth + 1) (.punctuator .bracketOpen) (.punctuator .bracketClose)
        (literalWithin const depth)
      return items.map .list
    | .punctuator .braceOpen =>
      let fields ← bracketed (depth + 1) (.punctuator .braceOpen) (.punctuator .braceClose)
        (objectFieldWithin const depth)
      return fields.map .object
    | .punctuator .dollar =>
      if const then unexpected
      else
        let dollar ← next
        let name ← expectName
        return ⟨.variable name.item, dollar.start, name.stop⟩
    | .name name => return (← next).map fun _ => nameLiteral name
    | token =>
      match scalarLiteral? token with
      | none => unexpected
      | some result =>
        let t ← next
        match result with
        | .ok l => return t.map fun _ => l
        | .error e => throw (t.map fun _ => e)

def objectFieldWithin (const : Bool) : Nat → Read (Located String × Located Literal)
  | 0 => astray
  | depth + 1 => do
    let key ← expectName
    let _ ← expect (.punctuator .colon)
    let value ← literalWithin const depth
    return (key, value)

end

/-- A literal. -/
def literal (const : Bool) : Read (Located Literal) := do
  literalWithin const (2 * (← remaining) + 1)

/-- The type that was read, without null if an exclamation mark follows. -/
def marked (type : Located TypeRef) : Read (Located TypeRef) := do
  let t ← peek
  if t.item = .punctuator .bang then
    let bang ← next
    return ⟨type.item.nonNull, type.start, bang.stop⟩
  else return type

/-- A type reference in at most `depth` lists. -/
def typeRefWithin : Nat → Read (Located TypeRef)
  | 0 => astray
  | depth + 1 => do
    match ← skip (.punctuator .bracketOpen) with
    | some opening =>
      let item ← typeRefWithin depth
      let closing ← expect (.punctuator .bracketClose)
      marked ⟨.list item.item, opening.start, closing.stop⟩
    | none => marked ((← expectName).map .named)

/-- A type reference. -/
def typeRef : Read (Located TypeRef) := do
  typeRefWithin ((← remaining) + 1)

def argument : Read Argument := do
  let name ← expectName
  let _ ← expect (.punctuator .colon)
  let value ← literal false
  return ⟨name, value⟩

def arguments : Read (Option Arguments) := do
  let t ← peek
  if t.item = .punctuator .parenOpen then
    return some (← bracketedNonempty (← remaining) (.punctuator .parenOpen)
      (.punctuator .parenClose) argument)
  else return none

def directive : Read (Located Directive) := do
  let start ← expect (.punctuator .at)
  let name ← expectName
  let args ← arguments
  return ⟨⟨name, args⟩, start.start, (args.map Located.stop).getD name.stop⟩

/-- All directives that follow one another, of which there are at most `limit`. -/
def directivesWithin : Nat → Read (List (Located Directive))
  | 0 => astray
  | limit + 1 => do
    let t ← peek
    if t.item = .punctuator .at then
      let first ← directive
      let others ← directivesWithin limit
      return first :: others
    else return []

def directives : Read (List (Located Directive)) := do
  directivesWithin (← remaining)

/-- What a variable is if it is not given. -/
def defaultValue : Read (Option (Located Literal)) := do
  match ← skip (.punctuator .equals) with
  | some _ => return some (← literal true)
  | none => return none

def variableDefinition : Read VariableDefinition := do
  let dollar ← expect (.punctuator .dollar)
  let name ← expectName
  let _ ← expect (.punctuator .colon)
  let type ← typeRef
  let default ← defaultValue
  let directives ← directives
  return ⟨⟨name.item, dollar.start, name.stop⟩, type, default, directives⟩

def variableDefinitions : Read (Option VariableDefinitions) := do
  let t ← peek
  if t.item = .punctuator .parenOpen then
    return some (← bracketedNonempty (← remaining) (.punctuator .parenOpen)
      (.punctuator .parenClose) variableDefinition)
  else return none

/-- Where a field or spread ends: with its directives, else its arguments, else its name. -/
def stopOf (name : Located String) (args : Option Arguments) (directives : List (Located Directive)) :
    Position :=
  match directives.getLast? with
  | some d => d.stop
  | none => (args.map Located.stop).getD name.stop

/-- The name of a field, with its alias before it. -/
def fieldName : Read (Option (Located String) × Located String) := do
  let first ← expectName
  match ← skip (.punctuator .colon) with
  | some _ => return (some first, ← expectName)
  | none => return (none, first)

mutual

/-- A selection, nested at most `depth` deep. -/
def selectionWithin : Nat → Read Selection
  | 0 => astray
  | depth + 1 => do
    let t ← peek
    if t.item = .punctuator .ellipsis then
      let start ← next
      let t ← peek
      match t.item with
      | .name "on" =>
        let _ ← next
        let condition ← expectName
        let directives ← directives
        let selections ← selectionSetWithin depth
        return .inline ⟨start.start, selections.stop⟩ ⟨some condition, directives⟩ selections.item
      | .name _ =>
        let name ← expectName
        let args ← arguments
        let directives ← directives
        return .spread ⟨start.start, stopOf name args directives⟩ ⟨name, args, directives⟩
      | .punctuator .braceOpen =>
        let selections ← selectionSetWithin depth
        return .inline ⟨start.start, selections.stop⟩ ⟨none, []⟩ selections.item
      | .punctuator .at =>
        let directives ← directives
        let selections ← selectionSetWithin depth
        return .inline ⟨start.start, selections.stop⟩ ⟨none, directives⟩ selections.item
      | _ => unexpected
    else
      let (aliasName, name) ← fieldName
      let start := (aliasName.getD name).start
      let args ← arguments
      let directives ← directives
      let head : FieldHead := ⟨aliasName, name, args, directives⟩
      let t ← peek
      if t.item = .punctuator .braceOpen then
        let selections ← selectionSetWithin depth
        return .field ⟨start, selections.stop⟩ head selections.item
      else return .field ⟨start, stopOf name args directives⟩ head []

/-- Selections in braces. -/
def selectionSetWithin : Nat → Read (Located (List Selection))
  | 0 => astray
  | depth + 1 =>
    bracketedNonempty (depth + 1) (.punctuator .braceOpen) (.punctuator .braceClose)
      (selectionWithin depth)

end

def selectionSet : Read (Located (List Selection)) := do
  selectionSetWithin (2 * (← remaining) + 1)

def operationKind? (name : String) : Option OperationKind :=
  if name = "query" then some .query
  else if name = "mutation" then some .mutation
  else if name = "subscription" then some .subscription
  else none

def operationName : Read (Option (Located String)) := do
  let t ← peek
  match t.item with
  | .name _ => return some (← expectName)
  | _ => return none

/-- An operation that starts with a keyword. -/
def operation (kind : OperationKind) : Read Operation := do
  let start ← next
  let name ← operationName
  let declared ← variableDefinitions
  let directives ← directives
  let selections ← selectionSet
  return ⟨⟨start.start, selections.stop⟩, kind, name, declared, directives, selections.item⟩

/-- The name of a fragment, which is not the keyword that follows it. -/
def fragmentName : Read (Located String) := do
  let name ← expectName
  if name.item = "on" then throw (name.map fun _ => .unexpectedToken "on") else return name

def fragment : Read Fragment := do
  let start ← expectKeyword "fragment"
  let name ← fragmentName
  let declared ← variableDefinitions
  let _ ← expectKeyword "on"
  let condition ← expectName
  let directives ← directives
  let selections ← selectionSet
  return ⟨⟨start.start, selections.stop⟩, name, declared, condition, directives, selections.item⟩

def definition : Read Definition := do
  let t ← peek
  match t.item with
  | .punctuator .braceOpen =>
    let selections ← selectionSet
    return .operation ⟨selections.span, .query, none, none, [], selections.item⟩
  | .name name =>
    match operationKind? name with
    | some kind => return .operation (← operation kind)
    | none =>
      if name = "fragment" then return .fragment (← fragment) else unexpected
  | _ => unexpected

/-- Definitions up to the end of the file, of which there are at most `limit`. -/
def definitionsWithin : Nat → Read Document
  | 0 => astray
  | limit + 1 => do
    let first ← definition
    let t ← peek
    if t.item = .endOfFile then return [first]
    else return first :: (← definitionsWithin limit)

def document : Read Document := do
  definitionsWithin (← remaining)

end Read

/-- The document that a source holds. -/
def Document.read (source : String) : Except (Located ParseError) Document :=
  (Read.run source Read.document).map Prod.fst

end GraphQL
