import GraphQL.Source.Position
import GraphQL.Value.Text

/-! # Literals

The values written in a document. They may refer to variables, and whole numbers have 64 bits.
Lists and objects know where their parts were written.
-/

namespace GraphQL

inductive Literal where
  | null
  | int (n : Int64)
  | float (x : Float)
  | string (s : String)
  | boolean (b : Bool)
  | enum (name : String)
  | variable (name : String)
  | list (items : List (Located Literal))
  | object (fields : List (Located String × Located Literal))
deriving Inhabited

namespace Literal

/-- A list that was made and not read. -/
def listOf (items : List Literal) : Literal := .list (items.map Located.nowhere)

/-- An object that was made and not read. -/
def objectOf (fields : List (String × Literal)) : Literal :=
  .object (fields.map fun (k, v) => (.nowhere k, .nowhere v))

def isNull : Literal → Bool
  | .null => true
  | _ => false

def variableName? : Literal → Option String
  | .variable name => some name
  | _ => none

def isVariable (l : Literal) : Bool := l.variableName?.isSome

/-- The first field of an object literal with this name. -/
def field? (name : String) : Literal → Option (Located Literal)
  | .object fields => (fields.find? fun (k, _) => k.item = name).map Prod.snd
  | _ => none

mutual

/-- Whether no variable occurs, at any depth. -/
def isConst : Literal → Bool
  | .variable _ => false
  | .list items => isConstItems items
  | .object fields => isConstFields fields
  | _ => true

def isConstItems : List (Located Literal) → Bool
  | [] => true
  | ⟨l, _⟩ :: rest => l.isConst && isConstItems rest

def isConstFields : List (Located String × Located Literal) → Bool
  | [] => true
  | (_, ⟨l, _⟩) :: rest => l.isConst && isConstFields rest

end

mutual

def text : Literal → String
  | .null => "null"
  | .int n => toString n.toInt
  | .float x => Decimal.Layout.plain.text x
  | .string s => Json.quote s
  | .boolean b => boolText b
  | .enum name => name
  | .variable name => "$" ++ name
  | .list items => bracketedText (itemTexts items)
  | .object fields => bracedText (fieldTexts fields)

def itemTexts : List (Located Literal) → List String
  | [] => []
  | ⟨l, _⟩ :: rest => l.text :: itemTexts rest

def fieldTexts : List (Located String × Located Literal) → List String
  | [] => []
  | (k, ⟨l, _⟩) :: rest => (k.item ++ ": " ++ l.text) :: fieldTexts rest

end

end Literal

end GraphQL
