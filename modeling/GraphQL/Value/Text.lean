import GraphQL.Value.Basic
import GraphQL.Json.Basic

/-! # The text of values

Values in messages are written as in a document: `{ a: 1, b: [2, null] }`, with strings quoted
as JSON quotes them.
-/

namespace GraphQL

/-- Fields between braces. -/
def bracedText (fields : List String) : String :=
  if fields.isEmpty then "\x7b\x7d" else "\x7b " ++ ", ".intercalate fields ++ " \x7d"

def bracketedText (items : List String) : String := "[" ++ ", ".intercalate items ++ "]"

def boolText (b : Bool) : String := if b then "true" else "false"

def Scalar.text : Scalar → String
  | .int n => toString n.toInt
  | .float x => Decimal.Layout.plain.text x
  | .string s => Json.quote s
  | .boolean b => boolText b

namespace Value

mutual

def text : Value → String
  | .null => "null"
  | .scalar s => s.text
  | .list items => bracketedText (itemTexts items)
  | .object fields => bracedText (fieldTexts fields)

def itemTexts : List Value → List String
  | [] => []
  | v :: rest => v.text :: itemTexts rest

def fieldTexts : List (String × Value) → List String
  | [] => []
  | (k, v) :: rest => (k ++ ": " ++ v.text) :: fieldTexts rest

end

end Value

def Object.text (o : Object) : String := (Value.object o).text

end GraphQL
