import GraphQL.Value.Basic
import GraphQL.Value.Text
import GraphQL.Json.Reader

/-! # Values and JSON

Every value has a JSON form and every JSON value is read as a value. Of repeated members the last
one counts, in the place of the first.
-/

namespace GraphQL

def Scalar.toJson : Scalar → Json
  | .int n => .int n.toInt
  | .float x => .float x
  | .string s => .string s
  | .boolean b => .bool b

namespace Value

mutual

def toJson : Value → Json
  | .null => .null
  | .scalar s => s.toJson
  | .list items => .array (itemsToJson items)
  | .object fields => .object (fieldsToJson fields)

def itemsToJson : List Value → List Json
  | [] => []
  | v :: rest => v.toJson :: itemsToJson rest

def fieldsToJson : List (String × Value) → List (String × Json)
  | [] => []
  | (k, v) :: rest => (k, v.toJson) :: fieldsToJson rest

end

mutual

def ofJson : Json → Value
  | .null => .null
  | .bool b => .boolean b
  | .int n => .scalar (.ofInt n)
  | .float x => .float x
  | .string s => .string s
  | .array items => .list (itemsOfJson items)
  | .object members => .object (Entries.ofList (fieldsOfJson members))

def itemsOfJson : List Json → List Value
  | [] => []
  | j :: rest => ofJson j :: itemsOfJson rest

def fieldsOfJson : List (String × Json) → List (String × Value)
  | [] => []
  | (k, j) :: rest => (k, ofJson j) :: fieldsOfJson rest

end

/-- The JSON text of a value. -/
def jsonText (v : Value) : String := v.toJson.text

/-- The value that a JSON text holds. -/
def ofJsonText (source : String) : Option Value := (Json.read source).map ofJson

end Value

/-- Why data is refused where an object, or a scalar, is expected. -/
inductive ReadError where
  /-- The text is not JSON. -/
  | malformed
  | notAnObject (found : Value)
  /-- A kind of data that the expected value cannot be made of. -/
  | wrongKind (kind expected : String)
deriving Inhabited

def ReadError.message : ReadError → String
  | .malformed => "malformed JSON"
  | .notAnObject v => "expected an object of variables, found: " ++ v.text
  | .wrongKind kind expected => "invalid type: " ++ kind ++ ", expected " ++ expected

/-- The object that a value is; null is the empty object. -/
def Object.ofValue : Value → Except ReadError Object
  | .object o => .ok o
  | .null => .ok []
  | v => .error (.notAnObject v)

/-- The object that a JSON text holds. A text that starts with a value of another kind is refused
for that, whatever follows. -/
def Object.ofJsonText (source : String) : Except ReadError Object := do
  match Json.readValue source with
  | none => throw .malformed
  | some (j, rest) =>
    let o ← Object.ofValue (Value.ofJson j)
    if rest.all Json.isBlank then return o else throw .malformed

/-- The scalar that a JSON value is. -/
def Scalar.ofJson : Json → Option Scalar
  | .bool b => some (.boolean b)
  | .int n => some (.ofInt n)
  | .float x => some (.float x)
  | .string s => some (.string s)
  | _ => none

def Scalar.ofJsonText (source : String) : Option Scalar := (Json.read source).bind Scalar.ofJson

end GraphQL
