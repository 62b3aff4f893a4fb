import GraphQL.Schema.Basic
import GraphQL.Text.Blank
import GraphQL.Decimal.Reading

/-! # The built-in scalars

`Int`, `Float`, `String`, `Boolean` and `ID`. Values of resolvers are converted where that loses
nothing; values and literals of clients have to be of the right kind already.
-/

namespace GraphQL

/-- The whole number of a float, if it is one. -/
def wholeOf (x : Float) : Option Int := (Decimal.Binary64.ofFloat x).whole?

def isFiniteFloat (x : Float) : Bool := (Decimal.Binary64.ofFloat x).isFinite

/-- The number a text holds between blanks. -/
def numberOfText (s : String) : Option Float :=
  (Decimal.Written.ofWhole (Text.trimmed s.toList)).map Decimal.Written.nearest

/-- A refusal of `shown`. -/
def refusal {α : Type} (reason shown : String) : Except FieldError α :=
  .error (.ofMessage (reason ++ ": " ++ shown))

namespace IntScalar

def notAnInteger : String := "Int cannot represent non-integer value"

def tooLarge : String := "Int cannot represent non 32-bit signed integer value"

/-- The whole number `x`, where `shown` is what is refused if it is none. -/
def ofFloat (x : Float) (shown : String) : Except FieldError Value :=
  match wholeOf x with
  | none => refusal notAnInteger shown
  | some n => if isInt32 n then .ok (.int (Int32.ofInt n)) else refusal tooLarge shown

def input : Value → Except FieldError Value
  | .scalar (.int n) => .ok (.int n)
  | .scalar (.float x) => ofFloat x (Value.float x).text
  | v => refusal notAnInteger v.text

def output : Value → Except FieldError Value
  | .scalar (.boolean b) => .ok (.int (if b then 1 else 0))
  | .scalar (.string s) =>
    match numberOfText s with
    | some x => ofFloat x (Value.string s).text
    | none => refusal notAnInteger (Value.string s).text
  | v => input v

def literal : Literal → Except FieldError Value
  | .int n => if isInt32 n.toInt then .ok (.int (Int32.ofInt n.toInt)) else refusal tooLarge (toString n.toInt)
  | l => refusal notAnInteger l.text

end IntScalar

namespace FloatScalar

def notANumber : String := "Float cannot represent non numeric value"

def input (v : Value) : Except FieldError Value :=
  match v.float? with
  | some x => if isFiniteFloat x then .ok (.float x) else refusal notANumber v.text
  | none => refusal notANumber v.text

def output : Value → Except FieldError Value
  | .scalar (.boolean b) => .ok (.float (if b then 1 else 0))
  | .scalar (.string s) =>
    match numberOfText s with
    | some x => input (.float x) |>.mapError fun _ => .ofMessage (notANumber ++ ": " ++ (Value.string s).text)
    | none => refusal notANumber (Value.string s).text
  | v => input v

def literal : Literal → Except FieldError Value
  | .int n => .ok (.float (Float.ofInt n.toInt))
  | .float x => .ok (.float x)
  | l => refusal notANumber l.text

end FloatScalar

namespace StringScalar

def notAString : String := "String cannot represent a non string value"

def input : Value → Except FieldError Value
  | .scalar (.string s) => .ok (.string s)
  | v => refusal notAString v.text

def output : Value → Except FieldError Value
  | .scalar (.string s) => .ok (.string s)
  | .scalar (.boolean b) => .ok (.string (boolText b))
  | .scalar (.int n) => .ok (.string (toString n.toInt))
  | .scalar (.float x) =>
    if isFiniteFloat x then .ok (.string (Value.float x).text)
    else refusal "String cannot represent value" (Value.float x).text
  | v => refusal "String cannot represent value" v.text

def literal : Literal → Except FieldError Value
  | .string s => .ok (.string s)
  | l => refusal notAString l.text

end StringScalar

namespace BooleanScalar

def notABoolean : String := "Boolean cannot represent a non boolean value"

def input : Value → Except FieldError Value
  | .scalar (.boolean b) => .ok (.boolean b)
  | v => refusal notABoolean v.text

def output : Value → Except FieldError Value
  | .scalar (.boolean b) => .ok (.boolean b)
  | .scalar (.int n) => .ok (.boolean (n != 0))
  | .scalar (.float x) =>
    if isFiniteFloat x then .ok (.boolean (x != 0)) else refusal notABoolean (Value.float x).text
  | v => refusal notABoolean v.text

def literal : Literal → Except FieldError Value
  | .boolean b => .ok (.boolean b)
  | l => refusal notABoolean l.text

end BooleanScalar

namespace IDScalar

/-- Strings are IDs, and so are whole numbers of 32 bits. -/
def input : Value → Except FieldError Value
  | .scalar (.string s) => .ok (.string s)
  | .scalar (.int n) => .ok (.string (toString n.toInt))
  | .scalar (.float x) =>
    match (wholeOf x).filter isInt32 with
    | some n => .ok (.string (toString n))
    | none => refusal "ID cannot represent value" (Value.float x).text
  | v => refusal "ID cannot represent value" v.text

def literal : Literal → Except FieldError Value
  | .string s => .ok (.string s)
  | .int n => .ok (.string (toString n.toInt))
  | l => refusal "ID cannot represent a non-string and non-integer value" l.text

/-- The whole number that an ID spells without a superfluous zero or sign. -/
def wholeNumber? (s : String) : Option Int :=
  let (negative, digits) := match s.toList with
    | '-' :: rest => (true, rest)
    | digits => (false, digits)
  if digits.isEmpty || !digits.all Char.isDigit || (digits.head? == some '0' && digits.length != 1)
  then none
  else
    let n : Int := Decimal.digitsValue digits
    let n := if negative then -n else n
    if Decimal.isInt64 n then some n else none

/-- IDs that look like integers are written as integers. -/
def toLiteral : Value → Option Literal
  | .scalar (.string s) =>
    match wholeNumber? s with
    | some n => some (.int (Int64.ofInt n))
    | none => some (.string s)
  | _ => none

end IDScalar

namespace ScalarType

def int : ScalarType where
  name := "Int"
  description := some ("The `Int` scalar type represents non-fractional signed whole numeric "
    ++ "values. Int can represent values between -(2^31) and 2^31 - 1.")
  output := IntScalar.output
  input := IntScalar.input
  literal := some IntScalar.literal

def float : ScalarType where
  name := "Float"
  description := some ("The `Float` scalar type represents signed double-precision fractional "
    ++ "values as specified by [IEEE 754](https://en.wikipedia.org/wiki/IEEE_floating_point).")
  output := FloatScalar.output
  input := FloatScalar.input
  literal := some FloatScalar.literal

def string : ScalarType where
  name := "String"
  description := some ("The `String` scalar type represents textual data, represented as UTF-8 "
    ++ "character sequences.")
  output := StringScalar.output
  input := StringScalar.input
  literal := some StringScalar.literal

def boolean : ScalarType where
  name := "Boolean"
  description := some "The `Boolean` scalar type represents `true` or `false`."
  output := BooleanScalar.output
  input := BooleanScalar.input
  literal := some BooleanScalar.literal

def id : ScalarType where
  name := "ID"
  description := some ("The `ID` scalar type represents a unique identifier. It is serialized as "
    ++ "a String; both string and integer inputs are accepted.")
  output := IDScalar.input
  input := IDScalar.input
  literal := some IDScalar.literal
  toLiteral := some IDScalar.toLiteral

/-- The scalars that every schema contains. -/
def builtins : List ScalarType := [int, float, string, boolean, id]

end ScalarType

/-- Whether this is one of the scalars every schema contains, as the schema may define it. -/
def TypeDefinition.isBuiltin {σ : Type} : TypeDefinition σ → Bool
  | .scalar t => ScalarType.builtins.any (·.name = t.name)
  | _ => false

end GraphQL
