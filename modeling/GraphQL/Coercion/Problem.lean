import GraphQL.Document.TypeRef
import GraphQL.Document.Literal
import GraphQL.Execution.Path

/-! # Why an input is refused

A problem together with the place of the refused value inside the input, and that value if it came
from outside of the document.
-/

namespace GraphQL

/-- Why a value or literal is no value of its type. -/
inductive CoercionProblem where
  | null (type : TypeRef)
  | notInputType (name : String)
  | refusedByScalar (message : String)
  | enumNotString (enum : String) (value : Value)
  | enumNotName (enum : String) (literal : Literal)
  | unknownEnumValue (enum name : String)
  | notAnObject (type : String)
  | missingField (field : String) (fieldType : TypeRef)
  | unknownField (field type : String)
  | notExactlyOne (type : String)
  | nullInOneOf (field : String)
  | missingArgument (argument : String) (type : TypeRef)
  | unsetArgument (argument : String) (type : TypeRef) (name : String)
  | nullArgument (argument : String) (type : TypeRef)
  | invalidArgument (argument : String) (literal : Literal) (problem : CoercionProblem)
  /-- Defaults need one another without end. -/
  | endlessDefault
deriving Inhabited

def CoercionProblem.message : CoercionProblem → String
  | .null type => "Expected non-nullable type \"" ++ type.text ++ "\" not to be null."
  | .notInputType name => "Expected \"" ++ name ++ "\" to be an input type."
  | .refusedByScalar message => message
  | .enumNotString enum value =>
    "Enum \"" ++ enum ++ "\" cannot represent non-string value: " ++ value.text ++ "."
  | .enumNotName enum literal =>
    "Enum \"" ++ enum ++ "\" cannot represent non-enum value: " ++ literal.text ++ "."
  | .unknownEnumValue enum name =>
    "Value \"" ++ name ++ "\" does not exist in \"" ++ enum ++ "\" enum."
  | .notAnObject type => "Expected type \"" ++ type ++ "\" to be an object."
  | .missingField field fieldType =>
    "Field \"" ++ field ++ "\" of required type \"" ++ fieldType.text ++ "\" was not provided."
  | .unknownField field type =>
    "Field \"" ++ field ++ "\" is not defined by type \"" ++ type ++ "\"."
  | .notExactlyOne type =>
    "Exactly one key must be specified for OneOf type \"" ++ type ++ "\"."
  | .nullInOneOf field => "Field \"" ++ field ++ "\" must be non-null."
  | .missingArgument argument type =>
    "Argument \"" ++ argument ++ "\" of required type \"" ++ type.text ++ "\" was not provided."
  | .unsetArgument argument type name =>
    "Argument \"" ++ argument ++ "\" of required type \"" ++ type.text
      ++ "\" was provided the variable \"$" ++ name
      ++ "\" which was not provided a runtime value."
  | .nullArgument argument type =>
    "Argument \"" ++ argument ++ "\" of non-null type \"" ++ type.text ++ "\" must not be null."
  | .invalidArgument argument literal problem =>
    "Argument \"" ++ argument ++ "\" has invalid value " ++ literal.text ++ ". "
      ++ problem.message
  | .endlessDefault => "Default values never end."

def CoercionProblem.isEndless (problem : CoercionProblem) : Bool := problem matches .endlessDefault

structure CoercionError where
  problem : CoercionProblem
  /-- The way from the input to the refused value. -/
  path : List Segment := []
  value : Option Value := none
deriving Inhabited

namespace CoercionError

def message (e : CoercionError) : String := e.problem.message

def isEndless (e : CoercionError) : Bool := e.problem.isEndless

/-- The same error, seen from a value that holds the refused one at `segment`. -/
def below (segment : Segment) (e : CoercionError) : CoercionError :=
  { e with path := segment :: e.path }

/-- The path as it stands after the name of a variable. -/
def pathText (e : CoercionError) : String :=
  "".intercalate (e.path.map fun
    | .key name => "." ++ name
    | .index n => "[" ++ toString n ++ "]")

end CoercionError

end GraphQL
