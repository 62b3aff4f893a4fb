import GraphQL.Schema.Basic

/-! # What is wrong with a schema

A schema with repeated names cannot be built. All other problems are found by checking it.
-/

namespace GraphQL

/-- A place in a schema that refers to a type. -/
inductive Coordinate where
  | field (type field : String)
  | argument (type field argument : String)
  | directiveArgument (directive argument : String)
deriving DecidableEq, Repr

def Coordinate.text : Coordinate → String
  | .field t f => t ++ "." ++ f
  | .argument t f a => t ++ "." ++ f ++ "(" ++ a ++ ":)"
  | .directiveArgument d a => "@" ++ d ++ "(" ++ a ++ ":)"

/-- The name of a kind of operation in messages about its root type. -/
def OperationKind.title : OperationKind → String
  | .query => "Query"
  | .mutation => "Mutation"
  | .subscription => "Subscription"

inductive SchemaProblem where
  | rootNotObject (kind : OperationKind) (type : String)
  | noQueryRoot
  | unknownRoot (kind : OperationKind) (type : String)
  | noFields (type : String)
  | repeatedField (type field : String)
  | unknownType (type : String) (place : Coordinate)
  | notOutput (place : Coordinate) (type : TypeRef)
  | notInput (place : Coordinate) (type : TypeRef)
  | missingInterfaceField (interface field type : String)
  | notAnInterface (type interface : String)
  | noMembers (union : String)
  | memberNotObject (union member : String)
  | noValues (enum : String)
  | reservedValue (enum value : String)
  | noInputFields (type : String)
  | oneOfNonNull (place : Coordinate)
  | oneOfDefault (place : Coordinate)
  /-- A problem that the host states itself. -/
  | stated (message : String)
deriving DecidableEq, Repr

def SchemaProblem.message : SchemaProblem → String
  | .rootNotObject kind type =>
    kind.title ++ " root type must be Object type, it cannot be " ++ type ++ "."
  | .noQueryRoot => "Query root type must be provided."
  | .unknownRoot kind type =>
    "Unknown type \"" ++ type ++ "\" referenced as " ++ kind.title ++ " root type."
  | .noFields type => "Type " ++ type ++ " must define one or more fields."
  | .repeatedField type field =>
    "Type " ++ type ++ " defines field \"" ++ field ++ "\" more than once."
  | .unknownType type place =>
    "Unknown type \"" ++ type ++ "\" referenced by " ++ place.text ++ "."
  | .notOutput place type =>
    "The type of " ++ place.text ++ " must be Output Type but got: " ++ type.text ++ "."
  | .notInput place type =>
    "The type of " ++ place.text ++ " must be Input Type but got: " ++ type.text ++ "."
  | .missingInterfaceField interface field type =>
    "Interface field " ++ interface ++ "." ++ field ++ " expected but " ++ type
      ++ " does not provide it."
  | .notAnInterface type interface =>
    "Type " ++ type ++ " must only implement Interface types, it cannot implement "
      ++ interface ++ "."
  | .noMembers union => "Union type " ++ union ++ " must define one or more member types."
  | .memberNotObject union member =>
    "Union type " ++ union ++ " can only include Object types, it cannot include "
      ++ member ++ "."
  | .noValues enum => "Enum type " ++ enum ++ " must define one or more values."
  | .reservedValue enum value =>
    "Enum type " ++ enum ++ " cannot include value: " ++ value ++ "."
  | .noInputFields type => "Input Object type " ++ type ++ " must define one or more fields."
  | .oneOfNonNull place => "OneOf input field " ++ place.text ++ " must be nullable."
  | .oneOfDefault place => "OneOf input field " ++ place.text ++ " cannot have a default value."
  | .stated message => message

inductive SchemaError where
  | duplicateType (name : String)
  | duplicateDirective (name : String)
  | invalid (problem : SchemaProblem)
deriving DecidableEq, Repr

def SchemaError.message : SchemaError → String
  | .duplicateType name =>
    "Schema must contain uniquely named types but contains multiple types named \"" ++ name
      ++ "\"."
  | .duplicateDirective name =>
    "Schema must contain uniquely named directives but contains multiple directives named \"@"
      ++ name ++ "\"."
  | .invalid problem => problem.message

end GraphQL
