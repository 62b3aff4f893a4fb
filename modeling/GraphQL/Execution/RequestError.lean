import GraphQL.Document.Cursor
import GraphQL.Schema.Problem
import GraphQL.Validation.Error
import GraphQL.Execution.Response

/-! # Why a request is not executed -/

namespace GraphQL

inductive RequestError where
  | parse (e : Located ParseError)
  | validation (errors : List RuleError)
  | noOperation
  | severalOperations
  | unknownOperation (name : String)
  | noRootType (kind : OperationKind)
  | invalidSchema (errors : List SchemaError)
  | invalidVariables (errors : List ExecutionError)
  | severalPayloads
  | notSubscription
deriving Inhabited

namespace RequestError

def message : RequestError → String
  | parse e => e.report ParseError.message
  | validation errors => "\n".intercalate (errors.map RuleError.text)
  | noOperation => "Must provide an operation."
  | severalOperations =>
    "Must provide operation name if query contains multiple operations."
  | unknownOperation name => "Unknown operation named \"" ++ name ++ "\"."
  | noRootType kind => "Schema is not configured to execute " ++ kind.text ++ " operation."
  | invalidSchema errors => "\n".intercalate (errors.map SchemaError.message)
  | invalidVariables errors => "\n".intercalate (errors.map ExecutionError.message)
  | severalPayloads =>
    "Executing this GraphQL operation would unexpectedly produce multiple payloads "
      ++ "(due to @defer or @stream directive)"
  | notSubscription => "Can only subscribe to subscription operations."

/-- The errors of the response. -/
def errors : RequestError → List ExecutionError
  | parse e => [.atPosition e.start e.item.message]
  | validation errors => errors.map fun e => ⟨e.locations, .root, .ofMessage e.message⟩
  | invalidSchema errors => errors.map fun e => .ofMessage e.message
  | invalidVariables errors => errors
  | e => [.ofMessage e.message]

/-- The result that answers the request. -/
def result (e : RequestError) : ExecutionResult := ⟨none, e.errors, none⟩

end RequestError

end GraphQL
