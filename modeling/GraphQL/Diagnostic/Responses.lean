import GraphQL.Diagnostic.Values
import GraphQL.Execution.Run

/-! # Responses in diagnostic notation -/

namespace GraphQL

open Diagnostic

def errorsDiagnostic (errors : List ExecutionError) : String :=
  Diagnostic.list (errors.map ExecutionError.diagnostic)

def ExecutionResult.diagnostic (r : ExecutionResult) : String :=
  record "ExecutionResult"
    [("data", optional (r.data.map Object.diagnostic)), ("errors", errorsDiagnostic r.errors),
      ("extensions", optional (r.extensions.map Object.diagnostic))]

def InitialResult.diagnostic (r : InitialResult) : String :=
  record "InitialIncrementalResult"
    [("data", Object.diagnostic r.data), ("errors", errorsDiagnostic r.errors),
      ("has_next", "true")]

def Response.diagnostic {σ : Type} : Response σ → String
  | .single r => application "Single" r.diagnostic
  | .incremental initial _ _ => openRecord "Incremental" [("initial", initial.diagnostic)]

/-- A value that is at hand, or still to come. -/
def answerDiagnostic {σ : Type} : Answer σ Value → String
  | .ready v => application "Ready" v.diagnostic
  | _ => "Pending(..)"

end GraphQL
