import GraphQL.Execution.Path
import GraphQL.Text.Escaped

/-! # Traces

What the executor reports about its own work, in the order in which it happens.
-/

namespace GraphQL

inductive TraceEvent where
  | executing (operation : Option String)
  | executed (operation : Option String) (errors pending : Nat)
  | refused (message : String)
  | resolving (path : Path) (field : String)
  | executingDeferred (path : Path) (label : Option String)
  | completingStreamed (path : Path) (label : Option String)
  | subscribed (field : String)
  | notResolved (path : Path)
  | abortedResolving (path : Path)
  | abortedWaiting (path : Path)

/-- The level, the message and its details on one line. -/
def TraceEvent.text : TraceEvent → String
  | .executing operation =>
    "DEBUG executing operation operation=" ++ Text.shownOptional operation
  | .executed operation errors pending =>
    "DEBUG operation executed operation=" ++ Text.shownOptional operation
      ++ " errors=" ++ toString errors ++ " pending=" ++ toString pending
  | .refused message => "DEBUG request failed before execution error=" ++ message
  | .resolving path field =>
    "TRACE resolving field path=" ++ path.text ++ " field=" ++ field
  | .executingDeferred path label =>
    "TRACE executing deferred fragment path=" ++ path.text ++ " label="
      ++ Text.shownOptional label
  | .completingStreamed path label =>
    "TRACE completing streamed item path=" ++ path.text ++ " label="
      ++ Text.shownOptional label
  | .subscribed field => "DEBUG subscription started field=" ++ field
  | .notResolved path => "WARN operation aborted, field not resolved path=" ++ path.text
  | .abortedResolving path =>
    "WARN operation aborted while resolving field path=" ++ path.text
  | .abortedWaiting path =>
    "WARN operation aborted while waiting for a list item path=" ++ path.text

end GraphQL
