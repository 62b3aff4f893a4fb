import GraphQL.Execution.Error

/-! # Responses

A request is answered by one result, or by an initial result and later payloads with the parts that
were deferred or streamed.
-/

namespace GraphQL

/-- Without data, nothing was executed or an error reached the root. -/
structure ExecutionResult where
  data : Option Object
  errors : List ExecutionError
  extensions : Option Object := none
deriving Inhabited

namespace ExecutionResult

def ofError (e : ExecutionError) : ExecutionResult := ⟨none, [e], none⟩

def isOk (r : ExecutionResult) : Bool := r.errors.isEmpty

end ExecutionResult

/-- The first payload of a response that has more of them. -/
structure InitialResult where
  data : Object
  errors : List ExecutionError
deriving Inhabited

/-- What a part adds to the data before it; nothing if an error reached the root of the part. -/
inductive PartContent where
  | fields (data : Option Object)
  | items (items : Option (List Value))
deriving Inhabited

structure Part where
  content : PartContent
  errors : List ExecutionError
  path : Path
  label : Option String
deriving Inhabited

/-- A later payload. -/
structure Payload where
  parts : List Part
  hasNext : Bool
deriving Inhabited

end GraphQL
