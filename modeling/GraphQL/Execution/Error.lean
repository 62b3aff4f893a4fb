import GraphQL.Source.Position
import GraphQL.Execution.Path
import GraphQL.Host.FieldError

/-! # Errors of a response

An error says where in the document and where in the response it arose, as far as it arose
anywhere.
-/

namespace GraphQL

structure ExecutionError where
  locations : List Position
  path : Path
  error : FieldError
deriving Inhabited

namespace ExecutionError

def message (e : ExecutionError) : String := e.error.message

/-- An error that belongs to no place. -/
def ofMessage (message : String) : ExecutionError := ⟨[], .root, .ofMessage message⟩

/-- An error at one place of the document. -/
def atPosition (p : Position) (message : String) : ExecutionError :=
  ⟨[p], .root, .ofMessage message⟩

end ExecutionError

/-- Errors in the order in which their places appear in the response. -/
def inResponseOrder (errors : List ExecutionError) : List ExecutionError :=
  errors.mergeSort fun a b => Path.notAfter a.path.ordinals b.path.ordinals

end GraphQL
