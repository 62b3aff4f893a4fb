import GraphQL.Document.Basic
import GraphQL.Execution.Path
import GraphQL.Host.Value
import GraphQL.Host.Abort

/-! # Callbacks

The host answers fields, names the types of values and opens event streams by callbacks. A callback
answers at once, after it was asked a number of times in vain, or never. Whenever it acts it sees the
state of the host and the abort signal; it may change that state and abort the request.
-/

namespace GraphQL

/-- What acting once leads to. -/
structure Reaction (σ α : Type) where
  result : α
  state : σ
  /-- The calls on the abort controller, in order, each with the reason it gives if any. -/
  aborts : List (Option String)

abbrev Action (σ α : Type) := Signal → σ → Reaction σ α

/-- An answer that may be yet to come. -/
inductive Answer (σ α : Type) where
  | ready (result : α)
  | after (polls : Nat) (finish : Action σ α)
  | never

def Answer.isReady {σ α : Type} : Answer σ α → Bool
  | .ready _ => true
  | _ => false

/-- The field that a callback is about. -/
structure FieldInfo where
  parentType : String
  fieldName : String
  returnType : TypeRef
  path : Path
  /-- Every place where the field is selected under its response key. -/
  nodes : List FieldNode
  operation : Operation
  variableValues : Object
  root : HostValue
  fragments : List Fragment

/-- What a resolver is asked. -/
structure FieldRequest where
  info : FieldInfo
  source : HostValue
  arguments : Object

/-- What a type resolver or membership check is asked. -/
structure TypeRequest where
  info : FieldInfo
  value : HostValue
  /-- The type that the value was returned as, or that it may be a member of. -/
  type : String

/-- The object type of a value, as a type resolver sees it. -/
inductive TypeChoice where
  | unknown
  | named (type : String)
  /-- Whatever is found without a type resolver. -/
  | byDefault

abbrev Callback (σ ι α : Type) := ι → Action σ (Answer σ (Except FieldError α))

abbrev FieldResolver (σ : Type) := Callback σ FieldRequest HostValue

abbrev Subscriber (σ : Type) := Callback σ FieldRequest (List Event)

abbrev TypeResolver (σ : Type) := Callback σ TypeRequest TypeChoice

abbrev MembershipCheck (σ : Type) := Callback σ TypeRequest Bool

end GraphQL
