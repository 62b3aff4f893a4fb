import GraphQL.Coercion.Variables
import GraphQL.Execution.Collection
import GraphQL.Execution.RequestError
import GraphQL.Schema.Check

/-! # Requests

A request is prepared by choosing its operation and coercing its variables. The schema has to be
valid.
-/

namespace GraphQL

/-- How far work goes that need not come to an end. Work that goes further counts as endless. -/
structure Bounds where
  /-- How deep fragments are entered for the fields of one object. -/
  fragments : Nat := 1000
  /-- How deep values are completed inside one another. -/
  response : Nat := 5000
  /-- How often unfinished work is asked again. -/
  rounds : Nat := 100000
deriving Inhabited

structure Request (σ : Type) where
  schema : Schema σ
  document : Document
  root : HostValue := .null
  variableValues : Object := []
  operationName : Option String := none
  /-- The resolver of fields that have none of their own. -/
  fieldResolver : Option (FieldResolver σ) := none
  typeResolver : Option (TypeResolver σ) := none
  subscriber : Option (Subscriber σ) := none
  /-- How many errors about variables are reported. -/
  variableErrorLimit : Nat := 50
  bounds : Bounds := {}

/-- What all fields of a request share. -/
structure ExecutionContext (σ : Type) where
  schema : Schema σ
  fragments : List Fragment
  operation : Operation
  variableValues : Object
  root : HostValue
  fieldResolver : Option (FieldResolver σ)
  typeResolver : Option (TypeResolver σ)
  subscriber : Option (Subscriber σ)
  bounds : Bounds

/-- The operation to execute: the only one, or the last one with the given name. -/
def Document.chooseOperation (d : Document) (name : Option String) :
    Except RequestError Operation :=
  match name with
  | some name =>
    match d.operations.reverse.find? (·.name? = some name) with
    | some o => .ok o
    | none => .error (.unknownOperation name)
  | none =>
    match d.operations with
    | [] => .error .noOperation
    | [o] => .ok o
    | _ => .error .severalOperations

/-- The context of a request, and the type of its root. -/
def Request.prepare {σ : Type} (r : Request σ) :
    Except RequestError (ExecutionContext σ × ObjectType σ) := do
  let problems := r.schema.problems
  unless problems.isEmpty do
    throw (.invalidSchema (problems.map .invalid))
  let operation ← r.document.chooseOperation r.operationName
  let some object := r.schema.root? operation.kind
    | throw (.noRootType operation.kind)
  let variableValues ← (r.schema.coerceVariables operation.variableList r.variableValues
    r.variableErrorLimit).mapError .invalidVariables
  return ({
    schema := r.schema
    fragments := r.document.fragments
    operation
    variableValues
    root := r.root
    fieldResolver := r.fieldResolver
    typeResolver := r.typeResolver
    subscriber := r.subscriber
    bounds := r.bounds }, object)

namespace ExecutionContext

variable {σ : Type} (ctx : ExecutionContext σ)

/-- The fields selected at the root. -/
def rootFields (object : ObjectType σ) : Option Collected :=
  CollectionContext.collectFields ⟨ctx.schema, ctx.fragments, ctx.variableValues, object⟩
    ctx.bounds.fragments ctx.operation.selections

/-- The fields selected below all uses of one response key. -/
def subfields (object : ObjectType σ) (uses : List FieldUse) : Option Collected :=
  CollectionContext.collectSubfields ⟨ctx.schema, ctx.fragments, ctx.variableValues, object⟩
    ctx.bounds.fragments uses

end ExecutionContext

end GraphQL
