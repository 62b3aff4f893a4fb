import GraphQL.Document.Reader
import GraphQL.Execution.Delivery
import GraphQL.Validation.RuleSet

/-! # Executing requests

A request is answered at once, or by an initial result and the parts that were left for later. Work
that does not come to an end has no answer.
-/

namespace GraphQL

variable {σ : Type}

inductive Response (σ : Type) where
  | single (result : ExecutionResult)
  /-- The first payload, and the jobs that deliver the others. -/
  | incremental (initial : InitialResult) (ctx : ExecutionContext σ) (jobs : List (Job σ))

/-- The result, if it is the whole response. -/
def Response.single? : Response σ → Option ExecutionResult
  | single r => some r
  | incremental _ _ _ => none

namespace Request

/-- Executes a prepared request. -/
def executePrepared (ctx : ExecutionContext σ) (object : ObjectType σ) (w : World σ) :
    Option (Response σ × World σ) := do
  let name := ctx.operation.name?
  let (report, w) ← (executeRoot ctx object).run ctx.bounds.rounds (w.trace (.executing name))
  let o := report.outcome
  let errors := o.allErrors
  let jobs := o.queued
  let w := w.trace (.executed name errors.length jobs.length)
  match o.object?, jobs with
  | some data, _ :: _ => return (.incremental ⟨data, errors⟩ ctx jobs, w)
  | data, _ => return (.single ⟨data, errors, none⟩, w)

/-- Executes a request, leaving what is deferred or streamed for later. -/
def executeIncrementally (r : Request σ) (w : World σ) : Option (Response σ × World σ) :=
  match r.prepare with
  | .error e => some (.single e.result, w.trace (.refused e.message))
  | .ok (ctx, object) => executePrepared ctx object w

/-- Executes a request that has to be answered at once. -/
def execute (r : Request σ) (w : World σ) : Option (ExecutionResult × World σ) := do
  let (response, w) ← r.executeIncrementally w
  return (response.single?.getD RequestError.severalPayloads.result, w)

end Request

/-- Runs the jobs that were left, and those that they leave, to their ends. -/
def runJobs (ctx : ExecutionContext σ) (jobs : List (Job σ)) (w : World σ) :
    Option (List (Finished σ) × World σ) :=
  let d : Delivery σ := Delivery.empty.start ctx jobs
  d.history ctx ctx.bounds.rounds (Delivery.empty.enqueue jobs w)

/-- All payloads after the initial one. -/
def laterPayloads (ctx : ExecutionContext σ) (jobs : List (Job σ)) (w : World σ) :
    Option (List Payload × World σ) := do
  let (finished, w) ← runJobs ctx jobs w
  return (finished.filterMap Finished.payload?, w)

/-- Reads, validates and executes a document in one go. -/
def graphql (schema : Schema σ) (source : String) (operationName : Option String)
    (variableValues : Object) (w : World σ) : Option (ExecutionResult × World σ) :=
  match Document.read source with
  | .error e => some ((RequestError.parse e).result, w)
  | .ok document => do
    let request : Request σ := { schema, document, variableValues, operationName }
    match ← validate schema request.bounds.fragments document with
    | [] => request.execute w
    | errors => return ((RequestError.validation errors).result, w)

end GraphQL
