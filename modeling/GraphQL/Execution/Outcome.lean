import GraphQL.Execution.Plan

/-! # Outcomes

Completing a value yields the value or an error that escapes from it, the errors that were turned
into nulls inside it, and the jobs that are left for later. Jobs carry tickets, which tell the order
in which they were queued.
-/

namespace GraphQL

/-- The items of a list that are not yet delivered, at hand or still to come. -/
inductive ItemSource where
  | ready (items : List HostValue)
  | events (events : List Event)

def ItemSource.isExhausted : ItemSource → Bool
  | ready items => items.isEmpty
  | events _ => false

/-- Work that is delivered in a part of its own. -/
inductive Job (σ : Type) where
  | deferred (object : ObjectType σ) (source : HostValue) (path : Path) (fragment : Deferred)
  /-- The item at `index` of the list at `path`, and then those after it. -/
  | streamed (plan : FieldPlan σ) (itemType : TypeRef) (path : Path) (label : Option String)
      (index : Nat) (source : ItemSource)

structure Outcome (σ : Type) where
  /-- Without an error there is still no value where an object has no such field, or a stream no
  more items. -/
  result : Except ExecutionError (Option Value)
  errors : List ExecutionError := []
  jobs : List (Nat × Job σ) := []

namespace Outcome

variable {σ : Type}

def ofValue (v : Value) : Outcome σ := { result := .ok (some v) }

def absent : Outcome σ := { result := .ok none }

def failed (e : ExecutionError) : Outcome σ := { result := .error e }

def isError (o : Outcome σ) : Bool :=
  match o.result with
  | .ok _ => false
  | .error _ => true

/-- An escaping error becomes null, and the work below is dropped. -/
def orNull (o : Outcome σ) : Outcome σ :=
  match o.result with
  | .ok _ => o
  | .error e => ⟨.ok (some .null), o.errors ++ [e], []⟩

/-- The first error that escapes from an object or list escapes from the whole. -/
def gather (parts : List (Outcome σ)) (combine : List (Option Value) → Value) : Outcome σ where
  result := (parts.mapM Outcome.result).map fun values => some (combine values)
  errors := parts.flatMap (·.errors)
  jobs := parts.flatMap (·.jobs)

/-- An object of the outcomes of its fields. Fields without a value are left out. -/
def ofFields (fields : List (String × Outcome σ)) : Outcome σ :=
  gather (fields.map Prod.snd) fun values =>
    .object (((fields.map Prod.fst).zip values).filterMap fun (key, v) => v.map (key, ·))

def ofItems (items : List (Outcome σ)) : Outcome σ :=
  gather items fun values => .list (values.filterMap id)

/-- With jobs that were queued before the others. -/
def withJobs (jobs : List (Nat × Job σ)) (o : Outcome σ) : Outcome σ :=
  { o with jobs := jobs ++ o.jobs }

/-- With a job that was queued after the others. -/
def withJob (ticket : Nat) (job : Job σ) (o : Outcome σ) : Outcome σ :=
  { o with jobs := o.jobs ++ [(ticket, job)] }

/-- All errors in the order of the response, when no one above turns an escaping error into
null. -/
def allErrors (o : Outcome σ) : List ExecutionError :=
  inResponseOrder (match o.result with
    | .ok _ => o.errors
    | .error e => o.errors ++ [e])

/-- The jobs in the order in which they were queued. An escaping error drops them. -/
def queued (o : Outcome σ) : List (Job σ) :=
  if o.isError then []
  else (o.jobs.mergeSort fun a b => a.1 ≤ b.1).map Prod.snd

def object? (o : Outcome σ) : Option Object :=
  match o.result with
  | .ok (some (.object fields)) => some fields
  | _ => none

end Outcome

end GraphQL
