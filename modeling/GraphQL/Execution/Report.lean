import GraphQL.Execution.Outcome

/-! # Reports

A report tells what was found at a place of the response and at every place below it. The outcome is
read off the report: data, errors and jobs.
-/

namespace GraphQL

inductive Report (σ : Type) where
  /-- There is no value: an object has no such field, or a stream no more items. -/
  | absent
  /-- The host gave null. -/
  | null
  /-- A scalar, an enum value or the name of a type. -/
  | leaf (v : Value)
  /-- An error arose at this place. -/
  | failed (e : ExecutionError)
  | list (items : List (Report σ))
  /-- An object, and the jobs that were queued for its deferred fragments, with their tickets. -/
  | object (deferred : List (Nat × Job σ)) (fields : List (String × Report σ))
  /-- What was completed before a job was queued that goes on after it. -/
  | followed (inner : Report σ) (ticket : Nat) (job : Job σ)
  /-- A place where null is allowed. -/
  | nullable (inner : Report σ)

namespace Report

variable {σ : Type}

def ofExcept : Except ExecutionError Value → Report σ
  | .ok v => leaf v
  | .error e => failed e

/-- A report about a place of the given type. -/
def absorbing (type : TypeRef) (r : Report σ) : Report σ := if type.isNonNull then r else nullable r

mutual

def outcome : Report σ → Outcome σ
  | absent => .absent
  | null => .ofValue .null
  | leaf v => .ofValue v
  | failed e => .failed e
  | list items => .ofItems (outcomes items)
  | object deferred fields => (Outcome.ofFields (fieldOutcomes fields)).withJobs deferred
  | followed inner ticket job => inner.outcome.withJob ticket job
  | nullable inner => inner.outcome.orNull

def outcomes : List (Report σ) → List (Outcome σ)
  | [] => []
  | r :: rest => r.outcome :: outcomes rest

def fieldOutcomes : List (String × Report σ) → List (String × Outcome σ)
  | [] => []
  | (key, r) :: rest => (key, r.outcome) :: fieldOutcomes rest

end

/-- Whether an error escapes. -/
def isError (r : Report σ) : Bool := r.outcome.isError

end Report

end GraphQL
