import GraphQL.Execution.Completion

/-! # Delivery

Queued jobs run as tasks side by side. The task that was to be asked first is asked first; one that
has to wait is asked again after the others, when it is woken. A finished task delivers its part and
starts the jobs that it left.
-/

namespace GraphQL

variable {σ : Type}

structure RunningJob (σ : Type) where
  task : Nat
  job : Job σ
  work : Completing σ

/-- A job that was run to its end. -/
structure Finished (σ : Type) where
  job : Job σ
  report : Report σ
  /-- Whether there are more jobs. -/
  hasNext : Bool

namespace Finished

def part (f : Finished σ) : Option Part := f.job.part f.report

/-- A job without a part makes a payload only if it is the last. -/
def payload? (f : Finished σ) : Option Payload :=
  match f.part with
  | some part => some ⟨[part], f.hasNext⟩
  | none => if f.hasNext then none else some ⟨[], false⟩

end Finished

structure Delivery (σ : Type) where
  running : List (RunningJob σ)
  /-- The number of the next task. -/
  nextTask : Nat

namespace Delivery

def empty : Delivery σ := ⟨[], 0⟩

/-- Starts jobs after those that run already. -/
def start (ctx : ExecutionContext σ) (jobs : List (Job σ)) (d : Delivery σ) : Delivery σ where
  running := d.running ++ (jobs.zipIdx d.nextTask).map fun (job, task) =>
    ⟨task, job, job.execute ctx⟩
  nextTask := d.nextTask + jobs.length

/-- Has the tasks of new jobs asked after the others. -/
def enqueue (jobs : List (Job σ)) (d : Delivery σ) (w : World σ) : World σ :=
  { w with ready := w.ready ++ (jobs.zipIdx d.nextTask).map Prod.snd }

def isOver (d : Delivery σ) : Bool := d.running.isEmpty

/-- The next job that is run to its end, or nothing when there are no more. It asks tasks at most
`rounds` times. -/
def next (ctx : ExecutionContext σ) : Nat → Delivery σ → World σ →
    Option (Option (Finished σ) × Delivery σ × World σ)
  | 0, _, _ => none
  | rounds + 1, d, w =>
    match w.ready with
    | [] => if d.isOver then some (none, d, w) else none
    | task :: ready =>
      let w := { w with ready }
      match d.running.find? (·.task = task) with
      | none => next ctx rounds d w
      | some current =>
        let polled := current.work.poll { w with running := some task }
        let w := { polled.2 with running := none }
        match polled.1 with
        | .done report =>
          let followUps := report.outcome.queued
          let others : Delivery σ := { d with running := d.running.filter (·.task ≠ task) }
          let d := others.start ctx followUps
          some (some ⟨current.job, report, !d.isOver⟩, d, others.enqueue followUps w)
        | work =>
          let running := d.running.map fun r => if r.task = task then { r with work } else r
          next ctx rounds { d with running } w

/-- All jobs, in the order in which they come to their ends; at most `count` of them. -/
def history (ctx : ExecutionContext σ) : Nat → Delivery σ → World σ →
    Option (List (Finished σ) × World σ)
  | 0, _, _ => none
  | count + 1, d, w => do
    match ← d.next ctx ctx.bounds.rounds w with
    | (none, _, w) => return ([], w)
    | (some finished, d, w) =>
      let (later, w) ← history ctx count d w
      return (finished :: later, w)

end Delivery

end GraphQL
