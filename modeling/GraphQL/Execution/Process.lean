import GraphQL.Execution.World

/-! # Processes

A process is work that may have to wait. Asking it runs it as far as it gets: it acts on the world,
waits for answers of the host, and runs other processes side by side, asking the unfinished ones in
order. What waits is asked again as often as it has to be, unless the request is aborted before.
-/

namespace GraphQL

inductive Process (σ ρ : Type) where
  | done (result : ρ)
  /-- Acts, and goes on as the world before the act decides. -/
  | step (effect : World σ → World σ) (next : World σ → Process σ ρ)
  /-- Waits until it was asked `polls` times, or for ever, at a `place` once it has one. Then it acts
  and goes on like a step. An abort of the request makes it go on as `aborted`. -/
  | wait (polls : Option Nat) (place : Option Nat) (aborted : Process σ ρ)
      (effect : World σ → World σ) (next : World σ → Process σ ρ)
  /-- Runs processes side by side until all are done. -/
  | all (parts : List (Process σ ρ)) (next : List ρ → Process σ ρ)
  /-- Never ends. -/
  | unending

namespace Process

variable {σ ρ α : Type}

def result? : Process σ ρ → Option ρ
  | done r => some r
  | _ => none

/-- The results of processes that are all done. -/
def results? (ps : List (Process σ ρ)) : Option (List ρ) := ps.mapM result?

/-- Goes on with the result. -/
def bind : Process σ ρ → (ρ → Process σ ρ) → Process σ ρ
  | done r, k => k r
  | step effect next, k => step effect fun w => (next w).bind k
  | wait polls place aborted effect next, k =>
    wait polls place (aborted.bind k) effect fun w => (next w).bind k
  | all parts next, k => all parts fun rs => (next rs).bind k
  | unending, _ => unending

def map (f : ρ → ρ) (p : Process σ ρ) : Process σ ρ := p.bind fun r => done (f r)

/-- Acts and goes on with `next`. -/
def perform (effect : World σ → World σ) (next : Process σ ρ) : Process σ ρ :=
  step effect fun _ => next

/-- Goes on as the world decides. -/
def look (next : World σ → Process σ ρ) : Process σ ρ := step id next

mutual

/-- What is left of a process that was asked once. -/
def poll : Process σ ρ → World σ → Process σ ρ × World σ
  | done r, w => (done r, w)
  | step effect next, w => (next w).poll (effect w)
  | wait polls place aborted effect next, w =>
    match polls with
    | some 0 => (next w).poll ((effect w).leave place)
    | polls =>
      let left := polls.map (· - 1)
      let woken := if polls.isSome then w.wakeRunning else w
      if woken.signal.isAborted then aborted.poll (woken.leave place)
      else if !woken.isWatched || place.isSome then (wait left place aborted effect next, woken)
      else (wait left (some woken.waiters.next) aborted effect next, woken.join)
  | all parts next, w =>
    let polled := pollAll parts w
    match results? polled.1 with
    | some rs => (next rs).poll polled.2
    | none => (all polled.1 next, polled.2)
  | unending, w => (unending, w)

def pollAll : List (Process σ ρ) → World σ → List (Process σ ρ) × World σ
  | [], w => ([], w)
  | p :: rest, w =>
    let polled := p.poll w
    let others := pollAll rest polled.2
    (polled.1 :: others.1, others.2)

end

/-- Asks a process until it is done, at most so many times. -/
def run : Nat → Process σ ρ → World σ → Option (ρ × World σ)
  | 0, _, _ => none
  | n + 1, p, w =>
    let polled := p.poll w
    match polled.1 with
    | done r => some (r, polled.2)
    | rest => rest.run n polled.2

end Process

end GraphQL
