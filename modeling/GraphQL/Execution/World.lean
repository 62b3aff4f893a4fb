import GraphQL.Host.Callback
import GraphQL.Execution.Trace

/-! # What callbacks and tasks share

The state of the host, the abort signal, the streams that were read, the traces, and the order in
which tasks are asked again. A task that waits has a place among the waiters, and an abort wakes
the waiters in the order of their places. A place that was left last is taken first.
-/

namespace GraphQL

/-- Who waits at which place; a place is empty once it was left. The first of `free` is the place
that was left last. -/
structure Waiters where
  places : List (Option Nat)
  free : List Nat

namespace Waiters

def none : Waiters := ⟨[], []⟩

/-- The place that is taken next. -/
def next (w : Waiters) : Nat := w.free.head?.getD w.places.length

/-- A task, or what is no task, takes the next place. -/
def join (w : Waiters) (task : Option Nat) : Waiters :=
  match w.free with
  | place :: free => ⟨w.places.set place task, free⟩
  | [] => ⟨w.places ++ [task], []⟩

def leave (w : Waiters) (place : Nat) : Waiters := ⟨w.places.set place .none, place :: w.free⟩

/-- The waiting tasks in the order of their places. -/
def tasks (w : Waiters) : List Nat := w.places.filterMap id

end Waiters

structure World (σ : Type) where
  host : σ
  controller : Controller := .new
  /-- Whether the request heeds the abort signal. -/
  isWatched : Bool := false
  /-- The streams that were read. -/
  taken : List Nat := []
  /-- How many jobs were queued. -/
  tickets : Nat := 0
  /-- The latest event comes first. -/
  traces : List TraceEvent := []
  waiters : Waiters := .none
  /-- The tasks that are to be asked again, in order. -/
  ready : List Nat := []
  /-- The task that is being asked. -/
  running : Option Nat := none

namespace World

variable {σ α : Type}

/-- The signal as the request sees it. -/
def signal (w : World σ) : Signal := if w.isWatched then w.controller.signal else .never

def trace (event : TraceEvent) (w : World σ) : World σ := { w with traces := event :: w.traces }

/-- Has a task asked again after those that are already waiting for it. -/
def wake (w : World σ) (task : Nat) : World σ :=
  if w.ready.contains task then w else { w with ready := w.ready ++ [task] }

def wakeRunning (w : World σ) : World σ :=
  match w.running with
  | some task => w.wake task
  | none => w

/-- Aborts the request. The first abort wakes all who wait. -/
def abort (w : World σ) (reason : Option String) : World σ :=
  let controller := w.controller.abort reason
  let woken := if controller.aborted && !w.controller.aborted then w.waiters.tasks else []
  woken.foldl wake { w with controller }

/-- What acting once would lead to. -/
def reaction (w : World σ) (action : Action σ α) : Reaction σ α := action w.signal w.host

/-- The world after acting once. -/
def after (w : World σ) (action : Action σ α) : World σ :=
  let r := w.reaction action
  r.aborts.foldl abort { w with host := r.state }

def isTaken (w : World σ) (stream : Nat) : Bool := w.taken.contains stream

def take (stream : Nat) (w : World σ) : World σ := { w with taken := stream :: w.taken }

def nextTicket (w : World σ) : World σ := { w with tickets := w.tickets + 1 }

/-- The running task, or the request itself, waits. -/
def join (w : World σ) : World σ := { w with waiters := w.waiters.join w.running }

def leave (w : World σ) (place : Option Nat) : World σ :=
  match place with
  | some place => { w with waiters := w.waiters.leave place }
  | none => w

end World

end GraphQL
