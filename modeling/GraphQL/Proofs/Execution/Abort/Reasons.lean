import GraphQL.Proofs.Execution.Abort.Requests

/-! # One reason for an abort

The signal of a controller is a latch: the first abort triggers it, and it stays so. Its reason is a
cell that the first abort with a reason fills, and an abort without one leaves it empty. So the reason
that is shown stays the same from the first abort on, if that gives a reason or none ever does; and
everything that an abort makes fail in a request then fails with the same reason.
-/

namespace GraphQL

open Process Completing

/-! ## Controllers -/

namespace Controller

/-- What is done with a controller and the clones of its signal: it is told to abort, or a clone is
looked at. -/
inductive Use where
  | abort (reason : Option String)
  | look
deriving DecidableEq

/-- What the clones show, one look after the other. -/
def seen : Controller → List Use → List Signal
  | _, [] => []
  | c, .abort reason :: uses => (c.abort reason).seen uses
  | c, .look :: uses => c.signal :: c.seen uses

variable {c : Controller} {uses : List Use}

theorem seen_looks (c : Controller) (n : Nat) (uses : List Use) :
    c.seen (List.replicate n .look ++ uses) = List.replicate n c.signal ++ c.seen uses := by
  induction n with
  | zero => rfl
  | succ n ih =>
    rw [List.replicate_succ, List.replicate_succ, List.cons_append, List.cons_append, ← ih]
    rfl

theorem aborted_abort (h : c.aborted) (reason : Option String) : (c.abort reason).aborted :=
  aborted_foldl [reason] h

theorem given_abort {given : String} (h : c.given = some given) (reason : Option String) :
    (c.abort reason).given = some given := by
  unfold abort
  split
  · exact h
  · simp [h]

theorem given_foldl {given : String} (reasons : List (Option String)) (h : c.given = some given) :
    (reasons.foldl abort c).given = some given := by
  induction reasons generalizing c with
  | nil => exact h
  | cons reason reasons ih => exact ih (given_abort h reason)

/-- The reason that stays is the first that was given. -/
theorem given_foldl_eq (reasons : List (Option String)) (h : c.dropped = false) :
    (reasons.foldl abort c).given = (c.given <|> reasons.findSome? id) := by
  induction reasons generalizing c with
  | nil => simp
  | cons reason reasons ih =>
    have hfirst : c.abort reason = { c with aborted := true, given := c.given <|> reason } := by
      simp [abort, h]
    have hrest := ih (c := c.abort reason) (by rw [hfirst]; exact h)
    rw [List.foldl_cons, hrest, hfirst, List.findSome?_cons]
    cases c.given <;> cases reason <;> rfl

theorem abort_of_settled {reason : Option String} (haborted : c.aborted)
    (hreason : c.given.isSome ∨ reason = none) : c.abort reason = c := by
  have hgiven : (c.given <|> reason) = c.given := by
    rcases hreason with hgiven | rfl
    · obtain ⟨given, hgiven⟩ := Option.isSome_iff_exists.mp hgiven
      simp [hgiven]
    · simp
  unfold abort
  split
  · rfl
  · rw [hgiven, ← haborted]

theorem seen_of_settled (haborted : c.aborted)
    (hreasons : c.given.isSome ∨ ∀ reason, .abort reason ∈ uses → reason = none) :
    c.seen uses = List.replicate (uses.count .look) c.signal := by
  induction uses with
  | nil => rfl
  | cons use uses ih =>
    have hrest := ih (hreasons.imp_right fun h reason hmem => h reason (List.mem_cons_of_mem _ hmem))
    cases use with
    | abort reason =>
      have hsettled := abort_of_settled haborted
        (hreasons.imp_right fun h => h reason List.mem_cons_self)
      rw [seen, hsettled, hrest, List.count_cons_of_ne (by simp)]
    | look => rw [seen, hrest, List.count_cons_self, List.replicate_succ]

theorem isAborted_seen (h : c.aborted) :
    (c.seen uses).map (·.isAborted) = List.replicate (uses.count .look) true := by
  induction uses generalizing c with
  | nil => rfl
  | cons use uses ih =>
    cases use with
    | abort reason => rw [seen, ih (aborted_abort h reason), List.count_cons_of_ne (by simp)]
    | look =>
      rw [seen, List.map_cons, ih h, List.count_cons_self, List.replicate_succ]
      exact congrArg (· :: _) h

end Controller

/-! ## Worlds -/

variable {σ α ι : Type} {ctx : ExecutionContext σ} {root : ObjectType σ}
  {outside : Action σ Unit → Prop} {first last v w : World σ} {tasks : List (Completing σ)}
  {moments : List (World σ)}

/-- Whether an abort stays from a world to a later one, and with it the reason that was given. -/
structure World.Latches (v w : World σ) : Prop where
  watched : w.isWatched = v.isWatched
  aborted : v.controller.aborted → w.controller.aborted
  given : ∀ reason, v.controller.given = some reason → w.controller.given = some reason

theorem World.Latches.isAborted (h : v.Latches w) (habort : v.signal.isAborted) :
    w.signal.isAborted := by
  unfold World.signal at habort ⊢
  split at habort
  · next hwatched => exact if_pos (h.watched.trans hwatched) ▸ h.aborted habort
  · cases habort

theorem World.Latches.signal_eq (h : v.Latches w) (habort : v.signal.isAborted)
    (hreason : v.controller.given = none → w.controller.given = none) : w.signal = v.signal := by
  have hgiven : w.controller.given = v.controller.given := by
    cases hv : v.controller.given with
    | none => exact hreason hv
    | some reason => exact h.given reason hv
  unfold World.signal at habort ⊢
  rw [h.watched]
  split at habort
  · next hwatched =>
    have haborted : v.controller.aborted = true := habort
    simp only [hwatched, if_true, Controller.signal, hgiven, haborted, h.aborted haborted]
  · cases habort

theorem permits_latches : Permits (fun w : World σ => w.signal.isAborted) World.Latches
    TraceEvent.ResolvesNothing where
  course := {
    keeps hv hvw := hvw.isAborted hv
    trans huv hvw := {
      watched := hvw.watched.trans huv.watched
      aborted := hvw.aborted ∘ huv.aborted
      given := fun reason h => hvw.given reason (huv.given reason h) }
    tasks _ hcontroller hwatched _ _ := {
      watched := hwatched
      aborted := by rw [hcontroller]; exact id
      given := by rw [hcontroller]; exact fun _ => id } }
  trace _ _ _ _ := ⟨rfl, id, fun _ => id⟩
  take _ _ _ := ⟨rfl, id, fun _ => id⟩

theorem World.latches_after (w : World σ) (action : Action σ α) : w.Latches (w.after action) where
  watched := by
    obtain ⟨_, _, hafter, -⟩ := w.after_eq action
    rw [hafter]
  aborted := w.controller_after action ▸ Controller.aborted_foldl _
  given _ := w.controller_after action ▸ Controller.given_foldl _

theorem Callback.obeys_latches (callback : Callback σ ι α) :
    callback.Obeys (fun w => w.signal.isAborted) World.Latches where
  asked _ w _ := w.latches_after _
  settles _ _ _ _ _ w _ := w.latches_after _

theorem ExecutionContext.obeys_latches (ctx : ExecutionContext σ) :
    ctx.Obeys (fun w => w.signal.isAborted) World.Latches where
  schema := {
    fields := fun _ _ _ _ _ resolver _ => resolver.obeys_latches.settles
    types := fun _ _ resolver _ => resolver.obeys_latches
    members := fun _ _ check _ => check.obeys_latches }
  fieldResolver := fun resolver _ => resolver.obeys_latches.settles
  typeResolver := fun resolver _ => resolver.obeys_latches

/-- Whether no reason is given after an abort without, from the first of some worlds to the last. -/
def World.ReasonFirst (moments : List (World σ)) (last : World σ) : Prop :=
  ∀ v ∈ moments, v.signal.isAborted → v.controller.given = none → last.controller.given = none

theorem Schedule.latches (hroot : ctx.schema.Owns root)
    (h : Schedule ctx root outside [] first tasks moments last) (hv : v ∈ first :: moments)
    (habort : v.signal.isAborted) : v.Latches last :=
  (h.onward permits_latches (fun _ => id) hroot ctx.obeys_latches
    fun action _ w _ => w.latches_after action).1.ends v hv habort

theorem Schedule.last_mem {begun : List (Completing σ)}
    (h : Schedule ctx root outside begun first tasks moments last) : last ∈ first :: moments := by
  induction h with
  | nil => exact List.mem_cons_self
  | start _ _ ih => exact ih
  | @ask _ moments w _ p _ _ ih =>
    rw [← List.cons_append, List.mem_append]
    rcases List.mem_cons.mp (poll_mem_worlds p w) with heq | hmem
    · exact .inl (by rw [heq]; exact ih)
    · exact .inr hmem
  | act | trace | turn => exact List.mem_cons_of_mem _ List.mem_concat_self

/-! ## What an abort makes fail -/

/-- Whether a field begins or waits for its resolver in some world, while work is asked. -/
inductive Completing.AsksField (ctx : ExecutionContext σ) (p : Completing σ) (w : World σ)
    (q : List Segment) (plan : FieldPlan σ) (path : Path) (v : World σ) : Prop
  | begins {complete source}
    (h : Asks p w q (executeField ctx complete plan.parent source (plan.use :: plan.others) path) v)
    (hname : plan.use.node.name.item ≠ "__typename")
    (hfield : plan.parent.field? plan.use.node.name.item = some plan.field)
  | waits {s complete polls} (h : Asks p w q s v) (hs : plan.Pending complete path polls s)
    (hpolls : polls ≠ some 0)

section

variable {p : Completing σ} {q : List Segment} {plan : FieldPlan σ} {path : Path}

theorem Completing.AsksField.mem_worlds (h : AsksField ctx p w q plan path v) : v ∈ w :: p.worlds w := by
  cases h with
  | begins h => exact h.mem_worlds
  | waits h => exact h.mem_worlds

theorem Completing.AsksField.fails (h : AsksField ctx p w q plan path v) (habort : v.signal.isAborted) :
    Runs (p.poll w).1 q (.done (plan.abandoned path v.signal.reason)) := by
  cases h with
  | begins h hname hfield => exact poll_executeField_aborted hname hfield habort ▸ h.runs
  | waits h hs hpolls => exact hs.fails hpolls habort ▸ h.runs

theorem Completing.Asks.onAbort {polls place : Option Nat} {event : TraceEvent}
    {k : String → Completing σ} {effect : World σ → World σ} {next : World σ → Completing σ}
    (h : Asks p w q (.wait polls place (onAbort event k) effect next) v) (hpolls : polls ≠ some 0)
    (habort : v.signal.isAborted) : ∃ u, Runs (p.poll w).1 q ((k v.signal.reason).poll u).1 := by
  have hwoken := course_signal.woken polls v
  have hleft : ((v.woken polls).leave place).signal = v.signal :=
    (course_signal.leave (v.woken polls) place).trans hwoken
  have hruns := h.runs
  rcases poll_wait hpolls place (Process.onAbort event k) effect next v with ⟨-, heq⟩ | ⟨hgoesOn, -⟩
  · rw [heq, Process.onAbort, poll, hleft] at hruns
    exact ⟨_, hruns⟩
  · rw [hwoken, habort] at hgoesOn
    cases hgoesOn

end

/-! ## The latch -/

/-- Whatever is done with a controller, its signal is triggered by the first abort and stays so; the
reason that it shows is the first that was given. From the first abort on it is the same, if that abort
gives a reason or none ever does. Then all fields that an abort makes fail in a request, and all else
that waits, fail with the reason that the signal shows at the end, whatever the order in which tasks are
asked. -/
theorem abort_latched (ctx : ExecutionContext σ) (root : ObjectType σ) (outside : Action σ Unit → Prop)
    (hroot : ctx.schema.Owns root) :
    (∀ (looks : Nat) (first : Option String) (later : List Controller.Use),
      let shown := Controller.new.seen (List.replicate looks .look ++ .abort first :: later)
      shown.map (·.isAborted) = List.replicate looks false ++ List.replicate (later.count .look) true ∧
      ((first.isSome ∨ ∀ reason, .abort reason ∈ later → reason = none) →
        shown = List.replicate looks ⟨false, defaultReason⟩ ++
          List.replicate (later.count .look) ⟨true, first.getD defaultReason⟩)) ∧
    (∀ reasons : List (Option String), (reasons.foldl Controller.abort .new).signal.reason =
      (reasons.findSome? id).getD defaultReason) ∧
    ∀ {first last w : World σ} {i : Nat} {p : Completing σ} {begun tasks : List (Completing σ)}
      {before after : List (World σ)},
      Schedule ctx root outside [] first begun before w → begun[i]? = some p →
      Schedule ctx root outside (begun.set i (p.poll w).1) (p.poll w).2 tasks after last →
      World.ReasonFirst (first :: (before ++ p.worlds w ++ after)) last →
      (∀ v ∈ first :: (before ++ p.worlds w ++ after), v.signal.isAborted → last.signal = v.signal) ∧
      (∀ q plan path v, AsksField ctx p w q plan path v → v.signal.isAborted →
        Runs (p.poll w).1 q (.done (plan.abandoned path last.signal.reason))) ∧
      ∀ q polls place event k effect next v, polls ≠ some 0 →
        Asks p w q (.wait polls place (onAbort event k) effect next) v → v.signal.isAborted →
        ∃ u, Runs (p.poll w).1 q ((k last.signal.reason).poll u).1 := by
  refine ⟨fun looks first later => ⟨?_, fun hreasons => ?_⟩, fun reasons => ?_, ?_⟩
  · rw [Controller.seen_looks, List.map_append, List.map_replicate, Controller.seen,
      Controller.isAborted_seen rfl]
    rfl
  · rw [Controller.seen_looks, Controller.seen, Controller.seen_of_settled rfl hreasons]
    rfl
  · unfold Controller.signal
    rw [Controller.given_foldl_eq reasons rfl]
    rfl
  · intro first last w i p begun tasks before after hbefore hp hafter hreasons
    have hall := (hbefore.ask hp).trans hafter
    have hsame (v : World σ) (hv : v ∈ first :: (before ++ p.worlds w ++ after))
        (habort : v.signal.isAborted) : last.signal = v.signal :=
      (hall.latches hroot hv habort).signal_eq habort (hreasons v hv habort)
    have hmem (v : World σ) (hv : v ∈ w :: p.worlds w) :
        v ∈ first :: (before ++ p.worlds w ++ after) := by
      rw [List.append_assoc, ← List.cons_append, List.mem_append, List.mem_append]
      rcases List.mem_cons.mp hv with rfl | hv
      · exact .inl hbefore.last_mem
      · exact .inr (.inl hv)
    refine ⟨hsame, fun q plan path v h habort => ?_, ?_⟩
    · rw [hsame v (hmem v h.mem_worlds) habort]
      exact h.fails habort
    · intro q polls place event k effect next v hpolls h habort
      rw [hsame v (hmem v h.mem_worlds) habort]
      exact h.onAbort hpolls habort

/-- A reason that comes after an abort without takes the place of the default. -/
theorem lateReason_shown :
    Controller.new.seen [.abort none, .look, .abort (some "late"), .look] =
      [⟨true, defaultReason⟩, ⟨true, "late"⟩] := rfl

/-! ## A request that is aborted again -/

/-- Answers a name and aborts the request twice, for different reasons. -/
def sampleAbortingAgain : FieldResolver Unit := fun _ _ _ =>
  ⟨.ready (.ok (.data (.string "Ada"))), (), [some "Enough", none, some "Late"]⟩

/-- `{ name numbers }` -/
def sampleStopping : ExecutionContext Unit where
  schema := sampleSchema
  fragments := []
  operation := { sampleOperation with selections := [sampleField "name" [], sampleField "numbers" []] }
  variableValues := []
  root := .null
  fieldResolver := some sampleAbortingAgain
  typeResolver := none
  subscriber := none
  bounds := ⟨5, 5, 50⟩

theorem sampleStopping_latched :
    Controller.new.seen
        [.look, .abort (some "Enough"), .look, .abort none, .look, .abort (some "Late"), .look] =
      [⟨false, defaultReason⟩, ⟨true, "Enough"⟩, ⟨true, "Enough"⟩, ⟨true, "Enough"⟩] ∧
    ∃ (p : Completing Unit) (w last : World Unit) (plan : FieldPlan Unit) (path : Path),
      Schedule sampleStopping sampleType (fun _ => True) [] w [(p.poll w).1] (p.worlds w) last ∧
      last.signal = ⟨true, "Enough"⟩ ∧
      Runs (p.poll w).1 [.key "numbers"] (.done (plan.abandoned path "Enough")) := by
  obtain ⟨hcontroller, -, hfields⟩ := abort_latched sampleStopping sampleType (fun _ => True)
    List.mem_cons_self
  refine ⟨(hcontroller 1 (some "Enough")
    [.look, .abort none, .look, .abort (some "Late"), .look]).2 (.inl rfl), ?_⟩
  let w : World Unit := { sampleWorld with isWatched := true }
  let p := executeRoot (sampleStopping.withRoot .null) sampleType
  have hstart : Schedule sampleStopping sampleType (fun _ => True) [] w [p] [] w :=
    Schedule.nil.start (.operation .null)
  have hasked : Schedule sampleStopping sampleType (fun _ => True) [] w [(p.poll w).1] (p.worlds w)
      (p.poll w).2 := hstart.ask (i := 0) rfl
  have hreasons : World.ReasonFirst (w :: ([] ++ p.worlds w ++ [])) (p.poll w).2 := by
    have hgiven : ∀ v ∈ w :: ([] ++ p.worlds w ++ []),
        v.signal.isAborted = true → v.controller.given.isSome := by decide +kernel
    intro v hv habort hnone
    have hsome := hgiven v hv habort
    rw [hnone] at hsome
    cases hsome
  let plan : FieldPlan Unit :=
    ⟨sampleType, { name := "numbers", type := .list (.nonNullNamed "Int") }, sampleUse "numbers", []⟩
  have hbegins : AsksField sampleStopping p w [.key "numbers"] plan (Path.root.key "numbers" 1) _ :=
    .begins (.step (.beside (i := 1) rfl rfl rfl (.here _ _))) (by decide) rfl
  have hlast : (p.poll w).2.signal = ⟨true, "Enough"⟩ := by decide +kernel
  obtain ⟨-, hfails, -⟩ := hfields (i := 0) hstart rfl .nil hreasons
  have hfailed := hfails _ _ _ _ hbegins (by decide +kernel)
  rw [hlast] at hfailed
  exact ⟨p, w, _, plan, _, hasked, hlast, hfailed⟩

end GraphQL
