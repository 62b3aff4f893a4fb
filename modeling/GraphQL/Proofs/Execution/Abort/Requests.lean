import GraphQL.Proofs.Execution.Abort.Tasks

/-! # Aborted requests

From an abort on, no field is resolved any more, whatever the order in which tasks are asked. A field
that begins then fails, and one that still waits for its resolver fails as soon as it is asked. What was
completed before stays in the data.
-/

namespace GraphQL

open Process Completing

variable {σ β : Type} {ctx : ExecutionContext σ} {root : ObjectType σ} {outside : Action σ Unit → Prop}
  {first last : World σ} {begun tasks : List (Completing σ)} {moments : List (World σ)} {f : σ → β}

/-! ## Nothing is resolved -/

section

variable {P : World σ → Prop} {E : World σ → World σ → Prop}
  (hE : Permits P E TraceEvent.ResolvesNothing) (hP : ∀ w, P w → w.signal.isAborted)
  (hroot : ctx.schema.Owns root) (hctx : ctx.Obeys P E)

include hE hP hroot hctx

theorem ExecutionContext.Task.obeys {path : Path} {p : Completing σ} (h : ctx.Task root path p)
    (w : World σ) : p.Obeys P E w := by
  cases h with
  | operation value =>
    have hvalue : (ctx.withRoot value).Obeys P E :=
      ⟨hctx.schema, hctx.fieldResolver, hctx.typeResolver⟩
    exact built_executeRoot (builds_obeys hE hP hvalue) hroot (fun _ _ => trivial) w
  | job hjob =>
    have hbegins (event : TraceEvent) (hevent : event.Begins) : event.ResolvesNothing := by
      cases event with
      | resolving => cases hevent
      | _ => trivial
    exact built_execute (builds_obeys hE hP hctx) (hjob.owned hroot) (fun _ _ => trivial)
      (fun event p hevent hp v => ⟨hE.trace event v (hbegins event hevent), hp _⟩) w

theorem Schedule.onward (houtside : ∀ action, outside action → ∀ w, P w → E w (w.after action))
    (h : Schedule ctx root outside [] first tasks moments last) :
    Onward P E moments first last ∧ ∀ p ∈ tasks, ∀ w, p.Obeys P E w := by
  have hcourse := hE.course
  induction h with
  | nil => exact ⟨.nil hcourse first, by simp⟩
  | start _ hp ih =>
    exact ⟨ih.1, List.forall_mem_append.mpr ⟨ih.2, by simpa using hp.obeys hE hP hroot hctx⟩⟩
  | @ask tasks moments w i p _ hp ih =>
    obtain ⟨honward, hall⟩ := ih
    obtain ⟨hpassed, hleft⟩ := poll_obeys hcourse p w (hall p (List.mem_of_getElem? hp) w)
    refine ⟨honward.append hcourse hpassed, fun q hq => ?_⟩
    rcases List.mem_or_eq_of_mem_set hq with hq | rfl
    · exact hall q hq
    · exact hleft
  | act _ haction ih =>
    exact ⟨ih.1.append hcourse (.single hcourse (houtside _ haction _)), ih.2⟩
  | trace _ hevent ih =>
    exact ⟨ih.1.append hcourse (.single hcourse (hE.trace _ _ hevent)), ih.2⟩
  | turn _ hv ih =>
    refine ⟨ih.1.append hcourse (.single hcourse fun _ => ?_), ih.2⟩
    exact hcourse.tasks hv.host hv.controller hv.isWatched hv.taken hv.traces

end

theorem Schedule.obeys (hroot : ctx.schema.Owns root) (hctx : ctx.Hides f)
    (houtside : ∀ action, outside action → Action.Hides f action)
    (h : Schedule ctx root outside [] first tasks moments last) :
    Onward (fun w => w.signal.isAborted) (World.Silent f) moments first last ∧
      ∀ p ∈ tasks, ∀ w, p.Obeys (fun w => w.signal.isAborted) (World.Silent f) w :=
  h.onward permits_silent (fun _ => id) hroot hctx.obeys fun action haction _ hw =>
    (houtside action haction).silent hw

theorem Schedule.asks (hroot : ctx.schema.Owns root)
    (h : Schedule ctx root outside [] first tasks moments last) {p s : Completing σ}
    {q : List Segment} (hp : p ∈ tasks) (hs : Runs p q s) (habort : last.signal.isAborted) :
    (∃ v, Asks p last q s v ∧ v.signal.isAborted) ∨
      ∃ report, s = .done report ∧ Runs (p.poll last).1 q s := by
  have hobeys := (h.obeys hroot ctx.hides_nothing fun _ _ _ _ _ => rfl).2 p hp last
  obtain ⟨honward, -⟩ := poll_obeys permits_silent.course p last hobeys
  refine (hs.asks last).imp_left fun ⟨v, hv⟩ => ⟨v, hv, ?_⟩
  rcases List.mem_cons.mp hv.mem_worlds with rfl | hmem
  · exact habort
  · exact (List.rel_of_pairwise_cons honward.pairs hmem habort).aborted habort

/-! ## Fields -/

namespace FieldPlan

variable (plan : FieldPlan σ) (complete : Completer σ) (path : Path)

/-- The report on a field that an abort kept from its value: an error at its own path. -/
def abandoned (reason : String) : Report σ :=
  (Report.failed (plan.problem path (.aborted reason))).absorbing plan.field.type

/-- How a field goes on with the answer of its resolver. -/
def resume (answer : Except FieldError HostValue) : Completing σ :=
  match answer.mapError (plan.error path) with
  | .ok v => complete plan plan.field.type path v
  | .error e => failed e

/-- What is left of a field that waits. An abort makes it fail with the reason. -/
def waiting (polls place : Option Nat) (effect : World σ → World σ) (next : World σ → Completing σ) :
    Completing σ :=
  Process.map (·.absorbing plan.field.type) <|
    .wait polls place (onAbort (.abortedResolving path) fun reason =>
      plan.resume complete path (.error (.ofMessage reason))) effect next

/-- Whether work is what is left of a field as long as its resolver has not answered. The answer is
there after so many rounds, or never. -/
inductive Pending : Option Nat → Completing σ → Prop
  | after (polls place) (finish : Action σ (Except FieldError HostValue)) :
    Pending (some polls) (plan.waiting complete path (some polls) place (fun w => w.after finish)
      fun w => plan.resume complete path (w.reaction finish).result)
  | never (place) : Pending none (plan.waiting complete path none place id fun _ => .unending)

end FieldPlan

theorem course_signal : Course (fun _ : World σ => True) fun v w => w.signal = v.signal where
  keeps _ _ := trivial
  trans huv hvw := hvw.trans huv
  tasks _ hcontroller hwatched _ _ := by simp only [World.signal, hcontroller, hwatched]

section

variable {plan : FieldPlan σ} {complete : Completer σ} {path : Path} {polls place : Option Nat}
  {effect : World σ → World σ} {next : World σ → Completing σ} {s : Completing σ} {v w : World σ}

theorem poll_waiting_aborted (hpolls : polls ≠ some 0) (habort : w.signal.isAborted) :
    ((plan.waiting complete path polls place effect next).poll w).1 =
      .done (plan.abandoned path w.signal.reason) := by
  have hwoken := course_signal.woken polls w
  have hleft : ((w.woken polls).leave place).signal = w.signal :=
    (course_signal.leave (w.woken polls) place).trans hwoken
  unfold FieldPlan.waiting Process.map
  rw [Process.bind]
  rcases poll_wait hpolls place _ effect _ w with ⟨-, heq⟩ | ⟨hgoesOn, -⟩
  · rw [heq, ← hleft]
    rfl
  · rw [hwoken, habort] at hgoesOn
    cases hgoesOn

theorem poll_waiting (hpolls : polls ≠ some 0) (hgoesOn : w.signal.isAborted = false) :
    ∃ place', ((plan.waiting complete path polls place effect next).poll w).1 =
      plan.waiting complete path (polls.map (· - 1)) place' effect next := by
  unfold FieldPlan.waiting Process.map
  rw [Process.bind]
  rcases poll_wait hpolls place _ effect _ w with ⟨habort, -⟩ | ⟨-, place', _, _, heq⟩
  · rw [course_signal.woken polls w, hgoesOn] at habort
    cases habort
  · exact ⟨place', by rw [heq]; rfl⟩

namespace FieldPlan.Pending

theorem ready (h : plan.Pending complete path (some 0) s) (w : World σ) :
    ∃ answer v, s.poll w =
      ((plan.resume complete path answer).map (·.absorbing plan.field.type)).poll v := by
  cases h with
  | after polls place finish => exact ⟨_, _, rfl⟩

theorem fails (h : plan.Pending complete path polls s) (hpolls : polls ≠ some 0)
    (habort : w.signal.isAborted) : (s.poll w).1 = .done (plan.abandoned path w.signal.reason) := by
  cases h <;> exact poll_waiting_aborted hpolls habort

theorem waits (h : plan.Pending complete path polls s) (hpolls : polls ≠ some 0)
    (hgoesOn : w.signal.isAborted = false) :
    plan.Pending complete path (polls.map (· - 1)) (s.poll w).1 := by
  cases h with
  | after polls place finish =>
    obtain ⟨place', hleft⟩ := poll_waiting hpolls hgoesOn
    exact hleft ▸ .after (polls - 1) place' finish
  | never place =>
    obtain ⟨place', hleft⟩ := poll_waiting hpolls hgoesOn
    exact hleft ▸ .never place'

end FieldPlan.Pending

variable {object : ObjectType σ} {source : HostValue} {use : FieldUse} {others : List FieldUse}
  {field : FieldDefinition σ}

theorem asks_fields {path : Path} {collected : Collected} {i : Nat} {key : String}
    {uses : List FieldUse} (h : collected.groups[i]? = some (key, uses)) (w : World σ) :
    ∃ v, Asks (executeObject ctx complete false object source path collected) w [.key key]
      (executeField ctx complete object source uses (path.key key i)) v := by
  refine ⟨_, .step (.beside (i := i) ?_ ?_ rfl (.here _ _))⟩
  · simp [fieldWork, h]
  · simp [fieldWork, h]

theorem poll_executeField_aborted (hname : use.node.name.item ≠ "__typename")
    (hfield : object.field? use.node.name.item = some field) (habort : w.signal.isAborted) :
    ((executeField ctx complete object source (use :: others) path).poll w).1 =
      .done ((⟨object, field, use, others⟩ : FieldPlan σ).abandoned path w.signal.reason) := by
  simp only [executeField, hname, hfield, if_false]
  unfold resolveField look Process.map
  rw [Process.bind, Process.poll, if_pos habort]
  rfl

theorem asks_await (hname : use.node.name.item ≠ "__typename")
    (hfield : object.field? use.node.name.item = some field) (hplan : plan = ⟨object, field, use, others⟩)
    (hgoesOn : w.signal.isAborted = false) {args : Object} (hargs : plan.arguments ctx path = .ok args)
    {resolver : FieldResolver σ} (hresolver : (field.resolve <|> ctx.fieldResolver) = some resolver)
    {action : Action σ (Answer σ (Except FieldError HostValue))}
    (haction : action = resolver ⟨plan.info ctx path, source, args⟩)
    (h : Asks ((await path (w.reaction action).result (plan.resume complete path)).map
      (·.absorbing plan.field.type)) ((w.trace (.resolving path field.name)).after action) [] s v) :
    Asks (executeField ctx complete object source (use :: others) path) w [] s v := by
  subst hplan haction
  simp only [executeField, hname, hfield, if_false]
  unfold resolveField look perform Process.map
  rw [Process.bind]
  refine .step ?_
  rw [if_neg (by simpa using hgoesOn)]
  simp only [hargs, hresolver]
  rw [Process.bind, call]
  exact .step (.step h)

theorem asks_pending (hname : use.node.name.item ≠ "__typename")
    (hfield : object.field? use.node.name.item = some field) (hplan : plan = ⟨object, field, use, others⟩)
    (hgoesOn : w.signal.isAborted = false) {args : Object} (hargs : plan.arguments ctx path = .ok args)
    {resolver : FieldResolver σ} (hresolver : (field.resolve <|> ctx.fieldResolver) = some resolver)
    {action : Action σ (Answer σ (Except FieldError HostValue))}
    (haction : action = resolver ⟨plan.info ctx path, source, args⟩)
    (hanswer : (w.reaction action).result.isReady = false) :
    ∃ polls s, plan.Pending complete path polls s ∧
      Asks (executeField ctx complete object source (use :: others) path) w [] s
        ((w.trace (.resolving path field.name)).after action) := by
  have hasks {s : Completing σ} {v : World σ} (h : Asks _ _ [] s v) :
      Asks (executeField ctx complete object source (use :: others) path) w [] s v :=
    asks_await hname hfield hplan hgoesOn hargs hresolver haction h
  cases hresult : (w.reaction action).result with
  | ready => simp [hresult, Answer.isReady] at hanswer
  | after polls finish => exact ⟨_, _, .after polls none finish, hasks (hresult ▸ .here _ _)⟩
  | never => exact ⟨_, _, .never none, hasks (hresult ▸ .here _ _)⟩

end

/-! ## What was completed -/

theorem ExecutionContext.Task.placed {path : Path} {t : Completing σ} (h : ctx.Task root path t)
    {r : Report σ} (hr : Yields (fun _ => True) t r) : r = .absent ∨ r.Placed path := by
  cases h with
  | operation value =>
    obtain ⟨collected, deferred, fields, rfl, hcollected, hreport⟩ := yields_executeRoot hr
    exact .inr (hreport.placed (places_completeWithin _ _)
      (ExecutionContext.grouped_rootFields hcollected))
  | job hjob =>
    cases yields_execute hr with
    | deferred hreport =>
      obtain ⟨collected, hplace, hfragment⟩ := hjob
      exact .inr (hreport.placed (places_completeWithin _ _) (hplace.grouped.deferred _ hfragment))
    | ended => exact .inl rfl
    | failed he => exact .inr (.failed he)
    | last _ hitem => exact .inr (placed_listItem hitem)
    | more _ hitem => exact .inr (.followed (placed_listItem hitem))

/-- What was reported at a place before is part of the report at the end, and its value stays in the
data. -/
theorem Schedule.keeps {tasks' : List (Completing σ)} {more : List (World σ)} {w w' : World σ}
    (h : Schedule ctx root outside [] first tasks moments w) {i : Nat} {p : Completing σ}
    (hp : tasks[i]? = some p) {q : List Segment} {s : Report σ} (hs : Runs p q (.done s))
    (hrest : Schedule ctx root outside tasks w tasks' more w') {r : Report σ}
    (hr : tasks'[i]? = some (.done r)) :
    r.At q s ∧ ∀ u, s.value? = some u → r.Keeps q u := by
  obtain ⟨left, hleft, hlater⟩ := hrest.later hp
  obtain rfl := Option.some.inj (hleft.symm.trans hr)
  obtain ⟨t, ht, hat⟩ := (hs.later hlater).of_done
  obtain rfl := Process.done.inj ht
  refine ⟨hat, fun u hu => ?_⟩
  obtain ⟨path, t, htask, hearlier⟩ := h.started (List.mem_of_getElem? hp)
  rcases htask.placed ((hearlier.trans hlater).possible rfl) with rfl | hplaced
  · cases hat
    cases hu
  · exact hplaced.keeps hat hu

/-! ## Requests -/

/-- Whether a request stops when it is aborted, in whatever order its tasks are asked, and whatever else
the host does from outside. -/
structure Request.StopsWhenAborted (r : Request σ) (ctx : ExecutionContext σ) (root : ObjectType σ)
    (outside : Action σ Unit → Prop) : Prop where
  /-- From an abort on, nothing is resolved: that is never traced, and if only field resolvers can change
  what `f` observes of the host, it does not change. -/
  silent : ∀ {β : Type} {f : σ → β} {first w tasks moments}, ctx.Hides f →
    (∀ action, outside action → Action.Hides f action) →
    Schedule ctx root outside [] first tasks moments w →
    (first :: moments).Pairwise fun v w => v.signal.isAborted → v.Silent f w
  /-- An abort falls between two steps of a schedule, or one of the tasks is just being asked. -/
  passes : ∀ {first v w tasks moments}, Schedule ctx root outside [] first tasks moments w →
    v ∈ first :: moments → Schedule.Passes ctx root outside [] first v tasks w
  /-- All that is run at an abort is asked next in aborted worlds, as far as it was not reported. -/
  asks : ∀ {first w tasks moments p q} {s : Completing σ},
    Schedule ctx root outside [] first tasks moments w → p ∈ tasks → Runs p q s → w.signal.isAborted →
    (∃ v, Asks p w q s v ∧ v.signal.isAborted) ∨
      ∃ report, s = .done report ∧ Runs (p.poll w).1 q s
  /-- The fields of an object begin when it does, each at its own path. -/
  fields : ∀ {p q w v complete object source path collected key uses} {i : Nat},
    Asks p w q (executeObject ctx complete false object source path collected) v →
    collected.groups[i]? = some (key, uses) →
    ∃ u, Asks p w (q ++ [.key key])
      (executeField ctx complete object source uses (path.key key i)) u
  /-- A field that begins then fails at its own path, whatever its arguments are. -/
  begins : ∀ {p q w v complete object source use others path field},
    Asks p w q (executeField ctx complete object source (use :: others) path) v →
    v.signal.isAborted → use.node.name.item ≠ "__typename" →
    object.field? use.node.name.item = some field →
    Runs (p.poll w).1 q
      (.done ((⟨object, field, use, others⟩ : FieldPlan σ).abandoned path v.signal.reason))
  /-- A field that began before is pending if its resolver does not answer at once. -/
  pends : ∀ {p q w v complete object source use others path field args resolver},
    Asks p w q (executeField ctx complete object source (use :: others) path) v →
    v.signal.isAborted = false → use.node.name.item ≠ "__typename" →
    object.field? use.node.name.item = some field → ∀ plan : FieldPlan σ,
    plan = ⟨object, field, use, others⟩ → plan.arguments ctx path = .ok args →
    (field.resolve <|> ctx.fieldResolver) = some resolver →
    (v.reaction (resolver ⟨plan.info ctx path, source, args⟩)).result.isReady = false →
    ∃ polls s, plan.Pending complete path polls s ∧
      Asks p w q s ((v.trace (.resolving path field.name)).after
        (resolver ⟨plan.info ctx path, source, args⟩))
  /-- A pending field goes on with the answer when it is there. Otherwise it fails in an aborted world,
  and waits in others. -/
  waits : ∀ {p q w v s complete path polls} {plan : FieldPlan σ},
    Asks p w q s v → plan.Pending complete path polls s →
    if polls = some 0 then
      ∃ answer u, s.poll v =
        ((plan.resume complete path answer).map (·.absorbing plan.field.type)).poll u
    else if v.signal.isAborted then
      Runs (p.poll w).1 q (.done (plan.abandoned path v.signal.reason))
    else ∃ left, plan.Pending complete path (polls.map (· - 1)) left ∧ Runs (p.poll w).1 q left
  /-- What was completed before an abort stays in the data. -/
  keeps : ∀ {first w w' tasks tasks' moments more p q} {s report : Report σ} {i : Nat},
    Schedule ctx root outside [] first tasks moments w → tasks[i]? = some p →
    Runs p q (.done s) → Schedule ctx root outside tasks w tasks' more w' →
    tasks'[i]? = some (Process.done report) →
    report.At q s ∧ ∀ u, s.value? = some u → report.Keeps q u
  /-- However the request is answered, that is a schedule, in which the operation is one task. -/
  answered : ∀ {tasks w response w'}, r.executeIncrementally w = some (response, w') →
    ∃ report moments, Schedule ctx root outside tasks w (tasks ++ [Process.done report]) moments w' ∧
      Responds ctx report response ∧ ∀ job ∈ report.outcome.queued, job.Declared ctx root
  /-- The jobs that are left start as tasks of a schedule. -/
  started : ∀ {tasks jobs w}, (∀ job ∈ jobs, Job.Declared ctx root job) → ∃ tasks' moments,
    Schedule ctx root outside tasks w tasks' moments (Delivery.empty.enqueue jobs w) ∧
      (Delivery.empty.start ctx jobs).Follows ctx root tasks.length tasks'
  /-- However the next of them comes to its end, that is a schedule. -/
  delivered : ∀ {d d' : Delivery σ} {n tasks found rounds w w'}, d.Follows ctx root n tasks →
    d.next ctx rounds w = some (found, d', w') →
    ∃ tasks' moments, Schedule ctx root outside tasks w tasks' moments w' ∧
      d'.Follows ctx root n tasks' ∧ ∀ f, found = some f → Process.done f.report ∈ tasks'
  /-- So is the way in which all of them come to their ends. -/
  drained : ∀ {tasks jobs payloads w w'}, (∀ job ∈ jobs, Job.Declared ctx root job) →
    laterPayloads ctx jobs w = some (payloads, w') →
    ∃ (finished : List (Finished σ)) (tasks' : List (Completing σ)) (moments : List (World σ)),
      payloads = finished.filterMap Finished.payload? ∧
      Schedule ctx root outside tasks w tasks' moments w' ∧
      ∀ f ∈ finished, Process.done f.report ∈ tasks'
  /-- No field is resolved while the stream of a subscription is opened. -/
  opened : ∀ {w s w'}, r.subscribe w = some (.ok s, w') →
    (∃ plan events, s = ⟨ctx, root, plan, events⟩) ∧ w.Adds TraceEvent.ResolvesNothing w'
  /-- However an event is answered, that is a schedule. After an abort none is. -/
  subscribed : ∀ {tasks plan events s w result w'},
    (⟨ctx, root, plan, events⟩ : Subscription σ).next w = some (result, s, w') →
    (∃ rest, s = ⟨ctx, root, plan, rest⟩) ∧ (w.signal.isAborted → result = none) ∧
      (w' = w ∨ ∃ report moments,
        Schedule ctx root outside tasks w (tasks ++ [Process.done report]) moments w' ∧
        (result = some ⟨report.outcome.object?, report.outcome.allErrors, none⟩ ∨
          report.outcome.queued ≠ [] ∧ result = some RequestError.severalPayloads.result))

/-- Whatever the callbacks of the host do, and whenever the request is aborted, nothing is resolved after
that: fields that begin or wait fail with the reason, and what was completed stays. -/
theorem stopsWhenAborted {r : Request σ} (hprepare : r.prepare = .ok (ctx, root))
    (outside : Action σ Unit → Prop) : r.StopsWhenAborted ctx root outside where
  silent hctx houtside h := by
    obtain ⟨-, -, howned⟩ := prepare_spec hprepare
    exact (h.obeys howned hctx houtside).1.pairs
  passes h hv := h.passes hv
  asks h hp hs habort := by
    obtain ⟨-, -, howned⟩ := prepare_spec hprepare
    exact h.asks howned hp hs habort
  fields h hgroup := by
    obtain ⟨u, hu⟩ := asks_fields hgroup _
    exact ⟨u, h.trans hu⟩
  begins h habort hname hfield := poll_executeField_aborted hname hfield habort ▸ h.runs
  pends h hgoesOn hname hfield plan hplan hargs hresolver hanswer := by
    obtain ⟨polls, s, hs, hasks⟩ :=
      asks_pending hname hfield hplan hgoesOn hargs hresolver rfl hanswer
    have h := h.trans hasks
    rw [List.append_nil] at h
    exact ⟨polls, s, hs, h⟩
  waits h hs := by
    split
    · next hzero =>
      subst hzero
      exact hs.ready _
    · next hpolls =>
      split
      · next habort => exact hs.fails hpolls habort ▸ h.runs
      · next hgoesOn => exact ⟨_, hs.waits hpolls (by simpa using hgoesOn), h.runs⟩
  keeps h hp hs hrest hr := h.keeps hp hs hrest hr
  answered h := by
    rw [Request.executeIncrementally, hprepare] at h
    exact executePrepared_scheduled h
  started hjobs :=
    ⟨_, _, .turn (Schedule.nil.startAll hjobs) ⟨rfl, rfl, rfl, rfl, rfl⟩,
      (Delivery.follows_empty _).start hjobs⟩
  delivered hd h := hd.found outside (Delivery.finds_of_next h)
  drained hjobs h := laterPayloads_scheduled hjobs h
  opened h := subscribe_adds hprepare h
  subscribed h := next_scheduled h

/-- Answers a name and aborts the request. -/
def sampleAborting : FieldResolver Unit := fun _ _ _ =>
  ⟨.ready (.ok (.data (.string "Ada"))), (), [some "Enough"]⟩

/-- `{ name ... @defer { numbers @stream } }`, with a name that is the last field resolved. -/
def sampleAborted : Request Unit := { sampleRequest [] with fieldResolver := some sampleAborting }

theorem sampleAborted_stops :
    ∃ ctx root initial jobs w payloads v, sampleAborted.prepare = .ok (ctx, root) ∧
      sampleAborted.StopsWhenAborted ctx root (fun _ => True) ∧
      sampleAborted.executeIncrementally { sampleWorld with isWatched := true } =
        some (.incremental initial ctx jobs, w) ∧
      laterPayloads ctx jobs w = some (payloads, v) ∧ w.signal.isAborted ∧
      v.resolutions = [[.key "name"]] ∧
      payloads.flatMap (·.parts.flatMap (·.errors.map (·.message))) = ["Enough"] := by
  have hanswered : (sampleAborted.executeIncrementally { sampleWorld with isWatched := true }).any fun
      | (.incremental _ ctx jobs, w) => (laterPayloads ctx jobs w).any fun (payloads, v) =>
          w.signal.isAborted ∧ v.resolutions = [[.key "name"]] ∧
            payloads.flatMap (·.parts.flatMap (·.errors.map (·.message))) = ["Enough"]
      | (.single _, _) => false := by decide +kernel
  obtain ⟨⟨response, w⟩, h, hlater⟩ := (Option.any_eq_true _ _).mp hanswered
  rcases executeIncrementally_cases h with
    ⟨e, -, rfl⟩ | ⟨ctx, root, report, u, hprepare, -, hresponds, -⟩
  · cases hlater
  · cases hresponds with
    | single => cases hlater
    | @incremental data hdata hjobs =>
      obtain ⟨⟨payloads, v⟩, hpayloads, hv⟩ := (Option.any_eq_true _ _).mp hlater
      obtain ⟨habort, hresolutions, hmessages⟩ := of_decide_eq_true hv
      exact ⟨ctx, root, _, _, w, payloads, v, hprepare, stopsWhenAborted hprepare _, h, hpayloads, habort,
        hresolutions, hmessages⟩

end GraphQL
