import GraphQL.Execution.Subscription
import GraphQL.Proofs.Execution.Process.Progress
import GraphQL.Proofs.Execution.Completion.Mutations

/-! # Tasks of a request

The operation of a request and the jobs that it leaves are tasks, which are asked in some order. A
schedule numbers tasks as they start, so that each can be followed to its end. Whatever order the
executor chooses, and whatever the host does meanwhile, that is a schedule.
-/

namespace GraphQL

open Process Completing

variable {σ : Type}

/-- What is worked on for a request, and its place: the operation on a value at the root, which may be
that of an event, or a job that was left. -/
inductive ExecutionContext.Task (ctx : ExecutionContext σ) (root : ObjectType σ) :
    Path → Completing σ → Prop
  | operation (value : HostValue) : Task ctx root .root (executeRoot (ctx.withRoot value) root)
  | job {job : Job σ} (h : job.Declared ctx root) : Task ctx root job.place (job.execute ctx)

/-- Whether the state of a request is the same in two worlds, which may differ in who waits, who is
asked next and how many jobs were queued. -/
structure World.Alike (v w : World σ) : Prop where
  host : w.host = v.host
  controller : w.controller = v.controller
  isWatched : w.isWatched = v.isWatched
  taken : w.taken = v.taken
  traces : w.traces = v.traces

/-- Whether a request gets from some tasks and a world to others, through the moments in between. At any
time a task may start, or one may be asked, which is then what is left of it; and the host may act from
outside. -/
inductive Schedule (ctx : ExecutionContext σ) (root : ObjectType σ) (outside : Action σ Unit → Prop)
    (begun : List (Completing σ)) (first : World σ) :
    List (Completing σ) → List (World σ) → World σ → Prop
  | nil : Schedule ctx root outside begun first begun [] first
  | start {tasks moments w path p} (h : Schedule ctx root outside begun first tasks moments w)
    (hp : ctx.Task root path p) : Schedule ctx root outside begun first (tasks ++ [p]) moments w
  | ask {tasks : List (Completing σ)} {moments w i p}
    (h : Schedule ctx root outside begun first tasks moments w) (hp : tasks[i]? = some p) :
    Schedule ctx root outside begun first (tasks.set i (p.poll w).1) (moments ++ p.worlds w)
      (p.poll w).2
  | act {tasks moments w action} (h : Schedule ctx root outside begun first tasks moments w)
    (haction : outside action) :
    Schedule ctx root outside begun first tasks (moments ++ [w.after action]) (w.after action)
  | trace {tasks moments w event} (h : Schedule ctx root outside begun first tasks moments w)
    (hevent : event.ResolvesNothing) :
    Schedule ctx root outside begun first tasks (moments ++ [w.trace event]) (w.trace event)
  | turn {tasks moments w v} (h : Schedule ctx root outside begun first tasks moments w)
    (hv : w.Alike v) : Schedule ctx root outside begun first tasks (moments ++ [v]) v

variable {ctx : ExecutionContext σ} {root : ObjectType σ} {outside : Action σ Unit → Prop}
  {first v w w' : World σ} {begun tasks : List (Completing σ)} {moments : List (World σ)}

namespace Schedule

theorem trans {more : List (World σ)} {tasks' : List (Completing σ)}
    (h : Schedule ctx root outside begun first tasks moments w)
    (h' : Schedule ctx root outside tasks w tasks' more w') :
    Schedule ctx root outside begun first tasks' (moments ++ more) w' := by
  induction h' with
  | nil => rwa [List.append_nil]
  | start _ hp ih => exact ih.start hp
  | ask _ hp ih => exact List.append_assoc .. ▸ ih.ask hp
  | act _ haction ih => exact List.append_assoc .. ▸ ih.act haction
  | trace _ hevent ih => exact List.append_assoc .. ▸ ih.trace hevent
  | turn _ hv ih => exact List.append_assoc .. ▸ ih.turn hv

theorem later (h : Schedule ctx root outside begun first tasks moments w) {i : Nat}
    {p : Completing σ} (hp : begun[i]? = some p) : ∃ left, tasks[i]? = some left ∧ p.Later left := by
  induction h with
  | nil => exact ⟨p, hp, .refl⟩
  | start _ _ ih =>
    obtain ⟨left, hleft, hlater⟩ := ih
    have hlt := (List.getElem?_eq_some_iff.mp hleft).1
    exact ⟨left, by rwa [List.getElem?_append_left hlt], hlater⟩
  | @ask tasks _ w j q _ hq ih =>
    obtain ⟨left, hleft, hlater⟩ := ih
    by_cases hij : j = i
    · subst hij
      obtain rfl := Option.some.inj (hq.symm.trans hleft)
      have hlt := (List.getElem?_eq_some_iff.mp hleft).1
      exact ⟨_, List.getElem?_set_self hlt, hlater.asked w⟩
    · exact ⟨left, by rwa [List.getElem?_set_ne hij], hlater⟩
  | act _ _ ih | trace _ _ ih | turn _ _ ih => exact ih

theorem started (h : Schedule ctx root outside [] first tasks moments w) {p : Completing σ}
    (hp : p ∈ tasks) : ∃ path t, ctx.Task root path t ∧ t.Later p := by
  induction h generalizing p with
  | nil => cases hp
  | start _ hq ih =>
    rcases List.mem_append.mp hp with hp | hp
    · exact ih hp
    · obtain rfl := List.mem_singleton.mp hp
      exact ⟨_, _, hq, .refl⟩
  | ask _ hq ih =>
    rcases List.mem_or_eq_of_mem_set hp with hp | rfl
    · exact ih hp
    · obtain ⟨path, t, ht, hlater⟩ := ih (List.mem_of_getElem? hq)
      exact ⟨path, t, ht, hlater.asked _⟩
  | act _ _ ih | trace _ _ ih | turn _ _ ih => exact ih hp

theorem stays (h : Schedule ctx root outside begun first tasks moments w) {r : Report σ}
    (hr : .done r ∈ begun) : .done r ∈ tasks := by
  obtain ⟨i, hi⟩ := List.mem_iff_getElem?.mp hr
  obtain ⟨left, hleft, hlater⟩ := h.later hi
  rw [later_done hlater] at hleft
  exact List.mem_of_getElem? hleft

/-- Whether there is a schedule in which a moment falls between two steps, or one of the tasks is just
being asked. -/
inductive Passes (ctx : ExecutionContext σ) (root : ObjectType σ) (outside : Action σ Unit → Prop)
    (begun : List (Completing σ)) (first v : World σ) : List (Completing σ) → World σ → Prop
  | between {reached tasks earlier later w}
    (h : Schedule ctx root outside begun first reached earlier v)
    (hrest : Schedule ctx root outside reached v tasks later w) :
    Passes ctx root outside begun first v tasks w
  | within {reached tasks : List (Completing σ)} {earlier later u w i p}
    (h : Schedule ctx root outside begun first reached earlier u) (hp : reached[i]? = some p)
    (hv : v ∈ p.worlds u)
    (hrest : Schedule ctx root outside (reached.set i (p.poll u).1) (p.poll u).2 tasks later w) :
    Passes ctx root outside begun first v tasks w

theorem Passes.trans {tasks' : List (Completing σ)}
    (h : Passes ctx root outside begun first v tasks w)
    (h' : Schedule ctx root outside tasks w tasks' moments w') :
    Passes ctx root outside begun first v tasks' w' := by
  cases h with
  | between h hrest => exact .between h (hrest.trans h')
  | within h hp hv hrest => exact .within h hp hv (hrest.trans h')

theorem Passes.last {u : World σ} (h : Schedule ctx root outside begun first tasks (moments ++ [u]) u)
    (hstep : Schedule ctx root outside tasks w tasks [u] u)
    (ih : v ∈ first :: moments → Passes ctx root outside begun first v tasks w)
    (hv : v ∈ first :: (moments ++ [u])) : Passes ctx root outside begun first v tasks u := by
  rw [← List.cons_append, List.mem_append, List.mem_singleton] at hv
  rcases hv with hv | rfl
  · exact (ih hv).trans hstep
  · exact .between h .nil

theorem passes (h : Schedule ctx root outside begun first tasks moments w)
    (hv : v ∈ first :: moments) : Passes ctx root outside begun first v tasks w := by
  induction h with
  | nil =>
    obtain rfl := List.mem_singleton.mp hv
    exact .between .nil .nil
  | start _ hp ih => exact (ih hv).trans (.start .nil hp)
  | ask h hp ih =>
    rw [← List.cons_append, List.mem_append] at hv
    rcases hv with hv | hv
    · exact (ih hv).trans (.ask .nil hp)
    · exact .within h hp hv .nil
  | act h haction ih => exact .last (h.act haction) (.act .nil haction) ih hv
  | trace h hevent ih => exact .last (h.trace hevent) (.trace .nil hevent) ih hv
  | turn h hturn ih => exact .last (h.turn hturn) (.turn .nil hturn) ih hv

variable (ctx root outside) in
theorem asked {i : Nat} {p : Completing σ} (hp : tasks[i]? = some p) (n : Nat) (w : World σ) :
    ∃ moments, Schedule ctx root outside tasks w (tasks.set i (p.asked n w).1) moments
      (p.asked n w).2 := by
  induction n generalizing p tasks w with
  | zero =>
    obtain ⟨hlt, rfl⟩ := List.getElem?_eq_some_iff.mp hp
    exact ⟨[], by rw [Process.asked, List.set_getElem_self]; exact .nil⟩
  | succ n ih =>
    have hlt := (List.getElem?_eq_some_iff.mp hp).1
    obtain ⟨more, hmore⟩ := ih (List.getElem?_set_self hlt) (p.poll w).2
    rw [List.set_set] at hmore
    exact ⟨_, (Schedule.nil.ask hp).trans hmore⟩

variable (outside tasks) in
theorem ran {path : Path} {p : Completing σ} (hp : ctx.Task root path p) {n : Nat} {r : Report σ}
    (h : p.asked n w = (.done r, w')) :
    ∃ moments, Schedule ctx root outside tasks w (tasks ++ [.done r]) moments w' := by
  obtain ⟨moments, hasked⟩ := asked ctx root outside
    (List.getElem?_concat_length : (tasks ++ [p])[tasks.length]? = some p) n w
  rw [h, List.set_append_right _ _ (Nat.le_refl _), Nat.sub_self] at hasked
  exact ⟨_, (Schedule.nil.start hp).trans hasked⟩

theorem startAll {jobs : List (Job σ)} (hjobs : ∀ job ∈ jobs, job.Declared ctx root)
    (h : Schedule ctx root outside begun first tasks moments w) :
    Schedule ctx root outside begun first (tasks ++ jobs.map fun job => job.execute ctx) moments w := by
  induction jobs generalizing tasks with
  | nil => simpa using h
  | cons job jobs ih =>
    obtain ⟨hjob, hjobs⟩ := List.forall_mem_cons.mp hjobs
    simpa using ih hjobs (h.start (.job hjob))

end Schedule

/-! ## Tasks that are delivered -/

/-- Whether the tasks of a delivery are those that come after the first `n` of a schedule. -/
structure Delivery.Follows (ctx : ExecutionContext σ) (root : ObjectType σ) (n : Nat)
    (tasks : List (Completing σ)) (d : Delivery σ) : Prop where
  orderly : d.Orderly (Job.Declared ctx root) (fun _ => True) (fun _ _ => True) ctx
  length : tasks.length = n + d.nextTask
  works : ∀ r ∈ d.running, tasks[n + r.task]? = some r.work

namespace Delivery

variable {d d' : Delivery σ} {n : Nat} {jobs : List (Job σ)}

theorem Follows.start (h : d.Follows ctx root n tasks) (hjobs : ∀ job ∈ jobs, job.Declared ctx root) :
    (d.start ctx jobs).Follows ctx root n (tasks ++ jobs.map fun job => job.execute ctx) where
  orderly := orderly_start (tame_declared ctx root) h.orderly hjobs
  length := by
    rw [List.length_append, List.length_map, h.length, Nat.add_assoc]
    rfl
  works r hr := by
    rcases List.mem_append.mp hr with hr | hr
    · have hlt := (List.getElem?_eq_some_iff.mp (h.works r hr)).1
      rw [List.getElem?_append_left hlt]
      exact h.works r hr
    · obtain ⟨⟨job, task⟩, hmem, rfl⟩ := List.mem_map.mp hr
      obtain ⟨hle, hjob⟩ := List.mem_zipIdx_iff_le_and_getElem?_sub.mp hmem
      rw [List.getElem?_append_right (by rw [h.length]; exact Nat.add_le_add_left hle n), h.length,
        Nat.add_sub_add_left, List.getElem?_map, hjob]
      rfl

theorem follows_empty (tasks : List (Completing σ)) :
    Delivery.empty.Follows ctx root tasks.length tasks where
  orderly := orderly_empty
  length := rfl
  works := by simp [empty]

theorem Follows.goOn (h : d.Follows ctx root n tasks) {current : RunningJob σ}
    (hcurrent : current ∈ d.running) {left : Completing σ}
    (hleft : ∀ report, Yields (fun _ => True) left report → Yields (fun _ => True) current.work report) :
    (d.goOn current.task left).Follows ctx root n (tasks.set (n + current.task) left) where
  orderly := orderly_goOn h.orderly hcurrent (acts_any _) hleft
  length := (List.length_set ..).trans h.length
  works r hr := by
    obtain ⟨old, hold, rfl⟩ := List.mem_map.mp hr
    split
    · next heq =>
      have hlt := (List.getElem?_eq_some_iff.mp (h.works old hold)).1
      rw [heq] at hlt ⊢
      exact List.getElem?_set_self hlt
    · next hne =>
      rw [List.getElem?_set_ne (by omega)]
      exact h.works old hold

theorem Follows.others (h : d.Follows ctx root n tasks) (task : Nat) (left : Completing σ) :
    Follows ctx root n (tasks.set (n + task) left)
      { d with running := d.running.filter (·.task ≠ task) } where
  orderly := orderly_others h.orderly task
  length := (List.length_set ..).trans h.length
  works r hr := by
    obtain ⟨hr, hne⟩ := List.mem_filter.mp hr
    have hne : r.task ≠ task := by simpa using hne
    rw [List.getElem?_set_ne (by omega)]
    exact h.works r hr

variable (outside) in
theorem Follows.asked (h : d.Follows ctx root n tasks) {current : RunningJob σ}
    (hcurrent : current ∈ d.running) {ready : List Nat} {left : Completing σ} {w v : World σ}
    (hpoll : current.work.poll { w with ready, running := some current.task } = (left, v)) :
    ∃ moments, Schedule ctx root outside tasks w (tasks.set (n + current.task) left) moments
      { v with running := none } := by
  have hturn : Schedule ctx root outside tasks w tasks _
      { w with ready, running := some current.task } := .turn .nil ⟨rfl, rfl, rfl, rfl, rfl⟩
  have hasked := hturn.ask (h.works current hcurrent)
  rw [hpoll] at hasked
  exact ⟨_, hasked.turn ⟨rfl, rfl, rfl, rfl, rfl⟩⟩

variable (outside) in
/-- However the next job that comes to its end is found, that is a schedule, at the end of which its
report is there. -/
theorem Follows.found (hd : d.Follows ctx root n tasks) {found : Option (Finished σ)}
    (h : Finds ctx d w found d' w') :
    ∃ tasks' moments, Schedule ctx root outside tasks w tasks' moments w' ∧
      d'.Follows ctx root n tasks' ∧ ∀ f, found = some f → .done f.report ∈ tasks' := by
  induction h generalizing tasks with
  | ended => exact ⟨tasks, [], .nil, hd, by simp⟩
  | @skipped _ w _ ready _ _ _ _ _ _ ih =>
    obtain ⟨tasks', moments, hschedule, hrest⟩ := ih hd
    have hturn : Schedule ctx root outside tasks w tasks _ { w with ready } :=
      .turn .nil ⟨rfl, rfl, rfl, rfl, rfl⟩
    exact ⟨tasks', _, hturn.trans hschedule, hrest⟩
  | @finished d w ready report v others current _ hfind hpoll hothers =>
    subst hothers
    have hcurrent := List.mem_of_find?_eq_some hfind
    obtain ⟨moments, hasked⟩ := hd.asked outside hcurrent hpoll
    have hpossible := (ask_acts Course.any hd.orderly trivial hcurrent hpoll).2.2 report rfl
    have hqueued := declared_of_job (hd.orderly.allowed current hcurrent)
      (hd.orderly.possible current hcurrent report hpossible)
    have hlt := (List.getElem?_eq_some_iff.mp (hd.works current hcurrent)).1
    refine ⟨_, _, (hasked.startAll hqueued).turn ⟨rfl, rfl, rfl, rfl, rfl⟩,
      (hd.others current.task _).start hqueued, fun f hf => ?_⟩
    obtain rfl := Option.some.inj hf
    exact List.mem_append_left _ (List.mem_of_getElem? (List.getElem?_set_self hlt))
  | wentOn _ hfind hpoll _ _ ih =>
    have hcurrent := List.mem_of_find?_eq_some hfind
    obtain ⟨moments, hasked⟩ := hd.asked outside hcurrent hpoll
    have hpossible := (ask_acts Course.any hd.orderly trivial hcurrent hpoll).2.2
    obtain ⟨tasks', more, hschedule, hrest⟩ := ih (hd.goOn hcurrent hpossible)
    exact ⟨tasks', _, hasked.trans hschedule, hrest⟩

variable (outside) in
theorem Follows.history {count : Nat} {finished : List (Finished σ)}
    (hd : d.Follows ctx root n tasks) (h : d.history ctx count w = some (finished, w')) :
    ∃ tasks' moments, Schedule ctx root outside tasks w tasks' moments w' ∧
      ∀ f ∈ finished, .done f.report ∈ tasks' := by
  induction count generalizing d w tasks finished with
  | zero => cases h
  | succ count ih =>
    rcases history_succ h with ⟨rfl, d', hnext⟩ | ⟨f, later, d', v, rfl, hnext, hlater⟩
    · obtain ⟨tasks', moments, hschedule, -, -⟩ := hd.found outside (finds_of_next hnext)
      exact ⟨tasks', moments, hschedule, by simp⟩
    · obtain ⟨tasks', moments, hschedule, hd', hreport⟩ :=
        hd.found outside (finds_of_next hnext)
      obtain ⟨tasks'', more, hrest, hreports⟩ := ih hd' hlater
      refine ⟨tasks'', _, hschedule.trans hrest, List.forall_mem_cons.mpr ⟨?_, hreports⟩⟩
      exact hrest.stays (hreport f rfl)

end Delivery

/-! ## Requests -/

section

variable {r : Request σ} {response : Response σ}

theorem executePrepared_scheduled
    (h : Request.executePrepared ctx root w = some (response, w')) :
    ∃ report moments, Schedule ctx root outside tasks w (tasks ++ [.done report]) moments w' ∧
      Responds ctx report response ∧ ∀ job ∈ report.outcome.queued, job.Declared ctx root := by
  obtain ⟨report, v, n, errors, jobs, hasked, rfl, hresponds⟩ := executePrepared_asked h
  have hbegin : Schedule ctx root outside tasks w tasks _ (w.trace (.executing ctx.operation.name?)) :=
    .trace .nil trivial
  obtain ⟨moments, hran⟩ := Schedule.ran outside tasks (.operation ctx.root) hasked
  refine ⟨report, _, (hbegin.trans hran).trace trivial, hresponds, ?_⟩
  have hyields : Yields (fun _ => True) (executeRoot ctx root) report :=
    (later_of_asked hasked).possible rfl
  exact declared_of_queued (jobsDeclared_executeRoot hyields)

theorem laterPayloads_scheduled {jobs : List (Job σ)} (hjobs : ∀ job ∈ jobs, job.Declared ctx root)
    {payloads : List Payload} (h : laterPayloads ctx jobs w = some (payloads, w')) :
    ∃ (finished : List (Finished σ)) (tasks' : List (Completing σ)) (moments : List (World σ)),
      payloads = finished.filterMap Finished.payload? ∧
      Schedule ctx root outside tasks w tasks' moments w' ∧
      ∀ f ∈ finished, .done f.report ∈ tasks' := by
  simp only [laterPayloads, runJobs, Option.bind_eq_bind, Option.bind_eq_some_iff] at h
  obtain ⟨⟨finished, v⟩, hrun, h⟩ := h
  obtain ⟨rfl, rfl⟩ : finished.filterMap Finished.payload? = payloads ∧ v = w' := by simpa using h
  obtain ⟨tasks', moments, hschedule, hreports⟩ :=
    ((Delivery.follows_empty tasks).start hjobs).history outside hrun
  have hstart : Schedule ctx root outside tasks w _ _ (Delivery.empty.enqueue jobs w) :=
    .turn (Schedule.nil.startAll hjobs) ⟨rfl, rfl, rfl, rfl, rfl⟩
  exact ⟨finished, tasks', _, rfl, hstart.trans hschedule, hreports⟩

theorem subscribe_adds (hprepare : r.prepare = .ok (ctx, root)) {s : Subscription σ}
    (h : r.subscribe w = some (.ok s, w')) :
    (∃ plan events, s = ⟨ctx, root, plan, events⟩) ∧ w.Adds TraceEvent.ResolvesNothing w' := by
  have hE := permits_adds (σ := σ) TraceEvent.ResolvesNothing
  simp only [Request.subscribe, hprepare] at h
  split at h
  · simp at h
  · obtain ⟨collected, -, h⟩ := Option.bind_eq_some_iff.mp h
    split at h
    · simp at h
    · next plan _ =>
      obtain ⟨⟨opened, v⟩, hrun, h⟩ := Option.bind_eq_some_iff.mp h
      cases opened with
      | error e => simp at h
      | ok events =>
        obtain ⟨rfl, rfl⟩ : _ = s ∧ v.trace _ = w' := by simpa using h
        have hacts : Acts (fun _ => True) (World.Adds TraceEvent.ResolvesNothing)
            (Subscription.openStream ctx plan) := by
          unfold Subscription.openStream
          dsimp only
          split
          · trivial
          · split
            · trivial
            · exact acts_call hE (Callback.acts_adds _ _) trivial fun _ => trivial
        refine ⟨⟨plan, events, rfl⟩, ?_⟩
        exact hE.course.trans (run_acts hE.course trivial hacts hrun) (hE.trace _ v trivial trivial)

theorem next_scheduled {plan : FieldPlan σ} {events : List Event} {s : Subscription σ}
    {result : Option ExecutionResult}
    (h : (⟨ctx, root, plan, events⟩ : Subscription σ).next w = some (result, s, w')) :
    (∃ rest, s = ⟨ctx, root, plan, rest⟩) ∧ (w.signal.isAborted → result = none) ∧
      (w' = w ∨ ∃ report moments,
        Schedule ctx root outside tasks w (tasks ++ [.done report]) moments w' ∧
        (result = some ⟨report.outcome.object?, report.outcome.allErrors, none⟩ ∨
          report.outcome.queued ≠ [] ∧ result = some RequestError.severalPayloads.result)) := by
  simp only [Subscription.next] at h
  split at h
  · -- It was aborted.
    obtain ⟨rfl, rfl, rfl⟩ : none = result ∧ _ = s ∧ w = w' := by simpa using h
    exact ⟨⟨events, rfl⟩, fun _ => rfl, .inl rfl⟩
  · next hgoesOn =>
    split at h
    · -- There are no more events.
      obtain ⟨rfl, rfl, rfl⟩ : none = result ∧ _ = s ∧ w = w' := by simpa using h
      exact ⟨⟨_, rfl⟩, fun _ => rfl, .inl rfl⟩
    · next e rest =>
      split at h
      · -- The event is a failure, which is answered without any work.
        obtain ⟨-, rfl, rfl⟩ : _ = result ∧ _ = s ∧ w = w' := by simpa using h
        exact ⟨⟨rest, rfl⟩, fun habort => absurd habort hgoesOn, .inl rfl⟩
      · next value _ =>
        obtain ⟨⟨answer, v⟩, hevent, h⟩ := Option.bind_eq_some_iff.mp h
        obtain ⟨rfl, rfl, rfl⟩ : some answer = result ∧ _ = s ∧ v = w' := by simpa using h
        obtain ⟨⟨report, u⟩, hrun, hanswer⟩ := Option.bind_eq_some_iff.mp hevent
        obtain ⟨n, hasked⟩ := asked_of_run hrun
        refine ⟨⟨rest, rfl⟩, fun habort => absurd habort hgoesOn, .inr ⟨report, ?_⟩⟩
        obtain ⟨moments, hran⟩ := Schedule.ran outside tasks (.operation value) hasked
        dsimp only at hanswer
        split at hanswer
        · next hseveral =>
          obtain ⟨rfl, rfl⟩ : _ = answer ∧ u = v := by simpa using hanswer
          refine ⟨moments, hran, .inr ⟨?_, rfl⟩⟩
          rintro hnone
          simp [hnone] at hseveral
        · obtain ⟨rfl, rfl⟩ : _ = answer ∧ u = v := by simpa using hanswer
          exact ⟨moments, hran, .inl rfl⟩

end

end GraphQL
