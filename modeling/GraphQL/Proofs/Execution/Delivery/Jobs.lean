import Mathlib.Data.List.Nodup
import GraphQL.Execution.Run
import GraphQL.Proofs.Execution.Process.Results
import GraphQL.Proofs.Execution.Report

/-! # How jobs come to their ends

Tasks take turns in an order that the host decides. Whatever it is, each job that was left comes to
its end once, with a report that its work yields, and leaves the jobs that were queued meanwhile.
-/

namespace GraphQL

open Process

variable {σ : Type}

/-- Whether jobs may come to their ends in the order that is told, with some left at last. -/
inductive Unfolds (I : World σ → Prop) (ctx : ExecutionContext σ) :
    List (Job σ) → List (Finished σ) → List (Job σ) → Prop
  | refl {jobs} : Unfolds I ctx jobs [] jobs
  | cons {jobs others : List (Job σ)} {finished rest left}
    (hjobs : jobs.Perm (finished.job :: others))
    (h : Yields I (finished.job.execute ctx) finished.report)
    (hrest : Unfolds I ctx (others ++ finished.report.outcome.queued) rest left) :
    Unfolds I ctx jobs (finished :: rest) left

namespace Unfolds

variable {I : World σ → Prop} {ctx : ExecutionContext σ} {jobs left : List (Job σ)}
  {history : List (Finished σ)}

/-- What holds of all jobs at first and of those that such jobs leave holds of all jobs. -/
theorem invariant {Q : Job σ → Prop} {P : Finished σ → Prop}
    (hstep : ∀ finished, Q finished.job → Yields I (finished.job.execute ctx) finished.report →
      P finished ∧ ∀ job ∈ finished.report.outcome.queued, Q job)
    (hQ : ∀ job ∈ jobs, Q job) (h : Unfolds I ctx jobs history left) :
    ∀ finished ∈ history, P finished := by
  induction h with
  | refl => simp
  | cons hjobs h hrest ih =>
    have hall := fun job hjob => hQ job (hjobs.mem_iff.mpr hjob)
    obtain ⟨hfirst, hothers⟩ := List.forall_mem_cons.mp hall
    obtain ⟨hfinished, hqueued⟩ := hstep _ hfirst h
    exact List.forall_mem_cons.mpr ⟨hfinished, ih (List.forall_mem_append.mpr ⟨hothers, hqueued⟩)⟩

theorem concat {others : List (Job σ)} {finished : Finished σ} (h : Unfolds I ctx jobs history left)
    (hleft : left.Perm (finished.job :: others))
    (hfinished : Yields I (finished.job.execute ctx) finished.report) :
    Unfolds I ctx jobs (history ++ [finished]) (others ++ finished.report.outcome.queued) := by
  induction h with
  | refl => exact .cons hleft hfinished .refl
  | cons hjobs h hrest ih => exact .cons hjobs h (ih hleft)

/-- What came to its end and what is left is what there was at first and what was queued since. -/
theorem conserved (h : Unfolds I ctx jobs history left) :
    (history.map (·.job) ++ left).Perm
      (jobs ++ history.flatMap fun f => f.report.outcome.queued) := by
  induction h with
  | refl => simp
  | @cons jobs others f rest left hperm h hrest ih =>
    rw [List.map_cons, List.cons_append, List.flatMap_cons, ← List.append_assoc]
    refine (ih.cons f.job).trans ?_
    rw [← List.cons_append, ← List.cons_append]
    exact (hperm.symm.append_right _).append_right _

end Unfolds

/-- Whether jobs of a kind act along a course, and leave only jobs of the same kind. -/
structure Tame (Q : Job σ → Prop) (P : World σ → Prop) (E : World σ → World σ → Prop)
    (ctx : ExecutionContext σ) : Prop where
  acts {job} : Q job → Acts P E (job.execute ctx)
  leaves {job r} : Q job → Yields (fun _ => True) (job.execute ctx) r → ∀ j ∈ r.outcome.queued, Q j

theorem tame_any (ctx : ExecutionContext σ) :
    Tame (fun _ => True) (fun _ => True) (fun _ _ => True) ctx :=
  ⟨fun _ => acts_any _, fun _ _ _ _ => trivial⟩

namespace Delivery

def jobs (d : Delivery σ) : List (Job σ) := d.running.map (·.job)

variable {Q : Job σ → Prop} {P I : World σ → Prop} {E : World σ → World σ → Prop}
  {first last : World σ} {ctx : ExecutionContext σ}

/-- Whether tasks work on what is left of their jobs, as far as their results tell. -/
def Sound (I : World σ → Prop) (ctx : ExecutionContext σ) (d : Delivery σ) : Prop :=
  ∀ r ∈ d.running, ∀ report, Yields I r.work report → Yields I (r.job.execute ctx) report

/-- Whether each task has a number of its own, and does work of the given kind. -/
structure Orderly (Q : Job σ → Prop) (P : World σ → Prop) (E : World σ → World σ → Prop)
    (ctx : ExecutionContext σ) (d : Delivery σ) : Prop where
  distinct : (d.running.map (·.task)).Nodup
  numbered : ∀ r ∈ d.running, r.task < d.nextTask
  allowed : ∀ r ∈ d.running, Q r.job
  acts : ∀ r ∈ d.running, Acts P E r.work
  possible : Sound (fun _ => True) ctx d

theorem orderly_empty : Orderly Q P E ctx .empty where
  distinct := .nil
  numbered := by simp [empty]
  allowed := by simp [empty]
  acts := by simp [empty]
  possible := by simp [Sound, empty]

/-! ### Starting jobs -/

theorem jobs_start (jobs : List (Job σ)) (d : Delivery σ) :
    (d.start ctx jobs).jobs = d.jobs ++ jobs := by
  simp only [Delivery.jobs, start, List.map_append, List.map_map]
  congr 1
  exact List.zipIdx_map_fst d.nextTask jobs

theorem mem_start {jobs : List (Job σ)} {d : Delivery σ} {r : RunningJob σ}
    (hr : r ∈ (d.start ctx jobs).running) :
    r ∈ d.running ∨ r.job ∈ jobs ∧ r.work = r.job.execute ctx ∧ d.nextTask ≤ r.task ∧
      r.task < d.nextTask + jobs.length := by
  simp only [start, List.mem_append, List.mem_map] at hr
  rcases hr with hr | ⟨⟨job, task⟩, hmem, rfl⟩
  · exact .inl hr
  · have hle := List.le_snd_of_mem_zipIdx hmem
    have hlt := List.snd_lt_add_of_mem_zipIdx hmem
    refine .inr ⟨List.fst_mem_of_mem_zipIdx hmem, rfl, hle, ?_⟩
    simpa [Nat.add_comm] using hlt

theorem sound_start {d : Delivery σ} (h : Sound I ctx d) (jobs : List (Job σ)) :
    Sound I ctx (d.start ctx jobs) := by
  intro r hr report hreport
  rcases mem_start hr with hr | ⟨-, hwork, -⟩
  · exact h r hr report hreport
  · rwa [hwork] at hreport

theorem orderly_start (hQ : Tame Q P E ctx) {d : Delivery σ} (h : Orderly Q P E ctx d)
    {jobs : List (Job σ)} (hjobs : ∀ job ∈ jobs, Q job) : Orderly Q P E ctx (d.start ctx jobs) where
  distinct := by
    simp only [start, List.map_append, List.map_map, Function.comp_def]
    have hnew : (jobs.zipIdx d.nextTask).map (fun j => j.2) = List.range' d.nextTask jobs.length :=
      List.zipIdx_map_snd d.nextTask jobs
    rw [hnew, List.nodup_append]
    refine ⟨h.distinct, List.nodup_range', ?_⟩
    intro task htask other hother heq
    obtain ⟨r, hr, rfl⟩ := List.mem_map.mp htask
    have hold := h.numbered r hr
    rw [List.mem_range'] at hother
    omega
  numbered r hr := by
    change r.task < d.nextTask + jobs.length
    rcases mem_start hr with hr | ⟨-, -, -, hlt⟩
    · have hold := h.numbered r hr
      omega
    · exact hlt
  allowed r hr := by
    rcases mem_start hr with hr | ⟨hjob, -⟩
    · exact h.allowed r hr
    · exact hjobs _ hjob
  acts r hr := by
    rcases mem_start hr with hr | ⟨hjob, hwork, -⟩
    · exact h.acts r hr
    · exact hwork ▸ hQ.acts (hjobs _ hjob)
  possible := sound_start h.possible jobs

/-! ### Going on -/

/-- The work of one task is what is left of it. -/
def goOn (d : Delivery σ) (task : Nat) (work : Completing σ) : Delivery σ :=
  { d with running := d.running.map fun r => if r.task = task then { r with work } else r }

theorem jobs_goOn (d : Delivery σ) (task : Nat) (work : Completing σ) :
    (d.goOn task work).jobs = d.jobs := by
  simp only [Delivery.jobs, goOn, List.map_map]
  exact List.map_congr_left fun r _ => by simp only [Function.comp]; split <;> rfl

theorem mem_goOn {d : Delivery σ} (hdistinct : (d.running.map (·.task)).Nodup)
    {current r : RunningJob σ} (hcurrent : current ∈ d.running) {work : Completing σ}
    (hr : r ∈ (d.goOn current.task work).running) :
    r ∈ d.running ∨ r = { current with work } := by
  obtain ⟨old, hold, rfl⟩ := List.mem_map.mp hr
  split
  · next heq => exact .inr (by rw [List.inj_on_of_nodup_map hdistinct hold hcurrent heq])
  · exact .inl hold

theorem sound_goOn {d : Delivery σ} (hdistinct : (d.running.map (·.task)).Nodup)
    (h : Sound I ctx d) {current : RunningJob σ} (hcurrent : current ∈ d.running)
    {work : Completing σ} (hwork : ∀ report, Yields I work report → Yields I current.work report) :
    Sound I ctx (d.goOn current.task work) := by
  intro r hr
  rcases mem_goOn hdistinct hcurrent hr with hr | rfl
  · exact h r hr
  · exact fun report hreport => h current hcurrent report (hwork report hreport)

theorem orderly_goOn {d : Delivery σ} (h : Orderly Q P E ctx d) {current : RunningJob σ}
    (hcurrent : current ∈ d.running) {work : Completing σ} (hacts : Acts P E work)
    (hwork : ∀ report, Yields (fun _ => True) work report →
      Yields (fun _ => True) current.work report) :
    Orderly Q P E ctx (d.goOn current.task work) where
  distinct := by
    have htasks : (d.goOn current.task work).running.map (·.task) = d.running.map (·.task) := by
      simp only [goOn, List.map_map]
      exact List.map_congr_left fun r _ => by simp only [Function.comp]; split <;> rfl
    exact htasks ▸ h.distinct
  numbered r hr := by
    change r.task < d.nextTask
    rcases mem_goOn h.distinct hcurrent hr with hr | rfl
    · exact h.numbered r hr
    · exact h.numbered current hcurrent
  allowed r hr := by
    rcases mem_goOn h.distinct hcurrent hr with hr | rfl
    · exact h.allowed r hr
    · exact h.allowed current hcurrent
  acts r hr := by
    rcases mem_goOn h.distinct hcurrent hr with hr | rfl
    · exact h.acts r hr
    · exact hacts
  possible := sound_goOn h.distinct h.possible hcurrent hwork

/-! ### Coming to an end -/

theorem orderly_others {d : Delivery σ} (h : Orderly Q P E ctx d) (task : Nat) :
    Orderly Q P E ctx { d with running := d.running.filter (·.task ≠ task) } where
  distinct := (List.filter_sublist.map _).nodup h.distinct
  numbered r hr := h.numbered r (List.mem_of_mem_filter hr)
  allowed r hr := h.allowed r (List.mem_of_mem_filter hr)
  acts r hr := h.acts r (List.mem_of_mem_filter hr)
  possible r hr := h.possible r (List.mem_of_mem_filter hr)

theorem split_running {d : Delivery σ} (hdistinct : (d.running.map (·.task)).Nodup)
    {current : RunningJob σ} (hcurrent : current ∈ d.running) :
    ∃ before after, d.running = before ++ current :: after ∧
      d.running.filter (·.task ≠ current.task) = before ++ after ∧
      ∀ work, (d.goOn current.task work).running = before ++ { current with work } :: after := by
  obtain ⟨before, after, hrunning⟩ := List.append_of_mem hcurrent
  rw [hrunning, List.map_append, List.map_cons, List.nodup_append, List.nodup_cons] at hdistinct
  obtain ⟨-, ⟨hafter, -⟩, hbefore⟩ := hdistinct
  have hneBefore : ∀ r ∈ before, r.task ≠ current.task := fun r hr =>
    hbefore r.task (List.mem_map_of_mem hr) current.task (by simp)
  have hneAfter : ∀ r ∈ after, r.task ≠ current.task := fun r hr heq =>
    hafter (heq ▸ List.mem_map_of_mem hr)
  have hkeep {rs : List (RunningJob σ)} (h : ∀ r ∈ rs, r.task ≠ current.task) :
      rs.filter (·.task ≠ current.task) = rs :=
    List.filter_eq_self.mpr fun r hr => by simpa using h r hr
  have hsame {rs : List (RunningJob σ)} (h : ∀ r ∈ rs, r.task ≠ current.task)
      (work : Completing σ) :
      rs.map (fun r => if r.task = current.task then { r with work } else r) = rs :=
    (List.map_congr_left fun r hr => if_neg (h r hr)).trans (List.map_id rs)
  refine ⟨before, after, hrunning, ?_, fun work => ?_⟩
  · rw [hrunning, List.filter_append, List.filter_cons_of_neg (by simp), hkeep hneBefore,
      hkeep hneAfter]
  · rw [goOn, hrunning, List.map_append, List.map_cons, hsame hneBefore, hsame hneAfter, if_pos rfl]

theorem perm_others {d : Delivery σ} (hdistinct : (d.running.map (·.task)).Nodup)
    {current : RunningJob σ} (hcurrent : current ∈ d.running) :
    d.jobs.Perm (current.job :: (d.running.filter (·.task ≠ current.task)).map (·.job)) := by
  obtain ⟨before, after, hrunning, hothers, -⟩ := split_running hdistinct hcurrent
  rw [hothers, Delivery.jobs, hrunning]
  exact List.perm_middle.map _

/-! ### Runs -/

/-- How asking tasks finds the next job that comes to its end, or that there are no more. -/
inductive Finds (ctx : ExecutionContext σ) :
    Delivery σ → World σ → Option (Finished σ) → Delivery σ → World σ → Prop
  | ended {d w} (hover : d.isOver) : Finds ctx d w none d w
  | skipped {d w task ready found d' w'} (hready : w.ready = task :: ready)
    (hfind : d.running.find? (·.task = task) = none)
    (h : Finds ctx d { w with ready } found d' w') : Finds ctx d w found d' w'
  | finished {d w ready report v} {others : Delivery σ} {current : RunningJob σ}
    (hready : w.ready = current.task :: ready)
    (hfind : d.running.find? (·.task = current.task) = some current)
    (hpoll : current.work.poll { w with ready, running := some current.task } = (.done report, v))
    (hothers : others = { d with running := d.running.filter (·.task ≠ current.task) }) :
    Finds ctx d w
      (some ⟨current.job, report, !(others.start ctx report.outcome.queued).isOver⟩)
      (others.start ctx report.outcome.queued)
      (others.enqueue report.outcome.queued { v with running := none })
  | wentOn {d w ready left v found d' w'} {current : RunningJob σ}
    (hready : w.ready = current.task :: ready)
    (hfind : d.running.find? (·.task = current.task) = some current)
    (hpoll : current.work.poll { w with ready, running := some current.task } = (left, v))
    (hleft : left.result? = none)
    (h : Finds ctx (d.goOn current.task left) { v with running := none } found d' w') :
    Finds ctx d w found d' w'

theorem finds_of_next {rounds : Nat} {d d' : Delivery σ} {w w' : World σ}
    {found : Option (Finished σ)} (h : d.next ctx rounds w = some (found, d', w')) :
    Finds ctx d w found d' w' := by
  induction rounds generalizing d w with
  | zero => simp [next] at h
  | succ rounds ih =>
    simp only [next] at h
    split at h
    · -- No task is ready.
      split at h
      · next hover =>
        obtain ⟨rfl, rfl, rfl⟩ : none = found ∧ d = d' ∧ w = w' := by simpa using h
        exact .ended hover
      · simp at h
    · next task ready hready =>
      split at h
      · next hfind => exact .skipped hready hfind (ih h)
      · next current hfind =>
        obtain rfl : current.task = task := by simpa using List.find?_some hfind
        split at h
        · next report hreport =>
          -- The task came to its end.
          simp only [Option.some.injEq, Prod.mk.injEq] at h
          obtain ⟨rfl, rfl, rfl⟩ := h
          exact .finished hready hfind (Prod.ext hreport rfl) rfl
        · next hleft =>
          -- The task has to wait.
          refine .wentOn hready hfind rfl ?_ (ih h)
          cases hpoll : (current.work.poll { w with ready, running := some current.task }).1 with
          | done report => exact (hleft report hpoll).elim
          | _ => rfl

theorem history_succ {count : Nat} {d : Delivery σ} {w w' : World σ} {history : List (Finished σ)}
    (h : d.history ctx (count + 1) w = some (history, w')) :
    (history = [] ∧ ∃ d', d.next ctx ctx.bounds.rounds w = some (none, d', w')) ∨
      ∃ finished later d' v, history = finished :: later ∧
        d.next ctx ctx.bounds.rounds w = some (some finished, d', v) ∧
        d'.history ctx count v = some (later, w') := by
  rw [Delivery.history, Option.bind_eq_bind, Option.bind_eq_some_iff] at h
  obtain ⟨⟨found, d', v⟩, hnext, h⟩ := h
  cases found with
  | none =>
    obtain ⟨rfl, rfl⟩ : [] = history ∧ v = w' := by simpa using h
    exact .inl ⟨rfl, d', hnext⟩
  | some finished =>
    simp only [Option.bind_eq_bind, Option.bind_eq_some_iff] at h
    obtain ⟨⟨later, v'⟩, hlater, h⟩ := h
    obtain ⟨rfl, rfl⟩ : finished :: later = history ∧ v' = w' := by simpa using h
    exact .inr ⟨finished, later, d', v, rfl, hnext, hlater⟩

/-- What may come next: nothing, when no jobs are left, or the end of one of them. -/
def Next (I : World σ → Prop) (ctx : ExecutionContext σ) (d d' : Delivery σ) :
    Option (Finished σ) → Prop
  | none => d.jobs = []
  | some finished => ∃ others, d.jobs.Perm (finished.job :: others) ∧
      Yields I (finished.job.execute ctx) finished.report ∧
      d'.jobs = others ++ finished.report.outcome.queued ∧ Sound I ctx d'

theorem course_enqueue (hE : Course P E) (jobs : List (Job σ)) (d : Delivery σ) (w : World σ) :
    E w (d.enqueue jobs w) := hE.tasks rfl rfl rfl rfl rfl

variable (hE : Course P E) (hQ : Tame Q P E ctx)

include hE hQ

omit hQ in
theorem ask_acts {d : Delivery σ} (hd : Orderly Q P E ctx d) {w v : World σ} (hP : P w)
    {current : RunningJob σ} (hcurrent : current ∈ d.running) {ready : List Nat}
    {left : Completing σ}
    (hpoll : current.work.poll { w with ready, running := some current.task } = (left, v)) :
    E w { v with running := none } ∧ Acts P E left ∧
      ∀ report, Yields (fun _ => True) left report → Yields (fun _ => True) current.work report := by
  have hasked : E w { w with ready, running := some current.task } := hE.tasks rfl rfl rfl rfl rfl
  obtain ⟨hpolled, hleft⟩ := poll_acts hE (hd.acts current hcurrent)
    { w with ready, running := some current.task } (hE.keeps hP hasked)
  have hpossible {report : Report σ} := poll_possible (p := current.work)
    (w := { w with ready, running := some current.task }) (r := report)
  rw [hpoll] at hpolled hleft hpossible
  exact ⟨hE.trans hasked (hE.trans hpolled (hE.tasks rfl rfl rfl rfl rfl)), hleft,
    fun report => hpossible⟩

omit hQ in
theorem ask_yields {d : Delivery σ} (hP : P first) (hd : Orderly Q P E ctx d) {w v : World σ}
    (hfirst : E first w) (hlast : E { v with running := none } last) {current : RunningJob σ}
    (hcurrent : current ∈ d.running) {ready : List Nat} {left : Completing σ}
    (hpoll : current.work.poll { w with ready, running := some current.task } = (left, v)) :
    ∀ report, Yields (Between E first last) left report →
      Yields (Between E first last) current.work report := by
  intro report hreport
  have hpause : E v { v with running := none } := hE.tasks rfl rfl rfl rfl rfl
  have hyields : E _ last → _ → _ := poll_yields hE hP (hd.acts current hcurrent)
    { w with ready, running := some current.task } report
    (hE.trans hfirst (hE.tasks rfl rfl rfl rfl rfl))
  rw [hpoll] at hyields
  exact hyields (hE.trans hpause hlast) hreport

theorem finds_acts {d d' : Delivery σ} {w w' : World σ} {found : Option (Finished σ)}
    (hd : Orderly Q P E ctx d) (hP : P w) (h : Finds ctx d w found d' w') :
    E w w' ∧ Orderly Q P E ctx d' := by
  induction h with
  | ended => exact ⟨hE.refl _, hd⟩
  | @skipped d w _ ready _ _ _ _ _ _ ih =>
    have hpop : E w { w with ready } := hE.tasks rfl rfl rfl rfl rfl
    obtain ⟨hrest, hd'⟩ := ih hd (hE.keeps hP hpop)
    exact ⟨hE.trans hpop hrest, hd'⟩
  | @finished _ _ _ report _ _ current _ hfind hpoll hothers =>
    subst hothers
    have hcurrent := List.mem_of_find?_eq_some hfind
    obtain ⟨hdone, -, hpossible⟩ := ask_acts hE hd hP hcurrent hpoll
    refine ⟨hE.trans hdone (course_enqueue hE _ _ _), ?_⟩
    have hyields := hd.possible current hcurrent report (hpossible report rfl)
    exact orderly_start hQ (orderly_others hd current.task)
      (hQ.leaves (hd.allowed current hcurrent) hyields)
  | wentOn _ hfind hpoll _ _ ih =>
    have hcurrent := List.mem_of_find?_eq_some hfind
    obtain ⟨hdone, hleft, hpossible⟩ := ask_acts hE hd hP hcurrent hpoll
    obtain ⟨hrest, hd'⟩ := ih (orderly_goOn hd hcurrent hleft hpossible) (hE.keeps hP hdone)
    exact ⟨hE.trans hdone hrest, hd'⟩

theorem next_acts {rounds : Nat} {d d' : Delivery σ} {w w' : World σ} {found : Option (Finished σ)}
    (hd : Orderly Q P E ctx d) (hP : P w) (h : d.next ctx rounds w = some (found, d', w')) :
    E w w' ∧ Orderly Q P E ctx d' := finds_acts hE hQ hd hP (finds_of_next h)

theorem finds_spec {d d' : Delivery σ} {w w' : World σ} {found : Option (Finished σ)}
    (hP : P first) (hd : Orderly Q P E ctx d) (hsound : Sound (Between E first last) ctx d)
    (hfirst : E first w) (hlast : E w' last) (h : Finds ctx d w found d' w') :
    Next (Between E first last) ctx d d' found := by
  induction h with
  | ended hover => simpa [Next, Delivery.jobs, isOver] using hover
  | skipped _ _ _ ih => exact ih hd hsound (hE.trans hfirst (hE.tasks rfl rfl rfl rfl rfl)) hlast
  | @finished _ _ _ report v _ current _ hfind hpoll hothers =>
    subst hothers
    have hcurrent := List.mem_of_find?_eq_some hfind
    have hstarted : E { v with running := none } last := hE.trans (course_enqueue hE _ _ _) hlast
    have hreport := ask_yields hE hP hd hfirst hstarted hcurrent hpoll report rfl
    refine ⟨_, perm_others hd.distinct hcurrent, hsound current hcurrent report hreport, ?_, ?_⟩
    · exact jobs_start _ _
    · exact sound_start (fun r hr => hsound r (List.mem_of_mem_filter hr)) _
  | @wentOn d w _ _ v _ _ _ current _ hfind hpoll _ h ih =>
    have hcurrent := List.mem_of_find?_eq_some hfind
    obtain ⟨hdone, hleft, hpossible⟩ := ask_acts hE hd (hE.keeps hP hfirst) hcurrent hpoll
    have hd' := orderly_goOn hd hcurrent hleft hpossible
    have hfirst' := hE.trans hfirst hdone
    obtain ⟨hrest, -⟩ := finds_acts hE hQ hd' (hE.keeps hP hfirst') h
    have hsound' := sound_goOn hd.distinct hsound hcurrent
      (ask_yields hE hP hd hfirst (hE.trans hrest hlast) hcurrent hpoll)
    have hnext := ih hd' hsound' hfirst' hlast
    unfold Next at hnext ⊢
    rwa [jobs_goOn] at hnext

theorem next_spec {rounds : Nat} {d d' : Delivery σ} {w w' : World σ} {found : Option (Finished σ)}
    (hP : P first) (hd : Orderly Q P E ctx d) (hsound : Sound (Between E first last) ctx d)
    (hfirst : E first w) (hlast : E w' last)
    (h : d.next ctx rounds w = some (found, d', w')) :
    Next (Between E first last) ctx d d' found :=
  finds_spec hE hQ hP hd hsound hfirst hlast (finds_of_next h)

theorem history_acts {count : Nat} {d : Delivery σ} {w w' : World σ} {history : List (Finished σ)}
    (hd : Orderly Q P E ctx d) (hP : P w) (h : d.history ctx count w = some (history, w')) :
    E w w' := by
  induction count generalizing d w history with
  | zero => simp [Delivery.history] at h
  | succ count ih =>
    rcases history_succ h with ⟨-, d', hnext⟩ | ⟨finished, later, d', v, -, hnext, hlater⟩
    · exact (next_acts hE hQ hd hP hnext).1
    · obtain ⟨hw, hd'⟩ := next_acts hE hQ hd hP hnext
      exact hE.trans hw (ih hd' (hE.keeps hP hw) hlater)

theorem history_unfolds {count : Nat} {d : Delivery σ} {w : World σ} {history : List (Finished σ)}
    (hP : P first) (hd : Orderly Q P E ctx d) (hsound : Sound (Between E first last) ctx d)
    (hfirst : E first w) (h : d.history ctx count w = some (history, last)) :
    Unfolds (Between E first last) ctx d.jobs history [] := by
  induction count generalizing d w history with
  | zero => simp [Delivery.history] at h
  | succ count ih =>
    rcases history_succ h with ⟨rfl, d', hnext⟩ | ⟨finished, later, d', v, rfl, hnext, hlater⟩
    · have hjobs : d.jobs = [] := next_spec hE hQ hP hd hsound hfirst (hE.refl last) hnext
      rw [hjobs]
      exact .refl
    · obtain ⟨hw, hd'⟩ := next_acts hE hQ hd (hE.keeps hP hfirst) hnext
      have hv := hE.trans hfirst hw
      have hlast := history_acts hE hQ hd' (hE.keeps hP hv) hlater
      obtain ⟨others, hjobs, hyields, hjobs', hsound'⟩ :=
        next_spec hE hQ hP hd hsound hfirst hlast hnext
      exact .cons hjobs hyields (hjobs' ▸ ih hd' hsound' hv hlater)

end Delivery

variable {ctx : ExecutionContext σ} {jobs : List (Job σ)} {history : List (Finished σ)}

theorem runJobs_unfolds {Q : Job σ → Prop} {P : World σ → Prop} {E : World σ → World σ → Prop}
    (hE : Course P E) (hQ : Tame Q P E ctx) (hjobs : ∀ job ∈ jobs, Q job) {w w' : World σ}
    (hP : P w) (h : runJobs ctx jobs w = some (history, w')) :
    Unfolds (Between E w w') ctx jobs history [] := by
  have hsound : Delivery.Sound (Between E w w') ctx .empty := by simp [Delivery.Sound, Delivery.empty]
  have hunfolds := Delivery.history_unfolds hE hQ hP
    (Delivery.orderly_start hQ Delivery.orderly_empty hjobs) (Delivery.sound_start hsound jobs)
    (Delivery.course_enqueue hE jobs .empty w) h
  rwa [Delivery.jobs_start] at hunfolds

/-- Whether the delivery of some jobs may get to `d`, whatever the host does between the payloads. -/
inductive Delivers (ctx : ExecutionContext σ) (jobs : List (Job σ)) :
    List (Finished σ) → Delivery σ → Prop
  | start : Delivers ctx jobs [] (Delivery.empty.start ctx jobs)
  | next {history d d' finished rounds} {w w' : World σ} (h : Delivers ctx jobs history d)
    (hnext : d.next ctx rounds w = some (some finished, d', w')) :
    Delivers ctx jobs (history ++ [finished]) d'

theorem Delivers.append {earlier later : List (Finished σ)} {d : Delivery σ} {count : Nat}
    {w w' : World σ} (h : Delivers ctx jobs earlier d)
    (hlater : d.history ctx count w = some (later, w')) :
    ∃ d', Delivers ctx jobs (earlier ++ later) d' := by
  induction count generalizing earlier later d w with
  | zero => simp [Delivery.history] at hlater
  | succ count ih =>
    rcases Delivery.history_succ hlater with
      ⟨rfl, -⟩ | ⟨finished, others, d', v, rfl, hnext, hothers⟩
    · exact ⟨d, by simpa using h⟩
    · simpa using ih (h.next hnext) hothers

theorem delivers_of_runJobs {w w' : World σ} (h : runJobs ctx jobs w = some (history, w')) :
    ∃ d, Delivers ctx jobs history d := Delivers.start.append h

theorem Delivers.orderly {Q : Job σ → Prop}
    (hQ : Tame Q (fun _ => True) (fun _ _ => True) ctx) (hjobs : ∀ job ∈ jobs, Q job)
    {d : Delivery σ} (h : Delivers ctx jobs history d) :
    d.Orderly Q (fun _ => True) (fun _ _ => True) ctx := by
  induction h with
  | start => exact Delivery.orderly_start hQ Delivery.orderly_empty hjobs
  | next _ hnext ih => exact (Delivery.next_acts Course.any hQ ih trivial hnext).2

theorem Delivers.unfolds {d : Delivery σ} (h : Delivers ctx jobs history d) :
    Unfolds (fun _ => True) ctx jobs history d.jobs := by
  induction h with
  | start =>
    rw [Delivery.jobs_start]
    exact .refl
  | @next _ d _ _ _ w w' h hnext hunfolds =>
    have hd := h.orderly (tame_any ctx) fun _ _ => trivial
    have hsound : d.Sound (Between (fun _ _ => True) w w') ctx := by
      rw [between_any]
      exact hd.possible
    obtain ⟨others, hjobs, hyields, hjobs', -⟩ :=
      Delivery.next_spec Course.any (tame_any ctx) trivial hd hsound trivial trivial hnext
    rw [between_any] at hyields
    exact hjobs' ▸ hunfolds.concat hjobs hyields

/-! ## Responses -/

/-- The response that a report about the root leads to. -/
inductive Responds (ctx : ExecutionContext σ) (report : Report σ) : Response σ → Prop
  | single (h : report.outcome.object? = none ∨ report.outcome.queued = []) :
    Responds ctx report (.single ⟨report.outcome.object?, report.outcome.allErrors, none⟩)
  | incremental {data} (h : report.outcome.object? = some data)
    (hjobs : report.outcome.queued ≠ []) :
    Responds ctx report (.incremental ⟨data, report.outcome.allErrors⟩ ctx report.outcome.queued)

theorem executePrepared_cases {object : ObjectType σ} {w w' : World σ} {response : Response σ}
    (h : Request.executePrepared ctx object w = some (response, w')) :
    ∃ report v, (executeRoot ctx object).run ctx.bounds.rounds
        (w.trace (.executing ctx.operation.name?)) = some (report, v) ∧
      Responds ctx report response ∧ v.taken = w'.taken := by
  simp only [Request.executePrepared, Option.bind_eq_bind, Option.bind_eq_some_iff] at h
  obtain ⟨⟨report, v⟩, hrun, h⟩ := h
  refine ⟨report, v, hrun, ?_⟩
  split at h
  · next hdata hjobs =>
    simp only [pure, Option.some.injEq, Prod.mk.injEq] at h
    obtain ⟨rfl, rfl⟩ := h
    exact ⟨.incremental hdata (by simp [hjobs]), rfl⟩
  · next hother =>
    simp only [pure, Option.some.injEq, Prod.mk.injEq] at h
    obtain ⟨rfl, rfl⟩ := h
    refine ⟨.single ?_, rfl⟩
    cases hdata : report.outcome.object? with
    | none => exact .inl rfl
    | some data =>
      cases hjobs : report.outcome.queued with
      | nil => exact .inr rfl
      | cons job jobs => exact (hother data job jobs hdata hjobs).elim

theorem executeIncrementally_cases {r : Request σ} {w w' : World σ} {response : Response σ}
    (h : r.executeIncrementally w = some (response, w')) :
    (∃ e, r.prepare = .error e ∧ response = .single e.result) ∨
      ∃ ctx object report v, r.prepare = .ok (ctx, object) ∧
        (executeRoot ctx object).run ctx.bounds.rounds
          (w.trace (.executing ctx.operation.name?)) = some (report, v) ∧
        Responds ctx report response ∧ v.taken = w'.taken := by
  unfold Request.executeIncrementally at h
  split at h
  · next e he =>
    obtain ⟨rfl, -⟩ := by simpa using h
    exact .inl ⟨e, he, rfl⟩
  · next ctx object hprepare =>
    obtain ⟨report, v, hrun, hresponds⟩ := executePrepared_cases h
    exact .inr ⟨ctx, object, report, v, hprepare, hrun, hresponds⟩

theorem part_streamed {plan : FieldPlan σ} {itemType : TypeRef} {path : Path}
    {label : Option String} {index : Nat} {source : ItemSource} {r : Report σ} {part : Part}
    (h : (Job.streamed plan itemType path label index source).part r = some part) :
    part = ⟨.items (r.value?.map fun v => [v]), r.outcome.allErrors, path.index index, label⟩ := by
  unfold Report.value? Outcome.value?
  simp only [Job.part] at h
  split at h
  · simp at h
  · next v hv => simpa [hv] using h.symm
  · next e he => simpa [he] using h.symm

/-! ## A small request -/

/-- Objects with a name and a list of numbers. -/
def sampleType : ObjectType σ where
  name := "Query"
  fields := .given [
    { name := "name", type := .nonNullNamed "String" },
    { name := "numbers", type := .list (.nonNullNamed "Int") }]

def sampleSchema : Schema σ where
  description := none
  queryType := "Query"
  mutationType := none
  subscriptionType := none
  types := .object sampleType :: ScalarType.builtins.map .scalar
  directives := DirectiveDefinition.builtins
  types_nodup := by
    change ("Query" :: ScalarType.builtins.map (·.name)).Nodup
    decide
  directives_nodup := by decide

/-- Text that was written nowhere in particular. -/
def sampleText {α : Type} (item : α) : Located α := ⟨item, default⟩

def sampleField (name : String) (directives : List (Located Directive)) : Selection :=
  .field default ⟨none, sampleText name, none, directives⟩ []

def sampleSpread (name : String) : Selection := .spread default ⟨sampleText name, none, []⟩

def sampleFragment (name : String) (selections : List Selection) : Fragment where
  span := default
  name := sampleText name
  variableDefinitions := none
  typeCondition := sampleText "Query"
  directives := []
  selections := selections

/-- The use of a field without arguments, directives and selections. -/
def sampleUse (name : String) : FieldUse :=
  ⟨⟨⟨none, sampleText name, none, []⟩, default, []⟩, none⟩

/-- `{ name ... @defer { numbers @stream } }` -/
def sampleOperation : Operation where
  span := default
  kind := .query
  name := none
  variableDefinitions := none
  directives := []
  selections := [
    sampleField "name" [],
    .inline default ⟨none, [sampleText ⟨sampleText "defer", none⟩]⟩
      [sampleField "numbers" [sampleText ⟨sampleText "stream", none⟩]]]

def sampleRequest (numbers : List Value) : Request Unit where
  schema := sampleSchema
  document := [.operation sampleOperation]
  root := .data (.object [("name", .string "Ada"), ("numbers", .list numbers)])
  bounds := ⟨5, 5, 50⟩

def sampleWorld : World Unit := { host := () }

end GraphQL
