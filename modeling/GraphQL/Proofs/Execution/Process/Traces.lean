import Mathlib.Algebra.GroupWithZero.Nat
import GraphQL.Proofs.Execution.Process.Effects
import GraphQL.Proofs.Execution.Delivery.Jobs

/-! # How often traces are written

A process spends at most `n` on traces of a kind if it writes no more than `n` of them, whatever the
order in which it is asked and whatever goes on in between. What tasks spend together is bounded by
what their jobs may spend.
-/

namespace GraphQL

open Process

variable {σ ρ : Type} {kind : TraceEvent → Bool}

namespace World

/-- How many traces of a kind were written. -/
def count (kind : TraceEvent → Bool) (w : World σ) : Nat := w.traces.countP kind

theorem count_trace (event : TraceEvent) (w : World σ) :
    (w.trace event).count kind = w.count kind + if kind event then 1 else 0 := by
  unfold count trace
  rw [List.countP_cons]

theorem traces_after {α : Type} (w : World σ) (action : Action σ α) :
    (w.after action).traces = w.traces := by
  obtain ⟨_, _, hafter, -⟩ := w.after_eq action
  rw [hafter]

/-- Whether only traces of allowed events were added. -/
def Adds (allowed : TraceEvent → Prop) (v w : World σ) : Prop :=
  ∃ events, w.traces = events ++ v.traces ∧ ∀ event ∈ events, allowed event

theorem Adds.of_eq {allowed : TraceEvent → Prop} {v w : World σ} (h : v.traces = w.traces) :
    v.Adds allowed w := ⟨[], h.symm, by simp⟩

theorem Adds.count {v w : World σ} (h : v.Adds (fun event => kind event = false) w) :
    w.count kind = v.count kind := by
  obtain ⟨events, htraces, hevents⟩ := h
  have hnone : events.countP kind = 0 := by simpa [List.countP_eq_zero] using hevents
  unfold World.count
  rw [htraces, List.countP_append, hnone, Nat.zero_add]

end World

theorem permits_adds (allowed : TraceEvent → Prop) :
    Permits (fun _ : World σ => True) (World.Adds allowed) allowed where
  course := {
    keeps := fun _ _ => trivial
    trans := fun ⟨events, htraces, hevents⟩ ⟨later, htraces', hlater⟩ =>
      ⟨later ++ events, by rw [htraces', htraces, List.append_assoc],
        List.forall_mem_append.mpr ⟨hlater, hevents⟩⟩
    tasks := fun _ _ _ _ htraces => .of_eq htraces.symm }
  trace event w hevent _ := ⟨[event], rfl, by simpa using hevent⟩
  take _ _ _ := .of_eq rfl

theorem Callback.acts_adds {ι α : Type} (callback : Callback σ ι α) (allowed : TraceEvent → Prop) :
    callback.Acts (fun _ => True) (World.Adds allowed) where
  asked _ w _ := .of_eq (World.traces_after w _).symm
  finishes _ _ _ _ _ _ v _ := .of_eq (World.traces_after v _).symm

theorem ExecutionContext.acts_adds (ctx : ExecutionContext σ) (allowed : TraceEvent → Prop) :
    ctx.Acts (fun _ => True) (World.Adds allowed) where
  schema := {
    fields := fun _ _ _ _ _ resolver _ => resolver.acts_adds allowed
    types := fun _ _ resolver _ => resolver.acts_adds allowed
    members := fun _ _ check _ => check.acts_adds allowed }
  fieldResolver resolver _ := resolver.acts_adds allowed
  typeResolver resolver _ := resolver.acts_adds allowed

theorem course_traces : Course (fun _ : World σ => True) fun v w => v.traces = w.traces where
  keeps _ _ := trivial
  trans huv hvw := huv.trans hvw
  tasks _ _ _ _ htraces := htraces.symm

namespace Process

mutual

/-- Whether a process writes at most so many traces of a kind. -/
def Spends (kind : TraceEvent → Bool) : Process σ ρ → Nat → Prop
  | done _, _ => True
  | step effect next, n =>
    ∀ w, ∃ m, (effect w).count kind + m ≤ w.count kind + n ∧ Spends kind (next w) m
  | wait _ _ aborted effect next, n => Spends kind aborted n ∧
    ∀ w, ∃ m, (effect w).count kind + m ≤ w.count kind + n ∧ Spends kind (next w) m
  | all parts next, n => ∃ m k, m + k ≤ n ∧ SpendsAll kind parts m ∧ ∀ rs, Spends kind (next rs) k
  | unending, _ => True

def SpendsAll (kind : TraceEvent → Bool) : List (Process σ ρ) → Nat → Prop
  | [], _ => True
  | p :: rest, n => ∃ m k, m + k ≤ n ∧ Spends kind p m ∧ SpendsAll kind rest k

end

variable {p : Process σ ρ} {ps qs : List (Process σ ρ)} {n m : Nat}

theorem Spends.mono (h : p.Spends kind n) (hnm : n ≤ m) : p.Spends kind m := by
  induction p using Process.induct generalizing n m with
  | done | unending => trivial
  | step effect next =>
    intro w
    obtain ⟨k, hk, hnext⟩ := h w
    exact ⟨k, by omega, hnext⟩
  | wait _ _ aborted effect next iha =>
    refine ⟨iha h.1 hnm, fun w => ?_⟩
    obtain ⟨k, hk, hnext⟩ := h.2 w
    exact ⟨k, by omega, hnext⟩
  | all =>
    obtain ⟨k, l, hkl, hparts, hnext⟩ := h
    exact ⟨k, l, by omega, hparts, hnext⟩

theorem SpendsAll.mono (h : SpendsAll kind ps n) (hnm : n ≤ m) : SpendsAll kind ps m := by
  cases ps with
  | nil => trivial
  | cons =>
    obtain ⟨k, l, hkl, hp, hps⟩ := h
    exact ⟨k, l, by omega, hp, hps⟩

theorem SpendsAll.append (hp : SpendsAll kind ps n) (hq : SpendsAll kind qs m) :
    SpendsAll kind (ps ++ qs) (n + m) := by
  induction ps generalizing n with
  | nil => exact hq.mono (by omega)
  | cons p ps ih =>
    obtain ⟨k, l, hkl, hp, hps⟩ := hp
    exact ⟨k, l + m, by omega, hp, ih hps⟩

theorem spendsAll_middle : SpendsAll kind (ps ++ p :: qs) n ↔
    ∃ m k, m + k ≤ n ∧ p.Spends kind m ∧ SpendsAll kind (ps ++ qs) k := by
  induction ps generalizing n with
  | nil => exact Iff.rfl
  | cons q ps ih =>
    simp only [List.cons_append, SpendsAll, ih]
    constructor
    · rintro ⟨a, b, hab, hq, c, d, hcd, hp, hrest⟩
      exact ⟨c, a + d, by omega, hp, a, d, by omega, hq, hrest⟩
    · rintro ⟨c, d, hcd, hp, a, b, hab, hq, hrest⟩
      exact ⟨a, c + b, by omega, hq, c, b, by omega, hp, hrest⟩

theorem spendsAll_of_forall (h : ∀ p ∈ ps, p.Spends kind 0) : SpendsAll kind ps 0 := by
  induction ps with
  | nil => trivial
  | cons p ps ih =>
    obtain ⟨hp, hps⟩ := List.forall_mem_cons.mp h
    exact ⟨0, 0, by omega, hp, ih hps⟩

theorem spends_of_acts
    (h : Acts (fun _ => True) (World.Adds fun event => kind event = false) p) : p.Spends kind 0 := by
  induction p using induct with
  | done | unending => trivial
  | step effect next ih =>
    intro w
    obtain ⟨heffect, hnext⟩ := h w trivial
    exact ⟨0, Nat.le_of_eq heffect.count, ih w hnext⟩
  | wait _ _ aborted effect next iha ih =>
    refine ⟨iha h.1, fun w => ?_⟩
    obtain ⟨heffect, hnext⟩ := h.2 w trivial
    exact ⟨0, Nat.le_of_eq heffect.count, ih w hnext⟩
  | all parts next ihp ih =>
    have hparts := spendsAll_of_forall fun p hp => ihp p hp (actsAll_iff.mp h.1 p hp)
    exact ⟨0, 0, by omega, hparts, fun rs => ih rs (h.2 rs)⟩

theorem spends_bind {k : ρ → Process σ ρ} (hp : p.Spends kind n) (hk : ∀ r, (k r).Spends kind m) :
    (p.bind k).Spends kind (n + m) := by
  induction p using induct generalizing n with
  | done r => exact (hk r).mono (by omega)
  | unending => trivial
  | step effect next ih =>
    intro w
    obtain ⟨l, hl, hnext⟩ := hp w
    exact ⟨l + m, by omega, ih w hnext⟩
  | wait _ _ aborted effect next iha ih =>
    refine ⟨iha hp.1, fun w => ?_⟩
    obtain ⟨l, hl, hnext⟩ := hp.2 w
    exact ⟨l + m, by omega, ih w hnext⟩
  | all parts next ihp ih =>
    obtain ⟨a, b, hab, hparts, hnext⟩ := hp
    exact ⟨a, b + m, by omega, hparts, fun rs => ih rs (hnext rs)⟩

/-! ## Asking -/

/-- Whether asking a process once leaves no more to spend than what was not spent. -/
def PollSpends (kind : TraceEvent → Bool) (p : Process σ ρ) : Prop :=
  ∀ w n, p.Spends kind n →
    ∃ m, (p.poll w).2.count kind + m ≤ w.count kind + n ∧ (p.poll w).1.Spends kind m

theorem pollAll_spends (h : ∀ p ∈ ps, p.PollSpends kind) (w : World σ) (hps : SpendsAll kind ps n) :
    ∃ m, (pollAll ps w).2.count kind + m ≤ w.count kind + n ∧ SpendsAll kind (pollAll ps w).1 m := by
  induction ps generalizing w n with
  | nil => exact ⟨n, Nat.le_refl _, trivial⟩
  | cons p ps ih =>
    obtain ⟨hp, hall⟩ := List.forall_mem_cons.mp h
    obtain ⟨a, b, hab, hfirst, hrest⟩ := hps
    obtain ⟨c, hc, hfirst⟩ := hp w a hfirst
    obtain ⟨d, hd, hrest⟩ := ih hall (p.poll w).2 hrest
    refine ⟨c + d, ?_, c, d, Nat.le_refl _, hfirst, hrest⟩
    change (pollAll ps (p.poll w).2).2.count kind + (c + d) ≤ _
    omega

theorem poll_spends (p : Process σ ρ) : p.PollSpends kind := by
  have hcount {v w : World σ} (h : v.traces = w.traces) : w.count kind = v.count kind := by
    rw [World.count, ← h, World.count]
  induction p using induct with
  | done | unending => exact fun w n h => ⟨n, Nat.le_refl _, h⟩
  | step effect next ih =>
    intro w n h
    obtain ⟨m, hm, hnext⟩ := h w
    obtain ⟨k, hk, hleft⟩ := ih w (effect w) m hnext
    exact ⟨k, by rw [poll]; omega, by rwa [poll]⟩
  | wait polls place aborted effect next iha ih =>
    intro w n h
    rcases poll_wait_cases course_traces polls place aborted effect next w with
      heq | ⟨woken, hwoken, -, heq⟩ | ⟨left, place', w', hw', heq⟩ <;> rw [heq]
    · obtain ⟨m, hm, hnext⟩ := h.2 w
      obtain ⟨k, hk, hleft⟩ := ih w ((effect w).leave place) m hnext
      rw [hcount (course_traces.leave (effect w) place)] at hk
      exact ⟨k, by omega, hleft⟩
    · obtain ⟨k, hk, hleft⟩ := iha (woken.leave place) n h.1
      rw [hcount (course_traces.leave woken place), hcount hwoken] at hk
      exact ⟨k, hk, hleft⟩
    · exact ⟨n, Nat.add_le_add_right (Nat.le_of_eq (hcount hw')) n, h⟩
  | all parts next ihp ih =>
    intro w n h
    obtain ⟨a, b, hab, hparts, hnext⟩ := h
    obtain ⟨c, hc, hleft⟩ := pollAll_spends ihp w hparts
    simp only [poll]
    split
    · next rs _ =>
      obtain ⟨d, hd, hlast⟩ := ih rs (pollAll parts w).2 b (hnext rs)
      exact ⟨d, by omega, hlast⟩
    · refine ⟨c + b, ?_, c, b, Nat.le_refl _, hleft, hnext⟩
      dsimp only
      omega

/-- What is left of a process that was asked so often, and the world after that. -/
def asked : Nat → Process σ ρ → World σ → Process σ ρ × World σ
  | 0, p, w => (p, w)
  | n + 1, p, w => (p.poll w).1.asked n (p.poll w).2

theorem asked_of_run {rounds : Nat} {w w' : World σ} {r : ρ} (h : p.run rounds w = some (r, w')) :
    ∃ n, p.asked (n + 1) w = (.done r, w') := by
  induction rounds generalizing p w with
  | zero => cases h
  | succ rounds ih =>
    simp only [run] at h
    split at h
    · next s hs =>
      obtain ⟨rfl, rfl⟩ : s = r ∧ (p.poll w).2 = w' := by simpa using h
      exact ⟨0, Prod.ext hs rfl⟩
    · obtain ⟨k, hk⟩ := ih h
      exact ⟨k + 1, hk⟩

theorem asked_acts {P : World σ → Prop} {E : World σ → World σ → Prop} (hE : Course P E) (count : Nat)
    (h : Acts P E p) {w : World σ} (hw : P w) : E w (p.asked count w).2 := by
  induction count generalizing p w with
  | zero => exact hE.refl w
  | succ count ih =>
    obtain ⟨hpolled, hleft⟩ := poll_acts hE h w hw
    exact hE.trans hpolled (ih hleft (hE.keeps hw hpolled))

theorem asked_spends (count : Nat) (hp : p.Spends kind n) (w : World σ) :
    (p.asked count w).2.count kind ≤ w.count kind + n := by
  induction count generalizing p w n with
  | zero => exact Nat.le_add_right _ _
  | succ count ih =>
    obtain ⟨m, hm, hleft⟩ := poll_spends p w n hp
    have hrest := ih hleft (p.poll w).2
    change ((p.poll w).1.asked count (p.poll w).2).2.count kind ≤ _
    omega

end Process

/-! ## Deliveries -/

namespace Delivery

/-- What becomes of the tasks when the one that is ready first is asked. -/
def ask (ctx : ExecutionContext σ) (d : Delivery σ) (w : World σ) : Delivery σ × World σ :=
  match w.ready with
  | [] => (d, w)
  | task :: ready =>
    match d.running.find? (·.task = task) with
    | none => (d, { w with ready })
    | some current =>
      let polled := current.work.poll { w with ready, running := some task }
      let w := { polled.2 with running := none }
      match polled.1 with
      | .done report =>
        let followUps := report.outcome.queued
        let others : Delivery σ := { d with running := d.running.filter (·.task ≠ task) }
        (others.start ctx followUps, others.enqueue followUps w)
      | work => (d.goOn task work, w)

/-- What becomes of the tasks when those that are ready are asked so often. -/
def asked (ctx : ExecutionContext σ) : Nat → Delivery σ → World σ → Delivery σ × World σ
  | 0, d, w => (d, w)
  | n + 1, d, w => (d.ask ctx w).1.asked ctx n (d.ask ctx w).2

variable {ctx : ExecutionContext σ} {d d' : Delivery σ} {w w' : World σ}

theorem asked_add (m n : Nat) (d : Delivery σ) (w : World σ) :
    d.asked ctx (m + n) w = (d.asked ctx m w).1.asked ctx n (d.asked ctx m w).2 := by
  induction m generalizing d w with
  | zero => rw [Nat.zero_add, asked]
  | succ m ih =>
    rw [Nat.succ_add]
    exact ih _ _

theorem asked_of_next {rounds : Nat} {found : Option (Finished σ)}
    (h : d.next ctx rounds w = some (found, d', w')) : ∃ n, d.asked ctx n w = (d', w') := by
  -- What is left after one step is asked as often as it has to be.
  have hrest {d e d' : Delivery σ} {w v w' : World σ} (hask : d.ask ctx w = (e, v))
      (h : ∃ n, e.asked ctx n v = (d', w')) : ∃ n, d.asked ctx n w = (d', w') := by
    obtain ⟨n, hn⟩ := h
    exact ⟨n + 1, by rw [asked, hask, hn]⟩
  have hfinds := finds_of_next h
  clear h
  induction hfinds with
  | ended => exact ⟨0, rfl⟩
  | skipped hready hfind _ ih => exact hrest (by simp only [ask, hready, hfind]) ih
  | finished hready hfind hpoll hothers =>
    subst hothers
    exact hrest (by simp only [ask, hready, hfind, hpoll]) ⟨0, rfl⟩
  | wentOn hready hfind hpoll hleft _ ih =>
    refine hrest ?_ ih
    simp only [ask, hready, hfind, hpoll]
    split
    · cases hleft
    · rfl

theorem asked_of_history {count : Nat} {history : List (Finished σ)}
    (h : d.history ctx count w = some (history, w')) : ∃ n, (d.asked ctx n w).2 = w' := by
  induction count generalizing d w history with
  | zero => cases h
  | succ count ih =>
    rcases history_succ h with ⟨-, d', hnext⟩ | ⟨finished, later, d', v, -, hnext, hlater⟩
    · obtain ⟨n, hn⟩ := asked_of_next hnext
      exact ⟨n, by rw [hn]⟩
    · obtain ⟨m, hm⟩ := asked_of_next hnext
      obtain ⟨n, hn⟩ := ih hlater
      exact ⟨m + n, by rw [asked_add, hm, hn]⟩

/-! ### What tasks spend -/

variable {Q : Job σ → Prop} {spent left : Job σ → Nat} {n m : Nat}

/-- Whether jobs of a kind spend so much, and leave so much for those that they queue. -/
structure Budgets (kind : TraceEvent → Bool) (Q : Job σ → Prop) (spent left : Job σ → Nat)
    (ctx : ExecutionContext σ) : Prop where
  tame : Tame Q (fun _ => True) (fun _ _ => True) ctx
  spends {job} : Q job → (job.execute ctx).Spends kind (spent job)
  leaves {job r} : Q job → Yields (fun _ => True) (job.execute ctx) r →
    (r.outcome.queued.map fun j => spent j + left j).sum ≤ left job

/-- Whether the tasks, and the jobs that follow from them, spend at most so much. -/
def Affords (kind : TraceEvent → Bool) (left : Job σ → Nat) (d : Delivery σ) (n : Nat) : Prop :=
  ∃ m, SpendsAll kind (d.running.map (·.work)) m ∧ m + (d.jobs.map left).sum ≤ n

theorem affords_empty : Affords kind left (.empty : Delivery σ) 0 := ⟨0, trivial, Nat.le_refl _⟩

theorem spendsAll_jobs {jobs : List (Job σ)}
    (h : ∀ job ∈ jobs, (job.execute ctx).Spends kind (spent job)) :
    SpendsAll kind (jobs.map fun job => job.execute ctx) (jobs.map spent).sum := by
  induction jobs with
  | nil => trivial
  | cons job jobs ih =>
    obtain ⟨hjob, hjobs⟩ := List.forall_mem_cons.mp h
    exact ⟨_, _, Nat.le_refl _, hjob, ih hjobs⟩

theorem sum_map_add {α : Type} (f g : α → Nat) (l : List α) :
    (l.map fun x => f x + g x).sum = (l.map f).sum + (l.map g).sum := by
  induction l with
  | nil => rfl
  | cons x l ih =>
    simp only [List.map_cons, List.sum_cons, ih]
    omega

theorem affords_start (h : d.Affords kind left n) {jobs : List (Job σ)}
    (hjobs : ∀ job ∈ jobs, (job.execute ctx).Spends kind (spent job)) :
    (d.start ctx jobs).Affords kind left (n + (jobs.map fun j => spent j + left j).sum) := by
  have hworks : (d.start ctx jobs).running.map (·.work) =
      d.running.map (·.work) ++ jobs.map fun job => job.execute ctx := by
    simp only [start, List.map_append, List.map_map]
    congr 1
    exact (List.map_map (f := Prod.fst) (g := fun job : Job σ => job.execute ctx)).symm.trans
      (congrArg _ (List.zipIdx_map_fst d.nextTask jobs))
  obtain ⟨m, hm, hn⟩ := h
  refine ⟨m + (jobs.map spent).sum, hworks ▸ hm.append (spendsAll_jobs hjobs), ?_⟩
  rw [jobs_start, List.map_append, List.sum_append, sum_map_add]
  omega

theorem affords_split (hdistinct : (d.running.map (·.task)).Nodup) {current : RunningJob σ}
    (hcurrent : current ∈ d.running) (h : d.Affords kind left n) :
    ∃ a b, a + b + left current.job ≤ n ∧ current.work.Spends kind a ∧
      Affords kind left { d with running := d.running.filter (·.task ≠ current.task) } b ∧
      ∀ work c, work.Spends kind c →
        (d.goOn current.task work).Affords kind left (c + b + left current.job) := by
  obtain ⟨before, after, hrunning, hothers, hgoOn⟩ := split_running hdistinct hcurrent
  obtain ⟨m, hm, hn⟩ := h
  have hjobs : (d.jobs.map left).sum =
      left current.job + (((before ++ after).map (·.job)).map left).sum := by
    rw [((perm_others hdistinct hcurrent).map left).sum_nat, hothers, List.map_cons, List.sum_cons]
  rw [hrunning, List.map_append, List.map_cons, spendsAll_middle, ← List.map_append] at hm
  obtain ⟨a, k, hak, hwork, hrest⟩ := hm
  refine ⟨a, k + (((before ++ after).map (·.job)).map left).sum, by omega, hwork,
    ⟨k, hothers ▸ hrest, ?_⟩, fun work c hc => ⟨c + k, ?_, ?_⟩⟩
  · exact Nat.le_of_eq (by rw [Delivery.jobs, hothers])
  · rw [hgoOn, List.map_append, List.map_cons, spendsAll_middle, ← List.map_append]
    exact ⟨c, k, Nat.le_refl _, hc, hrest⟩
  · rw [jobs_goOn]
    omega

variable (hctx : Budgets kind Q spent left ctx)

include hctx

theorem ask_spends (hd : Orderly Q (fun _ => True) (fun _ _ => True) ctx d)
    (hn : d.Affords kind left n) (w : World σ) :
    Orderly Q (fun _ => True) (fun _ _ => True) ctx (d.ask ctx w).1 ∧
      ∃ m, (d.ask ctx w).1.Affords kind left m ∧
        (d.ask ctx w).2.count kind + m ≤ w.count kind + n := by
  unfold ask
  split
  · exact ⟨hd, n, hn, Nat.le_refl _⟩
  · next task ready hready =>
    split
    · exact ⟨hd, n, hn, Nat.le_refl _⟩
    · next current hfind =>
      have hcurrent := List.mem_of_find?_eq_some hfind
      obtain rfl : current.task = task := by simpa using List.find?_some hfind
      obtain ⟨a, b, hab, hwork, hothers, hgoOn⟩ := affords_split hd.distinct hcurrent hn
      obtain ⟨c, hc, hleft⟩ :=
        poll_spends current.work { w with ready, running := some current.task } a hwork
      have hpossible {report : Report σ} := poll_possible (p := current.work)
        (w := { w with ready, running := some current.task }) (r := report)
      generalize current.work.poll { w with ready, running := some current.task } = polled
        at hc hleft hpossible
      change polled.2.count kind + c ≤ w.count kind + a at hc
      dsimp only
      split
      · next report hreport =>
        -- The job came to its end, and those that it left start.
        have hjob := hd.allowed current hcurrent
        have hyields := hd.possible current hcurrent report (hpossible (by rw [hreport]; rfl))
        have hqueued := hctx.tame.leaves hjob hyields
        have hbudget := hctx.leaves hjob hyields
        refine ⟨orderly_start hctx.tame (orderly_others hd current.task) hqueued, _,
          affords_start hothers fun job hjob => hctx.spends (hqueued job hjob), ?_⟩
        change polled.2.count kind + _ ≤ _
        omega
      · -- The job has to wait.
        refine ⟨orderly_goOn hd hcurrent (acts_any polled.1) fun report => hpossible, _,
          hgoOn polled.1 c hleft, ?_⟩
        change polled.2.count kind + _ ≤ _
        omega

theorem asked_spends (count : Nat) (hd : Orderly Q (fun _ => True) (fun _ _ => True) ctx d)
    (hn : d.Affords kind left n) (w : World σ) :
    (d.asked ctx count w).2.count kind ≤ w.count kind + n := by
  induction count generalizing d w n with
  | zero => exact Nat.le_add_right _ _
  | succ count ih =>
    obtain ⟨hd', m, hm, hcount⟩ := ask_spends hctx hd hn w
    have hrest := ih hd' hm (d.ask ctx w).2
    change ((d.ask ctx w).1.asked ctx count (d.ask ctx w).2).2.count kind ≤ _
    omega

/-- Jobs, and those that follow from them, write no more traces than they may. -/
theorem jobs_spend (count : Nat) {jobs : List (Job σ)} (hjobs : ∀ job ∈ jobs, Q job) (w : World σ) :
    ((Delivery.empty.start ctx jobs).asked ctx count (Delivery.empty.enqueue jobs w)).2.count kind ≤
      w.count kind + (jobs.map fun j => spent j + left j).sum := by
  have hd := orderly_start hctx.tame orderly_empty hjobs
  have hn : Affords kind left (Delivery.empty.start ctx jobs) _ :=
    affords_start affords_empty fun job hjob => hctx.spends (hjobs job hjob)
  have h := asked_spends hctx count hd hn (Delivery.empty.enqueue jobs w)
  rwa [Nat.zero_add] at h

end Delivery

end GraphQL
