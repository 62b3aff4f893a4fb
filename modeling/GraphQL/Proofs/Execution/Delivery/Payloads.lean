import GraphQL.Proofs.Execution.Delivery.Jobs

/-! # Payloads and their ends

Running jobs may come to their ends in any order, and each starts the jobs that it leaves. Payloads
say whether more of them follow, which is known once these were started: the last one says that none
does, and a job without a part makes no payload unless it is the last.
-/

namespace GraphQL

variable {σ : Type}

/-- A task that came to its end, and the tasks that it started. -/
structure TaskEnd (σ : Type) where
  task : Nat
  finished : Finished σ
  followUps : List Nat

namespace TaskEnd

def part (t : TaskEnd σ) : Option Part := t.finished.part

def payload? (t : TaskEnd σ) : Option Payload := t.finished.payload?

/-- The payloads of some turns, each with the task that makes it. -/
def payloads (turns : List (TaskEnd σ)) : List (Nat × Payload) :=
  turns.filterMap fun t => t.payload?.map (t.task, ·)

end TaskEnd

/-- Jobs as tasks, with numbers from `n` on. -/
def numbered (n : Nat) (jobs : List (Job σ)) : List (Nat × Job σ) :=
  (jobs.zipIdx n).map fun (job, task) => (task, job)

/-- Whether running tasks may come to their ends in these turns. Any of them may be the next, with
any report; what it leaves is started under numbers from `n` on. -/
inductive Drains : Nat → List (Nat × Job σ) → List (TaskEnd σ) → Prop
  | none {n} : Drains n [] []
  | turn {n running others started t rest}
    (hrunning : running.Perm ((t.task, t.finished.job) :: others))
    (hstarted : started = numbered n t.finished.report.outcome.queued)
    (hfollowUps : t.followUps = started.map Prod.fst)
    (hnext : t.finished.hasNext = !(others ++ started).isEmpty)
    (hrest : Drains (n + started.length) (others ++ started) rest) : Drains n running (t :: rest)

theorem map_fst_numbered (n : Nat) (jobs : List (Job σ)) :
    (numbered n jobs).map Prod.fst = List.range' n jobs.length := by
  rw [numbered, List.map_map, ← List.zipIdx_map_snd n jobs]
  rfl

theorem length_numbered (n : Nat) (jobs : List (Job σ)) :
    (numbered n jobs).length = jobs.length := by
  rw [numbered, List.length_map, List.length_zipIdx]

namespace Drains

variable {n : Nat} {running : List (Nat × Job σ)} {turns : List (TaskEnd σ)}

theorem isEmpty (h : Drains n running turns) : turns.isEmpty = running.isEmpty := by
  cases h with
  | none => rfl
  | turn hrunning =>
    rw [hrunning.isEmpty_eq]
    rfl

theorem hasNext (h : Drains n running turns) {earlier later : List (TaskEnd σ)} {t : TaskEnd σ}
    (hturns : turns = earlier ++ t :: later) : t.finished.hasNext = !later.isEmpty := by
  induction h generalizing earlier with
  | none => simp at hturns
  | turn _ _ _ hnext hrest ih =>
    cases earlier with
    | nil =>
      obtain ⟨rfl, rfl⟩ := List.cons.inj hturns
      rw [hnext, hrest.isEmpty]
    | cons _ earlier => exact ih (List.cons.inj hturns).2

/-- Whether tasks are told apart by their numbers, which are below `n`. -/
structure Numbered (n : Nat) (running : List (Nat × Job σ)) : Prop where
  distinct : (running.map Prod.fst).Nodup
  below : ∀ task ∈ running.map Prod.fst, task < n

theorem Numbered.others {others : List (Nat × Job σ)} {first : Nat × Job σ} (h : Numbered n running)
    (hrunning : running.Perm (first :: others)) :
    first.1 < n ∧ first.1 ∉ others.map Prod.fst ∧ Numbered n others := by
  have hperm := hrunning.map Prod.fst
  have hdistinct := hperm.nodup_iff.mp h.distinct
  rw [List.map_cons, List.nodup_cons] at hdistinct
  have hbelow : ∀ task ∈ (first :: others).map Prod.fst, task < n :=
    fun task htask => h.below task (hperm.mem_iff.mpr htask)
  exact ⟨hbelow _ (by simp), hdistinct.1, hdistinct.2,
    fun task htask => hbelow task (List.mem_cons_of_mem _ htask)⟩

theorem Numbered.append (h : Numbered n running) (jobs : List (Job σ)) :
    Numbered (n + (numbered n jobs).length) (running ++ numbered n jobs) := by
  constructor
  · rw [List.map_append, map_fst_numbered, List.nodup_append]
    refine ⟨h.distinct, List.nodup_range', ?_⟩
    intro task htask other hother heq
    have := h.below task htask
    rw [List.mem_range'_1] at hother
    omega
  · intro task htask
    rw [length_numbered]
    rw [List.map_append, map_fst_numbered, List.mem_append, List.mem_range'_1] at htask
    obtain htask | htask := htask
    · have := h.below task htask
      omega
    · omega

theorem tasks (h : Drains n running turns) (hn : Numbered n running) :
    (∀ t ∈ turns, t.task ∈ running.map Prod.fst ∨ n ≤ t.task) ∧ (turns.map (·.task)).Nodup ∧
      ∀ t ∈ turns, ∀ task ∈ t.followUps, n ≤ task := by
  -- Induction on the turns: each ends a task that was running at first or started since.
  induction h with
  | none => simp
  | @turn n running others started t rest hrunning hstarted hfollowUps hnext hrest ih =>
    obtain ⟨hbelow, hfresh, hothers⟩ := hn.others hrunning
    subst hstarted
    obtain ⟨hrun, hdistinct, hlater⟩ := ih (hothers.append _)
    have hmem : ∀ t' ∈ rest, t'.task ∈ others.map Prod.fst ∨ n ≤ t'.task := by
      intro t' ht'
      have := hrun t' ht'
      rw [List.map_append, map_fst_numbered, List.mem_append, List.mem_range'_1] at this
      obtain (hother | hnew) | hnew := this
      · exact .inl hother
      · exact .inr hnew.1
      · exact .inr (by omega)
    have hstart : ∀ task ∈ t.followUps, n ≤ task := by
      intro task htask
      rw [hfollowUps, map_fst_numbered, List.mem_range'_1] at htask
      exact htask.1
    refine ⟨List.forall_mem_cons.mpr ⟨?_, ?_⟩, ?_, List.forall_mem_cons.mpr ⟨hstart, ?_⟩⟩
    · left
      exact (hrunning.map Prod.fst).mem_iff.mpr (by simp)
    · intro t' ht'
      obtain hother | hnew := hmem t' ht'
      · left
        exact (hrunning.map Prod.fst).mem_iff.mpr (List.mem_cons_of_mem _ hother)
      · exact .inr hnew
    · rw [List.map_cons, List.nodup_cons]
      refine ⟨?_, hdistinct⟩
      intro hagain
      obtain ⟨t', ht', heq⟩ := List.mem_map.mp hagain
      obtain hother | hnew := hmem t' ht'
      · exact hfresh (heq ▸ hother)
      · rw [heq] at hnew
        exact absurd hbelow (Nat.not_lt.mpr hnew)
    · intro t' ht' task htask
      have := hlater t' ht' task htask
      omega

theorem after (h : Drains n running turns) (hn : Numbered n running) {s t : TaskEnd σ}
    (hs : s ∈ turns) (ht : t ∈ turns) (hstarted : t.task ∈ s.followUps) : [s, t].Sublist turns := by
  induction h with
  | none => simp at hs
  | @turn n running others started first rest hrunning hstarted' hfollowUps hnext hrest ih =>
    obtain ⟨hbelow, -, hothers⟩ := hn.others hrunning
    subst hstarted'
    have hn' := hothers.append first.finished.report.outcome.queued
    have hnew : n ≤ t.task := by
      obtain rfl | hs := List.mem_cons.mp hs
      · rw [hfollowUps, map_fst_numbered, List.mem_range'_1] at hstarted
        exact hstarted.1
      · have := (hrest.tasks hn').2.2 s hs _ hstarted
        omega
    have hlater : t ∈ rest := by
      obtain rfl | hlater := List.mem_cons.mp ht
      · exact absurd hbelow (Nat.not_lt.mpr hnew)
      · exact hlater
    obtain rfl | hs := List.mem_cons.mp hs
    · exact (List.singleton_sublist.mpr hlater).cons_cons _
    · exact (ih hn' hs hlater).cons _

end Drains

/-! ## What payloads tell -/

/-- Whether payloads tell the truth about some turns. -/
structure Truthful (turns : List (TaskEnd σ)) (payloads : List (Nat × Payload)) : Prop where
  /-- More follows up to the last payload, and all before it have exactly one part. -/
  ends : ∃ earlier last, payloads.map Prod.snd = earlier ++ [last] ∧
    (∀ p ∈ earlier, p.hasNext = true ∧ ∃ part, p.parts = [part]) ∧
    last.hasNext = false ∧ last.parts.length ≤ 1
  /-- No task makes two payloads. -/
  once : (payloads.map Prod.fst).Nodup
  /-- What a task has to deliver is in its payload. -/
  delivered : ∀ t ∈ turns, ∀ part, t.part = some part →
    (t.task, ⟨[part], t.finished.hasNext⟩) ∈ payloads
  /-- What is in a payload was delivered by its task. -/
  genuine : ∀ p ∈ payloads, ∃ t ∈ turns, t.task = p.1 ∧ p.2.parts = t.part.toList
  /-- The payload of a task comes after that of the task that started it. -/
  after : ∀ s ∈ turns, ∀ t ∈ turns, t.task ∈ s.followUps → s.part.isSome → t.part.isSome →
    [s.task, t.task].Sublist (payloads.map Prod.fst)
  /-- A task with nothing to deliver makes no payload, unless it is the last one. -/
  silent : ∀ earlier t later, turns = earlier ++ t :: later → later ≠ [] → t.part = none →
    t.task ∉ payloads.map Prod.fst

namespace TaskEnd

variable {t : TaskEnd σ} {turns : List (TaskEnd σ)}

theorem payload?_eq : t.payload? = match t.part with
    | some part => some ⟨[part], t.finished.hasNext⟩
    | none => if t.finished.hasNext then none else some ⟨[], false⟩ := rfl

theorem payload?_of_part {part : Part} (h : t.part = some part) :
    t.payload? = some ⟨[part], t.finished.hasNext⟩ := by
  rw [payload?_eq, h]

theorem parts_of_payload? {p : Payload} (h : t.payload? = some p) :
    p.parts = t.part.toList ∧ p.hasNext = t.finished.hasNext := by
  rw [payload?_eq] at h
  split at h
  · cases h
    simp [*]
  · split at h
    · cases h
    · cases h
      simp_all

theorem payload?_of_last (h : t.finished.hasNext = false) :
    t.payload? = some ⟨t.part.toList, false⟩ := by
  rw [payload?_eq]
  cases hpart : t.part with
  | none => simp [h]
  | some part => simp [h]

theorem payload?_of_hasNext {p : Payload} (h : t.finished.hasNext = true)
    (hp : t.payload? = some p) : ∃ part, t.part = some part ∧ p = ⟨[part], true⟩ := by
  rw [payload?_eq] at hp
  cases hpart : t.part with
  | none => simp [hpart, h] at hp
  | some part =>
    simp only [hpart, h, Option.some.injEq] at hp
    exact ⟨part, rfl, hp.symm⟩

theorem map_fst_payloads (turns : List (TaskEnd σ)) :
    (payloads turns).map Prod.fst = (turns.filter (·.payload?.isSome)).map (·.task) := by
  induction turns with
  | nil => rfl
  | cons t turns ih =>
    rw [payloads] at ih ⊢
    cases h : t.payload? with
    | none => simp [h, ih]
    | some p => simp [h, ih]

theorem map_snd_payloads (turns : List (TaskEnd σ)) :
    (payloads turns).map Prod.snd = turns.filterMap payload? := by
  rw [payloads, List.map_filterMap]
  congr 1
  funext t
  cases t.payload? <;> rfl

theorem mem_payloads {p : Nat × Payload} :
    p ∈ payloads turns ↔ ∃ t ∈ turns, t.task = p.1 ∧ t.payload? = some p.2 := by
  rw [payloads, List.mem_filterMap]
  constructor
  · rintro ⟨t, ht, hp⟩
    obtain ⟨q, hq, rfl⟩ := Option.map_eq_some_iff.mp hp
    exact ⟨t, ht, rfl, hq⟩
  · rintro ⟨t, ht, htask, hp⟩
    exact ⟨t, ht, by rw [hp, Option.map_some, htask]⟩

end TaskEnd

namespace Drains

variable {n : Nat} {running : List (Nat × Job σ)} {turns : List (TaskEnd σ)}

theorem ends (h : Drains n running turns) (hne : running ≠ []) :
    ∃ earlier last, (TaskEnd.payloads turns).map Prod.snd = earlier ++ [last] ∧
      (∀ p ∈ earlier, p.hasNext = true ∧ ∃ part, p.parts = [part]) ∧
      last.hasNext = false ∧ last.parts.length ≤ 1 := by
  have hturns : turns ≠ [] := by
    rw [← List.isEmpty_eq_false_iff, h.isEmpty, List.isEmpty_eq_false_iff]
    exact hne
  obtain ⟨before, t, rfl⟩ := (List.eq_nil_or_concat turns).resolve_left hturns
  rw [List.concat_eq_append] at h ⊢
  have hlast : t.finished.hasNext = false := h.hasNext rfl
  refine ⟨before.filterMap TaskEnd.payload?, ⟨t.part.toList, false⟩, ?_, ?_, rfl, ?_⟩
  · rw [TaskEnd.map_snd_payloads, List.filterMap_append]
    simp [TaskEnd.payload?_of_last hlast]
  · intro p hp
    obtain ⟨s, hs, hps⟩ := List.mem_filterMap.mp hp
    obtain ⟨earlier, later, rfl⟩ := List.append_of_mem hs
    have hnext : s.finished.hasNext = true := by
      rw [h.hasNext (List.append_assoc _ _ _)]
      simp
    obtain ⟨part, -, rfl⟩ := TaskEnd.payload?_of_hasNext hnext hps
    exact ⟨rfl, part, rfl⟩
  · cases t.part <;> simp

theorem truthful (h : Drains n running turns) (hn : Numbered n running) (hne : running ≠ []) :
    Truthful turns (TaskEnd.payloads turns) := by
  obtain ⟨-, hdistinct, -⟩ := h.tasks hn
  have hmap : ((turns.filter (·.payload?.isSome)).map (·.task)).Nodup :=
    (List.filter_sublist.map _).nodup hdistinct
  refine ⟨h.ends hne, ?_, ?_, ?_, ?_, ?_⟩
  · rw [TaskEnd.map_fst_payloads]
    exact hmap
  · intro t ht part hpart
    exact TaskEnd.mem_payloads.mpr ⟨t, ht, rfl, TaskEnd.payload?_of_part hpart⟩
  · intro p hp
    obtain ⟨t, ht, htask, hpayload⟩ := TaskEnd.mem_payloads.mp hp
    exact ⟨t, ht, htask, (TaskEnd.parts_of_payload? hpayload).1⟩
  · intro s hs t ht hstarted hspart htpart
    obtain ⟨sPart, hsPart⟩ := Option.isSome_iff_exists.mp hspart
    obtain ⟨tPart, htPart⟩ := Option.isSome_iff_exists.mp htpart
    have horder := (h.after hn hs ht hstarted).filter (·.payload?.isSome)
    rw [List.filter_eq_self.mpr] at horder
    · rw [TaskEnd.map_fst_payloads]
      exact horder.map _
    · simp [TaskEnd.payload?_of_part hsPart, TaskEnd.payload?_of_part htPart]
  · intro earlier t later hturns hlater hpart hmem
    obtain ⟨p, hp, htask⟩ := List.mem_map.mp hmem
    obtain ⟨s, hs, hstask, hpayload⟩ := TaskEnd.mem_payloads.mp hp
    have ht : t ∈ turns := by simp [hturns]
    obtain rfl : s = t := List.inj_on_of_nodup_map hdistinct hs ht (hstask.trans htask)
    have hnext : s.finished.hasNext = true := by
      rw [h.hasNext hturns]
      simpa using hlater
    obtain ⟨part, hpart', -⟩ := TaskEnd.payload?_of_hasNext hnext hpayload
    rw [hpart] at hpart'
    cases hpart'

end Drains

/-! ## Runs -/

namespace Delivery

variable {ctx : ExecutionContext σ} {d d' : Delivery σ} {w w' : World σ}

/-- The running tasks and their jobs. -/
def tasks (d : Delivery σ) : List (Nat × Job σ) := d.running.map fun r => (r.task, r.job)

theorem map_fst_tasks (d : Delivery σ) : d.tasks.map Prod.fst = d.running.map (·.task) := by
  rw [tasks, List.map_map]
  rfl

theorem tasks_start (d : Delivery σ) (jobs : List (Job σ)) :
    (d.start ctx jobs).tasks = d.tasks ++ numbered d.nextTask jobs := by
  simp only [tasks, start, numbered, List.map_append, List.map_map]
  rfl

theorem tasks_goOn (d : Delivery σ) (task : Nat) (work : Completing σ) :
    (d.goOn task work).tasks = d.tasks := by
  rw [tasks, goOn, List.map_map, tasks]
  apply List.map_congr_left
  intro r _
  rw [Function.comp_apply]
  split <;> rfl

theorem isEmpty_tasks (d : Delivery σ) : d.tasks.isEmpty = d.isOver := by
  rw [tasks, isOver, List.isEmpty_map]

/-- How the end of a running task changes what runs, or that nothing runs. -/
def Ends (d d' : Delivery σ) : Option (Finished σ) → Prop
  | none => d.tasks = []
  | some f => ∃ task others, d.tasks.Perm ((task, f.job) :: others) ∧
      d'.tasks = others ++ numbered d.nextTask f.report.outcome.queued ∧
      d'.nextTask = d.nextTask + f.report.outcome.queued.length ∧
      f.hasNext = !d'.tasks.isEmpty

theorem ends_of_finds {found : Option (Finished σ)} (hd : (d.running.map (·.task)).Nodup)
    (h : Finds ctx d w found d' w') : d.Ends d' found := by
  induction h with
  | ended hover => exact List.isEmpty_iff.mp ((isEmpty_tasks _).trans hover)
  | skipped _ _ _ ih => exact ih hd
  | @finished d w ready report v others current _ hfind _ hothers =>
    obtain ⟨before, after, hrunning, hfilter, -⟩ :=
      split_running hd (List.mem_of_find?_eq_some hfind)
    have htasks : others.tasks = (before ++ after).map fun r => (r.task, r.job) := by
      rw [hothers, tasks, hfilter]
    refine ⟨current.task, others.tasks, ?_, ?_, ?_, ?_⟩
    · rw [tasks, hrunning, htasks]
      exact List.perm_middle.map _
    · rw [tasks_start, hothers]
    · rw [hothers]
      rfl
    · rw [isEmpty_tasks]
  | @wentOn d w ready left v found d' w' current _ _ _ _ _ ih =>
    have hsame := tasks_goOn d current.task left
    have hd' : ((d.goOn current.task left).running.map (·.task)).Nodup := by
      rw [← map_fst_tasks, hsame, map_fst_tasks]
      exact hd
    have hends := ih hd'
    unfold Ends at hends ⊢
    rwa [hsame] at hends

theorem drains_of_history {count : Nat} {history : List (Finished σ)}
    (hd : d.Orderly (fun _ => True) (fun _ => True) (fun _ _ => True) ctx)
    (h : d.history ctx count w = some (history, w')) :
    ∃ turns, Drains d.nextTask d.tasks turns ∧ turns.map (·.finished) = history := by
  induction count generalizing d w history with
  | zero => simp [Delivery.history] at h
  | succ count ih =>
    rcases history_succ h with ⟨rfl, d', hnext⟩ | ⟨finished, later, d', v, rfl, hnext, hlater⟩
    · have hnone : d.tasks = [] := ends_of_finds hd.distinct (finds_of_next hnext)
      rw [hnone]
      exact ⟨[], .none, rfl⟩
    · obtain ⟨task, others, hrunning, htasks, hnumber, hhas⟩ :=
        ends_of_finds hd.distinct (finds_of_next hnext)
      obtain ⟨-, hd'⟩ := next_acts Course.any (tame_any ctx) hd trivial hnext
      obtain ⟨turns, hturns, rfl⟩ := ih hd' hlater
      let started := numbered d.nextTask finished.report.outcome.queued
      refine ⟨⟨task, finished, started.map Prod.fst⟩ :: turns, ?_, rfl⟩
      refine .turn hrunning rfl rfl ?_ ?_
      · rw [hhas, htasks]
      · rw [length_numbered, ← hnumber, ← htasks]
        exact hturns

end Delivery

/-- The payloads after the first one tell the truth: whatever the running tasks leave, and in
whichever order they come to their ends. Each run of the executor is a case of this. -/
theorem laterPayloads_truthful :
    (∀ (jobs : List (Job σ)) turns, jobs ≠ [] → Drains jobs.length (numbered 0 jobs) turns →
      Truthful turns (TaskEnd.payloads turns)) ∧
    ∀ (ctx : ExecutionContext σ) jobs w payloads w',
      laterPayloads ctx jobs w = some (payloads, w') →
      ∃ turns, Drains jobs.length (numbered 0 jobs) turns ∧
        payloads = (TaskEnd.payloads turns).map Prod.snd := by
  constructor
  · intro jobs turns hjobs h
    have hn : Drains.Numbered 0 ([] : List (Nat × Job σ)) := ⟨.nil, by simp⟩
    have hnumbered := hn.append jobs
    rw [length_numbered, Nat.zero_add, List.nil_append] at hnumbered
    apply h.truthful hnumbered
    rw [← List.length_pos_iff, length_numbered, List.length_pos_iff]
    exact hjobs
  · intro ctx jobs w payloads w' h
    simp only [laterPayloads, Option.bind_eq_bind, Option.bind_eq_some_iff] at h
    obtain ⟨⟨history, v⟩, hrun, h⟩ := h
    cases h
    obtain ⟨turns, hturns, rfl⟩ := Delivery.drains_of_history
      (Delivery.orderly_start (tame_any ctx) Delivery.orderly_empty fun _ _ => trivial) hrun
    rw [Delivery.tasks_start] at hturns
    refine ⟨turns, by simpa [Delivery.tasks, Delivery.start, Delivery.empty] using hturns, ?_⟩
    rw [TaskEnd.map_snd_payloads, List.filterMap_map]
    rfl

theorem sampleRequest_truthful : ∃ initial ctx jobs w payloads v turns,
    (sampleRequest [.int 1, .int 2]).executeIncrementally sampleWorld =
      some (.incremental initial ctx jobs, w) ∧ jobs ≠ [] ∧
    laterPayloads ctx jobs w = some (payloads, v) ∧ payloads.length = 3 ∧
    Drains jobs.length (numbered 0 jobs) turns ∧ payloads = (TaskEnd.payloads turns).map Prod.snd ∧
    Truthful turns (TaskEnd.payloads turns) := by
  have hanswered : ((sampleRequest [.int 1, .int 2]).executeIncrementally sampleWorld).any fun
      | (.incremental _ ctx jobs, w) => !jobs.isEmpty && (laterPayloads ctx jobs w).any
          fun (payloads, _) => payloads.length = 3
      | (.single _, _) => false := by decide +kernel
  obtain ⟨⟨response, w⟩, h, hlater⟩ := (Option.any_eq_true _ _).mp hanswered
  cases response with
  | single => cases hlater
  | incremental initial ctx jobs =>
    obtain ⟨hjobs, hlater⟩ := Bool.and_eq_true_iff.mp hlater
    have hne : jobs ≠ [] := by simpa using hjobs
    obtain ⟨⟨payloads, v⟩, hpayloads, hlength⟩ := (Option.any_eq_true _ _).mp hlater
    obtain ⟨turns, hturns, heq⟩ := laterPayloads_truthful.2 ctx jobs w payloads v hpayloads
    exact ⟨initial, ctx, jobs, w, payloads, v, turns, h, hne, hpayloads, by simpa using hlength,
      hturns, heq, laterPayloads_truthful.1 jobs turns hne hturns⟩

end GraphQL
