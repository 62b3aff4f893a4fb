import GraphQL.Proofs.Execution.Delivery.Accounting
import GraphQL.Proofs.Execution.Delivery.StreamCuts

/-! # The threads of a history

A job that goes on with the list of the one before it belongs to the same thread. A history is made of
threads that take turns, one for each job that was left by something else than the item before it. The
thread of a streamed list delivers what its first job has in store, one item after the other, until the
first item that fails, the first error of the source, or the end.
-/

namespace GraphQL

open Process

variable {σ : Type} {I : World σ → Prop} {ctx : ExecutionContext σ} {left : List (Job σ)}

/-! ## Threads -/

/-- Whether some jobs go on with one another from the given one, to the end or to one that is left. -/
inductive Thread (left : List (Job σ)) : Job σ → List (Finished σ) → Prop
  | waiting {job} (h : job ∈ left) : Thread left job []
  | last {finished} (h : finished.report.rest? = none) : Thread left finished.job [finished]
  | cons {finished : Finished σ} {next later} (h : finished.report.rest? = some next)
    (hlater : Thread left next later) : Thread left finished.job (finished :: later)

/-- The jobs that are due after a job, but for the one that goes on with the same list. -/
def Finished.opened (f : Finished σ) : List (Job σ) :=
  f.report.completed.due (f.part.bind Part.data?)

/-- Whether a history is made of threads, one for each job that was due at first and for each that was
opened since, which take turns. -/
structure Threads (due : List (Job σ)) (history : List (Finished σ)) (left : List (Job σ))
    (threads : List (Job σ × List (Finished σ))) : Prop where
  started : (threads.map Prod.fst).Perm (due ++ history.flatMap Finished.opened)
  thread : ∀ t ∈ threads, Thread left t.1 t.2
  all : history.Perm (threads.flatMap Prod.snd)
  inOrder : ∀ t ∈ threads, t.2.Sublist history

theorem threads_left (left : List (Job σ)) : Threads left [] left (left.map (·, [])) where
  started := by simp [Function.comp_def]
  thread := by simpa using fun job hjob => .waiting hjob
  all := by simp
  inOrder := by simp

section

variable {jobs others queued : List (Job σ)} {finished : Finished σ} {history : List (Finished σ)}
  {threads : List (Job σ × List (Finished σ))}

theorem Threads.single (h : Threads (others ++ queued) history left threads)
    (hjobs : jobs.Perm (finished.job :: others)) (hqueued : queued.Perm finished.opened)
    (hrest : finished.report.rest? = none) :
    Threads jobs (finished :: history) left ((finished.job, [finished]) :: threads) where
  started := by
    rw [List.map_cons, List.flatMap_cons, ← List.append_assoc]
    refine (h.started.cons finished.job).trans ?_
    rw [← List.cons_append, ← List.cons_append]
    exact (hjobs.symm.append hqueued).append_right _
  thread := List.forall_mem_cons.mpr ⟨.last hrest, h.thread⟩
  all := h.all.cons finished
  inOrder := List.forall_mem_cons.mpr
    ⟨(List.nil_sublist _).cons_cons _, fun t ht => (h.inOrder t ht).cons _⟩

theorem Threads.cons {next : Job σ} (h : Threads (others ++ queued) history left threads)
    (hjobs : jobs.Perm (finished.job :: others)) (hqueued : queued.Perm (next :: finished.opened))
    (hrest : finished.report.rest? = some next) :
    ∃ threads, Threads jobs (finished :: history) left threads := by
  have hmem : next ∈ threads.map Prod.fst :=
    h.started.mem_iff.mpr (by simp [hqueued.mem_iff])
  obtain ⟨later, ht⟩ : ∃ later, (next, later) ∈ threads := by simpa using hmem
  obtain ⟨threads', hperm⟩ := exists_perm_of_mem ht
  have hmine (t) := (hperm.mem_iff (a := t)).mpr
  refine ⟨(finished.job, finished :: later) :: threads', ?_, ?_, ?_, ?_⟩
  · -- The job that goes on starts no thread any more.
    have hstarted := (hperm.map Prod.fst).symm.trans h.started
    have hothers : (others ++ queued).Perm (next :: (others ++ finished.opened)) :=
      (hqueued.append_left others).trans List.perm_middle
    have htail : (threads'.map Prod.fst).Perm
        (others ++ finished.opened ++ history.flatMap Finished.opened) :=
      (hstarted.trans (hothers.append_right _)).cons_inv
    rw [List.map_cons, List.flatMap_cons, ← List.append_assoc]
    refine (htail.cons finished.job).trans ?_
    rw [← List.cons_append, ← List.cons_append]
    exact (hjobs.symm.append_right _).append_right _
  · refine List.forall_mem_cons.mpr ⟨.cons hrest (h.thread _ ht), fun t ht => ?_⟩
    exact h.thread t (hmine t (List.mem_cons_of_mem _ ht))
  · exact (h.all.trans (hperm.flatMap_right _)).cons finished
  · refine List.forall_mem_cons.mpr ⟨(h.inOrder _ ht).cons_cons _, fun t ht => ?_⟩
    exact (h.inOrder t (hmine t (List.mem_cons_of_mem _ ht))).cons _

end

/-- However the jobs take turns, and however many are left, their history is made of threads. -/
theorem Unfolds.threads {jobs : List (Job σ)} {history : List (Finished σ)}
    (h : Unfolds I ctx jobs history left)
    (hqueued : ∀ f ∈ history, f.report.outcome.queued.Perm f.due) :
    ∃ threads, Threads jobs history left threads := by
  induction h with
  | refl => exact ⟨_, threads_left _⟩
  | cons hjobs _ _ ih =>
    obtain ⟨hfirst, hlater⟩ := List.forall_mem_cons.mp hqueued
    obtain ⟨threads, hthreads⟩ := ih hlater
    unfold Finished.due at hfirst
    cases hrest : Report.rest? _ with
    | none =>
      rw [hrest, Option.toList_none, List.append_nil] at hfirst
      exact ⟨_, hthreads.single hjobs hfirst hrest⟩
    | some next =>
      rw [hrest] at hfirst
      exact hthreads.cons hjobs (hfirst.trans List.perm_append_comm) hrest

theorem Threads.of_perm {due due' : List (Job σ)} {history : List (Finished σ)}
    {threads : List (Job σ × List (Finished σ))} (h : Threads due history left threads)
    (hdue : due.Perm due') : Threads due' history left threads :=
  ⟨h.started.trans (hdue.append_right _), h.thread, h.all, h.inOrder⟩

/-! ## Trails -/

/-- Whether a report may be about the item at an index of a list. -/
def ReportsItem (ctx : ExecutionContext σ) (plan : FieldPlan σ) (itemType : TypeRef) (path : Path)
    (index : Nat) (item : HostValue) (r : Report σ) : Prop :=
  ∃ depth, Yields World.Ongoing
    (completeItem (completeWithin ctx depth false) plan itemType (path.index index) item) r

/-- Whether parts deliver the results of a list that come from an index on: one item each, with the
indexes one after the other. They end after the last item, or with a part that has none: at the first
item that may not be null and fails, or at the first error of the source. They also end where the job
for the next is left. -/
inductive Trail (ctx : ExecutionContext σ) (left : List (Job σ)) (plan : FieldPlan σ)
    (itemType : TypeRef) (path : Path) (label : Option String) :
    Nat → List (Except FieldError HostValue) → List Part → Prop
  | ended {index} : Trail ctx left plan itemType path label index [] []
  | item {index v results parts r value} (h : ReportsItem ctx plan itemType path index v r)
    (hvalue : r.value? = some value)
    (hlater : Trail ctx left plan itemType path label (index + 1) results parts) :
    Trail ctx left plan itemType path label index (.ok v :: results)
      (⟨.items (some [value]), r.outcome.allErrors, path.index index, label⟩ :: parts)
  | failed {index v results r} (h : ReportsItem ctx plan itemType path index v r)
    (herror : r.isError) (hitem : itemType.isNonNull) :
    Trail ctx left plan itemType path label index (.ok v :: results)
      [⟨.items none, r.outcome.allErrors, path.index index, label⟩]
  | broken {index failure results} :
    Trail ctx left plan itemType path label index (.error failure :: results)
      [⟨.items none, [plan.error (path.index index) failure], path.index index, label⟩]
  | waiting {index} {source : ItemSource}
    (h : .streamed plan itemType path label index source ∈ left) :
    Trail ctx left plan itemType path label index source.results []

variable {plan : FieldPlan σ} {itemType : TypeRef} {path : Path} {label : Option String} {index : Nat}
  {v : HostValue} {r : Report σ}

theorem reportsItem_of_yields (hI : ∀ w, I w → w.Ongoing) {depth : Nat}
    (h : Yields I (completeItem (completeWithin ctx depth false) plan itemType (path.index index) v) r) :
    ReportsItem ctx plan itemType path index v r := ⟨depth, yields_mono hI h⟩

theorem ReportsItem.isNonNull (h : ReportsItem ctx plan itemType path index v r) (herror : r.isError) :
    itemType.isNonNull := by
  obtain ⟨depth, h⟩ := h
  obtain ⟨s, -, rfl⟩ := yields_completeItem h
  by_contra hnull
  unfold Report.absorbing at herror
  rw [if_neg hnull, Report.isError_eq, Report.escape?_nullable] at herror
  cases herror

theorem partsOf_streamed (source : ItemSource) (hasNext : Bool) (history : List (Finished σ)) :
    partsOf (⟨.streamed plan itemType path label index source, r, hasNext⟩ :: history) =
      ((Job.streamed plan itemType path label index source).part r).toList ++ partsOf history := by
  unfold partsOf Finished.part
  rw [List.filterMap_cons]
  dsimp only
  cases Job.part _ r <;> rfl

theorem part_eq_some {source : ItemSource} (h : r.isError ∨ r.value?.isSome) :
    (Job.streamed plan itemType path label index source).part r =
      some ⟨.items (r.value?.map fun v => [v]), r.outcome.allErrors, path.index index, label⟩ := by
  unfold Report.isError Report.value? Outcome.isError Outcome.value? at h
  unfold Job.part Report.value? Outcome.value?
  dsimp only
  split <;> simp_all

theorem allErrors_failed (e : ExecutionError) : (Report.failed e : Report σ).outcome.allErrors = [e] := by
  simp [Outcome.allErrors, Report.outcome, Outcome.failed, inResponseOrder]

theorem allErrors_followed (ticket : Nat) (job : Job σ) :
    (r.followed ticket job).outcome.allErrors = r.outcome.allErrors := rfl

theorem StreamedReport.trail_last (hI : ∀ w, I w → w.Ongoing)
    {results : List (Except FieldError HostValue)}
    (h : StreamedReport I ctx plan itemType path label index results r) (hrest : r.rest? = none)
    (source : ItemSource) : Trail ctx left plan itemType path label index results
      ((Job.streamed plan itemType path label index source).part r).toList := by
  cases h with
  | ended => exact .ended
  | broken =>
    rw [part_eq_some (.inl rfl), allErrors_failed]
    exact .broken
  | failed hitem herror =>
    have hitem := reportsItem_of_yields hI hitem
    rw [part_eq_some (.inl herror), Report.value?_of_isError herror]
    exact .failed hitem herror (hitem.isNonNull herror)
  | last hitem herror =>
    have hpresent := (placed_listItem hitem).present herror
    obtain ⟨value, hvalue⟩ := Option.isSome_iff_exists.mp hpresent
    rw [part_eq_some (.inr hpresent), hvalue]
    exact .item (reportsItem_of_yields hI hitem) hvalue .ended
  | more => cases hrest

theorem Thread.trail (hI : ∀ w, I w → w.Ongoing) {job : Job σ} {thread : List (Finished σ)}
    (h : Thread left job thread) (hthread : ∀ f ∈ thread, Yields I (f.job.execute ctx) f.report)
    {source : ItemSource} (hjob : job = .streamed plan itemType path label index source) :
    Trail ctx left plan itemType path label index source.results (partsOf thread) := by
  induction h generalizing index source with
  | waiting h => exact .waiting (hjob ▸ h)
  | @last f hrest =>
    obtain ⟨job, r, hasNext⟩ := f
    obtain rfl := hjob
    rw [partsOf_streamed]
    have hreport := yields_streamed hI (hthread _ List.mem_cons_self)
    simpa [partsOf] using hreport.trail_last hI hrest source
  | @cons f next later hrest _ ih =>
    obtain ⟨job, r, hasNext⟩ := f
    obtain rfl := hjob
    obtain ⟨hfirst, hlater⟩ := List.forall_mem_cons.mp hthread
    have hreport := yields_streamed hI hfirst
    rw [partsOf_streamed]
    generalize source.results = results at hreport
    cases hreport with
    | ended | broken => cases hrest
    | failed hitem | last hitem =>
      rw [rest?_completeListItem hitem] at hrest
      cases hrest
    | @more v r ticket next hitem herror =>
      obtain rfl := Option.some.inj hrest
      have hpresent := (placed_listItem hitem).present herror
      obtain ⟨value, hvalue⟩ := Option.isSome_iff_exists.mp hpresent
      rw [part_eq_some (.inr (by exact hpresent)), allErrors_followed, Report.value?_followed, hvalue]
      exact .item (reportsItem_of_yields hI hitem) hvalue (ih hlater rfl)

end GraphQL
