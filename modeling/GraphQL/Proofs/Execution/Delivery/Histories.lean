import Mathlib.Data.List.Perm.Basic
import GraphQL.Proofs.Execution.Completion.Basic
import GraphQL.Proofs.Execution.Delivery.Jobs

/-! # Histories

When all jobs came to their ends, the history tells of each first job and of all that followed from
it. The items of one list come to their ends one after the other, however the jobs take turns.
-/

namespace GraphQL

open Process

variable {σ α β : Type} {I : World σ → Prop} {ctx : ExecutionContext σ}

theorem exists_forall₂_of_perm {R : α → β → Prop} {l l' : List α} {m : List β} (hperm : l.Perm l')
    (h : List.Forall₂ R l m) : ∃ m', List.Forall₂ R l' m' ∧ m.Perm m' := by
  obtain ⟨m', hm', hperm'⟩ := List.perm_comp_forall₂ hperm.symm h
  exact ⟨m', hm', hperm'.symm⟩

theorem exists_of_forall₂_append {R : α → β → Prop} {l l' : List α} {m : List β}
    (h : List.Forall₂ R (l ++ l') m) :
    ∃ first later, List.Forall₂ R l first ∧ List.Forall₂ R l' later ∧ m = first ++ later :=
  ⟨m.take l.length, m.drop l.length, (List.forall₂_take_append m l l' h.flip).flip,
    (List.forall₂_drop_append m l l' h.flip).flip, (List.take_append_drop l.length m).symm⟩

/-! ## The parts of a history -/

/-- The parts that some jobs delivered. -/
def partsOf (history : List (Finished σ)) : List Part := history.filterMap Finished.part

theorem parts_of_payload (finished : Finished σ) :
    finished.payload?.toList.flatMap (·.parts) = finished.part.toList := by
  unfold Finished.payload?
  cases finished.part with
  | some part => rfl
  | none =>
    dsimp only
    split <;> rfl

theorem parts_of_payloads (history : List (Finished σ)) :
    (history.filterMap Finished.payload?).flatMap (·.parts) = partsOf history := by
  unfold partsOf
  rw [List.filterMap_eq_flatMap_toList, List.filterMap_eq_flatMap_toList, List.flatMap_assoc]
  exact congrArg (List.flatMap · history) (funext parts_of_payload)

/-! ## What follows from a job -/

/-- Whether jobs are all that follows from one of them, which comes first, in some order. -/
inductive Completes (I : World σ → Prop) (ctx : ExecutionContext σ) :
    Job σ → List (Finished σ) → Prop
  | intro {finished : Finished σ} {histories : List (List (Finished σ))}
    (h : Yields I (finished.job.execute ctx) finished.report)
    (hqueued : List.Forall₂ (Completes I ctx) finished.report.outcome.queued histories) :
    Completes I ctx finished.job (finished :: histories.flatten)

theorem Completes.induct {P : Job σ → List (Finished σ) → Prop}
    (step : ∀ (finished : Finished σ) (histories : List (List (Finished σ))),
      Yields I (finished.job.execute ctx) finished.report →
      List.Forall₂ P finished.report.outcome.queued histories →
      P finished.job (finished :: histories.flatten))
    {job : Job σ} {history : List (Finished σ)} (h : Completes I ctx job history) :
    P job history :=
  Completes.rec (motive_1 := fun job history _ => P job history)
    (motive_2 := fun jobs histories _ => List.Forall₂ P jobs histories)
    (fun h _ ih => step _ _ h ih) .nil (fun _ _ h hrest => .cons h hrest) h

theorem Unfolds.completes {jobs : List (Job σ)} {history : List (Finished σ)}
    (h : Unfolds I ctx jobs history []) :
    ∃ histories, List.Forall₂ (Completes I ctx) jobs histories ∧ history.Perm histories.flatten := by
  generalize hleft : ([] : List (Job σ)) = left at h
  induction h with
  | refl =>
    subst hleft
    exact ⟨[], .nil, .refl _⟩
  | @cons jobs others finished rest left hjobs h hrest ih =>
    obtain ⟨histories, hall, hhistory⟩ := ih hleft
    obtain ⟨before, after, hothers, hqueued, rfl⟩ := exists_of_forall₂_append hall
    obtain ⟨histories, hall, hperm⟩ :=
      exists_forall₂_of_perm hjobs.symm (.cons (.intro h hqueued) hothers)
    refine ⟨histories, hall, .trans ?_ hperm.flatten⟩
    rw [List.flatten_append] at hhistory
    exact (hhistory.trans List.perm_append_comm).cons finished

/-! ## The order of a list -/

/-- The job that goes on after what was completed. -/
def Report.rest? : Report σ → Option (Job σ)
  | followed _ _ job => some job
  | _ => none

/-- Whether a job delivers the next item of a list after that of another. -/
inductive Job.Continues : Job σ → Job σ → Prop
  | streamed {plan itemType path label index source rest} :
    Continues (.streamed plan itemType path label (index + 1) rest)
      (.streamed plan itemType path label index source)

/-- Whether each job continues the one before, until nothing is left to go on with. -/
inductive Consecutive : List (Finished σ) → Prop
  | last {finished : Finished σ} (h : finished.report.rest? = none) : Consecutive [finished]
  | cons {finished next : Finished σ} {later} (hrest : finished.report.rest? = some next.job)
    (hnext : next.job.Continues finished.job) (hlater : Consecutive (next :: later)) :
    Consecutive (finished :: next :: later)

/-- Whether a list is made of others, whose members take turns. -/
inductive Interleaves : List (List α) → List α → Prop
  | nil : Interleaves [] []
  | single {x : α} {chains l} (h : Interleaves chains l) : Interleaves ([x] :: chains) (x :: l)
  | cons {x y : α} {chain chains l} (h : Interleaves ((y :: chain) :: chains) l) :
    Interleaves ((x :: y :: chain) :: chains) (x :: l)
  | perm {chains chains' : List (List α)} {l} (hperm : chains.Perm chains')
    (h : Interleaves chains l) : Interleaves chains' l

theorem rest?_absorbing (r : Report σ) (t : TypeRef) (h : r.rest? = none) :
    (r.absorbing t).rest? = none := by
  unfold Report.absorbing
  split
  · exact h
  · rfl

section

variable {complete completeField : Completer σ} {plan : FieldPlan σ} {itemType t : TypeRef}
  {path : Path} {value : HostValue} {r : Report σ}

theorem rest?_completeItems {items : List HostValue}
    (h : Yields I (completeItems complete plan itemType path items) r) : r.rest? = none := by
  obtain ⟨reports, rfl, -⟩ := yields_completeItems h
  rfl

theorem rest?_completeItemsOf {source : Option ItemSource}
    (h : Yields I (completeItemsOf ctx complete false plan itemType path source) r) :
    r.rest? = none := by
  rcases source with _ | items | events
  · exact rest?_completeItems h
  · exact rest?_completeItems h
  · obtain ⟨x, hx, h⟩ := yields_takeEvents.mp h
    rcases x with e | ⟨items, rest⟩
    · obtain rfl := h
      rfl
    · obtain rfl := taken_all hx rfl
      exact rest?_completeItems h

theorem rest?_completeList
    (h : Yields I (completeList ctx complete false plan itemType path value) r) :
    r.rest? = none := by
  unfold completeList at h
  split at h
  · obtain rfl := h
    rfl
  · exact rest?_completeItemsOf h
  · obtain ⟨w, -, -, h⟩ := h
    exact rest?_completeItemsOf h

theorem rest?_completeValue
    (h : Yields I (completeValue ctx complete completeField false plan t path value) r) :
    r.rest? = none := by
  cases yields_completeValue h with
  | list hnull ht hr =>
    unfold completeValue at h
    simp only [hnull, ht, Bool.false_eq_true, if_false] at h
    exact rest?_completeList h
  | _ => rfl

theorem rest?_completeListItem
    (h : Yields I (completeItem (completeListItem ctx) plan itemType path value) r) :
    r.rest? = none := by
  obtain ⟨s, hs, rfl⟩ := yields_completeItem h
  refine rest?_absorbing s itemType ?_
  unfold completeListItem completeWithin at hs
  split at hs
  · exact hs.elim
  · exact rest?_completeValue hs

theorem continues_of_rest? {job next : Job σ} (h : Yields I (job.execute ctx) r)
    (hrest : r.rest? = some next) : next ∈ r.outcome.queued ∧ next.Continues job := by
  cases yields_execute h with
  | deferred | ended | failed => cases hrest
  | last hsource hitem =>
    rw [rest?_completeListItem hitem] at hrest
    cases hrest
  | @more plan itemType path label index source v rest r ticket hsource hitem herror =>
    obtain rfl := Option.some.inj hrest
    refine ⟨?_, .streamed⟩
    rw [(Outcome.queued_perm (by exact herror)).mem_iff]
    change _ ∈ (Report.followed r ticket _).jobs.map Prod.snd
    simp

end

/-- Whether a chain of jobs starts with the given one. -/
def Follows (job : Job σ) (chain : List (Finished σ)) : Prop :=
  chain.head?.map (·.job) = some job ∧ Consecutive chain

theorem Follows.cons {finished : Finished σ} {next : Job σ} {chain : List (Finished σ)}
    (h : Follows next chain) (hrest : finished.report.rest? = some next)
    (hnext : next.Continues finished.job) :
    ∃ f later, chain = f :: later ∧ Consecutive (finished :: f :: later) := by
  obtain ⟨hhead, hchain⟩ := h
  cases chain with
  | nil => simp at hhead
  | cons f later =>
    obtain rfl : f.job = next := by simpa using hhead
    exact ⟨f, later, rfl, .cons hrest hnext hchain⟩

theorem exists_perm_of_mem {x : α} {l : List α} (h : x ∈ l) : ∃ others, l.Perm (x :: others) := by
  obtain ⟨before, after, rfl⟩ := List.append_of_mem h
  exact ⟨before ++ after, List.perm_middle⟩

theorem Unfolds.follows {jobs : List (Job σ)} {history : List (Finished σ)}
    (h : Unfolds I ctx jobs history []) :
    ∃ chains more, List.Forall₂ Follows jobs chains ∧ (∀ chain ∈ more, Consecutive chain) ∧
      Interleaves (chains ++ more) history := by
  generalize hleft : ([] : List (Job σ)) = left at h
  induction h with
  | refl =>
    subst hleft
    exact ⟨[], [], .nil, by simp, .nil⟩
  | @cons jobs others finished rest left hjobs h hrest ih =>
    obtain ⟨chains, more, hchains, hmore, hinterleaves⟩ := ih hleft
    obtain ⟨before, after, hothers, hqueued, rfl⟩ := exists_of_forall₂_append hchains
    -- What comes to its end goes before the chain of the job that goes on, if there is one.
    suffices ∃ chain more, Follows finished.job chain ∧ (∀ chain ∈ more, Consecutive chain) ∧
        Interleaves (chain :: (before ++ more)) (finished :: rest) by
      obtain ⟨chain, more, hchain, hmore, hinterleaves⟩ := this
      obtain ⟨chains, hchains, hperm⟩ := exists_forall₂_of_perm hjobs.symm (.cons hchain hothers)
      exact ⟨chains, more, hchains, hmore, hinterleaves.perm (hperm.append_right more)⟩
    have hafter : ∀ chain ∈ after, Consecutive chain := by
      intro chain hchain
      obtain ⟨i, hi, rfl⟩ := List.getElem_of_mem hchain
      exact (hqueued.get (by rw [hqueued.length_eq]; exact hi) hi).2
    cases hnext : finished.report.rest? with
    | none =>
      refine ⟨[finished], after ++ more, ⟨rfl, .last hnext⟩, ?_, ?_⟩
      · exact List.forall_mem_append.mpr ⟨hafter, hmore⟩
      · rw [List.append_assoc] at hinterleaves
        exact .single hinterleaves
    | some next =>
      obtain ⟨hmem, hcontinues⟩ := continues_of_rest? h hnext
      obtain ⟨queued, hperm⟩ := exists_perm_of_mem hmem
      obtain ⟨_, hall, hafterPerm⟩ := exists_forall₂_of_perm hperm hqueued
      obtain ⟨chain, fresh, hchain, hfresh, rfl⟩ := List.forall₂_cons_left_iff.mp hall
      obtain ⟨f, later, rfl, hconsecutive⟩ := hchain.cons hnext hcontinues
      refine ⟨finished :: f :: later, fresh ++ more, ⟨rfl, hconsecutive⟩, ?_, ?_⟩
      · refine List.forall_mem_append.mpr ⟨fun chain hchain => hafter chain ?_, hmore⟩
        exact hafterPerm.mem_iff.mpr (List.mem_cons_of_mem _ hchain)
      · refine .cons (.perm ?_ hinterleaves)
        refine ((hafterPerm.append_left before).append_right more).trans ?_
        rw [List.append_assoc, List.cons_append]
        exact List.perm_middle

/-- However jobs take turns, the items of each list come to their ends in order. -/
theorem Unfolds.interleaves {jobs : List (Job σ)} {history : List (Finished σ)}
    (h : Unfolds I ctx jobs history []) :
    ∃ chains, (∀ chain ∈ chains, Consecutive chain) ∧ Interleaves chains history := by
  obtain ⟨chains, more, hchains, hmore, hinterleaves⟩ := h.follows
  refine ⟨chains ++ more, List.forall_mem_append.mpr ⟨fun chain hchain => ?_, hmore⟩, hinterleaves⟩
  obtain ⟨i, hi, rfl⟩ := List.getElem_of_mem hchain
  exact (hchains.get (by rw [hchains.length_eq]; exact hi) hi).2

end GraphQL
