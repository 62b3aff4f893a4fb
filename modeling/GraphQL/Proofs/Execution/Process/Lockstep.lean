import Mathlib.Data.List.Forall2
import GraphQL.Proofs.Execution.Process.Results

/-! # Processes in lockstep

Two processes go in lockstep when they act and wait alike, step by step, and their results are related.
Whatever the world, a run of the one then leaves the same world behind as a run of the other.
-/

namespace GraphQL.Process

variable {σ ρ : Type}

mutual

/-- Whether two processes act and wait alike, as long as processes side by side come to related results,
and come to related results themselves. -/
def Lockstep (R : ρ → ρ → Prop) : Process σ ρ → Process σ ρ → Prop
  | done r, done r' => R r r'
  | step effect next, step effect' next' => effect = effect' ∧ ∀ w, Lockstep R (next w) (next' w)
  | wait polls place aborted effect next, wait polls' place' aborted' effect' next' =>
    (polls = polls' ∧ place = place' ∧ effect = effect') ∧ Lockstep R aborted aborted' ∧
      ∀ w, Lockstep R (next w) (next' w)
  | all parts next, all parts' next' =>
    LockstepAll R parts parts' ∧ ∀ rs rs', List.Forall₂ R rs rs' → Lockstep R (next rs) (next' rs')
  | unending, unending => True
  | _, _ => False

def LockstepAll (R : ρ → ρ → Prop) : List (Process σ ρ) → List (Process σ ρ) → Prop
  | [], [] => True
  | p :: rest, p' :: rest' => Lockstep R p p' ∧ LockstepAll R rest rest'
  | _, _ => False

end

variable {R : ρ → ρ → Prop} {p p' : Process σ ρ} {ps ps' : List (Process σ ρ)}

theorem lockstepAll_iff : LockstepAll R ps ps' ↔ List.Forall₂ (Lockstep R) ps ps' := by
  induction ps generalizing ps' with
  | nil => cases ps' <;> simp [LockstepAll]
  | cons p ps ih => cases ps' <;> simp [LockstepAll, ih]

theorem lockstep_bind {k k' : ρ → Process σ ρ} (hp : Lockstep R p p')
    (hk : ∀ r r', R r r' → Lockstep R (k r) (k' r')) : Lockstep R (p.bind k) (p'.bind k') := by
  induction p using induct generalizing p' with
  | done r =>
    cases p' with
    | done r' => exact hk r r' hp
    | _ => exact hp.elim
  | step effect next ih =>
    cases p' with
    | step effect' next' => exact ⟨hp.1, fun w => ih w (hp.2 w)⟩
    | _ => exact hp.elim
  | wait polls place aborted effect next iha ih =>
    cases p' with
    | wait polls' place' aborted' effect' next' => exact ⟨hp.1, iha hp.2.1, fun w => ih w (hp.2.2 w)⟩
    | _ => exact hp.elim
  | all parts next _ ih =>
    cases p' with
    | all parts' next' => exact ⟨hp.1, fun rs rs' hrs => ih rs (hp.2 rs rs' hrs)⟩
    | _ => exact hp.elim
  | unending =>
    cases p' with
    | unending => trivial
    | _ => exact hp.elim

theorem result?_lockstep (h : Lockstep R p p') : Option.Rel R p.result? p'.result? := by
  cases p <;> cases p' <;> first | exact .some h | exact .none | exact h.elim

theorem results?_lockstep (h : List.Forall₂ (Lockstep R) ps ps') :
    Option.Rel (List.Forall₂ R) (results? ps) (results? ps') := by
  induction h with
  | nil => exact .some .nil
  | @cons p p' ps ps' hp _ ih =>
    have hresult := result?_lockstep hp
    simp only [results?, List.mapM_cons] at ih ⊢
    generalize p.result? = result, p'.result? = result' at hresult ⊢
    generalize ps.mapM result? = results, ps'.mapM result? = results' at ih ⊢
    cases hresult with
    | none => exact .none
    | some hr =>
      cases ih with
      | none => exact .none
      | some hrs => exact .some (.cons hr hrs)

/-- Processes in lockstep are asked with the same effect, and are in lockstep afterwards. -/
def PollsAlike (R : ρ → ρ → Prop) (p p' : Process σ ρ) : Prop :=
  ∀ w, Lockstep R (p.poll w).1 (p'.poll w).1 ∧ (p.poll w).2 = (p'.poll w).2

theorem pollAll_lockstep (h : List.Forall₂ (PollsAlike R) ps ps') (w : World σ) :
    List.Forall₂ (Lockstep R) (pollAll ps w).1 (pollAll ps' w).1 ∧
      (pollAll ps w).2 = (pollAll ps' w).2 := by
  induction h generalizing w with
  | nil => exact ⟨.nil, rfl⟩
  | @cons p p' ps ps' hp _ ih =>
    obtain ⟨hleft, hw⟩ := hp w
    obtain ⟨hrest, hw'⟩ := ih (p.poll w).2
    simp only [pollAll, ← hw]
    exact ⟨.cons hleft hrest, hw'⟩

theorem poll_lockstep (h : Lockstep R p p') : PollsAlike R p p' := by
  induction p using induct generalizing p' with
  | done r =>
    cases p' with
    | done r' => exact fun w => ⟨h, rfl⟩
    | _ => exact h.elim
  | step effect next ih =>
    cases p' with
    | step effect' next' =>
      obtain ⟨rfl, hnext⟩ := h
      exact fun w => ih w (hnext w) (effect w)
    | _ => exact h.elim
  | wait polls place aborted effect next iha ih =>
    cases p' with
    | wait polls' place' aborted' effect' next' =>
      obtain ⟨⟨rfl, rfl, rfl⟩, haborted, hnext⟩ := h
      intro w
      by_cases hzero : polls = some 0
      · -- It need not wait any longer.
        subst hzero
        simp only [poll]
        exact ih w (hnext w) _
      · rw [poll, poll]
        · generalize (if polls.isSome then w.wakeRunning else w) = woken
          split
          · exact iha haborted _
          · split <;> exact ⟨⟨⟨rfl, rfl, rfl⟩, haborted, hnext⟩, rfl⟩
        · exact hzero
        · exact hzero
    | _ => exact h.elim
  | all parts next ihp ih =>
    cases p' with
    | all parts' next' =>
      intro w
      obtain ⟨hparts, hnext⟩ := h
      have hparts := lockstepAll_iff.mp hparts
      have hpolls : List.Forall₂ (PollsAlike R) parts parts' :=
        ((List.forall₂_and_left _ _).mpr ⟨fun p hp => @ihp p hp, hparts⟩).imp fun _ _ h => h.1 h.2
      obtain ⟨hleft, hw⟩ := pollAll_lockstep hpolls w
      have hresults := results?_lockstep hleft
      simp only [poll, ← hw]
      generalize results? (pollAll parts w).1 = results, results? (pollAll parts' w).1 = results'
        at hresults ⊢
      cases hresults with
      | none => exact ⟨⟨lockstepAll_iff.mpr hleft, hnext⟩, rfl⟩
      | some hrs => exact ih _ (hnext _ _ hrs) _
    | _ => exact h.elim
  | unending =>
    cases p' with
    | unending => exact fun w => ⟨trivial, rfl⟩
    | _ => exact h.elim

/-- Runs of processes in lockstep end in the same world, or not at all, and with related results. -/
theorem run_lockstep (h : Lockstep R p p') (n : Nat) (w : World σ) :
    Option.Rel (fun ended ended' => R ended.1 ended'.1 ∧ ended.2 = ended'.2) (p.run n w)
      (p'.run n w) := by
  induction n generalizing p p' w with
  | zero => exact .none
  | succ n ih =>
    obtain ⟨hleft, hw⟩ := poll_lockstep h w
    simp only [run, ← hw]
    generalize (p.poll w).1 = left at hleft
    generalize (p'.poll w).1 = left' at hleft
    cases left <;> cases left' <;> first
      | exact hleft.elim
      | exact .some ⟨hleft, rfl⟩
      | exact ih hleft _

end GraphQL.Process
