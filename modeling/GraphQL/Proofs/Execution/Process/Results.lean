import Mathlib.Data.List.Forall2
import GraphQL.Execution.Process

/-! # What processes yield

Asking a process leads through a sequence of worlds. `Yields I p r` says that `p` may come to the
result `r` if all these worlds satisfy `I`, whatever the other processes do in between. The main
statement is `run_yields`: a run yields its result between its first world and its last.
-/

namespace GraphQL

variable {σ ρ : Type}

/-- The world in which a process that waits looks at the signal. What is to be answered after some
rounds is asked again. -/
def World.woken (polls : Option Nat) (w : World σ) : World σ :=
  if polls.isSome then w.wakeRunning else w

/-- Relates a world to later ones, in all of which `P` holds. Which tasks wait or are asked does not
matter. -/
structure Course (P : World σ → Prop) (E : World σ → World σ → Prop) : Prop where
  keeps {v w} : P v → E v w → P w
  trans {u v w} : E u v → E v w → E u w
  tasks {v w} : w.host = v.host → w.controller = v.controller → w.isWatched = v.isWatched →
    w.taken = v.taken → w.traces = v.traces → E v w

namespace Course

variable {P : World σ → Prop} {E : World σ → World σ → Prop}

theorem refl (hE : Course P E) (w : World σ) : E w w := hE.tasks rfl rfl rfl rfl rfl

theorem wake (hE : Course P E) (w : World σ) (task : Nat) : E w (w.wake task) := by
  unfold World.wake
  split
  · exact hE.refl w
  · exact hE.tasks rfl rfl rfl rfl rfl

theorem wakeRunning (hE : Course P E) (w : World σ) : E w w.wakeRunning := by
  unfold World.wakeRunning
  split
  · exact hE.wake w _
  · exact hE.refl w

theorem woken (hE : Course P E) (polls : Option Nat) (w : World σ) : E w (w.woken polls) := by
  unfold World.woken
  split
  · exact hE.wakeRunning w
  · exact hE.refl w

theorem join (hE : Course P E) (w : World σ) : E w w.join := hE.tasks rfl rfl rfl rfl rfl

theorem leave (hE : Course P E) (w : World σ) (place : Option Nat) : E w (w.leave place) := by
  cases place with
  | none => exact hE.refl w
  | some place => exact hE.tasks rfl rfl rfl rfl rfl

theorem any : Course (fun _ : World σ => True) fun _ _ => True :=
  ⟨fun _ _ => trivial, fun _ _ => trivial, fun _ _ _ _ _ => trivial⟩

end Course

/-- The worlds after `first` and before `last`. -/
def Between (E : World σ → World σ → Prop) (first last w : World σ) : Prop :=
  E first w ∧ E w last

theorem between_any (first last : World σ) :
    Between (fun _ _ => True) first last = fun _ => True := by
  funext w
  simp [Between]

namespace Process

theorem induct {P : Process σ ρ → Prop} (done : ∀ r, P (.done r))
    (step : ∀ effect next, (∀ w, P (next w)) → P (.step effect next))
    (wait : ∀ polls place aborted effect next, P aborted → (∀ w, P (next w)) →
      P (.wait polls place aborted effect next))
    (all : ∀ parts next, (∀ p ∈ parts, P p) → (∀ rs, P (next rs)) → P (.all parts next))
    (unending : P .unending) (p : Process σ ρ) : P p :=
  Process.rec (motive_1 := P) (motive_2 := fun ps => ∀ p ∈ ps, P p) done step wait all unending
    (by simp) (fun p ps hp hps => by simpa using ⟨hp, hps⟩) p

theorem poll_bind (p : Process σ ρ) (k : ρ → Process σ ρ) (w : World σ) :
    (p.bind k).poll w = match (p.poll w).1 with
      | .done r => (k r).poll (p.poll w).2
      | left => (left.bind k, (p.poll w).2) := by
  induction p using induct generalizing w with
  | done r => rw [poll, bind]
  | unending => rfl
  | step effect next ih =>
    rw [bind, poll, ih, poll]
  | wait polls place aborted effect next iha ih =>
    rcases polls with _ | _ | polls
    · simp only [bind, poll, Option.isSome_none, Bool.false_eq_true, if_false]
      split
      · exact iha _
      · split <;> rfl
    · exact ih _ _
    · simp only [bind, poll, Option.isSome_some, if_true]
      split
      · exact iha _
      · split <;> rfl
  | all parts next ihp ih =>
    simp only [bind, poll]
    split
    · exact ih _ _
    · rfl

/-! ## Acting -/

mutual

/-- Whether everything that a process does to the world follows the course `E`, as long as `P`. -/
def Acts (P : World σ → Prop) (E : World σ → World σ → Prop) : Process σ ρ → Prop
  | done _ => True
  | step effect next => ∀ w, P w → E w (effect w) ∧ Acts P E (next w)
  | wait _ _ aborted effect next =>
    Acts P E aborted ∧ ∀ w, P w → E w (effect w) ∧ Acts P E (next w)
  | all parts next => ActsAll P E parts ∧ ∀ rs, Acts P E (next rs)
  | unending => True

def ActsAll (P : World σ → Prop) (E : World σ → World σ → Prop) : List (Process σ ρ) → Prop
  | [] => True
  | p :: rest => Acts P E p ∧ ActsAll P E rest

end

variable {P : World σ → Prop} {E : World σ → World σ → Prop}

theorem actsAll_iff {ps : List (Process σ ρ)} : ActsAll P E ps ↔ ∀ p ∈ ps, Acts P E p := by
  induction ps with
  | nil => simp [ActsAll]
  | cons p ps ih => simp [ActsAll, ih]

theorem acts_any (p : Process σ ρ) : Acts (fun _ => True) (fun _ _ => True) p := by
  induction p using induct with
  | done | unending => trivial
  | step effect next ih => exact fun w _ => ⟨trivial, ih w⟩
  | wait polls place aborted effect next iha ih => exact ⟨iha, fun w _ => ⟨trivial, ih w⟩⟩
  | all parts next ihp ih => exact ⟨actsAll_iff.mpr ihp, ih⟩

theorem acts_bind {p : Process σ ρ} {k : ρ → Process σ ρ} (hp : Acts P E p)
    (hk : ∀ r, Acts P E (k r)) : Acts P E (p.bind k) := by
  induction p using induct with
  | done r => exact hk r
  | unending => trivial
  | step effect next ih => exact fun w hw => ⟨(hp w hw).1, ih w (hp w hw).2⟩
  | wait polls place aborted effect next iha ih =>
    exact ⟨iha hp.1, fun w hw => ⟨(hp.2 w hw).1, ih w (hp.2 w hw).2⟩⟩
  | all parts next ihp ih => exact ⟨hp.1, fun rs => ih rs (hp.2 rs)⟩

/-- Whether asking once follows the course, and leaves what follows it. -/
def PollActs (P : World σ → Prop) (E : World σ → World σ → Prop) (p : Process σ ρ) : Prop :=
  ∀ w, P w → E w (p.poll w).2 ∧ Acts P E (p.poll w).1

theorem pollAll_acts (hE : Course P E) {ps : List (Process σ ρ)} (h : ∀ p ∈ ps, PollActs P E p)
    {w : World σ} (hP : P w) : E w (pollAll ps w).2 ∧ ActsAll P E (pollAll ps w).1 := by
  induction ps generalizing w with
  | nil => exact ⟨hE.refl w, trivial⟩
  | cons p ps ih =>
    obtain ⟨hp, hps⟩ := List.forall_mem_cons.mp h
    obtain ⟨hw, hq⟩ := hp w hP
    obtain ⟨hw', hqs⟩ := ih hps (hE.keeps hP hw)
    exact ⟨hE.trans hw hw', hq, hqs⟩

theorem poll_wait {polls : Option Nat} (hpolls : polls ≠ some 0) (place : Option Nat)
    (aborted : Process σ ρ) (effect : World σ → World σ) (next : World σ → Process σ ρ)
    (w : World σ) :
    ((w.woken polls).signal.isAborted ∧
      (wait polls place aborted effect next).poll w = aborted.poll ((w.woken polls).leave place)) ∨
    ((w.woken polls).signal.isAborted = false ∧ ∃ place' v,
      (v = w.woken polls ∨ v = (w.woken polls).join) ∧
      (wait polls place aborted effect next).poll w =
        (wait (polls.map (· - 1)) place' aborted effect next, v)) := by
  rw [poll]
  · unfold World.woken
    generalize (if polls.isSome then w.wakeRunning else w) = woken
    split
    · next habort => exact .inl ⟨habort, rfl⟩
    · next hgoesOn =>
      refine .inr ⟨by simpa using hgoesOn, ?_⟩
      split
      · exact ⟨_, _, .inl rfl, rfl⟩
      · exact ⟨_, _, .inr rfl, rfl⟩
  · exact hpolls

theorem poll_wait_cases (hE : Course P E) (polls place : Option Nat) (aborted : Process σ ρ)
    (effect : World σ → World σ) (next : World σ → Process σ ρ) (w : World σ) :
    (wait polls place aborted effect next).poll w = (next w).poll ((effect w).leave place) ∨
    (∃ woken, E w woken ∧ woken.signal.isAborted ∧
      (wait polls place aborted effect next).poll w = aborted.poll (woken.leave place)) ∨
    ∃ left place' w', E w w' ∧
      (wait polls place aborted effect next).poll w = (wait left place' aborted effect next, w') := by
  have hwoken := hE.woken polls w
  by_cases hzero : polls = some 0
  · subst hzero
    exact .inl rfl
  · right
    rcases poll_wait hzero place aborted effect next w with
      ⟨habort, heq⟩ | ⟨-, place', v, rfl | rfl, heq⟩
    · exact .inl ⟨_, hwoken, habort, heq⟩
    · exact .inr ⟨_, _, _, hwoken, heq⟩
    · exact .inr ⟨_, _, _, hE.trans hwoken (hE.join _), heq⟩

theorem poll_acts (hE : Course P E) {p : Process σ ρ} (h : Acts P E p) : PollActs P E p := by
  induction p using induct with
  | done r => exact fun w _ => ⟨hE.refl w, trivial⟩
  | unending => exact fun w _ => ⟨hE.refl w, trivial⟩
  | step effect next ih =>
    intro w hP
    obtain ⟨heffect, hnext⟩ := h w hP
    obtain ⟨hw, hq⟩ := ih w hnext (effect w) (hE.keeps hP heffect)
    exact ⟨hE.trans heffect hw, hq⟩
  | wait polls place aborted effect next iha ih =>
    intro w hP
    rcases poll_wait_cases hE polls place aborted effect next w with
      heq | ⟨woken, hwoken, -, heq⟩ | ⟨left, place', w', hw', heq⟩ <;> rw [heq]
    · obtain ⟨heffect, hnext⟩ := h.2 w hP
      have hleft := hE.trans heffect (hE.leave _ place)
      obtain ⟨hw, hq⟩ := ih w hnext ((effect w).leave place) (hE.keeps hP hleft)
      exact ⟨hE.trans hleft hw, hq⟩
    · have hleft := hE.trans hwoken (hE.leave _ place)
      obtain ⟨hw, hq⟩ := iha h.1 (woken.leave place) (hE.keeps hP hleft)
      exact ⟨hE.trans hleft hw, hq⟩
    · exact ⟨hw', h⟩
  | all parts next ihp ih =>
    intro w hP
    obtain ⟨hw, hqs⟩ := pollAll_acts hE (fun p hp => ihp p hp (actsAll_iff.mp h.1 p hp)) hP
    simp only [poll]
    split
    · next rs _ =>
      obtain ⟨hw', hq⟩ := ih rs (h.2 rs) (pollAll parts w).2 (hE.keeps hP hw)
      exact ⟨hE.trans hw hw', hq⟩
    · exact ⟨hw, hqs, h.2⟩

/-! ## Yielding -/

mutual

/-- Whether `r` may be the result, if every world on the way satisfies `I`. -/
def Yields (I : World σ → Prop) : Process σ ρ → ρ → Prop
  | done s, r => r = s
  | step effect next, r => ∃ w, I w ∧ I (effect w) ∧ Yields I (next w) r
  | wait _ _ aborted _ next, r =>
    (∃ w, I w ∧ w.signal.isAborted) ∧ Yields I aborted r ∨ ∃ w, I w ∧ Yields I (next w) r
  | all parts next, r => ∃ rs, YieldsAll I parts rs ∧ Yields I (next rs) r
  | unending, _ => False

def YieldsAll (I : World σ → Prop) : List (Process σ ρ) → List ρ → Prop
  | [], rs => rs = []
  | p :: rest, rs => ∃ r others, rs = r :: others ∧ Yields I p r ∧ YieldsAll I rest others

end

variable {I : World σ → Prop}

@[simp] theorem yields_done {r s : ρ} : Yields I (.done s) r ↔ r = s := Iff.rfl

theorem yieldsAll_iff {ps : List (Process σ ρ)} {rs : List ρ} :
    YieldsAll I ps rs ↔ List.Forall₂ (Yields I) ps rs := by
  induction ps generalizing rs with
  | nil => simp [YieldsAll]
  | cons p ps ih => simp [YieldsAll, ih, List.forall₂_cons_left_iff, and_comm, and_assoc]

theorem yields_mono {J : World σ → Prop} (hJ : ∀ w, I w → J w) {p : Process σ ρ} {r : ρ}
    (h : Yields I p r) : Yields J p r := by
  induction p using induct generalizing r with
  | done | unending => exact h
  | step effect next ih =>
    obtain ⟨w, hw, hw', h⟩ := h
    exact ⟨w, hJ w hw, hJ _ hw', ih w h⟩
  | wait polls place aborted effect next iha ih =>
    rcases h with ⟨⟨w, hw, haborted⟩, h⟩ | ⟨w, hw, h⟩
    · exact .inl ⟨⟨w, hJ w hw, haborted⟩, iha h⟩
    · exact .inr ⟨w, hJ w hw, ih w h⟩
  | all parts next ihp ih =>
    obtain ⟨rs, hrs, h⟩ := h
    refine ⟨rs, yieldsAll_iff.mpr ?_, ih rs h⟩
    have hboth := (List.forall₂_and_left _ _).mpr ⟨fun p hp => @ihp p hp, yieldsAll_iff.mp hrs⟩
    exact hboth.imp fun _ _ ⟨hmono, hr⟩ => hmono hr

theorem yields_bind {p : Process σ ρ} {k : ρ → Process σ ρ} {r : ρ} :
    Yields I (p.bind k) r ↔ ∃ s, Yields I p s ∧ Yields I (k s) r := by
  induction p using induct with
  | done s => simp [bind]
  | unending => simp [bind, Yields]
  | step effect next ih => simp only [bind, Yields, ih]; grind
  | wait polls place aborted effect next iha ih => simp only [bind, Yields, iha, ih]; grind
  | all parts next ihp ih => simp only [bind, Yields, ih]; grind

theorem yields_map {p : Process σ ρ} {f : ρ → ρ} {r : ρ} :
    Yields I (p.map f) r ↔ ∃ s, Yields I p s ∧ r = f s := yields_bind

theorem yields_of_perform {effect : World σ → World σ} {p : Process σ ρ} {r : ρ}
    (h : Yields I (perform effect p) r) : Yields I p r := by
  obtain ⟨_, _, _, hp⟩ := h
  exact hp

theorem yields_of_look {next : World σ → Process σ ρ} {r : ρ} (h : Yields I (look next) r) :
    ∃ w, I w ∧ Yields I (next w) r := by
  obtain ⟨w, hw, _, hnext⟩ := h
  exact ⟨w, hw, hnext⟩

/-! ## Runs -/

variable {first last : World σ}

theorem eq_done_of_result? {p : Process σ ρ} {r : ρ} (h : p.result? = some r) : p = .done r := by
  cases p <;> simp_all [result?]

theorem yieldsAll_of_results? {ps : List (Process σ ρ)} {rs : List ρ}
    (h : results? ps = some rs) : YieldsAll I ps rs := by
  rw [yieldsAll_iff]
  induction ps generalizing rs with
  | nil => simp_all [results?]
  | cons p ps ih =>
    simp only [results?, List.mapM_cons, Option.bind_eq_bind, Option.bind_eq_some_iff] at h
    obtain ⟨r, hr, others, hothers, heq⟩ := h
    obtain rfl : r :: others = rs := by simpa using heq
    rw [eq_done_of_result? hr]
    exact .cons rfl (ih hothers)

/-- Whether what is left of `p` in `w` yields only what `p` yields, for all that comes before
`last`. -/
def PollYields (E : World σ → World σ → Prop) (first last : World σ) (p : Process σ ρ) : Prop :=
  ∀ w r, E first w → E (p.poll w).2 last → Yields (Between E first last) (p.poll w).1 r →
    Yields (Between E first last) p r

theorem pollAll_yields (hE : Course P E) (hP : P first) {ps : List (Process σ ρ)} {rs : List ρ}
    {w : World σ} (hacts : ActsAll P E ps) (h : ∀ p ∈ ps, PollYields E first last p)
    (hfirst : E first w) (hlast : E (pollAll ps w).2 last)
    (hrs : YieldsAll (Between E first last) (pollAll ps w).1 rs) :
    YieldsAll (Between E first last) ps rs := by
  induction ps generalizing w rs with
  | nil => exact hrs
  | cons p ps ih =>
    obtain ⟨hp, hps⟩ := List.forall_mem_cons.mp h
    obtain ⟨r, others, rfl, hr, hothers⟩ := hrs
    have hw := hE.keeps hP hfirst
    have hpoll := poll_acts hE hacts.1 w hw
    have hpollAll := pollAll_acts hE (fun p hp => poll_acts hE (actsAll_iff.mp hacts.2 p hp))
      (hE.keeps hw hpoll.1)
    refine ⟨r, others, rfl, hp w r hfirst (hE.trans hpollAll.1 hlast) hr, ?_⟩
    exact ih hacts.2 hps (hE.trans hfirst hpoll.1) hlast hothers

theorem poll_yields (hE : Course P E) (hP : P first) {p : Process σ ρ} (hacts : Acts P E p) :
    PollYields E first last p := by
  induction p using induct with
  | done s => exact fun w r _ _ h => h
  | unending => exact fun w r _ _ h => h
  | step effect next ih =>
    intro w r hfirst hlast h
    have hw := hE.keeps hP hfirst
    obtain ⟨heffect, hnext⟩ := hacts w hw
    have hpoll := poll_acts hE hnext (effect w) (hE.keeps hw heffect)
    have hlast' : E (effect w) last := hE.trans hpoll.1 hlast
    exact ⟨w, ⟨hfirst, hE.trans heffect hlast'⟩, ⟨hE.trans hfirst heffect, hlast'⟩,
      ih w hnext _ r (hE.trans hfirst heffect) hlast h⟩
  | wait polls place aborted effect next iha ih =>
    intro w r hfirst hlast h
    have hw := hE.keeps hP hfirst
    rcases poll_wait_cases hE polls place aborted effect next w with
      heq | ⟨woken, hwoken, haborted, heq⟩ | ⟨left, place', w', -, heq⟩ <;> rw [heq] at hlast h
    · obtain ⟨heffect, hnext⟩ := hacts.2 w hw
      have heffect := hE.trans heffect (hE.leave _ place)
      have hpoll := poll_acts hE hnext ((effect w).leave place) (hE.keeps hw heffect)
      exact .inr ⟨w, ⟨hfirst, hE.trans heffect (hE.trans hpoll.1 hlast)⟩,
        ih w hnext _ r (hE.trans hfirst heffect) hlast h⟩
    · have hleave := hE.leave woken place
      have hpoll := poll_acts hE hacts.1 (woken.leave place) (hE.keeps hw (hE.trans hwoken hleave))
      have hwoken' := hE.trans hfirst hwoken
      exact .inl ⟨⟨woken, ⟨hwoken', hE.trans hleave (hE.trans hpoll.1 hlast)⟩, haborted⟩,
        iha hacts.1 _ r (hE.trans hwoken' hleave) hlast h⟩
    -- A process that goes on waiting yields the same as before.
    · exact h
  | all parts next ihp ih =>
    intro w r hfirst hlast h
    have hw := hE.keeps hP hfirst
    have hparts : ∀ p ∈ parts, PollYields E first last p :=
      fun p hp => ihp p hp (actsAll_iff.mp hacts.1 p hp)
    have hpollAll := pollAll_acts hE (fun p hp => poll_acts hE (actsAll_iff.mp hacts.1 p hp)) hw
    simp only [poll] at hlast h
    split at h
    · next rs hrs =>
      simp only [hrs] at hlast
      have hpoll := poll_acts hE (hacts.2 rs) (pollAll parts w).2 (hE.keeps hw hpollAll.1)
      exact ⟨rs, pollAll_yields hE hP hacts.1 hparts hfirst (hE.trans hpoll.1 hlast)
          (yieldsAll_of_results? hrs),
        ih rs (hacts.2 rs) _ r (hE.trans hfirst hpollAll.1) hlast h⟩
    · next hrs =>
      simp only [hrs] at hlast
      obtain ⟨rs, hyields, hr⟩ := h
      exact ⟨rs, pollAll_yields hE hP hacts.1 hparts hfirst hlast hyields, hr⟩

/-- What is left of a process has no result that it could not have before. -/
theorem poll_possible {p : Process σ ρ} {w : World σ} {r : ρ}
    (h : Yields (fun _ => True) (p.poll w).1 r) : Yields (fun _ => True) p r := by
  have hyields : PollYields (fun _ _ => True) w w p := poll_yields Course.any trivial (acts_any p)
  unfold PollYields at hyields
  rw [between_any] at hyields
  exact hyields w r trivial trivial h

theorem run_acts (hE : Course P E) {n : Nat} {p : Process σ ρ} {w w' : World σ} {r : ρ}
    (hP : P w) (hacts : Acts P E p) (h : p.run n w = some (r, w')) : E w w' := by
  induction n generalizing p w with
  | zero => simp [run] at h
  | succ n ih =>
    obtain ⟨hw, hq⟩ := poll_acts hE hacts w hP
    simp only [run] at h
    split at h
    · obtain ⟨-, rfl⟩ : _ = r ∧ (p.poll w).2 = w' := by simpa using h
      exact hw
    · exact hE.trans hw (ih (hE.keeps hP hw) hq h)

theorem run_yields (hE : Course P E) {n : Nat} {p : Process σ ρ} {w w' : World σ} {r : ρ}
    (hP : P w) (hacts : Acts P E p) (h : p.run n w = some (r, w')) :
    Yields (Between E w w') p r := by
  suffices ∀ v, E w v → p.run n v = some (r, w') → Yields (Between E w w') p r from
    this w (hE.refl w) h
  clear h
  intro v hfirst h
  induction n generalizing p v with
  | zero => simp [run] at h
  | succ n ih =>
    have hv := hE.keeps hP hfirst
    obtain ⟨hw, hq⟩ := poll_acts hE hacts v hv
    simp only [run] at h
    split at h
    · next s hdone =>
      obtain ⟨rfl, rfl⟩ : s = r ∧ (p.poll v).2 = w' := by simpa using h
      exact poll_yields hE hP hacts v s hfirst (hE.refl _) (by rw [hdone]; rfl)
    · exact poll_yields hE hP hacts v r hfirst (run_acts hE (hE.keeps hv hw) hq h)
        (ih hq _ (hE.trans hfirst hw) h)

theorem run_possible {n : Nat} {p : Process σ ρ} {w w' : World σ} {r : ρ}
    (h : p.run n w = some (r, w')) : Yields (fun _ => True) p r := by
  have hyields := run_yields Course.any trivial (acts_any p) h
  rwa [between_any] at hyields

end Process

end GraphQL
