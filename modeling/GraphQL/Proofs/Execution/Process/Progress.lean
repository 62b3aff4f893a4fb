import GraphQL.Proofs.Execution.Completion.Errors
import GraphQL.Proofs.Execution.Process.Moments

/-! # Work inside of work

Work on an object or a list runs the work on its fields or items, each of which has its place. What is
reported at a place stays there, however the rest goes on: it is part of the report on the whole, and its
value is part of the data unless an error that escapes makes a null above it.
-/

namespace GraphQL

open Process Completing

variable {σ ρ : Type}

namespace Process

/-- Whether `q` may be left of `p` after some rounds of asking, whatever else goes on in between. -/
inductive Later (p : Process σ ρ) : Process σ ρ → Prop
  | refl : Later p p
  | asked {q} (h : Later p q) (w : World σ) : Later p (q.poll w).1

variable {p q : Process σ ρ}

theorem Later.trans {r : Process σ ρ} (h : Later p q) (h' : Later q r) : Later p r := by
  induction h' with
  | refl => exact h
  | asked _ w ih => exact .asked ih w

theorem later_done {r : ρ} (h : Later (.done r) q) : q = .done r := by
  induction h with
  | refl => rfl
  | asked _ w ih => rw [ih]; rfl

theorem later_of_asked {n : Nat} {w w' : World σ} (h : p.asked n w = (q, w')) : p.Later q := by
  induction n generalizing p w with
  | zero => exact (Prod.mk.inj h).1 ▸ .refl
  | succ n ih => exact .trans (.asked .refl w) (ih h)

theorem Later.possible (h : Later p q) {r : ρ} (hr : Yields (fun _ => True) q r) :
    Yields (fun _ => True) p r := by
  induction h with
  | refl => exact hr
  | asked _ w ih => exact ih (poll_possible hr)

theorem bind_eq_done {k : ρ → Process σ ρ} {r : ρ} (h : p.bind k = .done r) :
    ∃ s, p = .done s ∧ k s = .done r := by
  cases p with
  | done s => exact ⟨s, rfl, h⟩
  | _ => cases h

theorem getElem?_results? {ps : List (Process σ ρ)} {rs : List ρ} (h : results? ps = some rs)
    {i : Nat} (hp : ps[i]? = some p) : ∃ r, p = .done r ∧ rs[i]? = some r := by
  have hall : List.Forall₂ (Yields fun _ => True) ps rs := yieldsAll_iff.mp (yieldsAll_of_results? h)
  induction ps generalizing rs i with
  | nil => simp at hp
  | cons q ps ih =>
    simp only [results?, List.mapM_cons, Option.bind_eq_bind, Option.bind_eq_some_iff] at h
    obtain ⟨r, hr, others, hothers, heq⟩ := h
    obtain rfl : r :: others = rs := by simpa using heq
    cases i with
    | zero =>
      obtain rfl : q = p := by simpa using hp
      exact ⟨r, eq_done_of_result? hr, rfl⟩
    | succ i => exact ih hothers (by simpa using hp) (List.forall₂_cons.mp hall).2

/-! ## Worlds on the way -/

theorem pollAll_mem_worlds {ps : List (Process σ ρ)}
    (h : ∀ p ∈ ps, ∀ w, (p.poll w).2 ∈ w :: p.worlds w) (w : World σ) :
    (pollAll ps w).2 ∈ w :: worldsAll ps w := by
  induction ps generalizing w with
  | nil => exact List.mem_cons_self
  | cons p ps ih =>
    obtain ⟨hp, hps⟩ := List.forall_mem_cons.mp h
    have hfirst := hp w
    have hrest := ih hps (p.poll w).2
    simp only [pollAll, worldsAll, List.mem_cons, List.mem_append] at hfirst hrest ⊢
    grind

theorem poll_mem_worlds (p : Process σ ρ) (w : World σ) : (p.poll w).2 ∈ w :: p.worlds w := by
  induction p using induct generalizing w with
  | done r => exact List.mem_cons_self
  | unending => exact List.mem_cons_self
  | step effect next ih => exact List.mem_cons_of_mem _ (ih w (effect w))
  | wait polls place aborted effect next iha ih =>
    by_cases hzero : polls = some 0
    · subst hzero
      exact List.mem_cons_of_mem _ (ih w ((effect w).leave place))
    · rw [worlds_wait hzero]
      rcases poll_wait hzero place aborted effect next w with ⟨habort, heq⟩ | ⟨hgoesOn, -⟩
      · rw [if_pos habort, heq]
        exact List.mem_cons_of_mem _ (iha _)
      · rw [if_neg (by simp [hgoesOn])]
        exact List.mem_cons_of_mem _ (List.mem_singleton_self _)
  | all parts next ihp ih =>
    have hparts := pollAll_mem_worlds ihp w
    cases hrs : results? (pollAll parts w).1 with
    | none =>
      simp only [poll, worlds, hrs, List.append_nil]
      exact hparts
    | some rs =>
      have hrest := ih rs (pollAll parts w).2
      simp only [poll, worlds, hrs, List.mem_cons, List.mem_append] at hparts hrest ⊢
      grind

theorem mem_worlds_all {ps : List (Process σ ρ)} {next : List ρ → Process σ ρ} {v w : World σ}
    (h : v ∈ w :: worldsAll ps w) : v ∈ w :: (Process.all ps next).worlds w := by
  rw [worlds, List.mem_cons, List.mem_append]
  exact (List.mem_cons.mp h).imp_right .inl

theorem worlds_bind (p : Process σ ρ) (k : ρ → Process σ ρ) (w : World σ) :
    (p.bind k).worlds w =
      p.worlds w ++ (p.poll w).1.result?.elim [] fun r => (k r).worlds (p.poll w).2 := by
  induction p using induct generalizing w with
  | done r => rfl
  | unending => rfl
  | step effect next ih => exact congrArg _ (ih w (effect w))
  | wait polls place aborted effect next iha ih =>
    by_cases hzero : polls = some 0
    · subst hzero
      exact congrArg _ (ih w ((effect w).leave place))
    · have hbind := poll_bind (wait polls place aborted effect next) k w
      rw [bind] at hbind ⊢
      rw [worlds_wait hzero, worlds_wait hzero, hbind]
      rcases poll_wait hzero place aborted effect next w with ⟨habort, heq⟩ | ⟨hgoesOn, _, _, _, heq⟩
      · rw [if_pos habort, if_pos habort, heq]
        exact congrArg _ (iha _)
      · rw [if_neg (by simp [hgoesOn]), if_neg (by simp [hgoesOn]), heq]
        rfl
  | all parts next ihp ih =>
    cases hrs : results? (pollAll parts w).1 with
    | none => simp [bind, worlds, poll, hrs, result?]
    | some rs => simp only [bind, worlds, poll, hrs, ih, List.append_assoc]

theorem mem_worlds_bind {k : ρ → Process σ ρ} {v w : World σ} (h : v ∈ w :: p.worlds w) :
    v ∈ w :: (p.bind k).worlds w := by
  rw [worlds_bind]
  exact List.cons_subset_cons w (List.subset_append_left _ _) h

theorem mem_worlds_next {k : ρ → Process σ ρ} {r : ρ} {v w : World σ} (hr : (p.poll w).1 = .done r)
    (h : v ∈ (p.poll w).2 :: (k r).worlds (p.poll w).2) : v ∈ w :: (p.bind k).worlds w := by
  have hfirst := poll_mem_worlds p w
  rw [worlds_bind, hr]
  simp only [result?, Option.elim_some, List.mem_cons, List.mem_append] at hfirst h ⊢
  grind

theorem getElem?_pollAll {ps : List (Process σ ρ)} {i : Nat} (hp : ps[i]? = some p) (w : World σ) :
    (pollAll ps w).1[i]? = some (p.poll (pollAll (ps.take i) w).2).1 := by
  induction ps generalizing i w with
  | nil => simp at hp
  | cons q ps ih =>
    cases i with
    | zero =>
      obtain rfl : q = p := by simpa using hp
      rfl
    | succ i => exact ih (by simpa using hp) (q.poll w).2

theorem worlds_subset_pollAll {ps : List (Process σ ρ)} {i : Nat} (hp : ps[i]? = some p)
    {u w : World σ} (hu : (pollAll (ps.take i) w).2 = u) :
    u :: p.worlds u ⊆ w :: worldsAll ps w := by
  subst hu
  induction ps generalizing i w with
  | nil => simp at hp
  | cons q ps ih =>
    cases i with
    | zero =>
      obtain rfl : q = p := by simpa using hp
      exact List.cons_subset_cons _ (List.subset_append_left _ _)
    | succ i =>
      intro v hv
      have hfirst := poll_mem_worlds q w
      have hrest := ih (by simpa using hp) hv
      simp only [worldsAll, List.mem_cons, List.mem_append] at hfirst hrest ⊢
      grind

end Process

/-! ## Places of work -/

namespace Completing

/-- Whether what is left of some work runs work at a place, or has reported about it. -/
inductive Runs : Completing σ → List Segment → Completing σ → Prop
  | here (p) : Runs p [] p
  | reported {r q s} (h : r.At q s) : Runs (.done r) q (.done s)
  | beside {deferred} {keys : List String} {parts : List (Completing σ)} {i : Nat} {key p q s}
    (hkey : keys[i]? = some key) (hp : parts[i]? = some p) (h : Runs p q s) :
    Runs (.all parts fun reports => .done (.object deferred (keys.zip reports))) (.key key :: q) s
  | item {parts : List (Completing σ)} {i : Nat} {p q s} (hp : parts[i]? = some p) (h : Runs p q s) :
    Runs (.all parts fun reports => .done (.list reports)) (.index i :: q) s
  | inTurn {deferred finished key p rest q s} (h : Runs p q s) :
    Runs (inSequence deferred finished ((key, p) :: rest)) (.key key :: q) s
  | past {deferred finished key r fields q s} (hr : (key, r) ∈ finished) (h : r.At q s) :
    Runs (inSequence deferred finished fields) (.key key :: q) (.done s)
  | absorbed {p t q s} (hq : q ≠ []) (h : Runs p q s) : Runs (p.map (·.absorbing t)) q s
  | followed {p job q s} (hq : q ≠ []) (h : Runs p q s) : Runs (p.thenQueue job) q s

variable {p s : Completing σ} {q : List Segment}

theorem At.absorbing {r s : Report σ} (h : r.At q s) (t : TypeRef) : (r.absorbing t).At q s := by
  unfold Report.absorbing
  split
  · exact h
  · exact .nullable h

theorem inSequence_eq_done {deferred : List (Nat × Job σ)} {finished : List (String × Report σ)}
    {fields : List (String × Completing σ)} {r : Report σ}
    (h : inSequence deferred finished fields = .done r) :
    ∃ more, r = .object deferred (finished ++ more) := by
  induction fields generalizing finished with
  | nil => exact ⟨[], by simpa [inSequence] using (Process.done.inj h).symm⟩
  | cons field fields ih =>
    obtain ⟨s, -, hrest⟩ := bind_eq_done h
    dsimp only at hrest
    split at hrest
    · exact ⟨_, (Process.done.inj hrest).symm⟩
    · obtain ⟨more, rfl⟩ := ih hrest
      exact ⟨(field.1, s) :: more, by rw [List.append_assoc, List.singleton_append]⟩

theorem Runs.of_done {r : Report σ} (h : Runs (.done r) q s) : ∃ t, s = .done t ∧ r.At q t := by
  generalize hp : Process.done r = p at h
  induction h generalizing r with
  | here p => exact ⟨r, hp.symm, .here r⟩
  | reported h => exact ⟨_, rfl, Process.done.inj hp ▸ h⟩
  | beside | item => cases hp
  | inTurn _ ih =>
    obtain ⟨t, ht, hrest⟩ := bind_eq_done hp.symm
    obtain ⟨u, hu, hat⟩ := ih ht.symm
    dsimp only at hrest
    split at hrest
    · obtain rfl := Process.done.inj hrest
      exact ⟨u, hu, .field (List.mem_append_right _ (List.mem_singleton_self _)) hat⟩
    · obtain ⟨more, rfl⟩ := inSequence_eq_done hrest
      refine ⟨u, hu, .field (List.mem_append_left _ ?_) hat⟩
      exact List.mem_append_right _ (List.mem_singleton_self _)
  | past hr h =>
    obtain ⟨more, rfl⟩ := inSequence_eq_done hp.symm
    exact ⟨_, rfl, .field (List.mem_append_left _ hr) h⟩
  | absorbed _ _ ih =>
    obtain ⟨t, ht, hr⟩ := bind_eq_done hp.symm
    obtain ⟨u, hu, hat⟩ := ih ht.symm
    exact ⟨u, hu, Process.done.inj hr ▸ At.absorbing hat _⟩
  | followed _ _ ih =>
    obtain ⟨t, ht, hr⟩ := bind_eq_done hp.symm
    obtain ⟨u, hu, hat⟩ := ih ht.symm
    split at hr
    · exact ⟨u, hu, Process.done.inj hr ▸ hat⟩
    · cases hr

theorem poll_inSequence {deferred : List (Nat × Job σ)} {finished : List (String × Report σ)}
    {fields : List (String × Completing σ)} {key : String} {r t : Report σ}
    (hr : (key, r) ∈ finished) (h : r.At q t) (w : World σ) :
    Runs ((inSequence deferred finished fields).poll w).1 (.key key :: q) (.done t) := by
  induction fields generalizing finished w with
  | nil => exact .reported (.field hr h)
  | cons field fields ih =>
    obtain ⟨other, p⟩ := field
    have hpast (left : Completing σ) :
        Runs (inSequence deferred finished ((other, left) :: fields)) (.key key :: q) (.done t) :=
      .past hr h
    unfold inSequence
    rw [poll_bind]
    cases hpoll : (p.poll w).1 with
    | done s =>
      dsimp only
      split
      · exact .reported (.field (List.mem_append_left _ hr) h)
      · exact ih (List.mem_append_left _ hr) _
    | _ => exact hpast _

/-- Whether asking some work in a world asks work at a place of it, in a world on the way. -/
inductive Asks : Completing σ → World σ → List Segment → Completing σ → World σ → Prop
  | here (p w) : Asks p w [] p w
  | step {effect next w q s v} (h : Asks (next w) (effect w) q s v) :
    Asks (.step effect next) w q s v
  | answered {place aborted effect next w q s v}
    (h : Asks (next w) ((effect w).leave place) q s v) :
    Asks (.wait (some 0) place aborted effect next) w q s v
  | aborted {polls place aborted effect next w q s v} (hpolls : polls ≠ some 0)
    (habort : (w.woken polls).signal.isAborted)
    (h : Asks aborted ((w.woken polls).leave place) q s v) :
    Asks (.wait polls place aborted effect next) w q s v
  | beside {deferred} {keys : List String} {parts : List (Completing σ)} {i : Nat}
    {key p w u q s v} (hkey : keys[i]? = some key) (hp : parts[i]? = some p)
    (hu : (pollAll (parts.take i) w).2 = u) (h : Asks p u q s v) :
    Asks (.all parts fun reports => .done (.object deferred (keys.zip reports))) w (.key key :: q) s v
  | item {parts : List (Completing σ)} {i : Nat} {p w u q s v} (hp : parts[i]? = some p)
    (hu : (pollAll (parts.take i) w).2 = u) (h : Asks p u q s v) :
    Asks (.all parts fun reports => .done (.list reports)) w (.index i :: q) s v
  | inTurn {deferred finished key p rest w q s v} (h : Asks p w q s v) :
    Asks (inSequence deferred finished ((key, p) :: rest)) w (.key key :: q) s v
  | next {deferred finished key p r rest w q s v} (hr : (p.poll w).1 = .done r)
    (herror : r.isError = false)
    (h : Asks (inSequence deferred (finished ++ [(key, r)]) rest) (p.poll w).2 q s v) :
    Asks (inSequence deferred finished ((key, p) :: rest)) w q s v
  | absorbed {p t w q s v} (hq : q ≠ []) (h : Asks p w q s v) : Asks (p.map (·.absorbing t)) w q s v
  | followed {p job w q s v} (hq : q ≠ []) (h : Asks p w q s v) : Asks (p.thenQueue job) w q s v

section

variable {w u : World σ}

theorem runs_beside {deferred : List (Nat × Job σ)} {keys : List String}
    {parts : List (Completing σ)} {i : Nat} {key : String} (hkey : keys[i]? = some key)
    (hp : parts[i]? = some p) (hu : (pollAll (parts.take i) w).2 = u) (h : Runs (p.poll u).1 q s) :
    Runs ((Process.all parts fun reports => .done (.object deferred (keys.zip reports))).poll w).1
      (.key key :: q) s := by
  subst hu
  have hleft := getElem?_pollAll hp w
  cases hrs : results? (pollAll parts w).1 with
  | none =>
    simp only [Process.poll, hrs]
    exact .beside hkey hleft h
  | some rs =>
    obtain ⟨r, hr, hi⟩ := getElem?_results? hrs hleft
    obtain ⟨t, rfl, hat⟩ := (hr ▸ h).of_done
    simp only [Process.poll, hrs]
    refine .reported (.field (List.mem_of_getElem? (i := i) ?_) hat)
    rw [List.getElem?_zip_eq_some]
    exact ⟨hkey, hi⟩

theorem runs_item {parts : List (Completing σ)} {i : Nat} (hp : parts[i]? = some p)
    (hu : (pollAll (parts.take i) w).2 = u) (h : Runs (p.poll u).1 q s) :
    Runs ((Process.all parts fun reports => .done (.list reports)).poll w).1 (.index i :: q) s := by
  subst hu
  have hleft := getElem?_pollAll hp w
  cases hrs : results? (pollAll parts w).1 with
  | none =>
    simp only [Process.poll, hrs]
    exact .item hleft h
  | some rs =>
    obtain ⟨r, hr, hi⟩ := getElem?_results? hrs hleft
    obtain ⟨t, rfl, hat⟩ := (hr ▸ h).of_done
    simp only [Process.poll, hrs]
    exact .reported (.item hi hat)

theorem runs_inTurn {deferred : List (Nat × Job σ)} {finished : List (String × Report σ)}
    {key : String} {rest : List (String × Completing σ)} (h : Runs (p.poll w).1 q s) :
    Runs ((inSequence deferred finished ((key, p) :: rest)).poll w).1 (.key key :: q) s := by
  unfold inSequence
  rw [poll_bind]
  cases hpoll : (p.poll w).1 with
  | done r =>
    obtain ⟨t, rfl, hat⟩ := (hpoll ▸ h).of_done
    have hr : (key, r) ∈ finished ++ [(key, r)] :=
      List.mem_append_right _ (List.mem_singleton_self _)
    dsimp only
    split
    · exact .reported (.field hr hat)
    · exact poll_inSequence hr hat _
  | _ => exact .inTurn (hpoll ▸ h)

theorem runs_absorbed (t : TypeRef) (hq : q ≠ []) (h : Runs (p.poll w).1 q s) :
    Runs ((p.map (·.absorbing t)).poll w).1 q s := by
  unfold Process.map
  rw [poll_bind]
  cases hpoll : (p.poll w).1 with
  | done r =>
    obtain ⟨u, rfl, hat⟩ := (hpoll ▸ h).of_done
    exact .reported (At.absorbing hat t)
  | _ => exact .absorbed hq (hpoll ▸ h)

theorem runs_followed (job : Job σ) (hq : q ≠ []) (h : Runs (p.poll w).1 q s) :
    Runs ((p.thenQueue job).poll w).1 q s := by
  unfold thenQueue
  rw [poll_bind]
  cases hpoll : (p.poll w).1 with
  | done r =>
    obtain ⟨u, rfl, hat⟩ := (hpoll ▸ h).of_done
    dsimp only
    split
    · exact .reported hat
    · exact .reported (.followed hat)
  | _ => exact .followed hq (hpoll ▸ h)

end

theorem Asks.runs {w v : World σ} (h : Asks p w q s v) : Runs (p.poll w).1 q (s.poll v).1 := by
  induction h with
  | here p w => exact .here _
  | step _ ih | answered _ ih => exact ih
  | @aborted polls place aborted effect next w _ _ _ hpolls habort _ ih =>
    rcases poll_wait hpolls place aborted effect next w with ⟨-, heq⟩ | ⟨hgoesOn, -⟩
    · exact heq ▸ ih
    · simp [habort] at hgoesOn
  | beside hkey hp hu _ ih => exact runs_beside hkey hp hu ih
  | item hp hu _ ih => exact runs_item hp hu ih
  | inTurn _ ih => exact runs_inTurn ih
  | next hr herror _ ih =>
    unfold inSequence
    rw [poll_bind, hr]
    simpa [herror] using ih
  | absorbed hq _ ih => exact runs_absorbed _ hq ih
  | followed hq _ ih => exact runs_followed _ hq ih

theorem Asks.trans {t : Completing σ} {q' : List Segment} {w v u : World σ} (h : Asks p w q s v)
    (h' : Asks s v q' t u) : Asks p w (q ++ q') t u := by
  induction h with
  | here => exact h'
  | step _ ih => exact .step (ih h')
  | answered _ ih => exact .answered (ih h')
  | aborted hpolls habort _ ih => exact .aborted hpolls habort (ih h')
  | beside hkey hp hu _ ih => exact .beside hkey hp hu (ih h')
  | item hp hu _ ih => exact .item hp hu (ih h')
  | inTurn _ ih => exact .inTurn (ih h')
  | next hr herror _ ih => exact .next hr herror (ih h')
  | absorbed hq _ ih => exact .absorbed (List.append_ne_nil_of_left_ne_nil hq _) (ih h')
  | followed hq _ ih => exact .followed (List.append_ne_nil_of_left_ne_nil hq _) (ih h')

theorem Asks.mem_worlds {w v : World σ} (h : Asks p w q s v) : v ∈ w :: p.worlds w := by
  induction h with
  | here => exact List.mem_cons_self
  | step _ ih | answered _ ih => exact List.mem_cons_of_mem _ ih
  | aborted hpolls habort _ ih =>
    rw [worlds_wait hpolls, if_pos habort]
    exact List.mem_cons_of_mem _ ih
  | beside _ hp hu _ ih | item hp hu _ ih => exact mem_worlds_all (worlds_subset_pollAll hp hu ih)
  | inTurn _ ih | absorbed _ _ ih | followed _ _ ih => exact mem_worlds_bind ih
  | next hr herror _ ih =>
    unfold inSequence
    exact mem_worlds_next hr (by simpa [herror] using ih)

/-- What is run at a place is asked whenever the whole is asked, until it is reported. -/
theorem Runs.asks (h : Runs p q s) (w : World σ) :
    (∃ v, Asks p w q s v) ∨ ∃ r, s = .done r ∧ Runs (p.poll w).1 q s := by
  induction h generalizing w with
  | here p => exact .inl ⟨w, .here p w⟩
  | reported h => exact .inr ⟨_, rfl, .reported h⟩
  | past hr h => exact .inr ⟨_, rfl, poll_inSequence hr h w⟩
  | beside hkey hp _ ih =>
    rcases ih _ with ⟨v, hv⟩ | ⟨r, rfl, hr⟩
    · exact .inl ⟨v, .beside hkey hp rfl hv⟩
    · exact .inr ⟨r, rfl, runs_beside hkey hp rfl hr⟩
  | item hp _ ih =>
    rcases ih _ with ⟨v, hv⟩ | ⟨r, rfl, hr⟩
    · exact .inl ⟨v, .item hp rfl hv⟩
    · exact .inr ⟨r, rfl, runs_item hp rfl hr⟩
  | inTurn _ ih =>
    rcases ih w with ⟨v, hv⟩ | ⟨r, rfl, hr⟩
    · exact .inl ⟨v, .inTurn hv⟩
    · exact .inr ⟨r, rfl, runs_inTurn hr⟩
  | absorbed hq _ ih =>
    rcases ih w with ⟨v, hv⟩ | ⟨r, rfl, hr⟩
    · exact .inl ⟨v, .absorbed hq hv⟩
    · exact .inr ⟨r, rfl, runs_absorbed _ hq hr⟩
  | followed hq _ ih =>
    rcases ih w with ⟨v, hv⟩ | ⟨r, rfl, hr⟩
    · exact .inl ⟨v, .followed hq hv⟩
    · exact .inr ⟨r, rfl, runs_followed _ hq hr⟩

theorem Runs.later {r : Report σ} (h : Runs p q (.done r)) {left : Completing σ} (hleft : p.Later left) :
    Runs left q (.done r) := by
  induction hleft with
  | refl => exact h
  | asked _ w ih =>
    rcases ih.asks w with ⟨v, hv⟩ | ⟨_, _, hruns⟩
    · exact hv.runs
    · exact hruns

end Completing

/-! ## What stays in the data -/

namespace Report

variable {r s : Report σ} {q : List Segment}

/-- Whether a value stands at a place in the data of a report, unless an error that escapes makes a null
above. -/
inductive Keeps (r : Report σ) (q : List Segment) (u : Value) : Prop
  | stands {v} (hv : r.value? = some v) (h : v.at? q = some u)
  /-- A null stands further up, where an error escaped from what is below. -/
  | nulled {v above below inner} (hv : r.value? = some v) (hq : q = above ++ below)
    (hbelow : below ≠ []) (hnull : v.at? above = some .null) (h : r.At above (.nullable inner))
    (herror : inner.isError)
  /-- There is no data, since an error escaped from the whole. -/
  | escaped (h : r.isError)

theorem isError_of_at {r s : Report σ} (h : r.At [] s) (hs : s.isError = false) :
    r.isError = false := by
  generalize hq : ([] : List Segment) = q at h
  induction h with
  | here => exact hs
  | item | field => cases hq
  | followed _ ih =>
    rw [isError_eq, escape?_followed, ← isError_eq]
    exact ih hs hq
  | nullable => rw [isError_eq, escape?_nullable]; rfl

theorem Keeps.below {inner : Report σ} {v w u : Value} {segment : Segment}
    (h : inner.Keeps q u) (hw : inner.value? = some w) (hv : r.value? = some v)
    (hchild : v.child? segment = some w) (hat : ∀ {p t}, inner.At p t → r.At (segment :: p) t) :
    r.Keeps (segment :: q) u := by
  have hstep (p : List Segment) : v.at? (segment :: p) = w.at? p := by
    rw [Value.at?, hchild, Option.bind_some]
  cases h with
  | stands hw' h =>
    obtain rfl := Option.some.inj (hw.symm.trans hw')
    exact .stands hv ((hstep q).trans h)
  | @nulled _ above below _ hw' hq hbelow hnull h herror =>
    obtain rfl := Option.some.inj (hw.symm.trans hw')
    exact .nulled hv (by rw [hq, List.cons_append]) hbelow ((hstep above).trans hnull) (hat h) herror
  | escaped h => simp [isError_of_value? hw] at h

theorem Keeps.around {inner : Report σ} {u : Value} (h : inner.Keeps q u)
    (hv : r.value? = inner.value?) (herror : inner.isError → r.isError)
    (hat : ∀ {p t}, inner.At p t → r.At p t) : r.Keeps q u := by
  cases h with
  | stands hw h => exact .stands (hv.trans hw) h
  | nulled hw hq hbelow hnull h hescape => exact .nulled (hv.trans hw) hq hbelow hnull (hat h) hescape
  | escaped h => exact .escaped (herror h)

theorem Placed.keeps {path : Path} (h : r.Placed path) (hs : r.At q s) {u : Value}
    (hu : s.value? = some u) : r.Keeps q u := by
  cases hv : r.value? with
  | none =>
    by_contra hkeeps
    have hok : r.isError = false := by simpa using fun herror => hkeeps (.escaped herror)
    simpa [hv] using h.present hok
  | some v =>
    induction h generalizing q s v with
    | null | leaf | failed =>
      cases hs
      exact .stands hu rfl
    | @list path items hitems ih =>
      cases hs with
      | here => exact .stands hu rfl
      | @item _ i r q s hr hs =>
        obtain ⟨hchild, herror⟩ := child?_list hitems hv hr
        obtain ⟨w, hw⟩ := Option.isSome_iff_exists.mp ((hitems i r hr).present herror)
        exact (ih i r hr hs hu w hw).below hw hv (hchild.trans hw) (.item hr)
    | @object path deferred fields hkeys hfields ih =>
      cases hs with
      | here => exact .stands hu rfl
      | @field _ _ key r q s hr hs =>
        obtain ⟨hchild, herror⟩ := child?_object hkeys hv hr
        have habsent : r ≠ .absent := by
          rintro rfl
          cases hs
          cases hu
        obtain ⟨i, hi⟩ := List.mem_iff_getElem?.mp hr
        obtain ⟨w, hw⟩ := Option.isSome_iff_exists.mp ((hfields i key r hi habsent).present herror)
        exact (ih i key r hi habsent hs hu w hw).below hw hv (hchild.trans hw) (.field hr)
    | followed _ ih =>
      cases hs with
      | here => exact .stands hu rfl
      | followed hs => exact (ih hs hu v hv).around rfl id .followed
    | @nullable path inner h ih =>
      cases hs with
      | here => exact .stands hu rfl
      | nullable hs =>
        have hvalue := value?_nullable inner
        split at hvalue
        · next herror =>
          have hq : q ≠ [] := by
            rintro rfl
            simp [isError_of_at hs (isError_of_value? hu)] at herror
          exact .nulled hvalue (List.nil_append q).symm hq rfl (.here _) herror
        · next hok => exact (ih hs hu v (hvalue ▸ hv)).around hvalue (absurd · hok) .nullable

end Report

end GraphQL
