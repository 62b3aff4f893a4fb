import GraphQL.Proofs.Execution.Process.Traces

/-! # From a moment on

A process that is asked goes through a sequence of worlds. It obeys a course from the moment on in which
`P` holds if all that it does then follows the course, whatever it did before. Unlike what acts along a
course, it may do more as long as `P` does not hold, but it has to look.
-/

namespace GraphQL

open Process

variable {σ ρ α ι : Type} {P : World σ → Prop} {E : World σ → World σ → Prop}

/-! ## Sequences of worlds -/

/-- Whether the worlds of a sequence, which begins after `first` and ends with `last`, follow a course
from the moment on in which `P` holds. -/
structure Onward (P : World σ → Prop) (E : World σ → World σ → Prop) (moments : List (World σ))
    (first last : World σ) : Prop where
  pairs : (first :: moments).Pairwise fun v w => P v → E v w
  ends : ∀ v ∈ first :: moments, P v → E v last

namespace Onward

variable {first between last : World σ} {moments later : List (World σ)}

theorem nil (hE : Course P E) (w : World σ) : Onward P E [] w w where
  pairs := List.pairwise_singleton _ _
  ends v hv _ := by
    obtain rfl := List.mem_singleton.mp hv
    exact hE.refl v

theorem cons (hE : Course P E) (hfirst : P first → E first between)
    (h : Onward P E moments between last) : Onward P E (between :: moments) first last where
  pairs := by
    refine List.pairwise_cons.mpr ⟨fun w hw hP => ?_, h.pairs⟩
    rcases List.mem_cons.mp hw with rfl | hw
    · exact hfirst hP
    · exact hE.trans (hfirst hP) (List.rel_of_pairwise_cons h.pairs hw (hE.keeps hP (hfirst hP)))
  ends v hv hP := by
    rcases List.mem_cons.mp hv with rfl | hv
    · have hbetween := hfirst hP
      exact hE.trans hbetween (h.ends between List.mem_cons_self (hE.keeps hP hbetween))
    · exact h.ends v hv hP

theorem single (hE : Course P E) (h : P first → E first last) : Onward P E [last] first last :=
  cons hE h (nil hE last)

theorem append (hE : Course P E) (h : Onward P E moments first between)
    (hlater : Onward P E later between last) : Onward P E (moments ++ later) first last where
  pairs := by
    rw [← List.cons_append, List.pairwise_append]
    refine ⟨h.pairs, hlater.pairs.of_cons, fun v hv w hw hP => ?_⟩
    have hbetween := h.ends v hv hP
    exact hE.trans hbetween
      (List.rel_of_pairwise_cons hlater.pairs hw (hE.keeps hP hbetween))
  ends v hv hP := by
    have hbetween (hv : v ∈ first :: moments) : E v last := by
      have hbetween := h.ends v hv hP
      exact hE.trans hbetween (hlater.ends between List.mem_cons_self (hE.keeps hP hbetween))
    rw [← List.cons_append, List.mem_append] at hv
    rcases hv with hv | hv
    · exact hbetween hv
    · exact hlater.ends v (List.mem_cons_of_mem _ hv) hP

end Onward

namespace Process

mutual

/-- The worlds that asking a process once leads to, one after the other. -/
def worlds : Process σ ρ → World σ → List (World σ)
  | done _, _ => []
  | step effect next, w => effect w :: (next w).worlds (effect w)
  | wait polls place aborted effect next, w =>
    match polls with
    | some 0 => (effect w).leave place :: (next w).worlds ((effect w).leave place)
    | polls =>
      let woken := if polls.isSome then w.wakeRunning else w
      if woken.signal.isAborted then woken.leave place :: aborted.worlds (woken.leave place)
      else if !woken.isWatched || place.isSome then [woken]
      else [woken.join]
  | all parts next, w =>
    let polled := pollAll parts w
    worldsAll parts w ++
      match results? polled.1 with
      | some rs => (next rs).worlds polled.2
      | none => []
  | unending, _ => []

def worldsAll : List (Process σ ρ) → World σ → List (World σ)
  | [], _ => []
  | p :: rest, w => p.worlds w ++ worldsAll rest (p.poll w).2

end

mutual

/-- Whether a process, when it is asked in a world, obeys the course `E` from the moment on in which `P`
holds. -/
def Obeys (P : World σ → Prop) (E : World σ → World σ → Prop) : Process σ ρ → World σ → Prop
  | done _, _ => True
  | step effect next, w => (P w → E w (effect w)) ∧ Obeys P E (next w) (effect w)
  | wait _ _ aborted effect next, _ => ∀ v, Obeys P E aborted v ∧ (P v → E v (effect v)) ∧
    ∀ place, Obeys P E (next v) ((effect v).leave place)
  | all parts next, _ => ObeysAll P E parts ∧ ∀ rs v, Obeys P E (next rs) v
  | unending, _ => True

def ObeysAll (P : World σ → Prop) (E : World σ → World σ → Prop) : List (Process σ ρ) → Prop
  | [] => True
  | p :: rest => (∀ w, Obeys P E p w) ∧ ObeysAll P E rest

end

variable {p : Process σ ρ} {ps : List (Process σ ρ)}

theorem obeysAll_iff : ObeysAll P E ps ↔ ∀ p ∈ ps, ∀ w, Obeys P E p w := by
  induction ps with
  | nil => simp [ObeysAll]
  | cons p ps ih => simp [ObeysAll, ih]

theorem obeys_bind {k : ρ → Process σ ρ} {w : World σ} (hp : Obeys P E p w)
    (hk : ∀ r w, Obeys P E (k r) w) : Obeys P E (p.bind k) w := by
  induction p using induct generalizing w with
  | done r => exact hk r w
  | unending => trivial
  | step effect next ih => exact ⟨hp.1, ih w hp.2⟩
  | wait polls place aborted effect next iha ih =>
    intro v
    obtain ⟨haborted, heffect, hnext⟩ := hp v
    exact ⟨iha haborted, heffect, fun place => ih v (hnext place)⟩
  | all parts next ihp ih => exact ⟨hp.1, fun rs v => ih rs (hp.2 rs v)⟩

theorem worlds_wait {polls : Option Nat} (hpolls : polls ≠ some 0) (place : Option Nat)
    (aborted : Process σ ρ) (effect : World σ → World σ) (next : World σ → Process σ ρ)
    (w : World σ) :
    (wait polls place aborted effect next).worlds w =
      if (w.woken polls).signal.isAborted then
        (w.woken polls).leave place :: aborted.worlds ((w.woken polls).leave place)
      else [((wait polls place aborted effect next).poll w).2] := by
  rw [worlds, poll]
  · unfold World.woken
    generalize (if polls.isSome then w.wakeRunning else w) = woken
    split
    · rfl
    · split <;> rfl
  · exact hpolls
  · exact hpolls

/-- Whether asking a process once obeys the course, and leaves what obeys it. -/
def PollObeys (P : World σ → Prop) (E : World σ → World σ → Prop) (p : Process σ ρ) : Prop :=
  ∀ w, Obeys P E p w →
    Onward P E (p.worlds w) w (p.poll w).2 ∧ ∀ v, Obeys P E (p.poll w).1 v

theorem pollAll_obeys (hE : Course P E) (h : ∀ p ∈ ps, PollObeys P E p) (hps : ObeysAll P E ps)
    (w : World σ) :
    Onward P E (worldsAll ps w) w (pollAll ps w).2 ∧ ObeysAll P E (pollAll ps w).1 := by
  induction ps generalizing w with
  | nil => exact ⟨.nil hE w, trivial⟩
  | cons p ps ih =>
    obtain ⟨hp, hall⟩ := List.forall_mem_cons.mp h
    obtain ⟨hfirst, hleft⟩ := hp w (hps.1 w)
    obtain ⟨hrest, hothers⟩ := ih hall hps.2 (p.poll w).2
    exact ⟨hfirst.append hE hrest, hleft, hothers⟩

theorem poll_obeys (hE : Course P E) (p : Process σ ρ) : PollObeys P E p := by
  induction p using induct with
  | done r => exact fun w _ => ⟨.nil hE w, fun _ => trivial⟩
  | unending => exact fun w _ => ⟨.nil hE w, fun _ => trivial⟩
  | step effect next ih =>
    intro w h
    obtain ⟨hrest, hleft⟩ := ih w (effect w) h.2
    exact ⟨hrest.cons hE h.1, hleft⟩
  | wait polls place aborted effect next iha ih =>
    intro w h
    obtain ⟨haborted, heffect, hnext⟩ := h w
    by_cases hzero : polls = some 0
    · subst hzero
      obtain ⟨hrest, hleft⟩ := ih w ((effect w).leave place) (hnext place)
      exact ⟨hrest.cons hE fun hP => hE.trans (heffect hP) (hE.leave _ place), hleft⟩
    · have hwoken := hE.woken polls w
      rw [worlds_wait hzero]
      rcases poll_wait hzero place aborted effect next w with
        ⟨habort, heq⟩ | ⟨hgoesOn, place', v, hv, heq⟩
      · rw [if_pos habort, heq]
        obtain ⟨hrest, hleft⟩ := iha ((w.woken polls).leave place) (h _).1
        exact ⟨hrest.cons hE fun _ => hE.trans hwoken (hE.leave _ place), hleft⟩
      · rw [if_neg (by simp [hgoesOn]), heq]
        refine ⟨.single hE fun _ => ?_, fun _ => h⟩
        rcases hv with rfl | rfl
        · exact hwoken
        · exact hE.trans hwoken (hE.join _)
  | all parts next ihp ih =>
    intro w h
    obtain ⟨hparts, hleft⟩ := pollAll_obeys hE ihp h.1 w
    cases hrs : results? (pollAll parts w).1 with
    | some rs =>
      obtain ⟨hrest, hlast⟩ := ih rs (pollAll parts w).2 (h.2 rs _)
      simp only [worlds, poll, hrs]
      exact ⟨hparts.append hE hrest, hlast⟩
    | none =>
      simp only [worlds, poll, hrs, List.append_nil]
      exact ⟨hparts, fun _ => ⟨hleft, h.2⟩⟩

end Process

/-! ## What field resolvers may do before -/

/-- Whether the late answers of a callback follow a course when they come. -/
def Callback.Settles (P : World σ → Prop) (E : World σ → World σ → Prop)
    (callback : Callback σ ι α) : Prop :=
  ∀ request v polls finish, (World.reaction v (callback request)).result = .after polls finish →
    ∀ w, P w → E w (w.after finish)

/-- Whether a callback follows a course when it is asked, and when it answers late. -/
structure Callback.Obeys (P : World σ → Prop) (E : World σ → World σ → Prop)
    (callback : Callback σ ι α) : Prop where
  asked : ∀ request w, P w → E w (w.after (callback request))
  settles : callback.Settles P E

/-- Whether all callbacks that are asked follow a course, except that field resolvers may do anything
when they are asked. -/
abbrev ExecutionContext.Obeys (P : World σ → Prop) (E : World σ → World σ → Prop)
    (ctx : ExecutionContext σ) : Prop :=
  ctx.Heeds (Callback.Settles P E) (Callback.Obeys P E) (Callback.Obeys P E)

/-- Whether an event does not say that a field is resolved. -/
def TraceEvent.ResolvesNothing : TraceEvent → Prop
  | resolving .. => False
  | _ => True

namespace Process

variable (hE : Permits P E TraceEvent.ResolvesNothing)

include hE

theorem obeys_onAbort {event : TraceEvent} (hevent : event.ResolvesNothing) {k : String → Process σ ρ}
    (hk : ∀ reason w, Obeys P E (k reason) w) (w : World σ) : Obeys P E (onAbort event k) w :=
  ⟨hE.trace event w hevent, hk _ _⟩

theorem obeys_call {callback : Callback σ ι α} (hsettles : callback.Settles P E) {request : ι}
    {path : Path} {k : Except FieldError α → Process σ ρ} (hk : ∀ x w, Obeys P E (k x) w)
    {w : World σ} (hasked : P w → E w (w.after (callback request))) :
    Obeys P E (call callback request path k) w := by
  have haborted (v : World σ) : Obeys P E (onAbort (.abortedResolving path) fun reason =>
      k (.error (.ofMessage reason))) v :=
    obeys_onAbort hE (by trivial) (fun _ => hk _) v
  have hfinish := hsettles request w
  refine ⟨hasked, ?_⟩
  dsimp only
  generalize (w.reaction (callback request)).result = answer at hfinish
  cases answer with
  | ready x => exact hk x _
  | after polls finish =>
    exact fun v => ⟨haborted v, hfinish polls finish rfl v, fun place => hk _ _⟩
  | never => exact fun v => ⟨haborted v, fun _ => hE.course.refl v, fun _ => trivial⟩

theorem obeys_nextEvent {plan : FieldPlan σ} {path : Path} {events : List Event}
    {k : Except ExecutionError (Option (HostValue × List Event)) → Process σ ρ}
    (hk : ∀ x w, Obeys P E (k x) w) (w : World σ) : Obeys P E (nextEvent plan path events k) w := by
  refine ⟨fun _ => hE.course.refl w, ?_⟩
  dsimp only
  split
  · exact hk _ _
  · cases events with
    | nil => exact hk _ _
    | cons e rest =>
      refine fun v => ⟨obeys_onAbort hE (by trivial) (fun _ => hk _) v, fun _ => hE.course.refl v,
        fun place => ?_⟩
      dsimp only
      split <;> exact hk _ _

theorem obeys_resolveField (hP : ∀ w, P w → w.signal.isAborted) {ctx : ExecutionContext σ}
    (hctx : ctx.Obeys P E) {plan : FieldPlan σ} (hparent : ctx.schema.Owns plan.parent)
    {name : String} (hfield : plan.parent.field? name = some plan.field) {source : HostValue}
    {path : Path} {k : Except ExecutionError HostValue → Process σ ρ}
    (hk : ∀ x w, Obeys P E (k x) w) (w : World σ) :
    Obeys P E (resolveField ctx plan source path k) w := by
  refine ⟨fun _ => hE.course.refl w, ?_⟩
  dsimp only
  split
  · exact obeys_onAbort hE (by trivial) (fun _ => hk _) _
  · next hgoesOn =>
    split
    · exact hk _ _
    · refine ⟨fun hw => absurd (hP w hw) hgoesOn, ?_⟩
      split
      · exact hk _ _
      · next resolver hresolver =>
        exact obeys_call hE (hctx.ofField hparent hfield hresolver) (fun _ => hk _)
          fun hw => absurd (hP _ hw) hgoesOn

end Process

theorem builds_obeys (hE : Permits P E TraceEvent.ResolvesNothing) (hP : ∀ w, P w → w.signal.isAborted)
    {ctx : ExecutionContext σ} (hctx : ctx.Obeys P E) :
    ctx.Builds (fun _ => True) fun p => ∀ w, Process.Obeys P E p w where
  done _ _ := trivial
  unending _ := trivial
  bind hp hk w := obeys_bind (hp w) hk
  all hparts hnext _ := ⟨obeysAll_iff.mpr hparts, hnext⟩
  queue _ _ h w := ⟨fun _ => hE.course.tasks rfl rfl rfl rfl rfl, h w _⟩
  take stream _ h w := ⟨hE.take stream w, h w _⟩
  event _ hk w := obeys_nextEvent hE hk w
  type ht hresolver _ hk w :=
    have hobeys := hctx.ofType ht hresolver
    obeys_call hE hobeys.settles hk (hobeys.asked _ w)
  member hobject hcheck _ hk w :=
    have hobeys := hctx.schema.members _ hobject _ hcheck
    obeys_call hE hobeys.settles hk (hobeys.asked _ w)
  field hparent hfield _ hk w := obeys_resolveField hE hP hctx hparent hfield hk w

/-! ## After an abort -/

section

variable {β : Type} {f : σ → β}

/-- Whether nothing is resolved between two worlds, at least as far as traces tell, and as far as `f`
observes the host. An abort stays. -/
structure World.Silent (f : σ → β) (v w : World σ) : Prop where
  aborted : v.signal.isAborted → w.signal.isAborted
  host : f w.host = f v.host
  traces : v.Adds TraceEvent.ResolvesNothing w

theorem permits_silent :
    Permits (fun w : World σ => w.signal.isAborted) (World.Silent f) TraceEvent.ResolvesNothing where
  course := {
    keeps hv hvw := hvw.aborted hv
    trans huv hvw := {
      aborted := hvw.aborted ∘ huv.aborted
      host := hvw.host.trans huv.host
      traces := (permits_adds _).course.trans huv.traces hvw.traces }
    tasks hhost hcontroller hwatched _ htraces := {
      aborted := by simp only [World.signal, hcontroller, hwatched, imp_self]
      host := congrArg f hhost
      traces := .of_eq htraces.symm } }
  trace event w hevent _ := ⟨id, rfl, (permits_adds _).trace event w hevent trivial⟩
  take stream w _ := ⟨id, rfl, .of_eq rfl⟩

/-- Whether an action does not change what `f` observes of the host, once the request is aborted. -/
def Action.Hides (f : σ → β) (action : Action σ α) : Prop :=
  ∀ signal state, signal.isAborted → f (action signal state).state = f state

theorem Action.Hides.silent {action : Action σ α} (h : Action.Hides f action) {w : World σ}
    (hw : w.signal.isAborted) : w.Silent f (w.after action) := by
  obtain ⟨controller, ready, hafter, haborted⟩ := w.after_eq action
  rw [hafter]
  refine ⟨fun _ => ?_, h _ _ hw, .of_eq rfl⟩
  unfold World.signal at hw ⊢
  split at hw
  · next hwatched => exact if_pos hwatched ▸ haborted hw
  · cases hw

/-- Whether the late answers of a callback do not change what `f` observes of the host. -/
def Callback.HidesLate (f : σ → β) (callback : Callback σ ι α) : Prop :=
  ∀ request signal state polls finish,
    (callback request signal state).result = .after polls finish → Action.Hides f finish

/-- Whether a callback does not change what `f` observes of the host. -/
structure Callback.Hides (f : σ → β) (callback : Callback σ ι α) : Prop where
  asked : ∀ request, Action.Hides f (callback request)
  late : callback.HidesLate f

/-- Whether, once the request is aborted, only field resolvers that are asked can change what `f`
observes of the host. -/
abbrev ExecutionContext.Hides (f : σ → β) (ctx : ExecutionContext σ) : Prop :=
  ctx.Heeds (Callback.HidesLate f) (Callback.Hides f) (Callback.Hides f)

theorem Callback.HidesLate.settles {callback : Callback σ ι α} (h : callback.HidesLate f) :
    callback.Settles (fun w => w.signal.isAborted) (World.Silent f) :=
  fun request v polls finish hresult _ hw =>
    (h request v.signal v.host polls finish hresult).silent hw

theorem Callback.Hides.obeys {callback : Callback σ ι α} (h : callback.Hides f) :
    callback.Obeys (fun w => w.signal.isAborted) (World.Silent f) :=
  ⟨fun request _ hw => (h.asked request).silent hw, h.late.settles⟩

theorem ExecutionContext.Hides.obeys {ctx : ExecutionContext σ} (h : ctx.Hides f) :
    ctx.Obeys (fun w => w.signal.isAborted) (World.Silent f) :=
  h.imp (fun _ h => h.settles) (fun _ h => h.obeys) fun _ h => h.obeys

theorem ExecutionContext.hides_nothing (ctx : ExecutionContext σ) : ctx.Hides fun _ => () := by
  have hlate {ι α : Type} (callback : Callback σ ι α) : callback.HidesLate fun _ => () :=
    fun _ _ _ _ _ _ _ _ _ => rfl
  have hhides {ι α : Type} (callback : Callback σ ι α) : callback.Hides fun _ => () :=
    ⟨fun _ _ _ _ => rfl, hlate callback⟩
  exact {
    schema := {
      fields := fun _ _ _ _ _ resolver _ => hlate resolver
      types := fun _ _ resolver _ => hhides resolver
      members := fun _ _ check _ => hhides check }
    fieldResolver := fun resolver _ => hlate resolver
    typeResolver := fun resolver _ => hhides resolver }

end

end GraphQL
