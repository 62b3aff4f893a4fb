import GraphQL.Proofs.Execution.Process.Effects
import GraphQL.Proofs.Execution.Process.Answers
import GraphQL.Proofs.Execution.Timing.Values

/-! # Steady callbacks

A steady callback answers in the end, aborts nothing, and its answer depends only on what it looks at
of the request, not on when it is asked or in which state the host is. As long as nothing is aborted,
such a callback answers the same whenever it is asked the same.
-/

namespace GraphQL

variable {σ α β ι κ ρ : Type}

/-! ## Quiet courses -/

/-- Whether the request has not been aborted. -/
def World.Ongoing (w : World σ) : Prop := w.signal.isAborted = false

/-- Whether nothing is aborted between two worlds, and the streams that were read stay so. -/
def Quiet (v w : World σ) : Prop := (v.Ongoing → w.Ongoing) ∧ v.taken <:+ w.taken

theorem quiet_course : Course (World.Ongoing (σ := σ)) Quiet where
  keeps hv hvw := hvw.1 hv
  trans huv hvw := ⟨hvw.1 ∘ huv.1, huv.2.trans hvw.2⟩
  tasks _ hcontroller hwatched htaken _ := by
    refine ⟨?_, [], htaken.symm⟩
    simp only [World.Ongoing, World.signal, hcontroller, hwatched]
    exact id

theorem quiet_trace (event : TraceEvent) (w : World σ) : Quiet w (w.trace event) :=
  ⟨id, List.suffix_refl _⟩

theorem quiet_take (stream : Nat) (w : World σ) : Quiet w (w.take stream) :=
  ⟨id, List.suffix_cons _ _⟩

/-- Whether an action aborts nothing, unless there was an abort before. -/
def Action.Harmless (action : Action σ α) : Prop :=
  ∀ signal state, signal.isAborted = false → (action signal state).aborts = []

theorem quiet_after {action : Action σ α} (h : action.Harmless) {w : World σ} (hw : w.Ongoing) :
    Quiet w (w.after action) := by
  have haborts : (w.reaction action).aborts = [] := h _ _ hw
  obtain ⟨_, _, hafter, -⟩ := w.after_eq action
  refine ⟨fun _ => ?_, [], by rw [hafter, List.nil_append]⟩
  simpa [World.Ongoing, World.after, haborts, World.signal] using hw

/-! ## Steady answers -/

/-- Whether an answer amounts to `x` in the end. -/
def Answer.Settles (norm : α → β) (x : Except FieldError β) :
    Answer σ (Except FieldError α) → Prop
  | .ready y => y.map norm = x
  | .after _ finish => finish.Harmless ∧
    ∀ signal state, signal.isAborted = false → (finish signal state).result.map norm = x
  | .never => False

/-- Whether what a callback answers, up to `norm`, is `outcome` of what it looks at. -/
structure Callback.Answers (look : ι → κ) (norm : α → β) (callback : Callback σ ι α)
    (outcome : κ → Except FieldError β) : Prop where
  harmless : ∀ request, Action.Harmless (callback request)
  settles : ∀ request signal state, signal.isAborted = false →
    (callback request signal state).result.Settles norm (outcome (look request))

/-- Whether what a callback answers depends only on what it looks at. -/
def Callback.Steady (look : ι → κ) (norm : α → β) (callback : Callback σ ι α) : Prop :=
  ∃ outcome, callback.Answers look norm outcome

theorem Callback.Steady.of_part {κ' : Type} {look : ι → κ'} {f : κ' → κ} {norm : α → β}
    {callback : Callback σ ι α} (h : callback.Steady (f ∘ look) norm) : callback.Steady look norm := by
  obtain ⟨outcome, hanswers⟩ := h
  exact ⟨outcome ∘ f, hanswers.harmless, hanswers.settles⟩

/-- What callbacks look at when they are asked. -/
structure View (κ ι : Type) where
  field : FieldRequest → κ
  type : TypeRequest → ι

variable {view : View κ ι}

/-- Whether the callbacks of an object type are steady. -/
structure ObjectType.Steady (view : View κ ι) (object : ObjectType σ) : Prop where
  resolve : ∀ name, ∀ field ∈ object.field? name, ∀ resolver ∈ field.resolve,
    resolver.Steady view.field HostValue.timeless
  isTypeOf : ∀ check ∈ object.isTypeOf, check.Steady view.type id

structure Schema.Steady (view : View κ ι) (schema : Schema σ) : Prop where
  objects : ∀ object, schema.Owns object → object.Steady view
  typeResolvers : ∀ t ∈ schema.types, ∀ resolver ∈ Process.ownTypeResolver t,
    resolver.Steady view.type id

/-- Whether all callbacks that a request asks are steady. -/
structure Request.Steady (view : View κ ι) (r : Request σ) : Prop where
  schema : r.schema.Steady view
  fieldResolver : ∀ resolver ∈ r.fieldResolver, resolver.Steady view.field HostValue.timeless
  typeResolver : ∀ resolver ∈ r.typeResolver, resolver.Steady view.type id

structure ExecutionContext.Steady (view : View κ ι) (ctx : ExecutionContext σ) : Prop where
  schema : ctx.schema.Steady view
  fieldResolver : ∀ resolver ∈ ctx.fieldResolver, resolver.Steady view.field HostValue.timeless
  typeResolver : ∀ resolver ∈ ctx.typeResolver, resolver.Steady view.type id

/-! ## Harmless callbacks -/

/-- Whether a callback aborts nothing, unless there was an abort before. -/
structure Callback.Harmless (callback : Callback σ ι α) : Prop where
  asked : ∀ request, Action.Harmless (callback request)
  finishes : ∀ request signal state polls finish, signal.isAborted = false →
    (callback request signal state).result = .after polls finish → finish.Harmless

/-- Whether what a callback answers to some requests depends only on what it looks at. Whatever else
it is asked, it aborts nothing. -/
structure Callback.SteadyWhere (asked : ι → Prop) (look : ι → κ) (norm : α → β)
    (callback : Callback σ ι α) : Prop where
  harmless : callback.Harmless
  settles : ∃ outcome : κ → Except FieldError β, ∀ request, asked request →
    ∀ signal state, signal.isAborted = false →
      (callback request signal state).result.Settles norm (outcome (look request))

theorem Callback.Steady.anywhere {look : ι → κ} {norm : α → β} {callback : Callback σ ι α}
    (h : callback.Steady look norm) (asked : ι → Prop) : callback.SteadyWhere asked look norm := by
  obtain ⟨outcome, hanswers⟩ := h
  refine ⟨⟨hanswers.harmless, fun request signal state polls finish hsignal hresult => ?_⟩,
    outcome, fun request _ => hanswers.settles request⟩
  have hsettles := hanswers.settles request signal state hsignal
  rw [hresult] at hsettles
  exact hsettles.1

theorem Schema.Steady.anywhere {schema : Schema σ} (h : schema.Steady view)
    (askedField : FieldRequest → Prop) (askedType : TypeRequest → Prop) :
    schema.Heeds (Callback.SteadyWhere askedField view.field HostValue.timeless)
      (Callback.SteadyWhere askedType view.type id) (Callback.SteadyWhere askedType view.type id) where
  fields object hobject name field hfield resolver hresolver :=
    ((h.objects object hobject).resolve name field hfield resolver hresolver).anywhere _
  types t ht resolver hresolver := (h.typeResolvers t ht resolver hresolver).anywhere _
  members object hobject check hcheck :=
    ((h.objects object hobject).isTypeOf check hcheck).anywhere _

/-- Whether callbacks are steady when they are asked about some places. -/
abbrev ExecutionContext.SteadyWhere (asked : List Segment → Prop) (view : View κ ι)
    (ctx : ExecutionContext σ) : Prop :=
  ctx.Heeds
    (Callback.SteadyWhere (fun request => asked request.info.path.segments) view.field
      HostValue.timeless)
    (Callback.SteadyWhere (fun request => asked request.info.path.segments) view.type id)
    (Callback.SteadyWhere (fun request => asked request.info.path.segments) view.type id)

namespace ExecutionContext

variable {ctx : ExecutionContext σ}

theorem Steady.anywhere (h : ctx.Steady view) (asked : List Segment → Prop) :
    ctx.SteadyWhere asked view where
  schema := h.schema.anywhere _ _
  fieldResolver resolver hresolver := (h.fieldResolver resolver hresolver).anywhere _
  typeResolver resolver hresolver := (h.typeResolver resolver hresolver).anywhere _

end ExecutionContext

theorem Callback.Harmless.acts {callback : Callback σ ι α} (h : callback.Harmless) :
    callback.Acts World.Ongoing Quiet where
  asked request _ hw := quiet_after (h.asked request) hw
  finishes request w polls finish hw hresult _ hv :=
    quiet_after (h.finishes request w.signal w.host polls finish hw hresult) hv

theorem ExecutionContext.SteadyWhere.acts {asked : List Segment → Prop} {ctx : ExecutionContext σ}
    (h : ctx.SteadyWhere asked view) : ctx.Acts World.Ongoing Quiet :=
  h.imp (fun _ h => h.harmless.acts) (fun _ h => h.harmless.acts) fun _ h => h.harmless.acts

theorem permits_quiet : Permits (World.Ongoing (σ := σ)) Quiet fun _ => True where
  course := quiet_course
  trace event w _ _ := quiet_trace event w
  take stream w _ := quiet_take stream w

/-- Whether work aborts nothing, as long as nothing is aborted. -/
abbrev Process.ActsQuietly (p : Process σ ρ) : Prop := Acts World.Ongoing Quiet p

section

variable {asked : List Segment → Prop} {ctx : ExecutionContext σ} (hctx : ctx.SteadyWhere asked view)

include hctx

theorem quiet_executeRoot {object : ObjectType σ} (hobject : ctx.schema.Owns object) :
    (executeRoot ctx object).ActsQuietly :=
  acts_executeRoot permits_quiet hctx.acts hobject fun _ _ => trivial

theorem quiet_execute {job : Job σ} (hjob : job.OwnedBy ctx.schema) :
    (job.execute ctx).ActsQuietly :=
  acts_execute permits_quiet hctx.acts hjob (fun _ _ => trivial) (fun _ _ => trivial) fun _ _ => trivial

end

end GraphQL
