import GraphQL.Proofs.Schema.Attempts
import GraphQL.Execution.Completion
import GraphQL.Proofs.Execution.Process.Results

/-! # What completing does to the world

Completing values asks callbacks, reads streams, queues jobs and writes traces, and the traces are of
the places where it works. All of this work is built in a few ways; what can be built in each of them can
be built of all work. So a course that permits all that is followed by all work of the executor.
-/

namespace GraphQL

variable {σ α ι ρ : Type}

/-! ## Callbacks -/

theorem Controller.aborted_foldl {c : Controller} (reasons : List (Option String)) (h : c.aborted) :
    (reasons.foldl abort c).aborted := by
  induction reasons generalizing c with
  | nil => exact h
  | cons reason reasons ih =>
    refine ih ?_
    unfold abort
    split
    · exact h
    · rfl

namespace World

theorem wake_eq (w : World σ) (task : Nat) : ∃ ready, w.wake task = { w with ready } := by
  unfold wake
  split
  · exact ⟨w.ready, rfl⟩
  · exact ⟨_, rfl⟩

theorem abort_eq (w : World σ) (reason : Option String) :
    ∃ ready, w.abort reason = { w with controller := w.controller.abort reason, ready } := by
  unfold abort
  dsimp only
  suffices ∀ (tasks : List Nat) (v : World σ), ∃ ready, tasks.foldl wake v = { v with ready } from
    this _ { w with controller := w.controller.abort reason }
  intro tasks
  induction tasks with
  | nil => exact fun v => ⟨v.ready, rfl⟩
  | cons task tasks ih =>
    intro v
    obtain ⟨ready, hready⟩ := wake_eq v task
    obtain ⟨left, hleft⟩ := ih (v.wake task)
    exact ⟨left, by rw [List.foldl_cons, hleft, hready]⟩

/-- An action changes the state of the host and may abort the request, which wakes tasks. What was
aborted stays so. -/
theorem foldl_abort_eq (reasons : List (Option String)) (w : World σ) : ∃ ready,
    reasons.foldl abort w =
      { w with controller := reasons.foldl Controller.abort w.controller, ready } := by
  induction reasons generalizing w with
  | nil => exact ⟨w.ready, rfl⟩
  | cons reason reasons ih =>
    obtain ⟨ready, hready⟩ := abort_eq w reason
    obtain ⟨left, hleft⟩ := ih (w.abort reason)
    exact ⟨left, by rw [List.foldl_cons, hleft, hready]; rfl⟩

theorem controller_after (w : World σ) (action : Action σ α) :
    (w.after action).controller = (w.reaction action).aborts.foldl Controller.abort w.controller := by
  unfold after
  obtain ⟨ready, heq⟩ :=
    foldl_abort_eq (w.reaction action).aborts { w with host := (w.reaction action).state }
  exact congrArg World.controller heq

theorem after_eq (w : World σ) (action : Action σ α) : ∃ controller ready,
    w.after action = { w with host := (w.reaction action).state, controller, ready } ∧
      (w.controller.aborted → controller.aborted) := by
  unfold after
  obtain ⟨ready, heq⟩ :=
    foldl_abort_eq (w.reaction action).aborts { w with host := (w.reaction action).state }
  exact ⟨_, ready, heq, Controller.aborted_foldl _⟩

end World

/-! ## Callbacks of a request -/

/-- Whether an object type is one of a schema. -/
def Schema.Owns (schema : Schema σ) (object : ObjectType σ) : Prop := .object object ∈ schema.types

namespace Schema

variable {schema : Schema σ} {object : ObjectType σ} {t : TypeDefinition σ}

theorem owns_of_object? {name : String} (h : schema.object? name = some object) :
    schema.Owns object := by
  obtain ⟨t, ht, hobject⟩ := Option.bind_eq_some_iff.mp h
  cases t with
  | object o =>
    obtain rfl : o = object := Option.some.inj hobject
    exact mem_of_type? ht
  | _ => cases hobject

theorem owns_of_root? {kind : OperationKind} (h : schema.root? kind = some object) :
    schema.Owns object := by
  obtain ⟨_, -, hname⟩ := Option.bind_eq_some_iff.mp h
  exact owns_of_object? hname

theorem owns_of_mem_objects (h : object ∈ schema.objects) : schema.Owns object := by
  obtain ⟨t, ht, hobject⟩ := List.mem_filterMap.mp h
  cases t with
  | object o =>
    obtain rfl : o = object := Option.some.inj hobject
    exact ht
  | _ => cases hobject

theorem owns_of_possibleTypes (ht : t ∈ schema.types) (h : object ∈ schema.possibleTypes t) :
    schema.Owns object := by
  cases t with
  | object o =>
    obtain rfl : object = o := List.mem_singleton.mp h
    exact ht
  | interface i =>
    obtain ⟨o, ho, h⟩ := List.mem_flatMap.mp h
    obtain ⟨_, -, rfl⟩ := List.mem_map.mp h
    exact owns_of_mem_objects ho
  | union u =>
    obtain ⟨name, -, hname⟩ := List.mem_filterMap.mp h
    exact owns_of_object? hname
  | _ => cases h

theorem owns_of_runtimeObject {plan : FieldPlan σ} {path : Path} {name : Option String}
    (h : plan.runtimeObject path schema t name = .ok object) : schema.Owns object := by
  unfold FieldPlan.runtimeObject at h
  split at h
  · cases h
  · split at h
    · cases h
    · next o ho =>
      split at h
      · obtain rfl := Except.ok.inj h
        exact mem_of_type? ho
      · cases h
    · cases h

/-- Whether all callbacks of a schema are of the given kinds. -/
structure Heeds (F : FieldResolver σ → Prop) (T : TypeResolver σ → Prop) (M : MembershipCheck σ → Prop)
    (schema : Schema σ) : Prop where
  fields : ∀ object, schema.Owns object → ∀ name, ∀ field ∈ object.field? name,
    ∀ resolver ∈ field.resolve, F resolver
  types : ∀ t ∈ schema.types, ∀ resolver ∈ Process.ownTypeResolver t, T resolver
  members : ∀ object, schema.Owns object → ∀ check ∈ object.isTypeOf, M check

end Schema

/-- Whether all callbacks that a request asks are of the given kinds. -/
structure Request.Heeds (F : FieldResolver σ → Prop) (T : TypeResolver σ → Prop)
    (M : MembershipCheck σ → Prop) (r : Request σ) : Prop where
  schema : r.schema.Heeds F T M
  fieldResolver : ∀ resolver ∈ r.fieldResolver, F resolver
  typeResolver : ∀ resolver ∈ r.typeResolver, T resolver

namespace ExecutionContext

structure Heeds (F : FieldResolver σ → Prop) (T : TypeResolver σ → Prop) (M : MembershipCheck σ → Prop)
    (ctx : ExecutionContext σ) : Prop where
  schema : ctx.schema.Heeds F T M
  fieldResolver : ∀ resolver ∈ ctx.fieldResolver, F resolver
  typeResolver : ∀ resolver ∈ ctx.typeResolver, T resolver

variable {ctx : ExecutionContext σ} {F : FieldResolver σ → Prop} {T : TypeResolver σ → Prop}
  {M : MembershipCheck σ → Prop}

theorem Heeds.imp {F' : FieldResolver σ → Prop} {T' : TypeResolver σ → Prop}
    {M' : MembershipCheck σ → Prop} (h : ctx.Heeds F T M) (hF : ∀ resolver, F resolver → F' resolver)
    (hT : ∀ resolver, T resolver → T' resolver) (hM : ∀ check, M check → M' check) :
    ctx.Heeds F' T' M' where
  schema := {
    fields := fun object hobject name field hfield resolver hresolver =>
      hF _ (h.schema.fields object hobject name field hfield resolver hresolver)
    types := fun t ht resolver hresolver => hT _ (h.schema.types t ht resolver hresolver)
    members := fun object hobject check hcheck => hM _ (h.schema.members object hobject check hcheck) }
  fieldResolver resolver hresolver := hF _ (h.fieldResolver resolver hresolver)
  typeResolver resolver hresolver := hT _ (h.typeResolver resolver hresolver)

theorem Heeds.ofField (h : ctx.Heeds F T M) {object : ObjectType σ} (hobject : ctx.schema.Owns object)
    {name : String} {field : FieldDefinition σ} (hfield : object.field? name = some field)
    {resolver : FieldResolver σ} (hresolver : (field.resolve <|> ctx.fieldResolver) = some resolver) :
    F resolver := by
  cases hown : field.resolve with
  | none => exact h.fieldResolver resolver (by simpa [hown] using hresolver)
  | some own =>
    obtain rfl : own = resolver := by simpa [hown] using hresolver
    exact h.schema.fields object hobject name field hfield own hown

theorem Heeds.ofType (h : ctx.Heeds F T M) {t : TypeDefinition σ} (ht : t ∈ ctx.schema.types)
    {resolver : TypeResolver σ}
    (hresolver : (Process.ownTypeResolver t <|> ctx.typeResolver) = some resolver) : T resolver := by
  cases hown : Process.ownTypeResolver t with
  | none => exact h.typeResolver resolver (by simpa [hown] using hresolver)
  | some own =>
    obtain rfl : own = resolver := by simpa [hown] using hresolver
    exact h.schema.types t ht own hown

end ExecutionContext

/-! ## Places of traces -/

namespace TraceEvent

/-- Whether an event is about work at a place or below it. -/
def Inside (place : List Segment) : TraceEvent → Prop
  | resolving p _ | notResolved p | abortedResolving p | abortedWaiting p => place <+: p.segments
  | _ => False

/-- Whether an event says that the field at a place is resolved. -/
def resolves (place : List Segment) : TraceEvent → Bool
  | resolving p _ => p.segments = place
  | _ => false

/-- Whether an event says that a job begins. -/
def Begins : TraceEvent → Prop
  | executingDeferred .. | completingStreamed .. => True
  | _ => False

/-- Whether an event is about work at a place or below it, on a value that was resolved before. -/
def Within (place : List Segment) (event : TraceEvent) : Prop :=
  event.Inside place ∧ event.resolves place = false

theorem Inside.mono {place : List Segment} {event : TraceEvent} {path : Path}
    (hpath : place <+: path.segments) (h : event.Inside path.segments) : event.Inside place := by
  cases event <;> first | exact hpath.trans h | exact h

theorem Inside.within {path : Path} {s : Segment} {n : Nat} {event : TraceEvent}
    (h : event.Inside (path.extend s n).segments) : event.Within path.segments := by
  refine ⟨h.mono (List.prefix_append _ _), ?_⟩
  cases event with
  | resolving p name =>
    have hlength := List.IsPrefix.length_le h
    rw [resolves, decide_eq_false_iff_not]
    intro heq
    simp only [Path.segments, heq, List.length_append, List.length_singleton] at hlength
    omega
  | _ => rfl

end TraceEvent

/-- Whether all events of completing a value at a place are allowed. -/
def Covers (allowed : TraceEvent → Prop) (place : List Segment) : Prop :=
  ∀ event : TraceEvent, event.Within place → allowed event

namespace Covers

variable {allowed : TraceEvent → Prop} {path : Path}

theorem child (h : Covers allowed path.segments) {s : Segment} {n : Nat} {event : TraceEvent}
    (hevent : event.Inside (path.extend s n).segments) : allowed event := h event hevent.within

theorem below (h : Covers allowed path.segments) (s : Segment) (n : Nat) :
    Covers allowed (path.extend s n).segments := fun _ hevent => h.child hevent.1

theorem abortedResolving (h : Covers allowed path.segments) : allowed (.abortedResolving path) :=
  h _ ⟨List.prefix_refl path.segments, rfl⟩

theorem abortedWaiting (h : Covers allowed path.segments) : allowed (.abortedWaiting path) :=
  h _ ⟨List.prefix_refl path.segments, rfl⟩

end Covers

/-! ## Courses that permit to complete values -/

/-- Whether a course permits to read streams and to write traces of the given events. -/
structure Permits (P : World σ → Prop) (E : World σ → World σ → Prop)
    (allowed : TraceEvent → Prop) : Prop where
  course : Course P E
  trace : ∀ event w, allowed event → P w → E w (w.trace event)
  take : ∀ stream w, P w → E w (w.take stream)

/-- Whether a callback follows a course whenever it acts. -/
structure Callback.Acts (P : World σ → Prop) (E : World σ → World σ → Prop)
    (callback : Callback σ ι α) : Prop where
  asked : ∀ request w, P w → E w (w.after (callback request))
  finishes : ∀ request w polls finish, P w →
    (w.reaction (callback request)).result = .after polls finish → ∀ v, P v → E v (v.after finish)

/-- Whether all callbacks that are asked follow a course. -/
abbrev ExecutionContext.Acts (P : World σ → Prop) (E : World σ → World σ → Prop)
    (ctx : ExecutionContext σ) : Prop :=
  ctx.Heeds (Callback.Acts P E) (Callback.Acts P E) (Callback.Acts P E)

namespace Process

variable {P : World σ → Prop} {E : World σ → World σ → Prop} {allowed : TraceEvent → Prop}
  (hE : Permits P E allowed)

include hE

theorem acts_onAbort {event : TraceEvent} (hevent : allowed event) {k : String → Process σ ρ}
    (hk : ∀ reason, Acts P E (k reason)) : Acts P E (onAbort event k) :=
  fun w hw => ⟨hE.trace event w hevent hw, hk _⟩

theorem acts_look {next : World σ → Process σ ρ} (h : ∀ w, Acts P E (next w)) :
    Acts P E (look next) :=
  fun w _ => ⟨hE.course.refl w, h w⟩

theorem acts_call {callback : Callback σ ι α} (h : callback.Acts P E) {request : ι} {path : Path}
    (hevent : allowed (.abortedResolving path))
    {k : Except FieldError α → Process σ ρ} (hk : ∀ x, Acts P E (k x)) :
    Acts P E (call callback request path k) := by
  intro w hw
  refine ⟨h.asked request w hw, ?_⟩
  have haborted : Acts P E (onAbort (.abortedResolving path) fun reason =>
      k (.error (.ofMessage reason))) :=
    acts_onAbort hE hevent fun reason => hk _
  have hfinishes := h.finishes request w
  dsimp only
  generalize (w.reaction (callback request)).result = answer at hfinishes
  cases answer with
  | ready x => exact hk x
  | after polls finish => exact ⟨haborted, fun v hv => ⟨hfinishes polls finish hw rfl v hv, hk _⟩⟩
  | never => exact ⟨haborted, fun v _ => ⟨hE.course.refl v, trivial⟩⟩

theorem acts_nextEvent {plan : FieldPlan σ} {path : Path}
    (hpath : Covers allowed path.segments) {events : List Event}
    {k : Except ExecutionError (Option (HostValue × List Event)) → Process σ ρ}
    (hk : ∀ x, Acts P E (k x)) : Acts P E (nextEvent plan path events k) := by
  refine acts_look hE fun w => ?_
  split
  · exact hk _
  · cases events with
    | nil => exact hk _
    | cons e rest =>
      refine ⟨acts_onAbort hE hpath.abortedWaiting fun reason => hk _,
        fun v _ => ⟨hE.course.refl v, ?_⟩⟩
      split <;> exact hk _

variable {ctx : ExecutionContext σ} (hctx : ctx.Acts P E)

include hctx

theorem acts_resolveField {plan : FieldPlan σ} (hparent : ctx.schema.Owns plan.parent)
    {name : String} (hfield : plan.parent.field? name = some plan.field) {source : HostValue}
    {path : Path} (hpath : ∀ event : TraceEvent, event.Inside path.segments → allowed event)
    {k : Except ExecutionError HostValue → Process σ ρ} (hk : ∀ x, Acts P E (k x)) :
    Acts P E (resolveField ctx plan source path k) := by
  refine acts_look hE fun w => ?_
  split
  · exact acts_onAbort hE (hpath (.notResolved path) (List.prefix_refl path.segments)) fun reason => hk _
  · split
    · exact hk _
    · have hresolving : allowed (.resolving path plan.field.name) :=
        hpath _ (List.prefix_refl path.segments)
      refine fun v hv => ⟨hE.trace _ v hresolving hv, ?_⟩
      split
      · exact hk _
      · next resolver hresolver =>
        exact acts_call hE (hctx.ofField hparent hfield hresolver)
          (Covers.abortedResolving fun event h => hpath event h.1) fun x => hk _

end Process

/-! ## Ways to build work -/

open Process Completing

/-- Whether work of a kind can be built in all the ways in which the executor builds the work of a
request, when it traces what is allowed. -/
structure ExecutionContext.Builds (ctx : ExecutionContext σ) (allowed : TraceEvent → Prop)
    (C : Completing σ → Prop) : Prop where
  done (r : Report σ) : C (.done r)
  unending : C .unending
  bind {p k} : C p → (∀ r, C (k r)) → C (p.bind k)
  all {parts next} : (∀ p ∈ parts, C p) → (∀ rs, C (next rs)) → C (.all parts next)
  queue (count : Nat) {next} :
    (∀ w, C (next w)) → C (.step (fun w => { w with tickets := w.tickets + count }) next)
  take (stream : Nat) {next} : (∀ w, C (next w)) → C (.step (World.take stream) next)
  event {plan path events k} :
    Covers allowed path.segments → (∀ x, C (k x)) → C (nextEvent plan path events k)
  type {t resolver request path k} : t ∈ ctx.schema.types →
    (ownTypeResolver t <|> ctx.typeResolver) = some resolver → Covers allowed path.segments →
    (∀ x, C (k x)) → C (call resolver request path k)
  member {object check request path k} : ctx.schema.Owns object → object.isTypeOf = some check →
    Covers allowed path.segments → (∀ x, C (k x)) → C (call check request path k)
  field {plan name source path k} : ctx.schema.Owns plan.parent →
    plan.parent.field? name = some plan.field →
    (∀ event : TraceEvent, event.Inside path.segments → allowed event) → (∀ x, C (k x)) →
    C (resolveField ctx plan source path k)

/-- Whether completing builds work of a kind, when it may trace what is done at its place. -/
def Completer.Builds (allowed : TraceEvent → Prop) (C : Completing σ → Prop)
    (complete : Completer σ) : Prop :=
  ∀ plan t path value, Covers allowed path.segments → C (complete plan t path value)

/-- The place of what a job completes. -/
def Job.place : Job σ → Path
  | .deferred _ _ path _ => path
  | .streamed _ _ path _ index _ => path.index index

/-- Whether a job works on objects of a schema. -/
def Job.OwnedBy (schema : Schema σ) : Job σ → Prop
  | .deferred object _ _ _ => schema.Owns object
  | .streamed .. => True

section

variable {ctx : ExecutionContext σ} {allowed : TraceEvent → Prop} {C : Completing σ → Prop}
  {complete completeField : Completer σ} {path : Path} (h : ctx.Builds allowed C)

include h

theorem built_takeEvents {plan : FieldPlan σ} (hpath : Covers allowed path.segments)
    {limit : Option Nat}
    {k : Except ExecutionError (List HostValue × Option (List Event)) → Completing σ}
    (hk : ∀ x, C (k x)) (events : List Event) (items : List HostValue) :
    C (takeEvents plan path limit k events items) := by
  induction events generalizing items with
  | nil =>
    unfold takeEvents
    split
    · exact hk _
    · exact h.event hpath fun x => by cases x <;> exact hk _
  | cons e rest ih =>
    unfold takeEvents
    split
    · exact hk _
    · exact h.event hpath fun
        | .error e => hk _
        | .ok none => hk _
        | .ok (some (v, _)) => ih _

theorem built_firstMember {info : FieldInfo} {value : HostValue}
    (hpath : Covers allowed info.path.segments)
    {k : Except FieldError (Option String) → Completing σ} (hk : ∀ x, C (k x))
    {objects : List (ObjectType σ)} (hobjects : ∀ object ∈ objects, ctx.schema.Owns object) :
    C (firstMember info value k objects) := by
  induction objects with
  | nil => exact hk _
  | cons object rest ih =>
    obtain ⟨hobject, hrest⟩ := List.forall_mem_cons.mp hobjects
    unfold firstMember
    split
    · exact ih hrest
    · next check hcheck =>
      exact h.member hobject hcheck hpath fun
        | .error e => hk _
        | .ok true => hk _
        | .ok false => ih hrest

theorem built_defaultType {t : TypeDefinition σ} (ht : t ∈ ctx.schema.types) {info : FieldInfo}
    (hpath : Covers allowed info.path.segments) {value : HostValue}
    {k : Except FieldError (Option String) → Completing σ} (hk : ∀ x, C (k x)) :
    C (defaultType ctx.schema t info value k) := by
  unfold defaultType
  split
  · exact hk _
  · exact built_firstMember h hpath hk fun object => Schema.owns_of_possibleTypes ht

theorem built_resolveType {t : TypeDefinition σ} (ht : t ∈ ctx.schema.types) {info : FieldInfo}
    (hpath : Covers allowed info.path.segments) {value : HostValue}
    {k : Except FieldError (Option String) → Completing σ} (hk : ∀ x, C (k x)) :
    C (resolveType ctx t info value k) := by
  unfold resolveType
  split
  · exact built_defaultType h ht hpath hk
  · next resolver hresolver =>
    exact h.type ht hresolver hpath fun
      | .error e => hk _
      | .ok .unknown => hk _
      | .ok (.named name) => hk _
      | .ok .byDefault => built_defaultType h ht hpath hk

theorem built_thenQueue {job : Job σ} {p : Completing σ} (hp : C p) : C (p.thenQueue job) := by
  refine h.bind hp fun r => ?_
  split
  · exact h.done _
  · exact h.queue 1 fun w => h.done _

theorem built_executeField (hcomplete : completeField.Builds allowed C) {object : ObjectType σ}
    (hobject : ctx.schema.Owns object) (source : HostValue) (uses : List FieldUse)
    (hpath : ∀ event : TraceEvent, event.Inside path.segments → allowed event) :
    C (executeField ctx completeField object source uses path) := by
  unfold executeField
  split
  · exact h.done _
  · split
    · exact h.done _
    · split
      · exact h.done _
      · next field hfield =>
        refine h.bind (h.field hobject hfield hpath fun x => ?_) fun r => h.done _
        cases x with
        | error e => exact h.done _
        | ok v => exact hcomplete _ _ _ _ fun event hevent => hpath event hevent.1

theorem built_inSequence {deferred : List (Nat × Job σ)} {finished : List (String × Report σ)}
    {fields : List (String × Completing σ)} (hfields : ∀ field ∈ fields, C field.2) :
    C (inSequence deferred finished fields) := by
  induction fields generalizing finished with
  | nil => exact h.done _
  | cons field fields ih =>
    obtain ⟨hfield, hfields⟩ := List.forall_mem_cons.mp hfields
    refine h.bind hfield fun r => ?_
    dsimp only
    split
    · exact h.done _
    · exact ih hfields

theorem built_executeObject (hcomplete : completeField.Builds allowed C) {object : ObjectType σ}
    (hobject : ctx.schema.Owns object) (isSerial : Bool) (source : HostValue)
    (hpath : Covers allowed path.segments) (collected : Collected) :
    C (executeObject ctx completeField isSerial object source path collected) := by
  have hfields : ∀ field ∈ fieldWork ctx completeField object source path collected.groups,
      C field.2 := by
    intro field hfield
    obtain ⟨_, -, rfl⟩ := List.mem_map.mp hfield
    exact built_executeField h hcomplete hobject _ _ fun event => hpath.child
  refine h.queue _ fun w => ?_
  dsimp only
  split
  · exact built_inSequence h hfields
  · refine h.all (fun p hp => ?_) fun rs => h.done _
    obtain ⟨field, hfield, rfl⟩ := List.mem_map.mp hp
    exact hfields field hfield

theorem built_completeItem (hcomplete : complete.Builds allowed C) (plan : FieldPlan σ)
    (itemType : TypeRef) (hpath : Covers allowed path.segments) (item : HostValue) :
    C (completeItem complete plan itemType path item) :=
  h.bind (hcomplete _ _ _ _ hpath) fun _ => h.done _

theorem built_completeInitial (hcomplete : complete.Builds allowed C) (plan : FieldPlan σ)
    (itemType : TypeRef) (hpath : Covers allowed path.segments) (label : Option String)
    (items : List HostValue) (remaining : Option ItemSource) :
    C (completeInitial complete plan itemType path label items remaining) := by
  have hitems : C (completeItems complete plan itemType path items) := by
    refine h.all (fun p hp => ?_) fun rs => h.done _
    obtain ⟨_, -, rfl⟩ := List.mem_map.mp hp
    exact built_completeItem h hcomplete _ _ (hpath.below _ _) _
  cases remaining with
  | none => exact hitems
  | some source => exact built_thenQueue h hitems

theorem built_completeItemsOf (hcomplete : complete.Builds allowed C) (isStreamable : Bool)
    (plan : FieldPlan σ) (itemType : TypeRef) (hpath : Covers allowed path.segments)
    (source : Option ItemSource) :
    C (completeItemsOf ctx complete isStreamable plan itemType path source) := by
  unfold completeItemsOf
  split
  · exact h.done _
  · split
    · exact built_completeInitial h hcomplete _ _ hpath _ _ _
    · split
      · split <;> exact built_completeInitial h hcomplete _ _ hpath _ _ _
      · exact built_completeInitial h hcomplete _ _ hpath _ _ _
    · refine built_takeEvents h hpath (fun x => ?_) _ _
      cases x with
      | error e => exact h.done _
      | ok taken => exact built_completeInitial h hcomplete _ _ hpath _ _ _

theorem built_completeList (hcomplete : complete.Builds allowed C) (isStreamable : Bool)
    (plan : FieldPlan σ) (itemType : TypeRef) (hpath : Covers allowed path.segments)
    (value : HostValue) :
    C (completeList ctx complete isStreamable plan itemType path value) := by
  unfold completeList
  split
  · exact h.done _
  · exact built_completeItemsOf h hcomplete _ _ _ hpath _
  · exact h.take _ fun w => built_completeItemsOf h hcomplete _ _ _ hpath _

theorem built_subfields (hcomplete : completeField.Builds allowed C) (uses : List FieldUse)
    {object : ObjectType σ} (hobject : ctx.schema.Owns object) (hpath : Covers allowed path.segments)
    (value : HostValue) :
    C (match ctx.subfields object uses with
      | none => .unending
      | some collected => executeObject ctx completeField false object value path collected) := by
  split
  · exact h.unending
  · exact built_executeObject h hcomplete hobject _ _ hpath _

theorem built_completeObject (hcomplete : completeField.Builds allowed C) (plan : FieldPlan σ)
    {object : ObjectType σ} (hobject : ctx.schema.Owns object) (hpath : Covers allowed path.segments)
    (value : HostValue) : C (completeObject ctx completeField plan object path value) := by
  have hexecute := built_subfields h hcomplete plan.uses hobject hpath value
  unfold completeObject
  dsimp only
  split
  · exact hexecute
  · next check hcheck =>
    exact h.member hobject hcheck hpath fun
      | .error e => h.done _
      | .ok true => hexecute
      | .ok false => h.done _

theorem built_completeAbstract (hcomplete : completeField.Builds allowed C) (plan : FieldPlan σ)
    {t : TypeDefinition σ} (ht : t ∈ ctx.schema.types) (hpath : Covers allowed path.segments)
    (value : HostValue) : C (completeAbstract ctx completeField plan t path value) := by
  refine built_resolveType h ht hpath fun x => ?_
  cases x with
  | error e => exact h.done _
  | ok name =>
    dsimp only
    split
    · exact h.done _
    · next object hobject =>
      exact built_completeObject h hcomplete plan (Schema.owns_of_runtimeObject hobject) hpath _

theorem built_completeValue (hcomplete : complete.Builds allowed C)
    (hfield : completeField.Builds allowed C) (isStreamable : Bool) (plan : FieldPlan σ) (t : TypeRef)
    (hpath : Covers allowed path.segments) (value : HostValue) :
    C (completeValue ctx complete completeField isStreamable plan t path value) := by
  unfold completeValue
  split
  · split <;> exact h.done _
  · split
    · exact built_completeList h hcomplete _ _ _ hpath _
    · split
      · exact h.done _
      · exact h.done _
      · next object hobject =>
        exact built_completeObject h hfield plan (Schema.mem_of_type? hobject) hpath _
      · next hd => exact built_completeAbstract h hfield plan (Schema.mem_of_type? hd) hpath _
      · next hd => exact built_completeAbstract h hfield plan (Schema.mem_of_type? hd) hpath _
      · exact h.done _

theorem built_completeWithin (depth : Nat) (isStreamable : Bool) :
    (completeWithin ctx depth isStreamable).Builds allowed C := by
  induction depth generalizing isStreamable with
  | zero => exact fun _ _ _ _ _ => h.unending
  | succ depth ih =>
    exact fun plan t path value hpath =>
      built_completeValue h (ih false) (ih true) isStreamable plan t hpath value

theorem built_executeRoot {object : ObjectType σ} (hobject : ctx.schema.Owns object)
    (hpath : Covers allowed Path.root.segments) : C (executeRoot ctx object) := by
  unfold executeRoot
  split
  · exact h.unending
  · exact built_executeObject h (built_completeWithin h _ _) hobject _ _ hpath _

theorem built_execute {job : Job σ} (hjob : job.OwnedBy ctx.schema)
    (hpath : Covers allowed job.place.segments)
    (hbegins : ∀ event p, event.Begins → C p → C (perform (World.trace event) p)) :
    C (job.execute ctx) := by
  cases job with
  | deferred object source path fragment =>
    refine hbegins _ _ trivial ?_
    exact built_executeObject h (built_completeWithin h _ _) hjob _ _ hpath _
  | streamed plan itemType path label index source =>
    have hstreamed (item remaining) :
        C (executeStreamed ctx plan itemType path label index item remaining) := by
      have hcompleted : C (completeItem (completeListItem ctx) plan itemType (path.index index) item) :=
        built_completeItem h (built_completeWithin h _ _) _ _ hpath _
      refine hbegins _ _ trivial ?_
      split
      · exact hcompleted
      · exact built_thenQueue h hcompleted
    cases source with
    | ready items =>
      cases items with
      | nil => exact h.done _
      | cons item rest => exact hstreamed _ _
    | events arriving =>
      unfold Job.execute
      refine h.event hpath fun x => ?_
      rcases x with e | _ | ⟨item, rest⟩
      · exact h.done _
      · exact h.done _
      · exact hstreamed _ _

end

/-! ### Work that follows a course -/

section

variable {P : World σ → Prop} {E : World σ → World σ → Prop} {allowed : TraceEvent → Prop}
  {ctx : ExecutionContext σ} (hE : Permits P E allowed) (hctx : ctx.Acts P E)

include hE hctx

theorem builds_acts : ctx.Builds allowed (Process.Acts P E) where
  done _ := trivial
  unending := trivial
  bind := acts_bind
  all hparts hnext := ⟨actsAll_iff.mpr hparts, hnext⟩
  queue _ _ h w _ := ⟨hE.course.tasks rfl rfl rfl rfl rfl, h w⟩
  take stream _ h w hw := ⟨hE.take stream w hw, h w⟩
  event hpath hk := acts_nextEvent hE hpath hk
  type ht hresolver hpath hk := acts_call hE (hctx.ofType ht hresolver) hpath.abortedResolving hk
  member hobject hcheck hpath hk :=
    acts_call hE (hctx.schema.members _ hobject _ hcheck) hpath.abortedResolving hk
  field hparent hfield hpath hk := acts_resolveField hE hctx hparent hfield hpath hk

theorem acts_executeField {completeField : Completer σ}
    (hcomplete : completeField.Builds allowed (Process.Acts P E)) {object : ObjectType σ}
    (hobject : ctx.schema.Owns object) (source : HostValue) (uses : List FieldUse) {path : Path}
    (hpath : ∀ event : TraceEvent, event.Inside path.segments → allowed event) :
    Process.Acts P E (executeField ctx completeField object source uses path) :=
  built_executeField (builds_acts hE hctx) hcomplete hobject source uses hpath

theorem acts_completeWithin (depth : Nat) (isStreamable : Bool) :
    (completeWithin ctx depth isStreamable).Builds allowed (Process.Acts P E) :=
  built_completeWithin (builds_acts hE hctx) depth isStreamable

theorem acts_executeRoot {object : ObjectType σ} (hobject : ctx.schema.Owns object)
    (hpath : Covers allowed Path.root.segments) : Process.Acts P E (executeRoot ctx object) :=
  built_executeRoot (builds_acts hE hctx) hobject hpath

theorem acts_execute {job : Job σ} (hjob : job.OwnedBy ctx.schema)
    (hpath : Covers allowed job.place.segments)
    (hdeferred : ∀ path label, allowed (.executingDeferred path label))
    (hstreamed : ∀ path label, allowed (.completingStreamed path label)) :
    Process.Acts P E (job.execute ctx) := by
  refine built_execute (builds_acts hE hctx) hjob hpath fun event p hevent hp w hw => ⟨?_, hp⟩
  refine hE.trace event w ?_ hw
  cases event with
  | executingDeferred => exact hdeferred _ _
  | completingStreamed => exact hstreamed _ _
  | _ => exact hevent.elim

end

end GraphQL
