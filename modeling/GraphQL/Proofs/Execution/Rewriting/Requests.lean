import GraphQL.Proofs.Execution.Delivery.Jobs
import GraphQL.Proofs.Execution.Process.Lockstep
import GraphQL.Proofs.Execution.Rewriting.Resemblance
import GraphQL.Proofs.Execution.Timing.Reports

/-! # Requests in tandem

Rewriting a document so that the same fields are executed leaves the executor to go the same way, step by
step: it asks the host the same, in the same order, and comes to reports, parts and payloads that resemble
one another.
-/

namespace GraphQL

open Process Completing

variable {σ α β ι ρ : Type}

/-! ## Asking in lockstep -/

namespace Process

variable {R : ρ → ρ → Prop} {path : Path}

theorem lockstep_onAbort {event : TraceEvent} {k k' : String → Process σ ρ}
    (hk : ∀ reason, Lockstep R (k reason) (k' reason)) :
    Lockstep R (onAbort event k) (onAbort event k') := ⟨rfl, fun _ => hk _⟩

theorem lockstep_look {next next' : World σ → Process σ ρ} (h : ∀ w, Lockstep R (next w) (next' w)) :
    Lockstep R (look next) (look next') := ⟨rfl, h⟩

theorem lockstep_perform {effect : World σ → World σ} {next next' : Process σ ρ}
    (h : Lockstep R next next') : Lockstep R (perform effect next) (perform effect next') :=
  ⟨rfl, fun _ => h⟩

theorem lockstep_call {callback : Callback σ ι α} {request request' : ι}
    (h : callback request = callback request') {k k' : Except FieldError α → Process σ ρ}
    (hk : ∀ x, Lockstep R (k x) (k' x)) :
    Lockstep R (call callback request path k) (call callback request' path k') := by
  unfold call
  rw [h]
  refine ⟨rfl, fun w => ?_⟩
  have haborted : Lockstep R
      (onAbort (.abortedResolving path) fun reason => k (.error (.ofMessage reason)))
      (onAbort (.abortedResolving path) fun reason => k' (.error (.ofMessage reason))) :=
    lockstep_onAbort fun reason => hk _
  dsimp only
  generalize (w.reaction (callback request')).result = answer
  cases answer with
  | ready x => exact hk x
  | after polls finish => exact ⟨⟨rfl, rfl, rfl⟩, haborted, fun v => hk _⟩
  | never => exact ⟨⟨rfl, rfl, rfl⟩, haborted, fun v => trivial⟩

variable {L : Likeness} {t : Rewriting} {ctx : ExecutionContext σ} {plan plan' : FieldPlan σ}

section

variable (hctx : t.Faithful L ctx) (hplan : plan.Resembles L plan')

include hctx hplan

theorem lockstep_nextEvent {events : List Event}
    {k k' : Except ExecutionError (Option (HostValue × List Event)) → Process σ ρ}
    (hok : ∀ x, Lockstep R (k (.ok x)) (k' (.ok x)))
    (herror : ∀ e e', L.view e = L.view e' → Lockstep R (k (.error e)) (k' (.error e'))) :
    Lockstep R (nextEvent plan path events k) (nextEvent plan' path events k') := by
  refine lockstep_look fun w => ?_
  split
  · exact herror _ _ (hplan.problem hctx path _)
  · cases events with
    | nil => exact hok none
    | cons e rest =>
      refine ⟨⟨rfl, rfl, rfl⟩,
        lockstep_onAbort fun reason => herror _ _ (hplan.problem hctx path _), fun v => ?_⟩
      cases e with
      | item delay value => exact hok _
      | failure delay failure => exact herror _ _ (hctx.error hplan path failure)

theorem lockstep_takeEvents {limit : Option Nat}
    {k k' : Except ExecutionError (List HostValue × Option (List Event)) → Process σ ρ}
    (hok : ∀ x, Lockstep R (k (.ok x)) (k' (.ok x)))
    (herror : ∀ e e', L.view e = L.view e' → Lockstep R (k (.error e)) (k' (.error e')))
    (events : List Event) (items : List HostValue) :
    Lockstep R (takeEvents plan path limit k events items)
      (takeEvents plan' path limit k' events items) := by
  induction events generalizing items with
  | nil =>
    unfold takeEvents
    split
    · exact hok _
    · exact lockstep_nextEvent hctx hplan (fun _ => hok _) herror
  | cons e rest ih =>
    unfold takeEvents
    split
    · exact hok _
    · refine lockstep_nextEvent hctx hplan (fun next => ?_) herror
      cases next with
      | none => exact hok _
      | some next => exact ih _

end

theorem lockstep_resolveField (hcallbacks : ctx.OverlooksDocument) (hctx : t.Faithful L ctx)
    (hplan : plan.Resembles L plan') (hparent : ctx.schema.Owns plan.parent) {name : String}
    (hfield : plan.parent.field? name = some plan.field) {source : HostValue}
    {k k' : Except ExecutionError HostValue → Process σ ρ}
    (hok : ∀ v, Lockstep R (k (.ok v)) (k' (.ok v)))
    (herror : ∀ e e', L.view e = L.view e' → Lockstep R (k (.error e)) (k' (.error e'))) :
    Lockstep R (resolveField ctx plan source path k)
      (resolveField (ctx.rewrite t) plan' source path k') := by
  refine lockstep_look fun w => ?_
  rw [← hplan.field]
  split
  · exact lockstep_onAbort fun reason => herror _ _ (hplan.problem hctx path _)
  · obtain ⟨e, e', hargs, hargs', he⟩ | ⟨args, hargs, hargs'⟩ :=
      cases_of_mapError_eq (hctx.arguments hplan path) <;> rw [hargs, hargs']
    · exact herror e e' he
    · refine lockstep_perform ?_
      have hresolvers : (ctx.rewrite t).fieldResolver = ctx.fieldResolver := rfl
      rw [hresolvers]
      cases hresolver : plan.field.resolve <|> ctx.fieldResolver with
      | none => exact hok _
      | some resolver =>
        have hsame : resolver ⟨plan.info ctx path, source, args⟩ =
            resolver ⟨plan'.info (ctx.rewrite t) path, source, args⟩ :=
          hcallbacks.ofField hparent hfield hresolver _ _
            (congrArg (FieldRequest.mk · source args) (hplan.info t ctx path))
        exact lockstep_call hsame fun
          | .error e => herror _ _ (hctx.error hplan path e)
          | .ok v => hok v

variable (hcallbacks : ctx.OverlooksDocument) {info info' : FieldInfo}
  (hinfo : info.withoutDocument = info'.withoutDocument) {value : HostValue}

include hcallbacks hinfo

theorem lockstep_check {object : ObjectType σ} (hobject : ctx.schema.Owns object)
    {check : MembershipCheck σ} (hcheck : object.isTypeOf = some check)
    {k k' : Except FieldError Bool → Process σ ρ} (hk : ∀ x, Lockstep R (k x) (k' x)) :
    Lockstep R (call check ⟨info, value, object.name⟩ path k)
      (call check ⟨info', value, object.name⟩ path k') := by
  refine lockstep_call (hcallbacks.schema.members object hobject check hcheck _ _ ?_) hk
  exact congrArg (TypeRequest.mk · value object.name) hinfo

variable {k k' : Except FieldError (Option String) → Process σ ρ}
  (hk : ∀ x, Lockstep R (k x) (k' x))

include hk

theorem lockstep_firstMember {objects : List (ObjectType σ)}
    (h : ∀ object ∈ objects, ctx.schema.Owns object) :
    Lockstep R (firstMember info value k objects) (firstMember info' value k' objects) := by
  induction objects with
  | nil => exact hk _
  | cons object rest ih =>
    obtain ⟨hobject, hrest⟩ := List.forall_mem_cons.mp h
    unfold firstMember
    rw [FieldInfo.path_eq hinfo]
    split
    · exact ih hrest
    · next check hcheck =>
      exact lockstep_check hcallbacks hinfo hobject hcheck fun
        | .error e => hk _
        | .ok true => hk _
        | .ok false => ih hrest

theorem lockstep_defaultType {type : TypeDefinition σ} (htype : type ∈ ctx.schema.types) :
    Lockstep R (defaultType ctx.schema type info value k)
      (defaultType ctx.schema type info' value k') := by
  unfold defaultType
  split
  · exact hk _
  · exact lockstep_firstMember hcallbacks hinfo hk fun object hobject =>
      Schema.owns_of_possibleTypes htype hobject

theorem lockstep_resolveType {type : TypeDefinition σ} (htype : type ∈ ctx.schema.types)
    (t : Rewriting) : Lockstep R (resolveType ctx type info value k)
      (resolveType (ctx.rewrite t) type info' value k') := by
  have hdefault : Lockstep R (defaultType ctx.schema type info value k)
      (defaultType ctx.schema type info' value k') := lockstep_defaultType hcallbacks hinfo hk htype
  unfold resolveType
  rw [FieldInfo.path_eq hinfo]
  have hresolvers : (ctx.rewrite t).typeResolver = ctx.typeResolver := rfl
  simp only [hresolvers]
  cases hresolver : ownTypeResolver type <|> ctx.typeResolver with
  | none => exact hdefault
  | some resolver =>
    have hsame : resolver ⟨info, value, type.name⟩ = resolver ⟨info', value, type.name⟩ :=
      hcallbacks.ofType htype hresolver _ _ (congrArg (TypeRequest.mk · value type.name) hinfo)
    exact lockstep_call hsame fun
      | .error e => hk _
      | .ok .unknown => hk _
      | .ok (.named name) => hk _
      | .ok .byDefault => hdefault

end Process

/-! ## Completing in lockstep -/

/-- Whether two ways to complete values are in lockstep for plans that resemble one another. -/
def Completer.Lockstep (L : Likeness) (schema : Schema σ) (complete complete' : Completer σ) : Prop :=
  ∀ plan plan' type path value, plan.Resembles L plan' →
    Process.Lockstep (Report.Resembles L schema) (complete plan type path value)
      (complete' plan' type path value)

section

variable {L : Likeness} {schema : Schema σ}

theorem lockstep_failed {e e' : ExecutionError} (h : L.view e = L.view e') :
    Lockstep (Report.Resembles L schema) (failed e) (failed e') := Report.Resembles.failed h

theorem lockstep_ofExcept {x x' : Except ExecutionError Value}
    (h : x.mapError L.view = x'.mapError L.view) :
    Lockstep (Report.Resembles L schema) (ofExcept x) (ofExcept x') := by
  obtain ⟨e, e', rfl, rfl, he⟩ | ⟨v, rfl, rfl⟩ := cases_of_mapError_eq h
  · exact lockstep_failed he
  · exact Report.Resembles.leaf v

variable {p p' : Completing σ}

theorem lockstep_absorbing (h : Lockstep (Report.Resembles L schema) p p') (type : TypeRef) :
    Lockstep (Report.Resembles L schema) (p.map (·.absorbing type)) (p'.map (·.absorbing type)) :=
  lockstep_bind h fun _ _ hr => hr.absorbing type

theorem lockstep_thenQueue (h : Lockstep (Report.Resembles L schema) p p') {job job' : Job σ}
    (hjob : job.Resembles L schema job') :
    Lockstep (Report.Resembles L schema) (p.thenQueue job) (p'.thenQueue job') := by
  refine lockstep_bind h fun r r' hr => ?_
  rw [hr.isError]
  split
  · exact hr
  · exact ⟨rfl, fun w => hr.followed w.tickets hjob⟩

variable {deferred deferred' : List (Nat × Job σ)}
  (hdeferred : List.Forall₂ (Job.QueuedAlike L schema) deferred deferred')
  {fields fields' : List (String × Completing σ)}
  (h : List.Forall₂ (fun field field' => field.1 = field'.1 ∧
    Lockstep (Report.Resembles L schema) field.2 field'.2) fields fields')

include hdeferred h

theorem lockstep_inSequence {finished finished' : List (String × Report σ)}
    (hfinished : List.Forall₂ (fun field field' => field.1 = field'.1 ∧
      field.2.Resembles L schema field'.2) finished finished') :
    Lockstep (Report.Resembles L schema) (inSequence deferred finished fields)
      (inSequence deferred' finished' fields') := by
  induction h generalizing finished finished' with
  | nil => exact Report.Resembles.object hdeferred hfinished
  | @cons field field' fields fields' hfield _ ih =>
    obtain ⟨key, p⟩ := field
    obtain ⟨_, p'⟩ := field'
    obtain ⟨rfl, hp⟩ := hfield
    refine lockstep_bind hp fun r r' hr => ?_
    have hfinished : List.Forall₂ (fun field field' => field.1 = field'.1 ∧
        field.2.Resembles L schema field'.2) (finished ++ [(key, r)]) (finished' ++ [(key, r')]) :=
      List.rel_append hfinished (.cons ⟨rfl, hr⟩ .nil)
    dsimp only
    rw [hr.isError]
    split
    · exact Report.Resembles.object hdeferred hfinished
    · exact ih hfinished

theorem lockstep_sideBySide :
    Lockstep (Report.Resembles L schema) (sideBySide deferred fields) (sideBySide deferred' fields') := by
  have hkeys : fields.map Prod.fst = fields'.map Prod.fst := by
    rw [← List.forall₂_eq_eq_eq, List.forall₂_map_left_iff, List.forall₂_map_right_iff]
    exact h.imp fun _ _ => And.left
  have hparts : List.Forall₂ (Lockstep (Report.Resembles L schema)) (fields.map Prod.snd)
      (fields'.map Prod.snd) := by
    rw [List.forall₂_map_left_iff, List.forall₂_map_right_iff]
    exact h.imp fun _ _ => And.right
  refine ⟨lockstepAll_iff.mpr hparts, fun rs rs' hrs => Report.Resembles.object hdeferred ?_⟩
  rw [hkeys]
  exact forall₂_zip hrs _

end

section

variable {L : Likeness} {t : Rewriting} {ctx : ExecutionContext σ} {plan plan' : FieldPlan σ}
  {complete complete' completeField completeField' : Completer σ}

theorem lockstep_completeItem (hcomplete : complete.Lockstep L ctx.schema complete')
    (hplan : plan.Resembles L plan') {itemType : TypeRef} {path : Path} {item : HostValue} :
    Lockstep (Report.Resembles L ctx.schema) (completeItem complete plan itemType path item)
      (completeItem complete' plan' itemType path item) :=
  lockstep_absorbing (hcomplete plan plan' _ _ _ hplan) itemType

theorem lockstep_completeItems (hcomplete : complete.Lockstep L ctx.schema complete')
    (hplan : plan.Resembles L plan') {itemType : TypeRef} {path : Path} {items : List HostValue} :
    Lockstep (Report.Resembles L ctx.schema) (completeItems complete plan itemType path items)
      (completeItems complete' plan' itemType path items) := by
  refine ⟨lockstepAll_iff.mpr ?_, fun rs rs' hrs => Report.Resembles.list hrs⟩
  rw [List.forall₂_map_left_iff, List.forall₂_map_right_iff, List.forall₂_same]
  exact fun _ _ => lockstep_completeItem hcomplete hplan

theorem lockstep_completeInitial (hcomplete : complete.Lockstep L ctx.schema complete')
    (hplan : plan.Resembles L plan') {itemType : TypeRef} {path : Path} {label : Option String}
    {items : List HostValue} {remaining : Option ItemSource} :
    Lockstep (Report.Resembles L ctx.schema)
      (completeInitial complete plan itemType path label items remaining)
      (completeInitial complete' plan' itemType path label items remaining) := by
  have hitems : Lockstep (Report.Resembles L ctx.schema)
      (completeItems complete plan itemType path items)
      (completeItems complete' plan' itemType path items) := lockstep_completeItems hcomplete hplan
  cases remaining with
  | none => exact hitems
  | some source => exact lockstep_thenQueue hitems (.streamed hplan)

variable (hctx : t.Faithful L ctx)

include hctx

theorem lockstep_completeItemsOf (hcomplete : complete.Lockstep L ctx.schema complete')
    (hplan : plan.Resembles L plan') (isStreamable : Bool) {itemType : TypeRef} {path : Path}
    {source : Option ItemSource} :
    Lockstep (Report.Resembles L ctx.schema)
      (completeItemsOf ctx complete isStreamable plan itemType path source)
      (completeItemsOf (ctx.rewrite t) complete' isStreamable plan' itemType path source) := by
  have hstreaming : (if isStreamable then plan.streaming path ctx else .ok none).mapError L.view =
      (if isStreamable then plan'.streaming path (ctx.rewrite t) else .ok none).mapError L.view := by
    split
    · exact hctx.streaming hplan path
    · rfl
  have hinitial (label : Option String) (items : List HostValue) (remaining : Option ItemSource) :
      Lockstep (Report.Resembles L ctx.schema)
        (completeInitial complete plan itemType path label items remaining)
        (completeInitial complete' plan' itemType path label items remaining) :=
    lockstep_completeInitial hcomplete hplan
  unfold completeItemsOf
  obtain ⟨e, e', hx, hx', he⟩ | ⟨streaming, hx, hx'⟩ := cases_of_mapError_eq hstreaming <;>
    rw [hx, hx']
  · -- `@stream` fails in both.
    exact lockstep_failed he
  · dsimp only
    split
    · exact hinitial _ _ _
    · -- Items that are all there: some are left only if the field is streamed.
      split
      · split
        · exact hinitial _ _ _
        · exact hinitial _ _ _
      · exact hinitial _ _ _
    · exact lockstep_takeEvents hctx hplan (fun _ => hinitial _ _ _) (fun _ _ => lockstep_failed) _ _

theorem lockstep_completeList (hcomplete : complete.Lockstep L ctx.schema complete')
    (hplan : plan.Resembles L plan') (isStreamable : Bool) {itemType : TypeRef} {path : Path}
    {value : HostValue} :
    Lockstep (Report.Resembles L ctx.schema)
      (completeList ctx complete isStreamable plan itemType path value)
      (completeList (ctx.rewrite t) complete' isStreamable plan' itemType path value) := by
  unfold completeList
  rw [hplan.coordinate]
  split
  · exact lockstep_failed (hplan.problem hctx path _)
  · exact lockstep_completeItemsOf hctx hcomplete hplan isStreamable
  · exact ⟨rfl, fun w => lockstep_completeItemsOf hctx hcomplete hplan isStreamable⟩

variable (hcallbacks : ctx.OverlooksDocument)

include hcallbacks

theorem lockstep_executeField (hcomplete : completeField.Lockstep L ctx.schema completeField')
    {object : ObjectType σ} (hobject : ctx.schema.Owns object) {source : HostValue} {path : Path}
    {uses uses' : List FieldUse} (huses : L.uses uses uses') :
    Lockstep (Report.Resembles L ctx.schema) (executeField ctx completeField object source uses path)
      (executeField (ctx.rewrite t) completeField' object source uses' path) := by
  have hname := hctx.name huses
  cases uses with
  | nil =>
    cases uses' with
    | nil => exact Report.Resembles.absent
    | cons => cases hname
  | cons use others =>
    cases uses' with
    | nil => cases hname
    | cons use' others' =>
      have hname : use.node.name.item = use'.node.name.item := Option.some.inj hname
      simp only [executeField, ← hname]
      split
      · exact Report.Resembles.leaf _
      · cases hfield : object.field? use.node.name.item with
        | none => exact Report.Resembles.absent
        | some field =>
          have hplan : FieldPlan.Resembles L ⟨object, field, use, others⟩
              ⟨object, field, use', others'⟩ := ⟨rfl, rfl, huses⟩
          exact lockstep_absorbing (lockstep_resolveField hcallbacks hctx hplan hobject hfield
            (fun v => hcomplete _ _ _ _ _ hplan) fun e e' => lockstep_failed) field.type

theorem lockstep_fieldWork (hcomplete : completeField.Lockstep L ctx.schema completeField')
    {object : ObjectType σ} (hobject : ctx.schema.Owns object) (source : HostValue) (path : Path)
    {groups groups' : FieldGroups}
    (hgroups : List.Forall₂ (fun group group' => group.1 = group'.1 ∧ L.uses group.2 group'.2)
      groups groups') :
    List.Forall₂ (fun field field' => field.1 = field'.1 ∧
        Lockstep (Report.Resembles L ctx.schema) field.2 field'.2)
      (fieldWork ctx completeField object source path groups)
      (fieldWork (ctx.rewrite t) completeField' object source path groups') := by
  unfold fieldWork
  rw [List.forall₂_map_left_iff, List.forall₂_map_right_iff]
  refine (forall₂_zipIdx hgroups 0).imp ?_
  rintro ⟨⟨key, uses⟩, n⟩ ⟨⟨_, uses'⟩, _⟩ ⟨⟨rfl, huses⟩, rfl⟩
  exact ⟨rfl, lockstep_executeField hctx hcallbacks hcomplete hobject huses⟩

theorem lockstep_executeObject (hcomplete : completeField.Lockstep L ctx.schema completeField')
    {object : ObjectType σ} (hobject : ctx.schema.Owns object) (isSerial : Bool) {source : HostValue}
    {path : Path} {c c' : Collected} (hc : c.Resembles L c') :
    Lockstep (Report.Resembles L ctx.schema)
      (executeObject ctx completeField isSerial object source path c)
      (executeObject (ctx.rewrite t) completeField' isSerial object source path c') := by
  have hfields := lockstep_fieldWork hctx hcallbacks hcomplete hobject source path hc.groups
  have hjobs : List.Forall₂ (Job.Resembles L ctx.schema)
      (c.deferred.map (Job.deferred object source path))
      (c'.deferred.map (Job.deferred object source path)) := by
    rw [List.forall₂_map_left_iff, List.forall₂_map_right_iff]
    exact hc.deferred.imp fun _ _ => .deferred hobject
  unfold executeObject
  dsimp only
  refine ⟨by rw [hjobs.length_eq], fun w => ?_⟩
  have hdeferred (n : Nat) : List.Forall₂ (Job.QueuedAlike L ctx.schema)
      (((c.deferred.map (Job.deferred object source path)).zipIdx n).map Prod.swap)
      (((c'.deferred.map (Job.deferred object source path)).zipIdx n).map Prod.swap) := by
    rw [List.forall₂_map_left_iff, List.forall₂_map_right_iff]
    exact (forall₂_zipIdx hjobs n).imp fun _ _ h => ⟨h.2, h.1⟩
  split
  · exact lockstep_inSequence (hdeferred _) hfields .nil
  · exact lockstep_sideBySide (hdeferred _) hfields

theorem lockstep_completeObject (hcomplete : completeField.Lockstep L ctx.schema completeField')
    (hplan : plan.Resembles L plan') {object : ObjectType σ} (hobject : ctx.schema.Owns object)
    {path : Path} {value : HostValue} :
    Lockstep (Report.Resembles L ctx.schema) (completeObject ctx completeField plan object path value)
      (completeObject (ctx.rewrite t) completeField' plan' object path value) := by
  have hexecute {c c' : Collected} (hc : c.Resembles L c') : Lockstep (Report.Resembles L ctx.schema)
      (executeObject ctx completeField false object value path c)
      (executeObject (ctx.rewrite t) completeField' false object value path c') :=
    lockstep_executeObject hctx hcallbacks hcomplete hobject false hc
  have hsubfields := hctx.subfields hplan.uses object
  unfold completeObject
  dsimp only
  generalize ctx.subfields object plan.uses = found at hsubfields ⊢
  generalize (ctx.rewrite t).subfields object plan'.uses = found' at hsubfields ⊢
  split
  · cases hsubfields with
    | none => trivial
    | some hc => exact hexecute hc
  · next check hcheck =>
    refine lockstep_check hcallbacks (hplan.info t ctx path) hobject hcheck fun x => ?_
    rcases x with e | _ | _
    · exact lockstep_failed (hctx.error hplan path e)
    · exact lockstep_failed (hplan.problem hctx path _)
    · cases hsubfields with
      | none => trivial
      | some hc => exact hexecute hc

theorem lockstep_completeAbstract (hcomplete : completeField.Lockstep L ctx.schema completeField')
    (hplan : plan.Resembles L plan') {type : TypeDefinition σ} (htype : type ∈ ctx.schema.types)
    {path : Path} {value : HostValue} :
    Lockstep (Report.Resembles L ctx.schema) (completeAbstract ctx completeField plan type path value)
      (completeAbstract (ctx.rewrite t) completeField' plan' type path value) := by
  refine lockstep_resolveType hcallbacks (hplan.info t ctx path) (fun x => ?_) htype t
  cases x with
  | error e => exact lockstep_failed (hctx.error hplan path e)
  | ok name =>
    have hsame := hplan.runtimeObject hctx path ctx.schema type name
    have hschema : (ctx.rewrite t).schema = ctx.schema := rfl
    simp only [hschema]
    obtain ⟨e, e', hobject, hobject', he⟩ | ⟨object, hobject, hobject'⟩ :=
      cases_of_mapError_eq hsame <;> rw [hobject, hobject']
    · exact lockstep_failed he
    · exact lockstep_completeObject hctx hcallbacks hcomplete hplan
        (Schema.owns_of_runtimeObject hobject)

theorem lockstep_completeValue (hcomplete : complete.Lockstep L ctx.schema complete')
    (hfield : completeField.Lockstep L ctx.schema completeField') (hplan : plan.Resembles L plan')
    (isStreamable : Bool) {type : TypeRef} {path : Path} {value : HostValue} :
    Lockstep (Report.Resembles L ctx.schema)
      (completeValue ctx complete completeField isStreamable plan type path value)
      (completeValue (ctx.rewrite t) complete' completeField' isStreamable plan' type path value) := by
  have hschema : (ctx.rewrite t).schema = ctx.schema := rfl
  unfold completeValue
  rw [hplan.coordinate, hschema]
  split
  · split
    · exact lockstep_failed (hplan.problem hctx path _)
    · exact Report.Resembles.null
  · split
    · exact lockstep_completeList hctx hcomplete hplan isStreamable
    · split
      · exact lockstep_ofExcept (hplan.completeScalar hctx path _ value)
      · exact lockstep_ofExcept (hplan.completeEnum hctx path _ value)
      · next object hobject =>
        exact lockstep_completeObject hctx hcallbacks hfield hplan (Schema.mem_of_type? hobject)
      · next hd =>
        exact lockstep_completeAbstract hctx hcallbacks hfield hplan (Schema.mem_of_type? hd)
      · next hd =>
        exact lockstep_completeAbstract hctx hcallbacks hfield hplan (Schema.mem_of_type? hd)
      · exact lockstep_failed (hplan.problem hctx path _)

theorem lockstep_completeWithin (depth : Nat) (isStreamable : Bool) :
    Completer.Lockstep L ctx.schema (completeWithin ctx depth isStreamable)
      (completeWithin (ctx.rewrite t) depth isStreamable) := by
  induction depth generalizing isStreamable with
  | zero => exact fun _ _ _ _ _ _ => trivial
  | succ depth ih =>
    exact fun plan plan' type path value hplan =>
      lockstep_completeValue hctx hcallbacks (ih false) (ih true) hplan isStreamable

theorem lockstep_executeRoot {object : ObjectType σ} (hobject : ctx.schema.Owns object) :
    Lockstep (Report.Resembles L ctx.schema) (executeRoot ctx object)
      (executeRoot (ctx.rewrite t) object) := by
  have hroot := hctx.rootFields object
  have hkind : (ctx.rewrite t).operation.kind = ctx.operation.kind := t.kind ctx.operation
  unfold executeRoot
  rw [hkind]
  generalize ctx.rootFields object = found at hroot ⊢
  generalize (ctx.rewrite t).rootFields object = found' at hroot ⊢
  cases hroot with
  | none => trivial
  | some hc =>
    exact lockstep_executeObject hctx hcallbacks (lockstep_completeWithin hctx hcallbacks _ true)
      hobject _ hc

/-! ## Jobs in lockstep -/

theorem lockstep_executeStreamed (hplan : plan.Resembles L plan') {itemType : TypeRef} {path : Path}
    {label : Option String} {index : Nat} {item : HostValue} {remaining : ItemSource} :
    Lockstep (Report.Resembles L ctx.schema)
      (executeStreamed ctx plan itemType path label index item remaining)
      (executeStreamed (ctx.rewrite t) plan' itemType path label index item remaining) := by
  have hitem : Lockstep (Report.Resembles L ctx.schema)
      (completeItem (completeListItem ctx) plan itemType (path.index index) item)
      (completeItem (completeListItem (ctx.rewrite t)) plan' itemType (path.index index) item) :=
    lockstep_completeItem (lockstep_completeWithin hctx hcallbacks _ false) hplan
  unfold executeStreamed
  refine lockstep_perform ?_
  split
  · exact hitem
  · exact lockstep_thenQueue hitem (.streamed hplan)

theorem lockstep_execute {job job' : Job σ} (h : job.Resembles L ctx.schema job') :
    Lockstep (Report.Resembles L ctx.schema) (job.execute ctx) (job'.execute (ctx.rewrite t)) := by
  cases h with
  | deferred hobject h =>
    cases h with
    | intro hfields =>
      exact lockstep_perform (lockstep_executeObject hctx hcallbacks
        (lockstep_completeWithin hctx hcallbacks _ true) hobject false hfields)
  | @streamed _ _ _ _ _ _ source hplan =>
    unfold Job.execute
    dsimp only
    split
    · exact Report.Resembles.absent
    · exact lockstep_executeStreamed hctx hcallbacks hplan
    · refine lockstep_nextEvent hctx hplan (fun next => ?_) fun _ _ => lockstep_failed
      cases next with
      | none => exact Report.Resembles.absent
      | some next => exact lockstep_executeStreamed hctx hcallbacks hplan

end

/-! ## Delivery in tandem -/

structure RunningJob.Resembles (L : Likeness) (schema : Schema σ) (r r' : RunningJob σ) : Prop where
  task : r.task = r'.task
  job : r.job.Resembles L schema r'.job
  work : Lockstep (Report.Resembles L schema) r.work r'.work

structure Finished.Resembles (L : Likeness) (schema : Schema σ) (f f' : Finished σ) : Prop where
  job : f.job.Resembles L schema f'.job
  report : f.report.Resembles L schema f'.report
  hasNext : f.hasNext = f'.hasNext

/-- Whether the same tasks run, with jobs that resemble one another. -/
structure Delivery.Resembles (L : Likeness) (schema : Schema σ) (d d' : Delivery σ) : Prop where
  running : List.Forall₂ (RunningJob.Resembles L schema) d.running d'.running
  nextTask : d.nextTask = d'.nextTask

namespace Delivery.Resembles

variable {L : Likeness} {schema : Schema σ} {d d' : Delivery σ}

theorem empty : (Delivery.empty : Delivery σ).Resembles L schema .empty := ⟨.nil, rfl⟩

theorem goOn (h : d.Resembles L schema d') (task : Nat) {work work' : Completing σ}
    (hwork : Lockstep (Report.Resembles L schema) work work') :
    (d.goOn task work).Resembles L schema (d'.goOn task work') where
  running := by
    unfold Delivery.goOn
    rw [List.forall₂_map_left_iff, List.forall₂_map_right_iff]
    refine h.running.imp fun r r' hr => ?_
    rw [← hr.task]
    split
    · exact ⟨rfl, hr.job, hwork⟩
    · exact hr
  nextTask := h.nextTask

theorem others (h : d.Resembles L schema d') (task : Nat) :
    Delivery.Resembles L schema { d with running := d.running.filter (·.task ≠ task) }
      { d' with running := d'.running.filter (·.task ≠ task) } where
  running := List.rel_filter (fun _ _ hr => by simp only [hr.task]) h.running
  nextTask := h.nextTask

theorem enqueue (h : d.Resembles L schema d') {jobs jobs' : List (Job σ)}
    (hjobs : jobs.length = jobs'.length) (w : World σ) : d.enqueue jobs w = d'.enqueue jobs' w := by
  unfold Delivery.enqueue
  rw [List.zipIdx_map_snd, List.zipIdx_map_snd, h.nextTask, hjobs]

theorem isOver (h : d.Resembles L schema d') : d.isOver = d'.isOver := by
  have hrunning := h.running
  unfold Delivery.isOver
  generalize d.running = running, d'.running = running' at hrunning ⊢
  cases hrunning <;> rfl

end Delivery.Resembles

section

variable {L : Likeness} {t : Rewriting} {ctx : ExecutionContext σ} (hctx : t.Faithful L ctx)
  (hcallbacks : ctx.OverlooksDocument) {jobs jobs' : List (Job σ)}

include hctx hcallbacks

theorem Delivery.Resembles.start {d d' : Delivery σ} (h : d.Resembles L ctx.schema d')
    (hjobs : List.Forall₂ (Job.Resembles L ctx.schema) jobs jobs') :
    (d.start ctx jobs).Resembles L ctx.schema (d'.start (ctx.rewrite t) jobs') where
  running := by
    unfold Delivery.start
    refine List.rel_append h.running ?_
    rw [h.nextTask, List.forall₂_map_left_iff, List.forall₂_map_right_iff]
    exact (forall₂_zipIdx hjobs _).imp fun _ _ hjob =>
      ⟨hjob.2, hjob.1, lockstep_execute hctx hcallbacks hjob.1⟩
  nextTask := by rw [Delivery.start, h.nextTask, hjobs.length_eq, Delivery.start]

theorem resembles_next (rounds : Nat) {d d' : Delivery σ} (h : d.Resembles L ctx.schema d') (w : World σ) :
    Option.Rel (fun found found' => Option.Rel (Finished.Resembles L ctx.schema) found.1 found'.1 ∧
        found.2.1.Resembles L ctx.schema found'.2.1 ∧ found.2.2 = found'.2.2)
      (d.next ctx rounds w) (d'.next (ctx.rewrite t) rounds w) := by
  induction rounds generalizing d d' w with
  | zero => exact .none
  | succ rounds ih =>
    unfold Delivery.next
    cases w.ready with
    | nil =>
      dsimp only
      rw [h.isOver]
      split
      · exact .some ⟨.none, h, rfl⟩
      · exact .none
    | cons task ready =>
      dsimp only
      -- Both ask the same task, which then waits or ends alike.
      have hcurrent := rel_find? (p := (·.task = task)) (q := (·.task = task))
        (fun _ _ hr => by rw [hr.task]) h.running
      generalize d.running.find? (·.task = task) = current at hcurrent ⊢
      generalize d'.running.find? (·.task = task) = current' at hcurrent ⊢
      cases hcurrent with
      | none => exact ih h _
      | @some current current' hcurrent =>
        obtain ⟨hleft, hw⟩ := poll_lockstep hcurrent.work { w with ready, running := some task }
        dsimp only
        rw [← hw]
        generalize (current.work.poll { w with ready, running := some task }).2 = v
        generalize (current.work.poll { w with ready, running := some task }).1 = left at hleft ⊢
        generalize (current'.work.poll { w with ready, running := some task }).1 = left' at hleft ⊢
        cases left <;> cases left' <;> first
          | exact hleft.elim
          | exact ih (h.goOn task hleft) _
          | skip
        next report report' =>
          have hreport : report.Resembles L ctx.schema report' := hleft
          have hstarted := (h.others task).start hctx hcallbacks hreport.queued
          exact .some ⟨.some ⟨hcurrent.job, hreport, congrArg (! ·) hstarted.isOver⟩, hstarted,
            (h.others task).enqueue hreport.queued.length_eq _⟩

theorem resembles_history (count : Nat) {d d' : Delivery σ} (h : d.Resembles L ctx.schema d')
    (w : World σ) :
    Option.Rel (fun history history' =>
        List.Forall₂ (Finished.Resembles L ctx.schema) history.1 history'.1 ∧ history.2 = history'.2)
      (d.history ctx count w) (d'.history (ctx.rewrite t) count w) := by
  induction count generalizing d d' w with
  | zero => exact .none
  | succ count ih =>
    have hnext := resembles_next hctx hcallbacks ctx.bounds.rounds h w
    have hbounds : (ctx.rewrite t).bounds = ctx.bounds := rfl
    unfold Delivery.history
    rw [hbounds]
    refine rel_bind hnext ?_
    rintro ⟨finished, d, v⟩ ⟨finished', d', _⟩ ⟨hfinished, hd, rfl⟩
    cases hfinished with
    | none => exact .some ⟨.nil, rfl⟩
    | some hfinished =>
      exact rel_bind (ih hd v) fun _ _ hlater => .some ⟨.cons hfinished hlater.1, hlater.2⟩

end

/-! ## Responses -/

section

variable (f : ExecutionError → ExecutionError)

def ExecutionResult.mapErrors (r : ExecutionResult) : ExecutionResult := { r with errors := r.errors.map f }

def InitialResult.mapErrors (r : InitialResult) : InitialResult := { r with errors := r.errors.map f }

def Part.mapErrors (part : Part) : Part := { part with errors := part.errors.map f }

def Payload.mapErrors (payload : Payload) : Payload :=
  { payload with parts := payload.parts.map (Part.mapErrors f) }

end

/-- Whether two responses are the same, with all payloads, up to what is seen of errors. -/
inductive Response.SameUpTo (view : ExecutionError → ExecutionError) : Response σ → Response σ → Prop
  | single {result result'} (h : result.mapErrors view = result'.mapErrors view) :
    SameUpTo view (.single result) (.single result')
  | incremental {initial initial' ctx ctx' jobs jobs'}
    (h : initial.mapErrors view = initial'.mapErrors view)
    (later : ∀ w, (laterPayloads ctx jobs w).map (Prod.map (List.map (Payload.mapErrors view)) id) =
      (laterPayloads ctx' jobs' w).map (Prod.map (List.map (Payload.mapErrors view)) id)) :
    SameUpTo view (.incremental initial ctx jobs) (.incremental initial' ctx' jobs')

namespace Finished.Resembles

variable {L : Likeness} {schema : Schema σ} {f f' : Finished σ} (h : f.Resembles L schema f')

include h

theorem part : f.part.map (Part.mapErrors L.view) = f'.part.map (Part.mapErrors L.view) := by
  have herrors := h.report.allErrors
  have hobject := h.report.object?
  have hvalue := h.report.value
  have herror := h.report.isError
  have hjob := h.job
  obtain ⟨job, report, _⟩ := f
  obtain ⟨job', report', _⟩ := f'
  cases hjob with
  | deferred hobject' hfragment =>
    cases hfragment
    simp only [Finished.part, Job.part, Option.map_some, Part.mapErrors, herrors, hobject]
  | streamed =>
    unfold Report.value? Outcome.value? at hvalue
    unfold Report.isError Outcome.isError at herror
    unfold Finished.part Job.part
    dsimp only at hvalue herror ⊢
    generalize report.outcome.result = x, report'.outcome.result = x' at hvalue herror ⊢
    rcases x with e | v <;> rcases x' with e' | v'
    · simp only [Option.map_some, Part.mapErrors, herrors]
    · cases herror
    · cases herror
    · obtain rfl : v = v' := hvalue
      cases v with
      | none => rfl
      | some v => simp only [Option.map_some, Part.mapErrors, herrors]

theorem payload : f.payload?.map (Payload.mapErrors L.view) =
    f'.payload?.map (Payload.mapErrors L.view) := by
  have hpart := h.part
  unfold Finished.payload?
  rw [h.hasNext]
  generalize f.part = part, f'.part = part' at hpart ⊢
  cases part <;> cases part'
  · rfl
  · cases hpart
  · cases hpart
  · simp only [Option.map_some, Payload.mapErrors, List.map_cons, List.map_nil,
      Option.some.inj hpart]

end Finished.Resembles

section

variable {L : Likeness} {t : Rewriting} {ctx : ExecutionContext σ} (hctx : t.Faithful L ctx)
  (hcallbacks : ctx.OverlooksDocument)

include hctx hcallbacks

theorem laterPayloads_rewrite {jobs jobs' : List (Job σ)}
    (hjobs : List.Forall₂ (Job.Resembles L ctx.schema) jobs jobs') (w : World σ) :
    (laterPayloads ctx jobs w).map (Prod.map (List.map (Payload.mapErrors L.view)) id) =
      (laterPayloads (ctx.rewrite t) jobs' w).map
        (Prod.map (List.map (Payload.mapErrors L.view)) id) := by
  have hempty : (Delivery.empty : Delivery σ).Resembles L ctx.schema .empty := .empty
  have hhistory := resembles_history hctx hcallbacks ctx.bounds.rounds
    (hempty.start hctx hcallbacks hjobs) (Delivery.empty.enqueue jobs w)
  have hqueue : (Delivery.empty : Delivery σ).enqueue jobs' w = Delivery.empty.enqueue jobs w :=
    (hempty.enqueue hjobs.length_eq w).symm
  have hbounds : (ctx.rewrite t).bounds = ctx.bounds := rfl
  unfold laterPayloads runJobs
  dsimp only
  rw [hqueue, hbounds]
  generalize (Delivery.empty.start ctx jobs).history _ _ _ = history at hhistory ⊢
  generalize (Delivery.empty.start (ctx.rewrite t) jobs').history _ _ _ = history' at hhistory ⊢
  cases hhistory with
  | none => rfl
  | @some history history' hhistory =>
    obtain ⟨finished, v⟩ := history
    obtain ⟨finished', _⟩ := history'
    obtain ⟨hfinished, rfl⟩ := hhistory
    dsimp only at hfinished
    have hpayloads : (finished.filterMap Finished.payload?).map (Payload.mapErrors L.view) =
        (finished'.filterMap Finished.payload?).map (Payload.mapErrors L.view) := by
      rw [List.map_filterMap, List.map_filterMap]
      induction hfinished with
      | nil => rfl
      | cons hf _ ih => rw [List.filterMap_cons, List.filterMap_cons, hf.payload, ih]
    exact congrArg (fun payloads => some (payloads, v)) hpayloads

theorem executePrepared_rewrite {object : ObjectType σ} (hobject : ctx.schema.Owns object) (w : World σ) :
    Option.Rel (fun answer answer' => answer.1.SameUpTo L.view answer'.1 ∧ answer.2 = answer'.2)
      (Request.executePrepared ctx object w) (Request.executePrepared (ctx.rewrite t) object w) := by
  have hname : (ctx.rewrite t).operation.name? = ctx.operation.name? := by
    rw [Operation.name?, ExecutionContext.rewrite, t.name, Operation.name?]
  have hbounds : (ctx.rewrite t).bounds = ctx.bounds := rfl
  have hrun := run_lockstep (lockstep_executeRoot hctx hcallbacks hobject) ctx.bounds.rounds
    (w.trace (.executing ctx.operation.name?))
  unfold Request.executePrepared
  simp only [hname, hbounds]
  refine rel_bind hrun ?_
  rintro ⟨report, v⟩ ⟨report', _⟩ ⟨hreport, rfl⟩
  have hqueued := hreport.queued
  have herrors := hreport.allErrors
  have hlength := congrArg List.length herrors
  rw [List.length_map, List.length_map] at hlength
  simp only [hreport.object?, hqueued.length_eq, hlength]
  cases report'.outcome.object? with
  | none => exact .some ⟨.single (congrArg (ExecutionResult.mk none · none) herrors), rfl⟩
  | some data =>
    generalize report.outcome.queued = jobs at hqueued ⊢
    generalize report'.outcome.queued = jobs' at hqueued ⊢
    cases hqueued with
    | nil => exact .some ⟨.single (congrArg (ExecutionResult.mk (some data) · none) herrors), rfl⟩
    | cons hjob hjobs =>
      exact .some ⟨.incremental (congrArg (InitialResult.mk data) herrors) fun v =>
        laterPayloads_rewrite hctx hcallbacks (.cons hjob hjobs) v, rfl⟩

end

/-- A request is answered the same, up to what is seen of errors, when its document is rewritten so that
the same fields are executed. -/
theorem Request.executeIncrementally_rewrite {L : Likeness} {t : Rewriting} {r : Request σ}
    (hcallbacks : r.OverlooksDocument)
    (h : ∀ ctx root, r.prepare = .ok (ctx, root) → t.Faithful L ctx) (w : World σ) :
    Option.Rel (fun answer answer' => answer.1.SameUpTo L.view answer'.1 ∧ answer.2 = answer'.2)
      (r.executeIncrementally w)
      ({ r with document := r.document.rewrite t }.executeIncrementally w) := by
  unfold executeIncrementally
  rw [prepare_rewrite]
  cases hr : r.prepare with
  | error e => exact .some ⟨.single rfl, rfl⟩
  | ok prepared =>
    obtain ⟨ctx, root⟩ := prepared
    obtain ⟨-, -, hroot⟩ := prepare_spec hr
    exact executePrepared_rewrite (h ctx root hr) (hcallbacks.prepared hr) hroot w

theorem Request.execute_rewrite {L : Likeness} {t : Rewriting} {r : Request σ}
    (hcallbacks : r.OverlooksDocument)
    (h : ∀ ctx root, r.prepare = .ok (ctx, root) → t.Faithful L ctx) (w : World σ) :
    (r.execute w).map (Prod.map (ExecutionResult.mapErrors L.view) id) =
      ({ r with document := r.document.rewrite t }.execute w).map
        (Prod.map (ExecutionResult.mapErrors L.view) id) := by
  have hanswers := executeIncrementally_rewrite hcallbacks h w
  unfold execute
  generalize r.executeIncrementally w = answer at hanswers ⊢
  generalize Request.executeIncrementally _ w = answer' at hanswers ⊢
  cases hanswers with
  | none => rfl
  | @some answer answer' hanswer =>
    obtain ⟨response, v⟩ := answer
    obtain ⟨response', _⟩ := answer'
    obtain ⟨hresponse, rfl⟩ := hanswer
    cases hresponse with
    | single hresult => exact congrArg (fun result => some (result, v)) hresult
    | incremental => rfl

end GraphQL
