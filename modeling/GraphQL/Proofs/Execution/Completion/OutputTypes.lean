import GraphQL.Execution.Subscription
import GraphQL.Proofs.Execution.Completion.Conformance
import GraphQL.Proofs.Execution.Timing.Reports
import GraphQL.Proofs.Schema.Validity

/-! # Only outputs are completed

Against a valid schema, values are only ever completed as types that give outputs. To tell that the
failure for other types is never come by, the executor may do anything else in its place: it makes
no difference to the work on an operation, nor to that on its jobs.
-/

namespace GraphQL

open Completing

variable {σ : Type}

/-! ## Anything in place of the failure -/

/-- What is done with a value of a type that gives no outputs. -/
def failingOutput : Completer σ := fun plan t path _ =>
  failed (plan.problem path (.notOutputType t.innermost))

section

variable (other : Completer σ) (ctx : ExecutionContext σ)

/-- Completes a value as `completeValue` does, but by `other` where it fails because the type gives
no outputs. -/
def completeValueOr (complete completeField : Completer σ) (isStreamable : Bool)
    (plan : FieldPlan σ) (t : TypeRef) (path : Path) (value : HostValue) : Completing σ :=
  if value.isNull then
    if t.isNonNull then failed (plan.problem path (.null plan.coordinate)) else .done .null
  else match t.item? with
    | some item => completeList ctx complete isStreamable plan item path value
    | none =>
      match ctx.schema.type? t.innermost with
      | some (.scalar t) => ofExcept (plan.completeScalar path t value)
      | some (.enum t) => ofExcept (plan.completeEnum path t value)
      | some (.object object) => completeObject ctx completeField plan object path value
      | some (.interface i) => completeAbstract ctx completeField plan (.interface i) path value
      | some (.union u) => completeAbstract ctx completeField plan (.union u) path value
      | _ => other plan t path value

def completeWithinOr : Nat → Bool → Completer σ
  | 0, _, _, _, _, _ => .unending
  | depth + 1, isStreamable, plan, t, path, value =>
    completeValueOr other ctx (completeWithinOr depth false) (completeWithinOr depth true)
      isStreamable plan t path value

def executeRootOr (object : ObjectType σ) : Completing σ :=
  match ctx.rootFields object with
  | none => .unending
  | some collected =>
    executeObject ctx (completeWithinOr other ctx ctx.bounds.response true)
      (ctx.operation.kind == .mutation) object ctx.root .root collected

def executeStreamedOr (plan : FieldPlan σ) (itemType : TypeRef) (path : Path)
    (label : Option String) (index : Nat) (item : HostValue) (remaining : ItemSource) :
    Completing σ :=
  let itemPath := path.index index
  let completed := completeItem (completeWithinOr other ctx ctx.bounds.response false) plan itemType
    itemPath item
  Process.perform (World.trace (.completingStreamed itemPath label)) <|
    if remaining.isExhausted then completed
    else completed.thenQueue (.streamed plan itemType path label (index + 1) remaining)

def Job.executeOr : Job σ → Completing σ
  | .deferred object source path fragment =>
    Process.perform (World.trace (.executingDeferred path fragment.label)) <|
      executeObject ctx (completeWithinOr other ctx ctx.bounds.response true) false object source
        path fragment.fields
  | .streamed plan itemType path label index source =>
    match source with
    | .ready [] => .done .absent
    | .ready (item :: rest) =>
      executeStreamedOr other ctx plan itemType path label index item (.ready rest)
    | .events events =>
      Process.nextEvent plan (path.index index) events fun
        | .error e => failed e
        | .ok none => .done .absent
        | .ok (some (item, rest)) =>
          executeStreamedOr other ctx plan itemType path label index item (.events rest)

end

/-! ### The failure itself -/

section

variable {ctx : ExecutionContext σ}

theorem completeValueOr_failing (complete completeField : Completer σ) :
    completeValueOr failingOutput ctx complete completeField =
      completeValue ctx complete completeField := rfl

theorem completeWithinOr_failing (depth : Nat) (isStreamable : Bool) :
    completeWithinOr failingOutput ctx depth isStreamable =
      completeWithin ctx depth isStreamable := by
  induction depth generalizing isStreamable with
  | zero => rfl
  | succ depth ih =>
    funext plan t path value
    rw [completeWithinOr, completeWithin, completeValueOr_failing, ih, ih]

theorem executeRootOr_failing (object : ObjectType σ) :
    executeRootOr failingOutput ctx object = executeRoot ctx object := by
  unfold executeRootOr executeRoot
  rw [completeWithinOr_failing]
  rfl

theorem executeStreamedOr_failing : executeStreamedOr failingOutput ctx = executeStreamed ctx := by
  unfold executeStreamedOr executeStreamed
  rw [completeWithinOr_failing]
  rfl

theorem Job.executeOr_failing (job : Job σ) : job.executeOr failingOutput ctx = job.execute ctx := by
  unfold Job.executeOr Job.execute
  rw [completeWithinOr_failing, executeStreamedOr_failing]
  rfl

end

/-! ## It makes no difference -/

/-- Whether two ways to complete values agree on the types of a schema that give outputs. -/
def Completer.AgreeOn (schema : Schema σ) (complete complete' : Completer σ) : Prop :=
  ∀ plan t, schema.givesOutput t → complete plan t = complete' plan t

section

variable {ctx : ExecutionContext σ} {complete complete' completeField completeField' : Completer σ}
  {object : ObjectType σ} {plan : FieldPlan σ} {t : TypeRef} {path : Path} {value : HostValue}

/-! ### Objects -/

section

variable (hvalid : ctx.schema.problems = [])
  (hfield : completeField.AgreeOn ctx.schema completeField')

include hvalid hfield

theorem executeField_congr (hobject : ctx.schema.Owns object) (source : HostValue)
    (uses : List FieldUse) (path : Path) :
    executeField ctx completeField object source uses path =
      executeField ctx completeField' object source uses path := by
  cases uses with
  | nil => rfl
  | cons use others =>
    simp only [executeField]
    split
    · rfl
    · cases hname : object.field? use.node.name.item with
      | none => rfl
      | some field =>
        have houtput := Schema.givesOutput_of_field? hvalid hobject hname
        simp only [hfield _ field.type houtput]

theorem executeObject_congr (hobject : ctx.schema.Owns object) (isSerial : Bool)
    (source : HostValue) (path : Path) (collected : Collected) :
    executeObject ctx completeField isSerial object source path collected =
      executeObject ctx completeField' isSerial object source path collected := by
  have hwork : fieldWork ctx completeField object source path collected.groups =
      fieldWork ctx completeField' object source path collected.groups := by
    unfold fieldWork
    simp only [executeField_congr hvalid hfield hobject source]
  simp only [executeObject, hwork]

theorem completeObject_congr (hobject : ctx.schema.Owns object) :
    completeObject ctx completeField plan object path value =
      completeObject ctx completeField' plan object path value := by
  simp only [completeObject, executeObject_congr hvalid hfield hobject]

theorem completeAbstract_congr (d : TypeDefinition σ) :
    completeAbstract ctx completeField plan d path value =
      completeAbstract ctx completeField' plan d path value := by
  unfold completeAbstract
  congr 1
  funext found
  cases found with
  | error e => rfl
  | ok name =>
    dsimp only
    split
    · rfl
    · next object hobject =>
      exact completeObject_congr hvalid hfield (Schema.owns_of_runtimeObject hobject)

end

/-! ### Lists and values -/

theorem completeList_congr {isStreamable : Bool} (h : complete plan t = complete' plan t) :
    completeList ctx complete isStreamable plan t path value =
      completeList ctx complete' isStreamable plan t path value := by
  simp only [completeList, completeItemsOf, completeInitial, completeItems, completeItem, h]

theorem completeValueOr_congr {other other' : Completer σ} {isStreamable : Bool}
    (hvalid : ctx.schema.problems = [])
    (hcomplete : complete.AgreeOn ctx.schema complete')
    (hfield : completeField.AgreeOn ctx.schema completeField') (ht : ctx.schema.givesOutput t) :
    completeValueOr other ctx complete completeField isStreamable plan t path value =
      completeValueOr other' ctx complete' completeField' isStreamable plan t path value := by
  unfold completeValueOr
  split
  · rfl
  · cases hitem : t.item? with
    | some item =>
      have houtput : ctx.schema.givesOutput item := by
        cases t <;> cases hitem <;> exact ht
      exact completeList_congr (hcomplete plan item houtput)
    | none =>
      unfold Schema.givesOutput at ht
      cases htype : ctx.schema.type? t.innermost with
      | none => simp [htype] at ht
      | some d =>
        rw [htype] at ht
        cases d with
        | scalar s => rfl
        | enum s => rfl
        | object o => exact completeObject_congr hvalid hfield (Schema.mem_of_type? htype)
        | interface i => exact completeAbstract_congr hvalid hfield _
        | union u => exact completeAbstract_congr hvalid hfield _
        | inputObject o => cases ht

theorem completeWithinOr_agree (hvalid : ctx.schema.problems = []) (other other' : Completer σ)
    (depth : Nat) (isStreamable : Bool) :
    (completeWithinOr other ctx depth isStreamable).AgreeOn ctx.schema
      (completeWithinOr other' ctx depth isStreamable) := by
  induction depth generalizing isStreamable with
  | zero => exact fun _ _ _ => rfl
  | succ depth ih =>
    intro plan t ht
    funext path value
    exact completeValueOr_congr hvalid (ih false) (ih true) ht

theorem executeRootOr_eq (hvalid : ctx.schema.problems = []) (hobject : ctx.schema.Owns object)
    (other : Completer σ) : executeRootOr other ctx object = executeRoot ctx object := by
  rw [← executeRootOr_failing]
  unfold executeRootOr
  cases ctx.rootFields object with
  | none => rfl
  | some collected =>
    exact executeObject_congr hvalid (completeWithinOr_agree hvalid other _ _ _) hobject ..

end

/-! ## Declared places -/

/-- Whether a place is one of an object of a schema, or of a type that gives outputs. -/
def Place.OutputOf (schema : Schema σ) : Place σ → Prop
  | .fields object _ => schema.Owns object
  | .value _ t => schema.givesOutput t

section

variable {ctx : ExecutionContext σ} {root : ObjectType σ}
  (hvalid : ctx.schema.problems = []) (hroot : ctx.schema.Owns root)

include hvalid hroot

theorem Declared.output {path : Path} {place : Place σ} (h : Declared ctx root path place) :
    place.OutputOf ctx.schema := by
  induction h with
  | root => exact hroot
  | deferred _ _ ih => exact ih
  | field _ _ hfield ih => exact Schema.givesOutput_of_field? hvalid ih hfield
  | @item _ _ t _ _ _ ht ih => cases t <;> cases ht <;> exact ih
  | object _ _ hobject =>
    obtain ⟨_, -, -, hobject⟩ := hobject
    exact Schema.mem_of_type? hobject

theorem Job.executeOr_eq {job : Job σ} (hjob : job.Declared ctx root) (other : Completer σ) :
    job.executeOr other ctx = job.execute ctx := by
  rw [← Job.executeOr_failing]
  have hagree (isStreamable : Bool) :=
    completeWithinOr_agree hvalid other failingOutput ctx.bounds.response isStreamable
  cases job with
  | deferred object source path fragment =>
    obtain ⟨_, hplace, -⟩ := hjob
    simp only [Job.executeOr,
      executeObject_congr hvalid (hagree true) (hplace.output hvalid hroot)]
  | streamed plan itemType path label index source =>
    obtain ⟨t, hplace, ht⟩ := hjob
    have hitem : ctx.schema.givesOutput itemType := (hplace.item 0 ht).output hvalid hroot
    have hstreamed : executeStreamedOr other ctx plan itemType path label =
        executeStreamedOr failingOutput ctx plan itemType path label := by
      funext index item remaining
      simp only [executeStreamedOr, completeItem, hagree false plan itemType hitem]
    simp only [Job.executeOr, hstreamed]

end

/-! ## Requests -/

/-- Whether no request against a schema completes a value of a type that gives no outputs: with
anything in place of the failure for that, the work on its operation, on its jobs however far they
get, and on the events of a subscription is the same. -/
structure Schema.CompletesOutputs (schema : Schema σ) : Prop where
  ofOperations : ∀ (r : Request σ) ctx object, r.schema = schema →
    r.prepare = .ok (ctx, object) → ∀ other, executeRootOr other ctx object = executeRoot ctx object
  ofJobs : ∀ (r : Request σ) w w' initial ctx jobs, r.schema = schema →
    r.executeIncrementally w = some (.incremental initial ctx jobs, w') →
    ∀ history d, Delivers ctx jobs history d → ∀ task ∈ d.running,
    ∀ other, task.job.executeOr other ctx = task.job.execute ctx
  ofEvents : ∀ (r : Request σ) w w' s, r.schema = schema → r.subscribe w = some (.ok s, w') →
    ∀ root other, executeRootOr other { s.ctx with root } s.object =
      executeRoot { s.ctx with root } s.object

variable {schema : Schema σ} {r : Request σ} {ctx : ExecutionContext σ} {object : ObjectType σ}

theorem schema_of_prepare (h : r.prepare = .ok (ctx, object)) : ctx.schema = r.schema := by
  obtain ⟨_, _, -, -, rfl⟩ := exists_of_prepare h
  rfl

theorem prepare_of_subscribe {w w' : World σ} {s : Subscription σ}
    (h : r.subscribe w = some (.ok s, w')) : r.prepare = .ok (s.ctx, s.object) := by
  unfold Request.subscribe at h
  split at h
  · cases h
  · next ctx object hprepare =>
    split at h
    · cases h
    · obtain ⟨collected, -, h⟩ := Option.bind_eq_some_iff.mp h
      split at h
      · cases h
      · obtain ⟨⟨opened, v⟩, -, h⟩ := Option.bind_eq_some_iff.mp h
        cases opened with
        | error e => cases h
        | ok events =>
          cases h
          exact hprepare

theorem report_of_executeIncrementally {w w' : World σ} {initial : InitialResult}
    {jobs : List (Job σ)}
    (h : r.executeIncrementally w = some (.incremental initial ctx jobs, w')) :
    ∃ root report, r.prepare = .ok (ctx, root) ∧
      Process.Yields (fun _ => True) (executeRoot ctx root) report ∧
      jobs = report.outcome.queued := by
  rcases executeIncrementally_cases h with
    ⟨e, -, heq⟩ | ⟨ctx', root, report, v, hprepare, hrun, hr, -⟩
  · cases heq
  · cases hr with
    | incremental hobject hjobs =>
      exact ⟨root, report, hprepare, Process.run_possible hrun, rfl⟩

theorem declared_of_executeIncrementally {w w' : World σ} {initial : InitialResult}
    {jobs : List (Job σ)}
    (h : r.executeIncrementally w = some (.incremental initial ctx jobs, w')) :
    ∃ root, r.prepare = .ok (ctx, root) ∧ ∀ job ∈ jobs, job.Declared ctx root := by
  obtain ⟨root, report, hprepare, hyields, rfl⟩ := report_of_executeIncrementally h
  exact ⟨root, hprepare, declared_of_queued (jobsDeclared_executeRoot hyields)⟩

theorem completesOutputs_of_valid (hvalid : schema.problems = []) : schema.CompletesOutputs := by
  have hcontext {r : Request σ} {ctx : ExecutionContext σ} {object : ObjectType σ}
      (hr : r.schema = schema) (h : r.prepare = .ok (ctx, object)) :
      ctx.schema.problems = [] ∧ ctx.schema.Owns object := by
    rw [(schema_of_prepare h).trans hr]
    have howned := (prepare_spec h).2.2
    rw [(schema_of_prepare h).trans hr] at howned
    exact ⟨hvalid, howned⟩
  refine ⟨?_, ?_, ?_⟩
  · intro r ctx object hr hprepare other
    obtain ⟨hvalid, hobject⟩ := hcontext hr hprepare
    exact executeRootOr_eq hvalid hobject other
  · intro r w w' initial ctx jobs hr h history d hd task htask other
    obtain ⟨root, hprepare, hjobs⟩ := declared_of_executeIncrementally h
    obtain ⟨hvalid, hroot⟩ := hcontext hr hprepare
    have hjob : task.job.Declared ctx root :=
      (hd.orderly (Delivery.tame_declared ctx root) hjobs).allowed task htask
    exact Job.executeOr_eq hvalid hroot hjob other
  · intro r w w' s hr h root other
    obtain ⟨hvalid, hobject⟩ := hcontext hr (prepare_of_subscribe h)
    exact @executeRootOr_eq σ { s.ctx with root } s.object hvalid hobject other

/-- Against a valid schema, neither is a value completed as a type that gives no outputs, nor is
anything coerced to a type that takes no inputs. -/
theorem typeErrors_ruledOut (h : schema.problems = []) :
    schema.CompletesOutputs ∧ schema.BlamesNoType :=
  ⟨completesOutputs_of_valid h, blamesNoType_of_valid h⟩

theorem sampleInputs_typeErrors_ruledOut :
    (sampleInputs : Schema Unit).problems = [] ∧ (sampleInputs : Schema Unit).CompletesOutputs ∧
      (sampleInputs : Schema Unit).BlamesNoType := by
  have hvalid : (sampleInputs : Schema Unit).problems = [] := by decide +kernel
  exact ⟨hvalid, typeErrors_ruledOut hvalid⟩

end GraphQL
