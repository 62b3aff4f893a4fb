import GraphQL.Execution.Leaf
import GraphQL.Proofs.Execution.Report

/-! # Values without their timing

Two answers of the host amount to the same if they differ only in how long the items of streams take
to arrive and in which streams are copies of one another. Nothing that is read off a value depends on
these.
-/

namespace GraphQL

namespace HostValue

mutual

/-- The value with all items at once, and streams that cannot be told from each other. -/
def timeless : HostValue → HostValue
  | null => null
  | data v => data v
  | list items => list (timelessItems items)
  | stream _ events => stream 0 (timelessEvents events)
  | opaqueObject c => opaqueObject c
  | tagged t v => tagged t v.timeless

def timelessItems : List HostValue → List HostValue
  | [] => []
  | v :: rest => v.timeless :: timelessItems rest

def timelessEvents : List Event → List Event
  | [] => []
  | .item _ v :: rest => .item 0 v.timeless :: timelessEvents rest
  | .failure _ e :: rest => .failure 0 e :: timelessEvents rest

end

end HostValue

def Event.timeless : Event → Event
  | .item _ v => .item 0 v.timeless
  | .failure _ e => .failure 0 e

namespace HostValue

theorem timelessItems_eq (items : List HostValue) : timelessItems items = items.map timeless := by
  induction items with
  | nil => rfl
  | cons v items ih => simp [timelessItems, ih]

theorem timelessEvents_eq (events : List Event) :
    timelessEvents events = events.map Event.timeless := by
  induction events with
  | nil => rfl
  | cons e events ih => cases e <;> simp [timelessEvents, Event.timeless, ih]

theorem induct {P : HostValue → Prop} (null : P .null) (data : ∀ v, P (.data v))
    (list : ∀ items, (∀ v ∈ items, P v) → P (.list items)) (stream : ∀ n events, P (.stream n events))
    (opaqueObject : ∀ c, P (.opaqueObject c)) (tagged : ∀ t v, P v → P (.tagged t v))
    (v : HostValue) : P v :=
  HostValue.rec (motive_1 := P) (motive_2 := fun _ => True)
    (motive_3 := fun items => ∀ v ∈ items, P v) (motive_4 := fun _ => True)
    null data list (fun n events _ => stream n events) opaqueObject tagged
    (fun _ _ _ => trivial) (fun _ _ => trivial)
    (by simp) (fun v items hv hitems => by simpa using ⟨hv, hitems⟩) trivial
    (fun _ _ _ _ => trivial) v

@[simp] theorem isNull_timeless (v : HostValue) : v.timeless.isNull = v.isNull := by
  induction v using induct with
  | tagged t v ih => exact ih
  | _ => rfl

@[simp] theorem typeName?_timeless (v : HostValue) : v.timeless.typeName? = v.typeName? := by
  cases v <;> rfl

theorem data?_timeless (v : HostValue) : v.timeless.data? = v.data? := by
  unfold data?
  induction v using induct with
  | tagged t v ih => exact ih
  | _ => rfl

@[simp] theorem dataField?_timeless (v : HostValue) (key : String) :
    v.timeless.dataField? key = v.dataField? key := by
  unfold dataField?
  rw [data?_timeless]

@[simp] theorem toData_timeless (v : HostValue) : v.timeless.toData = v.toData := by
  induction v using induct with
  | tagged t v ih => exact ih
  | list items ih =>
    have hitems : itemsToData (timelessItems items) = itemsToData items := by
      induction items with
      | nil => rfl
      | cons v items ihItems =>
        obtain ⟨hv, hitems⟩ := List.forall_mem_cons.mp ih
        simp only [timelessItems, itemsToData, hv, ihItems hitems]
    simp only [timeless, toData, hitems]
  | _ => rfl

@[simp] theorem text_timeless (v : HostValue) : v.timeless.text = v.text := by
  induction v using induct with
  | tagged t v ih => exact ih
  | list items ih =>
    have hitems : itemTexts (timelessItems items) = itemTexts items := by
      induction items with
      | nil => rfl
      | cons v items ihItems =>
        obtain ⟨hv, hitems⟩ := List.forall_mem_cons.mp ih
        simp only [timelessItems, itemTexts, hv, ihItems hitems]
    simp only [timeless, text, hitems]
  | _ => rfl

def Items.timeless : Items → Items
  | .ready items => .ready (items.map HostValue.timeless)
  | .stream _ events => .stream 0 (events.map Event.timeless)

theorem items?_timeless (v : HostValue) : v.timeless.items? = v.items?.map Items.timeless := by
  induction v using induct with
  | tagged t v ih => exact ih
  | list items => simp [timeless, items?, Items.timeless, timelessItems_eq]
  | stream n events => simp [timeless, items?, Items.timeless, timelessEvents_eq]
  | data v =>
    cases v with
    | list items => simp [timeless, items?, Items.timeless, Function.comp_def]
    | _ => rfl
  | _ => rfl

end HostValue

variable {σ : Type}

namespace FieldPlan

variable (plan : FieldPlan σ) (path : Path)

theorem otherObject_timeless (type : String) (v : HostValue) :
    plan.problem path (.otherObject type v.timeless) = plan.problem path (.otherObject type v) := by
  unfold problem FieldProblem.error FieldProblem.message
  dsimp only
  rw [HostValue.text_timeless]

theorem completeScalar_timeless (t : ScalarType) (v : HostValue) :
    plan.completeScalar path t v.timeless = plan.completeScalar path t v := by
  unfold completeScalar problem FieldProblem.error FieldProblem.message
  dsimp only
  rw [HostValue.toData_timeless, HostValue.text_timeless]

theorem completeEnum_timeless (t : EnumType) (v : HostValue) :
    plan.completeEnum path t v.timeless = plan.completeEnum path t v := by
  unfold completeEnum problem FieldProblem.error FieldProblem.message
  dsimp only
  rw [HostValue.toData_timeless, HostValue.text_timeless]

end FieldPlan
/-! ## Reports -/

def ItemSource.timeless : ItemSource → ItemSource
  | ready items => ready (items.map HostValue.timeless)
  | events arriving => events (arriving.map Event.timeless)

@[simp] theorem ItemSource.isExhausted_timeless (s : ItemSource) :
    s.timeless.isExhausted = s.isExhausted := by
  cases s <;> simp [timeless, isExhausted]

def Job.timeless : Job σ → Job σ
  | deferred object source path fragment => deferred object source.timeless path fragment
  | streamed plan itemType path label index source =>
    streamed plan itemType path label index source.timeless

namespace Report

mutual

/-- The report without the tickets of its jobs, which tell the order in which they were queued. -/
def timeless : Report σ → Report σ
  | absent => absent
  | null => null
  | leaf v => leaf v
  | failed e => failed e
  | list items => list (timelessItems items)
  | object deferred fields =>
    object (deferred.map fun queued => (0, queued.2.timeless)) (timelessFields fields)
  | followed inner _ job => followed inner.timeless 0 job.timeless
  | nullable inner => nullable inner.timeless

def timelessItems : List (Report σ) → List (Report σ)
  | [] => []
  | r :: rest => r.timeless :: timelessItems rest

def timelessFields : List (String × Report σ) → List (String × Report σ)
  | [] => []
  | (key, r) :: rest => (key, r.timeless) :: timelessFields rest

end

theorem timelessItems_eq (items : List (Report σ)) : timelessItems items = items.map timeless := by
  induction items with
  | nil => rfl
  | cons r items ih => simp [timelessItems, ih]

theorem timelessFields_eq (fields : List (String × Report σ)) :
    timelessFields fields = fields.map fun field => (field.1, field.2.timeless) := by
  induction fields with
  | nil => rfl
  | cons field fields ih => simp [timelessFields, ih]

end Report

namespace Outcome

def timeless (o : Outcome σ) : Outcome σ :=
  { o with jobs := o.jobs.map fun queued => (0, queued.2.timeless) }

theorem timeless_orNull (o : Outcome σ) : o.orNull.timeless = o.timeless.orNull := by
  rcases o with ⟨_ | _, _, _⟩ <;> rfl

theorem timeless_gather (parts : List (Outcome σ)) (combine : List (Option Value) → Value) :
    (gather parts combine).timeless = gather (parts.map timeless) combine := by
  have hresults : (parts.map timeless).mapM result = parts.mapM result := by
    induction parts with
    | nil => rfl
    | cons o parts ih => simp [List.mapM_cons, ih, timeless]
  simp [gather, timeless, hresults, List.flatMap_map, List.map_flatMap]

theorem timeless_ofFields (fields : List (String × Outcome σ)) :
    (ofFields fields).timeless = ofFields (fields.map fun field => (field.1, field.2.timeless)) := by
  unfold ofFields
  rw [timeless_gather]
  simp only [List.map_map, Function.comp_def]

end Outcome

theorem Report.outcome_timeless (r : Report σ) : r.timeless.outcome = r.outcome.timeless := by
  induction r using Report.induct with
  | absent | null | leaf | failed => rfl
  | list items ih =>
    simp only [timeless, timelessItems_eq, outcome, outcomes_eq, Outcome.ofItems,
      Outcome.timeless_gather, List.map_map]
    congr 1
    exact List.map_congr_left fun r hr => ih r hr
  | object deferred fields ih =>
    have hfields : fields.map (fun field => (field.1, field.2.timeless.outcome)) =
        fields.map fun field => (field.1, field.2.outcome.timeless) :=
      List.map_congr_left fun field hfield => by rw [ih field.1 field.2 hfield]
    have htimeless := Outcome.timeless_ofFields (fields.map fun field => (field.1, field.2.outcome))
    rw [List.map_map] at htimeless
    simp only [timeless, timelessFields_eq, outcome, fieldOutcomes_eq, List.map_map,
      Function.comp_def, hfields] at htimeless ⊢
    rw [← htimeless]
    simp [Outcome.withJobs, Outcome.timeless]
  | followed inner ticket job ih => simp [timeless, outcome, ih, Outcome.withJob, Outcome.timeless]
  | nullable inner ih => simp [timeless, outcome, ih, Outcome.timeless_orNull]

end GraphQL
