import GraphQL.Proofs.Execution.Completion.Basic
import GraphQL.Proofs.Execution.Delivery.Jobs

/-! # Responses conform to the schema

Every value of a response is one that the declared type of its place allows, in the first payload
and in every later part.
-/

namespace GraphQL

open Process

variable {σ : Type}

/-! ## Leaves -/

/-- The values that the built-in scalars write. -/
inductive ScalarType.Writes : ScalarType → Value → Prop
  | int (n : Int32) : Writes .int (.int n)
  | float (x : Float) (h : isFiniteFloat x) : Writes .float (.float x)
  | string (s : String) : Writes .string (.string s)
  | boolean (b : Bool) : Writes .boolean (.boolean b)
  | id (s : String) : Writes .id (.string s)

theorem isFiniteFloat_ofBool (b : Bool) : isFiniteFloat (if b then 1 else 0) := by
  cases b <;> decide +kernel

theorem writes_ofFloat {x : Float} {shown : String} {v : Value}
    (h : IntScalar.ofFloat x shown = .ok v) : ScalarType.int.Writes v := by
  unfold IntScalar.ofFloat refusal at h
  split at h
  · simp at h
  · split at h
    · obtain rfl := Except.ok.inj h
      exact .int _
    · simp at h

theorem writes_intOutput {raw v : Value} (h : IntScalar.output raw = .ok v) :
    ScalarType.int.Writes v := by
  unfold IntScalar.output at h
  split at h
  · obtain rfl := Except.ok.inj h
    exact .int _
  · split at h
    · exact writes_ofFloat h
    · simp [refusal] at h
  · unfold IntScalar.input at h
    split at h
    · obtain rfl := Except.ok.inj h
      exact .int _
    · exact writes_ofFloat h
    · simp [refusal] at h

theorem writes_floatInput {raw v : Value} (h : FloatScalar.input raw = .ok v) :
    ScalarType.float.Writes v := by
  unfold FloatScalar.input refusal at h
  split at h
  · split at h
    · next hfinite =>
      obtain rfl := Except.ok.inj h
      exact .float _ hfinite
    · simp at h
  · simp at h

theorem writes_floatOutput {raw v : Value} (h : FloatScalar.output raw = .ok v) :
    ScalarType.float.Writes v := by
  unfold FloatScalar.output at h
  split at h
  · next b =>
    obtain rfl := Except.ok.inj h
    exact .float _ (isFiniteFloat_ofBool b)
  · split at h
    · next x _ =>
      cases hinput : FloatScalar.input (.float x) with
      | error e => simp [hinput, Except.mapError] at h
      | ok w =>
        obtain rfl : w = v := by simpa [hinput, Except.mapError] using h
        exact writes_floatInput hinput
    · simp [refusal] at h
  · exact writes_floatInput h

theorem writes_stringOutput {raw v : Value} (h : StringScalar.output raw = .ok v) :
    ScalarType.string.Writes v := by
  unfold StringScalar.output refusal at h
  split at h <;> try split at h
  all_goals first
    | simp at h; done
    | obtain rfl := Except.ok.inj h; exact .string _

theorem writes_booleanOutput {raw v : Value} (h : BooleanScalar.output raw = .ok v) :
    ScalarType.boolean.Writes v := by
  unfold BooleanScalar.output refusal at h
  split at h <;> try split at h
  all_goals first
    | simp at h; done
    | obtain rfl := Except.ok.inj h; exact .boolean _

theorem writes_idInput {raw v : Value} (h : IDScalar.input raw = .ok v) :
    ScalarType.id.Writes v := by
  unfold IDScalar.input refusal at h
  split at h <;> try split at h
  all_goals first
    | simp at h; done
    | obtain rfl := Except.ok.inj h; exact .id _

theorem writes_of_output {t : ScalarType} (ht : t ∈ ScalarType.builtins) {raw v : Value}
    (h : t.output raw = .ok v) : t.Writes v := by
  simp only [ScalarType.builtins, List.mem_cons, List.not_mem_nil, or_false] at ht
  rcases ht with rfl | rfl | rfl | rfl | rfl
  · exact writes_intOutput h
  · exact writes_floatOutput h
  · exact writes_stringOutput h
  · exact writes_booleanOutput h
  · exact writes_idInput h

theorem build_spec {d : SchemaDeclaration σ} {schema : Schema σ} (h : Schema.build d = .ok schema) :
    schema.types = d.types ++ undeclaredScalars d.types ∧
      schema.directives = DirectiveDefinition.builtins ++ d.directives := by
  unfold Schema.build at h
  split at h
  · cases h
  · dsimp only at h
    split at h
    · cases h
    · rw [← Except.ok.inj h]
      exact ⟨rfl, rfl⟩

theorem type?_of_build {d : SchemaDeclaration σ} {schema : Schema σ} (h : Schema.build d = .ok schema)
    {t : ScalarType} (ht : t ∈ ScalarType.builtins) (hname : t.name ∉ d.types.map (·.name)) :
    schema.type? t.name = some (.scalar t) := by
  have hmem : TypeDefinition.scalar t ∈ schema.types := by
    rw [(build_spec h).1, List.mem_append]
    exact .inr (List.mem_map_of_mem (List.mem_filter.mpr ⟨ht, by simpa using hname⟩))
  exact find?_of_nodup schema.types_nodup hmem

theorem directive?_of_build {d : SchemaDeclaration σ} {schema : Schema σ}
    (h : Schema.build d = .ok schema) {definition : DirectiveDefinition}
    (hdefinition : definition ∈ DirectiveDefinition.builtins) :
    schema.directive? definition.name = some definition := by
  have hmem : definition ∈ schema.directives := by
    rw [(build_spec h).2]
    exact List.mem_append_left _ hdefinition
  exact find?_of_nodup schema.directives_nodup hmem

/-! ## Conforming values -/

mutual

/-- Whether a value conforms to a type, where the given uses select what is in an object. -/
inductive Conforms (ctx : ExecutionContext σ) : List FieldUse → TypeRef → Value → Prop
  | null {uses t} (ht : t.isNonNull = false) : Conforms ctx uses t .null
  | list {uses t item items} (ht : t.item? = some item)
    (hitems : ∀ v ∈ items, Conforms ctx uses item v) : Conforms ctx uses t (.list items)
  | scalar {uses t s v} (ht : t.item? = none)
    (hs : ctx.schema.type? t.innermost = some (.scalar s)) (hnull : v.isNull = false)
    (hv : s ∈ ScalarType.builtins → s.Writes v) : Conforms ctx uses t v
  | enum {uses t e value} (ht : t.item? = none)
    (he : ctx.schema.type? t.innermost = some (.enum e)) (hvalue : value ∈ e.values.value) :
    Conforms ctx uses t (.string value.name)
  | object {uses t object collected fields} (ht : t.item? = none)
    (hobject : ctx.schema.Allows t.innermost object)
    (hcollected : ctx.subfields object uses = some collected)
    (hfields : FieldsConform ctx object collected.groups fields) :
    Conforms ctx uses t (.object fields)

/-- Whether the fields of an object are those that were collected and that its type defines, in the
same order. -/
inductive FieldsConform (ctx : ExecutionContext σ) :
    ObjectType σ → FieldGroups → Object → Prop
  | nil {object} : FieldsConform ctx object [] []
  | skip {object key uses groups fields} (h : FieldConforms ctx object uses none)
    (hrest : FieldsConform ctx object groups fields) :
    FieldsConform ctx object ((key, uses) :: groups) fields
  | cons {object key uses v groups fields} (h : FieldConforms ctx object uses (some v))
    (hrest : FieldsConform ctx object groups fields) :
    FieldsConform ctx object ((key, uses) :: groups) ((key, v) :: fields)

/-- Whether a field with the given uses may have a value, or none. -/
inductive FieldConforms (ctx : ExecutionContext σ) :
    ObjectType σ → List FieldUse → Option Value → Prop
  | unused {object} : FieldConforms ctx object [] none
  | typeName {object use others} (hname : use.node.name.item = "__typename") :
    FieldConforms ctx object (use :: others) (some (.string object.name))
  | undefined {object use others} (hname : use.node.name.item ≠ "__typename")
    (hfield : object.field? use.node.name.item = none) :
    FieldConforms ctx object (use :: others) none
  | defined {object use others field v} (hname : use.node.name.item ≠ "__typename")
    (hfield : object.field? use.node.name.item = some field)
    (hv : Conforms ctx (use :: others) field.type v) :
    FieldConforms ctx object (use :: others) (some v)

end

/-- What may stand at a place of the response. -/
inductive Place (σ : Type) where
  /-- An object with these fields, or a part of it that is delivered on its own. -/
  | fields (object : ObjectType σ) (collected : Collected)
  /-- The value of a field with the given uses, or an item inside of it. -/
  | value (uses : List FieldUse) (type : TypeRef)

/-- Whether a place is what the schema and the operation declare at a path. -/
inductive Declared (ctx : ExecutionContext σ) (root : ObjectType σ) : Path → Place σ → Prop
  | root {collected} (h : ctx.rootFields root = some collected) :
    Declared ctx root .root (.fields root collected)
  | deferred {path object collected fragment} (h : Declared ctx root path (.fields object collected))
    (hfragment : fragment ∈ collected.deferred) :
    Declared ctx root path (.fields object fragment.fields)
  | field {path object collected i key use others field}
    (h : Declared ctx root path (.fields object collected))
    (hgroup : collected.groups[i]? = some (key, use :: others))
    (hfield : object.field? use.node.name.item = some field) :
    Declared ctx root (path.key key i) (.value (use :: others) field.type)
  | item {path uses t item} (h : Declared ctx root path (.value uses t)) (i : Nat)
    (ht : t.item? = some item) : Declared ctx root (path.index i) (.value uses item)
  | object {path uses t object collected} (h : Declared ctx root path (.value uses t))
    (ht : t.item? = none) (hobject : ctx.schema.Allows t.innermost object)
    (hcollected : ctx.subfields object uses = some collected) :
    Declared ctx root path (.fields object collected)

/-- Whether a later part is what the schema and the operation declare at its path. -/
def Part.Conforms (ctx : ExecutionContext σ) (root : ObjectType σ) (part : Part) : Prop :=
  match part.content with
  | .fields data => ∃ object collected fragment,
    Declared ctx root part.path (.fields object collected) ∧ fragment ∈ collected.deferred ∧
      part.label = fragment.label ∧
      ∀ fields, data = some fields → FieldsConform ctx object fragment.fields.groups fields
  | .items items => ∃ uses t, Declared ctx root part.path (.value uses t) ∧
    ∀ vs, items = some vs → ∀ v ∈ vs, GraphQL.Conforms ctx uses t v

/-! ## Reports -/

variable {ctx : ExecutionContext σ} {root : ObjectType σ} {I : World σ → Prop}

/-- Whether what a job will deliver has a declared place. -/
def Job.Declared (ctx : ExecutionContext σ) (root : ObjectType σ) : Job σ → Prop
  | .deferred object _ path fragment => ∃ collected,
    GraphQL.Declared ctx root path (.fields object collected) ∧ fragment ∈ collected.deferred
  | .streamed plan itemType path _ _ _ => ∃ t,
    GraphQL.Declared ctx root path (.value plan.uses t) ∧ t.item? = some itemType

/-- Whether all jobs of a report have declared places. -/
def Report.JobsDeclared (ctx : ExecutionContext σ) (root : ObjectType σ) (r : Report σ) : Prop :=
  ∀ job ∈ r.jobs, job.2.Declared ctx root

/-- Whether a report is about a value that conforms to a type. -/
structure Report.Fits (ctx : ExecutionContext σ) (root : ObjectType σ) (uses : List FieldUse)
    (t : TypeRef) (r : Report σ) : Prop where
  present : r.isError = false → r.value?.isSome
  conforms : ∀ v, r.value? = some v → Conforms ctx uses t v
  jobs : r.JobsDeclared ctx root

namespace Report

variable {uses : List FieldUse} {t : TypeRef} {r : Report σ}

theorem Fits.absorbing (h : r.Fits ctx root uses t) : (r.absorbing t).Fits ctx root uses t := by
  unfold Report.absorbing
  split
  · exact h
  · next ht =>
    refine ⟨fun _ => ?_, fun v hv => ?_, ?_⟩
    · rw [value?_nullable]
      split
      · rfl
      · next herror => exact h.present (by simpa using herror)
    · rw [value?_nullable] at hv
      split at hv
      · obtain rfl := Option.some.inj hv
        exact .null (by simpa using ht)
      · exact h.conforms v hv
    · unfold JobsDeclared
      rw [jobs_nullable]
      split
      · simp
      · exact h.jobs

theorem fits_failed (e : ExecutionError) : (failed e : Report σ).Fits ctx root uses t :=
  ⟨by simp [isError_eq], by simp, by simp [JobsDeclared]⟩

theorem fits_leaf {v : Value} (h : Conforms ctx uses t v) : (leaf v : Report σ).Fits ctx root uses t :=
  ⟨by simp, by simpa using h, by simp [JobsDeclared]⟩

theorem Fits.followed {job : Job σ} (h : r.Fits ctx root uses t) (hjob : job.Declared ctx root)
    (ticket : Nat) : (r.followed ticket job).Fits ctx root uses t where
  present herror := h.present (by simpa [isError_eq] using herror)
  conforms := h.conforms
  jobs := by
    unfold JobsDeclared
    rw [jobs_followed, List.forall_mem_append]
    exact ⟨h.jobs, by simpa using hjob⟩

end Report

/-- Whether work completes values as their types demand. -/
def Completer.Fits (I : World σ → Prop) (ctx : ExecutionContext σ) (root : ObjectType σ)
    (complete : Completer σ) : Prop :=
  ∀ plan t path value r, Declared ctx root path (.value plan.uses t) →
    Yields I (complete plan t path value) r → r.Fits ctx root plan.uses t

section

variable {complete completeField : Completer σ} {object : ObjectType σ} {source : HostValue}
  {path : Path}

/-! ## Objects -/

/-- Whether a report is about a field with the given uses. -/
structure Report.FitsField (ctx : ExecutionContext σ) (root object : ObjectType σ)
    (uses : List FieldUse) (r : Report σ) : Prop where
  conforms : r.isError = false → FieldConforms ctx object uses r.value?
  jobs : r.JobsDeclared ctx root

theorem Report.Fits.field {use : FieldUse} {others : List FieldUse} {field : FieldDefinition σ}
    {r : Report σ} (hname : use.node.name.item ≠ "__typename")
    (hfield : object.field? use.node.name.item = some field)
    (h : r.Fits ctx root (use :: others) field.type) :
    (r.absorbing field.type).FitsField ctx root object (use :: others) where
  conforms herror := by
    obtain ⟨v, hv⟩ := Option.isSome_iff_exists.mp (h.absorbing.present herror)
    rw [hv]
    exact .defined hname hfield (h.absorbing.conforms v hv)
  jobs := h.absorbing.jobs

theorem FieldReport.fits (hcomplete : completeField.Fits I ctx root) {uses : List FieldUse}
    {r : Report σ} (hplace : ∀ use others field, uses = use :: others →
      object.field? use.node.name.item = some field →
      Declared ctx root path (.value uses field.type))
    (h : FieldReport I ctx completeField object source path uses r) :
    r.FitsField ctx root object uses := by
  cases h with
  | unused => exact ⟨fun _ => .unused, by simp [Report.JobsDeclared]⟩
  | typeName hname => exact ⟨fun _ => .typeName hname, by simp [Report.JobsDeclared]⟩
  | unknown hname hfield => exact ⟨fun _ => .undefined hname hfield, by simp [Report.JobsDeclared]⟩
  | unresolved hname hfield => exact (Report.fits_failed _).field hname hfield
  | resolved hname hfield _ hr =>
    exact (hcomplete _ _ _ _ _ (hplace _ _ _ rfl hfield) hr).field hname hfield

theorem fieldsConform_of_reports {groups : FieldGroups} {fields : List (String × Report σ)}
    (h : List.Forall₂ (fun group field =>
      field.1 = group.1 ∧ FieldConforms ctx object group.2 field.2.value?) groups fields) :
    FieldsConform ctx object groups
      (fields.filterMap fun field => field.2.value?.map (field.1, ·)) := by
  induction h with
  | nil => exact .nil
  | @cons group field groups fields hfield hrest ih =>
    obtain ⟨hkey, hconforms⟩ := hfield
    rw [List.filterMap_cons]
    cases hv : field.2.value? with
    | none =>
      rw [hv] at hconforms
      exact .skip hconforms ih
    | some v =>
      rw [hv] at hconforms
      simp only [Option.map_some, hkey]
      exact .cons hconforms ih

namespace ObjectReport

variable {isSerial : Bool} {collected : Collected} {deferred : List (Nat × Job σ)}
  {fields : List (String × Report σ)}

theorem fits_field (hcomplete : completeField.Fits I ctx root)
    (hplace : Declared ctx root path (.fields object collected))
    (h : ObjectReport I ctx completeField isSerial object source path collected deferred fields)
    {i : Nat} {key : String} {r : Report σ} (hr : fields[i]? = some (key, r)) :
    ∃ uses, collected.groups[i]? = some (key, uses) ∧ r.FitsField ctx root object uses := by
  obtain ⟨uses, hgroup, hreport⟩ := h.field hr
  refine ⟨uses, hgroup, hreport.fits hcomplete ?_⟩
  rintro use others field rfl hfield
  exact .field hplace hgroup hfield

theorem jobsDeclared (hcomplete : completeField.Fits I ctx root)
    (hplace : Declared ctx root path (.fields object collected))
    (h : ObjectReport I ctx completeField isSerial object source path collected deferred fields) :
    (Report.object deferred fields).JobsDeclared ctx root := by
  refine h.forall_jobs (fun fragment hfragment => ⟨collected, hplace, hfragment⟩) ?_
  intro i key r hr
  obtain ⟨uses, -, hfits⟩ := h.fits_field hcomplete hplace hr
  exact hfits.jobs

theorem fieldsConform (hcomplete : completeField.Fits I ctx root)
    (hplace : Declared ctx root path (.fields object collected))
    (h : ObjectReport I ctx completeField isSerial object source path collected deferred fields)
    {v : Value} (hv : (Report.object deferred fields).value? = some v) :
    ∃ object', v = .object object' ∧ FieldsConform ctx object collected.groups object' := by
  rw [Report.value?_object] at hv
  split at hv
  · simp at hv
  · next herror =>
    obtain rfl := Option.some.inj hv
    have hok : ∀ field ∈ fields, field.2.isError = false := by simpa using herror
    have hkeys := h.keys hok
    refine ⟨_, rfl, fieldsConform_of_reports (List.forall₂_iff_get.mpr ⟨?_, ?_⟩)⟩
    · simpa using (congrArg List.length hkeys).symm
    · intro i hgroup hfield
      obtain ⟨uses, hget, hfits⟩ := h.fits_field hcomplete hplace
        (i := i) (List.getElem?_eq_getElem hfield)
      obtain ⟨_, hget⟩ := List.getElem?_eq_some_iff.mp hget
      simp only [List.get_eq_getElem, hget, true_and]
      exact hfits.conforms (hok _ (List.getElem_mem hfield))

end ObjectReport

/-! ## Lists and values -/

variable {plan : FieldPlan σ} {itemType t : TypeRef} {value : HostValue} {r : Report σ}

theorem fits_completeItem (hcomplete : complete.Fits I ctx root)
    (hplace : Declared ctx root path (.value plan.uses itemType)) {item : HostValue}
    (h : Yields I (completeItem complete plan itemType path item) r) :
    r.Fits ctx root plan.uses itemType := by
  obtain ⟨s, hs, rfl⟩ := yields_completeItem h
  exact (hcomplete _ _ _ _ _ hplace hs).absorbing

theorem ItemReports.fits (hcomplete : complete.Fits I ctx root)
    (hplace : Declared ctx root path (.value plan.uses t)) (ht : t.item? = some itemType)
    {items : List HostValue} {reports : List (Report σ)}
    (h : ItemReports I complete plan itemType path items reports) :
    (Report.list reports).Fits ctx root plan.uses t := by
  have hitem : ∀ r ∈ reports, r.Fits ctx root plan.uses itemType := by
    intro r hr
    obtain ⟨i, hi⟩ := List.mem_iff_getElem?.mp hr
    have hlt : i < items.length := h.length ▸ (List.getElem?_eq_some_iff.mp hi).1
    exact fits_completeItem hcomplete (.item hplace i ht)
      (h.item (List.getElem?_eq_getElem hlt) hi)
  refine ⟨fun herror => ?_, fun v hv => ?_, ?_⟩
  · rw [Report.isError_list] at herror
    simp [herror]
  · rw [Report.value?_list] at hv
    split at hv
    · simp at hv
    · obtain rfl := Option.some.inj hv
      refine .list ht fun v hv => ?_
      obtain ⟨r, hr, hv⟩ := List.mem_filterMap.mp hv
      exact (hitem r hr).conforms v hv
  · unfold Report.JobsDeclared
    rw [Report.jobs_list]
    intro job hjob
    obtain ⟨r, hr, hjob⟩ := List.mem_flatMap.mp hjob
    exact (hitem r hr).jobs job hjob

theorem ListReport.fits (hcomplete : complete.Fits I ctx root)
    (hplace : Declared ctx root path (.value plan.uses t)) (ht : t.item? = some itemType)
    (h : ListReport I ctx complete plan itemType path value r) : r.Fits ctx root plan.uses t := by
  cases h with
  | failed => exact Report.fits_failed _
  | whole _ _ hreports => exact hreports.fits hcomplete hplace ht
  | begun _ _ hreports =>
    refine (hreports.fits hcomplete hplace ht).followed ?_ _
    exact ⟨t, hplace, ht⟩

theorem conforms_scalar {uses : List FieldUse} {s : ScalarType} {v : Value} (ht : t.item? = none)
    (hs : ctx.schema.type? t.innermost = some (.scalar s))
    (hv : plan.completeScalar path s value = .ok v) : Conforms ctx uses t v := by
  unfold FieldPlan.completeScalar at hv
  split at hv
  · simp at hv
  · split at hv
    · simp at hv
    · next raw _ written hwritten =>
      split at hv
      · simp at hv
      · next hnull =>
        obtain rfl := Except.ok.inj hv
        exact .scalar ht hs (by simpa using hnull) fun hs => writes_of_output hs hwritten

theorem conforms_enum {uses : List FieldUse} {e : EnumType} {v : Value} (ht : t.item? = none)
    (he : ctx.schema.type? t.innermost = some (.enum e))
    (hv : plan.completeEnum path e value = .ok v) : Conforms ctx uses t v := by
  unfold FieldPlan.completeEnum at hv
  split at hv
  · next found hfound =>
    obtain rfl := Except.ok.inj hv
    obtain ⟨data, -, hseen⟩ := Option.bind_eq_some_iff.mp hfound
    exact .enum ht he (List.mem_of_find?_eq_some hseen)
  · simp at hv

theorem ValueReport.fits (hcomplete : complete.Fits I ctx root)
    (hcompleteField : completeField.Fits I ctx root)
    (hplace : Declared ctx root path (.value plan.uses t))
    (h : ValueReport I ctx complete completeField plan t path value r) :
    r.Fits ctx root plan.uses t := by
  cases h with
  | failed => exact Report.fits_failed _
  | null _ ht => exact ⟨by simp, by simpa using .null ht, by simp [Report.JobsDeclared]⟩
  | scalar _ ht hs hv => exact Report.fits_leaf (conforms_scalar ht hs hv)
  | enum _ ht he hv => exact Report.fits_leaf (conforms_enum ht he hv)
  | list _ ht hr => exact hr.fits hcomplete hplace ht
  | @object object collected deferred fields _ ht hchosen hcollected hr =>
    have hfields : Declared ctx root path (.fields object collected) :=
      .object hplace ht hchosen.allows hcollected
    refine ⟨fun herror => ?_, fun v hv => ?_, hr.jobsDeclared hcompleteField hfields⟩
    · rw [Report.isError_object] at herror
      simp [herror]
    · obtain ⟨object', rfl, hconform⟩ := hr.fieldsConform hcompleteField hfields hv
      exact .object ht hchosen.allows hcollected hconform

end

theorem fits_completeWithin (depth : Nat) (isStreamable : Bool) :
    (completeWithin ctx depth isStreamable).Fits I ctx root := by
  induction depth generalizing isStreamable with
  | zero => exact fun _ _ _ _ _ _ h => h.elim
  | succ depth ih =>
    intro plan t path value r hplace h
    exact (yields_completeValue h).fits (ih false) (ih true) hplace

/-! ## Responses -/

theorem conforms_streamed {plan : FieldPlan σ} {itemType : TypeRef} {path : Path}
    {label : Option String} {index : Nat} {source : ItemSource} {r : Report σ}
    (hplace : Declared ctx root (path.index index) (.value plan.uses itemType))
    (h : r.Fits ctx root plan.uses itemType) {part : Part}
    (hpart : (Job.streamed plan itemType path label index source).part r = some part) :
    part.Conforms ctx root := by
  obtain rfl := part_streamed hpart
  refine ⟨plan.uses, itemType, hplace, fun vs hvs v hv => ?_⟩
  obtain ⟨w, hw, rfl⟩ := Option.map_eq_some_iff.mp hvs
  obtain rfl := List.mem_singleton.mp hv
  exact h.conforms v hw

/-- A job with a declared place delivers a conforming part, and leaves such jobs. -/
theorem conforms_job {job : Job σ} {r : Report σ} (hjob : job.Declared ctx root)
    (h : Yields I (job.execute ctx) r) :
    (∀ part, job.part r = some part → part.Conforms ctx root) ∧ r.JobsDeclared ctx root := by
  have hcomplete (isStreamable : Bool) :
      (completeWithin ctx ctx.bounds.response isStreamable).Fits I ctx root :=
    fits_completeWithin _ _
  cases yields_execute h with
  | deferred hreport =>
    obtain ⟨collected, hplace, hfragment⟩ := hjob
    have hfields := Declared.deferred hplace hfragment
    refine ⟨?_, hreport.jobsDeclared (hcomplete true) hfields⟩
    rintro part ⟨⟩
    refine ⟨_, collected, _, hplace, hfragment, rfl, fun data hdata => ?_⟩
    obtain ⟨object', heq, hconform⟩ := hreport.fieldsConform (hcomplete true) hfields
      (Outcome.object?_eq_some.mp hdata)
    obtain rfl := Value.object.inj heq
    exact hconform
  | ended =>
    refine ⟨?_, by simp [Report.JobsDeclared]⟩
    rintro part ⟨⟩
  | @failed _ _ _ _ index _ e _ =>
    obtain ⟨t, hplace, ht⟩ := hjob
    refine ⟨fun part => conforms_streamed (.item hplace index ht) (Report.fits_failed e), ?_⟩
    simp [Report.JobsDeclared]
  | @last _ _ _ _ index _ _ _ _ _ hitem _ =>
    obtain ⟨t, hplace, ht⟩ := hjob
    have hfits := fits_completeItem (hcomplete false) (.item hplace index ht) hitem
    exact ⟨fun part => conforms_streamed (.item hplace index ht) hfits, hfits.jobs⟩
  | @more plan itemType path label index _ _ rest _ ticket _ hitem _ =>
    obtain ⟨t, hplace, ht⟩ := hjob
    have hnext : (Job.streamed plan itemType path label (index + 1) rest).Declared ctx root :=
      ⟨t, hplace, ht⟩
    have hitemPlace := Declared.item hplace index ht
    have hfits := (fits_completeItem (hcomplete false) hitemPlace hitem).followed hnext ticket
    exact ⟨fun part => conforms_streamed hitemPlace hfits, hfits.jobs⟩

theorem declared_of_queued {r : Report σ} (h : r.JobsDeclared ctx root) :
    ∀ job ∈ r.outcome.queued, job.Declared ctx root := by
  intro job hjob
  obtain ⟨ticket, hmem⟩ := Outcome.mem_jobs_of_mem_queued hjob
  exact h _ hmem

theorem declared_of_job {job : Job σ} {r : Report σ} (hjob : job.Declared ctx root)
    (h : Yields I (job.execute ctx) r) : ∀ left ∈ r.outcome.queued, left.Declared ctx root :=
  declared_of_queued (conforms_job hjob h).2

theorem Delivery.tame_declared (ctx : ExecutionContext σ) (root : ObjectType σ) :
    Tame (Job.Declared ctx root) (fun _ => True) (fun _ _ => True) ctx where
  acts _ := acts_any _
  leaves := declared_of_job

theorem jobsDeclared_executeRoot {r : Report σ} (h : Yields I (executeRoot ctx root) r) :
    r.JobsDeclared ctx root := by
  obtain ⟨collected, deferred, fields, rfl, hcollected, hreport⟩ := yields_executeRoot h
  exact hreport.jobsDeclared (fits_completeWithin _ _) (.root hcollected)

theorem conforms_delivers {jobs : List (Job σ)} (hjobs : ∀ job ∈ jobs, job.Declared ctx root)
    {history : List (Finished σ)} {d : Delivery σ} (h : Delivers ctx jobs history d) :
    ∀ finished ∈ history, ∀ part, finished.part = some part → part.Conforms ctx root := by
  refine h.unfolds.invariant (fun finished hjob hyields => ?_) hjobs
  obtain ⟨hpart, hleft⟩ := conforms_job hjob hyields
  exact ⟨hpart, declared_of_queued hleft⟩

/-- Whether the data of a response is what the schema and the operation declare. -/
def Response.Conforms (ctx : ExecutionContext σ) (root : ObjectType σ) (collected : Collected) :
    Response σ → Prop
  | .single result => ∀ data, result.data = some data → FieldsConform ctx root collected.groups data
  | .incremental initial ctx' jobs => FieldsConform ctx root collected.groups initial.data ∧
    ∀ history d, Delivers ctx' jobs history d →
      ∀ finished ∈ history, ∀ part, finished.part = some part → part.Conforms ctx root

/-- Whatever the callbacks of the host do, a request is refused without data, or all data of its
response conforms to the schema. -/
theorem executeIncrementally_conforms {r : Request σ} {w w' : World σ} {response : Response σ}
    (h : r.executeIncrementally w = some (response, w')) :
    (∃ e, r.prepare = .error e ∧ response = .single e.result) ∨
      ∃ ctx root collected, r.prepare = .ok (ctx, root) ∧
        ctx.rootFields root = some collected ∧ response.Conforms ctx root collected := by
  rcases executeIncrementally_cases h with hrefused | ⟨ctx, root, report, v, hprepare, hrun, hr, -⟩
  · exact .inl hrefused
  · have hyields := run_possible hrun
    obtain ⟨collected, deferred, fields, rfl, hcollected, hreport⟩ := yields_executeRoot hyields
    have hcomplete : (completeWithin ctx ctx.bounds.response true).Fits (fun _ => True) ctx root :=
      fits_completeWithin _ _
    have hplace := Declared.root hcollected
    have hdata {data : Object} (hdata : (Report.object deferred fields).outcome.object? = some data) :
        FieldsConform ctx root collected.groups data := by
      obtain ⟨object', heq, hconform⟩ := hreport.fieldsConform hcomplete hplace
        (Outcome.object?_eq_some.mp hdata)
      obtain rfl := Value.object.inj heq
      exact hconform
    refine .inr ⟨ctx, root, collected, hprepare, hcollected, ?_⟩
    cases hr with
    | single => exact fun data => hdata
    | incremental hobject =>
      refine ⟨hdata hobject, fun history d hdelivers => ?_⟩
      exact conforms_delivers (declared_of_queued (hreport.jobsDeclared hcomplete hplace)) hdelivers

theorem sampleRequest_conforms :
    ∃ response w ctx root collected,
      (sampleRequest [.int 1, .null]).executeIncrementally sampleWorld = some (response, w) ∧
      (sampleRequest [.int 1, .null]).prepare = .ok (ctx, root) ∧ ctx.rootFields root = some collected ∧
      response.Conforms ctx root collected := by
  have hanswered : ((sampleRequest [.int 1, .null]).executeIncrementally sampleWorld).isSome := by decide +kernel
  have hprepared : (sampleRequest [.int 1, .null]).prepare.isOk := by decide +kernel
  obtain ⟨⟨response, w⟩, hresponse⟩ := Option.isSome_iff_exists.mp hanswered
  rcases executeIncrementally_conforms hresponse with ⟨e, he, -⟩ | ⟨ctx, root, collected, hconforms⟩
  · simp [he, Except.isOk, Except.toBool] at hprepared
  · exact ⟨response, w, ctx, root, collected, hresponse, hconforms⟩

end GraphQL
