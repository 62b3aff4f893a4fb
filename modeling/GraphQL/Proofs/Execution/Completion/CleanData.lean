import GraphQL.Proofs.Execution.Timing.Agreement
import GraphQL.Proofs.Execution.Completion.Errors
import GraphQL.Proofs.Execution.Collection.Reach

/-! # Data that is given without errors

When no error arises, the data that is given at a place, and the jobs that are left for the rest, are
told without mentioning how deep the executor went, which task it ran in and where nulls would have
been allowed.
-/

namespace GraphQL

open Process

variable {σ : Type} {I : World σ → Prop}

/-! ## Reports without errors -/

namespace Report

/-- Whether no error arose here or below. -/
def Clean (r : Report σ) : Prop := r.errors = [] ∧ r.isError = false

variable {r : Report σ} {items : List (Report σ)} {deferred : List (Nat × Job σ)}
  {fields : List (String × Report σ)} {t : TypeRef}

theorem not_clean_failed {e : ExecutionError} : ¬ (failed e : Report σ).Clean :=
  fun h => absurd h.2 (by simp [isError_eq])

theorem clean_list : (list items).Clean ↔ ∀ r ∈ items, r.Clean := by
  simp only [Clean, errors_list, isError_list, List.flatMap_eq_nil_iff, List.any_eq_false,
    Bool.not_eq_true]
  exact ⟨fun h r hr => ⟨h.1 r hr, h.2 r hr⟩, fun h => ⟨fun r hr => (h r hr).1, fun r hr => (h r hr).2⟩⟩

theorem clean_object : (object deferred fields).Clean ↔ ∀ field ∈ fields, field.2.Clean := by
  simp only [Clean, errors_object, isError_object, List.flatMap_eq_nil_iff, List.any_eq_false,
    Bool.not_eq_true]
  exact ⟨fun h r hr => ⟨h.1 r hr, h.2 r hr⟩, fun h => ⟨fun r hr => (h r hr).1, fun r hr => (h r hr).2⟩⟩

theorem clean_followed {ticket : Nat} {job : Job σ} : (r.followed ticket job).Clean ↔ r.Clean := by
  simp [Clean, isError_eq]

theorem clean_absorbing : (r.absorbing t).Clean ↔ r.Clean := by
  unfold absorbing
  split
  · exact Iff.rfl
  · simp [Clean, isError_eq]

theorem Clean.value?_absorbing (h : r.Clean) : (r.absorbing t).value? = r.value? := by
  unfold absorbing
  split
  · rfl
  · simp [h.2]

theorem Clean.jobs_absorbing (h : r.Clean) : (r.absorbing t).jobs = r.jobs := by
  unfold absorbing
  split
  · rfl
  · simp [h.2]

theorem clean_of_allErrors (h : r.outcome.allErrors = []) : r.Clean := by
  rw [allErrors_eq] at h
  have hraised : r.raised = [] := List.perm_nil.mp (h ▸ (inResponseOrder_perm r.raised).symm)
  obtain ⟨herrors, hescape⟩ := List.append_eq_nil_iff.mp hraised
  refine ⟨herrors, ?_⟩
  rw [isError_eq, Option.toList_eq_nil_iff.mp hescape]
  rfl

end Report

/-! ## What is given -/

/-- Whether some jobs deliver the items of a list that are left from an index on. -/
inductive Remains (plan : FieldPlan σ) (itemType : TypeRef) (path : Path) :
    List HostValue → Nat → List (Job σ) → Prop
  | nothing {index} : Remains plan itemType path [] index []
  | queued {label index} {source : ItemSource} :
    Remains plan itemType path source.values index
      [.streamed plan itemType path label index source]

/-- The object that some pieces make up, each with its key. -/
def fieldsOf (pieces : List (String × Option Value × List (Job σ))) : Object :=
  pieces.filterMap fun piece => piece.2.1.map (piece.1, ·)

/-- Whether some work gives some data at its place, if it has any, and leaves some jobs. -/
inductive Gives (I : World σ → Prop) (ctx : ExecutionContext σ) :
    Work σ → Path → Option Value → List (Job σ) → Prop
  | fields {object source collected path} {pieces : List (String × Option Value × List (Job σ))}
    (hgrouped : collected.Grouped) (hkeys : pieces.map Prod.fst = collected.groups.map Prod.fst)
    (hpieces : ∀ (i : Nat) key uses v jobs, collected.groups[i]? = some (key, uses) →
      pieces[i]? = some (key, v, jobs) →
      Gives I ctx (.field object source uses) (path.key key i) v jobs) :
    Gives I ctx (.fields object source collected) path
      (some (.object (fieldsOf pieces)))
      (collected.deferred.map (Job.deferred object source path) ++ pieces.flatMap (·.2.2))
  | absent {object source uses path}
    (h : ∀ use ∈ uses.head?, use.node.name.item ≠ "__typename" ∧
      object.field? use.node.name.item = none) :
    Gives I ctx (.field object source uses) path none []
  | typeName {object source use others path} (hname : use.node.name.item = "__typename") :
    Gives I ctx (.field object source (use :: others)) path (some (.string object.name)) []
  | field {object source use others field path value v jobs}
    (hname : use.node.name.item ≠ "__typename")
    (hfield : object.field? use.node.name.item = some field)
    (hresolved : Resolved I ctx ⟨object, field, use, others⟩ source path (.ok value))
    (h : Gives I ctx (.value ⟨object, field, use, others⟩ field.type value) path (some v) jobs) :
    Gives I ctx (.field object source (use :: others)) path (some v) jobs
  | null {plan t value path} (hnull : value.isNull) :
    Gives I ctx (.value plan t value) path (some .null) []
  | scalar {plan t value path s v} (hnull : value.isNull = false) (ht : t.item? = none)
    (hs : ctx.schema.type? t.innermost = some (.scalar s))
    (hv : plan.completeScalar path s value = .ok v) :
    Gives I ctx (.value plan t value) path (some v) []
  | enum {plan t value path s v} (hnull : value.isNull = false) (ht : t.item? = none)
    (hs : ctx.schema.type? t.innermost = some (.enum s))
    (hv : plan.completeEnum path s value = .ok v) :
    Gives I ctx (.value plan t value) path (some v) []
  | list {plan t item value items initial remaining path jobs}
    {pieces : List (Value × List (Job σ))} (hnull : value.isNull = false)
    (ht : t.item? = some item) (hitems : value.items? = some items)
    (hcut : items.values = initial ++ remaining) (hlength : pieces.length = initial.length)
    (hpieces : ∀ (i : Nat) v w jobs, initial[i]? = some v → pieces[i]? = some (w, jobs) →
      Gives I ctx (.value plan item v) (path.index i) (some w) jobs)
    (hremains : Remains plan item path remaining initial.length jobs) :
    Gives I ctx (.value plan t value) path (some (.list (pieces.map Prod.fst)))
      (pieces.flatMap Prod.snd ++ jobs)
  | object {plan t value path object collected v jobs} (hnull : value.isNull = false)
    (ht : t.item? = none) (hchosen : Chosen I ctx plan path value t.innermost object)
    (hcollected : ctx.subfields object plan.uses = some collected)
    (h : Gives I ctx (.fields object value collected) path (some v) jobs) :
    Gives I ctx (.value plan t value) path (some v) jobs

/-- Whether a report without errors tells what some work gives. -/
def Report.Tells (I : World σ → Prop) (ctx : ExecutionContext σ) (work : Work σ) (path : Path)
    (r : Report σ) : Prop :=
  ∃ v, r.value? = some v ∧ Gives I ctx work path (some v) (r.jobs.map Prod.snd)

/-- Whether all reports without errors of a completer tell what is given. -/
def Completer.Tells (I : World σ → Prop) (ctx : ExecutionContext σ) (complete : Completer σ) : Prop :=
  ∀ plan t path value r, Yields I (complete plan t path value) r → r.Clean →
    r.Tells I ctx (.value plan t value) path

variable {ctx : ExecutionContext σ} {complete completeField : Completer σ} {isSerial : Bool}
  {object : ObjectType σ} {source : HostValue} {path : Path} {collected : Collected}
  {r : Report σ}

/-! ## Objects -/

theorem gives_field (hcomplete : completeField.Tells I ctx) {uses : List FieldUse}
    (h : FieldReport I ctx completeField object source path uses r) (hr : r.Clean) :
    Gives I ctx (.field object source uses) path r.value? (r.jobs.map Prod.snd) := by
  cases h with
  | unused => exact .absent (by simp)
  | typeName hname => exact .typeName hname
  | unknown hname hfield => exact .absent (by rintro _ ⟨⟩; exact ⟨hname, hfield⟩)
  | unresolved => exact absurd (Report.clean_absorbing.mp hr) Report.not_clean_failed
  | resolved hname hfield hresolved h =>
    have hclean := Report.clean_absorbing.mp hr
    obtain ⟨v, hv, hgives⟩ := hcomplete _ _ _ _ _ h hclean
    rw [hclean.value?_absorbing, hclean.jobs_absorbing, hv]
    exact .field hname hfield hresolved hgives

theorem gives_fields (hcomplete : completeField.Tells I ctx) {deferred : List (Nat × Job σ)}
    {fields : List (String × Report σ)} (hgrouped : collected.Grouped)
    (h : ObjectReport I ctx completeField isSerial object source path collected deferred fields)
    (hr : (Report.object deferred fields).Clean) :
    (Report.object deferred fields).Tells I ctx (.fields object source collected) path := by
  have hfields := Report.clean_object.mp hr
  have herrors : ∀ field ∈ fields, field.2.isError = false := fun field hmem => (hfields field hmem).2
  let piece (field : String × Report σ) := (field.1, field.2.value?, field.2.jobs.map Prod.snd)
  have hkeys : (fields.map piece).map Prod.fst = collected.groups.map Prod.fst := by
    rw [← h.keys herrors, List.map_map]
    rfl
  have hpieces : ∀ (i : Nat) key uses v jobs, collected.groups[i]? = some (key, uses) →
      (fields.map piece)[i]? = some (key, v, jobs) →
      Gives I ctx (.field object source uses) (path.key key i) v jobs := by
    intro i key uses v jobs hgroup hpiece
    rw [List.getElem?_map, Option.map_eq_some_iff] at hpiece
    obtain ⟨⟨key', s⟩, hs, heq⟩ := hpiece
    obtain ⟨rfl, rfl, rfl⟩ : key' = key ∧ s.value? = v ∧ s.jobs.map Prod.snd = jobs := by
      simpa [piece] using heq
    obtain ⟨uses', hgroup', hreport⟩ := h.field hs
    obtain rfl : uses = uses' := by simpa [hgroup] using hgroup'
    exact gives_field hcomplete hreport (hfields _ (List.mem_of_getElem? hs))
  have hgives := Gives.fields hgrouped hkeys hpieces
  refine ⟨.object (fields.filterMap fun field => field.2.value?.map (field.1, ·)), ?_, ?_⟩
  · rw [Report.value?_object, if_neg]
    simpa using herrors
  · rw [fieldsOf, List.filterMap_map, List.flatMap_map] at hgives
    rw [Report.jobs_object, List.map_append, h.jobs, List.map_flatMap]
    exact hgives

/-! ## Values -/

theorem gives_items (hcomplete : complete.Tells I ctx) {plan : FieldPlan σ} {itemType : TypeRef}
    {v : HostValue} (h : Yields I (completeItem complete plan itemType path v) r) (hr : r.Clean) :
    r.Tells I ctx (.value plan itemType v) path := by
  obtain ⟨s, hs, rfl⟩ := yields_completeItem h
  have hclean := Report.clean_absorbing.mp hr
  unfold Report.Tells
  rw [hclean.value?_absorbing, hclean.jobs_absorbing]
  exact hcomplete _ _ _ _ _ hs hclean

theorem gives_list (hcomplete : complete.Tells I ctx) {plan : FieldPlan σ} {t item : TypeRef}
    {value : HostValue} {items : HostValue.Items} {initial remaining : List HostValue}
    {reports : List (Report σ)} {jobs : List (Job σ)} (hnull : value.isNull = false)
    (ht : t.item? = some item) (hitems : value.items? = some items)
    (hcut : items.values = initial ++ remaining)
    (hreports : ItemReports I complete plan item path initial reports)
    (hr : (Report.list reports).Clean)
    (hremains : Remains plan item path remaining initial.length jobs) :
    ∃ v, (Report.list reports).value? = some v ∧ Gives I ctx (.value plan t value) path (some v)
      ((Report.list reports).jobs.map Prod.snd ++ jobs) := by
  have hitem := Report.clean_list.mp hr
  have htells {i : Nat} {v : HostValue} {s : Report σ} (hv : initial[i]? = some v)
      (hs : reports[i]? = some s) : s.Tells I ctx (.value plan item v) (path.index i) :=
    gives_items hcomplete (hreports.item hv hs) (hitem s (List.mem_of_getElem? hs))
  -- A report without errors about an item has a value.
  have hvalues : ∀ s ∈ reports, ∃ w, s.value? = some w := by
    intro s hs
    obtain ⟨i, hi, rfl⟩ := List.getElem_of_mem hs
    have hi' : i < initial.length := hreports.length ▸ hi
    obtain ⟨w, hw, -⟩ := htells (List.getElem?_eq_getElem hi') (List.getElem?_eq_getElem hi)
    exact ⟨w, hw⟩
  let piece (s : Report σ) := (s.value?.getD .null, s.jobs.map Prod.snd)
  have hpieces : ∀ (i : Nat) v w jobs, initial[i]? = some v →
      (reports.map piece)[i]? = some (w, jobs) →
      Gives I ctx (.value plan item v) (path.index i) (some w) jobs := by
    intro i v w jobs hv hpiece
    rw [List.getElem?_map, Option.map_eq_some_iff] at hpiece
    obtain ⟨s, hs, heq⟩ := hpiece
    obtain ⟨w', hw', hgives⟩ := htells hv hs
    obtain ⟨rfl, rfl⟩ : w' = w ∧ s.jobs.map Prod.snd = jobs := by simpa [piece, hw'] using heq
    exact hgives
  have hgives := Gives.list hnull ht hitems hcut (by rw [List.length_map, hreports.length]) hpieces
    hremains
  refine ⟨.list (reports.map fun s => s.value?.getD .null), ?_, ?_⟩
  · rw [Report.value?_list, if_neg (by simpa using fun s hs => (hitem s hs).2)]
    congr 2
    rw [← List.filterMap_eq_map]
    refine List.filterMap_congr fun s hs => ?_
    obtain ⟨w, hw⟩ := hvalues s hs
    simp [hw]
  · rw [List.map_map, List.flatMap_map] at hgives
    rw [Report.jobs_list, List.map_flatMap]
    exact hgives

theorem gives_completeList (hI : Calm I) (hcomplete : complete.Tells I ctx) {plan : FieldPlan σ}
    {t item : TypeRef} {value : HostValue} (hnull : value.isNull = false) (ht : t.item? = some item)
    (h : ListReport I ctx complete plan item path value r) (hr : r.Clean) :
    r.Tells I ctx (.value plan t value) path := by
  cases h with
  | failed => exact absurd hr Report.not_clean_failed
  | whole hitems hcut hreports hwhole =>
    obtain rfl := hwhole.resolve_right (by simp [hr.2])
    unfold Report.Tells
    cases hcut with
    | all =>
      simpa using gives_list hcomplete hnull ht hitems (List.append_nil _).symm hreports hr .nothing
    | read hw hw' hread => exact absurd hread (by simp [hI.fresh _ _ hw'])
  | @begun _ _ _ _ _ label _ hitems hcut hreports herror =>
    cases hcut with
    | some hcut =>
      unfold Report.Tells
      rw [Report.value?_followed, Report.jobs_followed, List.map_append]
      exact gives_list hcomplete hnull ht hitems hcut hreports (Report.clean_followed.mp hr)
        (@Remains.queued _ _ _ _ label _ _)

theorem gives_value (hI : Calm I) (hcomplete : complete.Tells I ctx)
    (hcompleteField : completeField.Tells I ctx) {plan : FieldPlan σ} {t : TypeRef}
    {value : HostValue} (h : ValueReport I ctx complete completeField plan t path value r)
    (hr : r.Clean) : r.Tells I ctx (.value plan t value) path := by
  cases h with
  | failed => exact absurd hr Report.not_clean_failed
  | null hnull => exact ⟨_, rfl, .null hnull⟩
  | scalar hnull ht hs hv => exact ⟨_, rfl, .scalar hnull ht hs hv⟩
  | enum hnull ht hs hv => exact ⟨_, rfl, .enum hnull ht hs hv⟩
  | list hnull ht h => exact gives_completeList hI hcomplete hnull ht h hr
  | object hnull ht hchosen hcollected h =>
    obtain ⟨v, hv, hgives⟩ :=
      gives_fields hcompleteField (ExecutionContext.grouped_subfields hcollected) h hr
    exact ⟨v, hv, .object hnull ht hchosen hcollected hgives⟩

theorem tells_completeWithin (hI : Calm I) (depth : Nat) (isStreamable : Bool) :
    Completer.Tells I ctx (completeWithin ctx depth isStreamable) := by
  induction depth generalizing isStreamable with
  | zero => exact fun _ _ _ _ _ h => h.elim
  | succ depth ih =>
    exact fun plan t path value r h hr => gives_value hI (ih false) (ih true) (yields_completeValue h) hr

/-! ## The root and jobs -/

theorem tells_executeRoot (hI : Calm I) (h : Yields I (executeRoot ctx object) r) (hr : r.Clean) :
    ∃ collected, ctx.rootFields object = some collected ∧
      r.Tells I ctx (.fields object ctx.root collected) .root := by
  obtain ⟨collected, deferred, fields, rfl, hcollected, hreport⟩ := yields_executeRoot h
  exact ⟨collected, hcollected, gives_fields (tells_completeWithin hI _ _)
    (ExecutionContext.grouped_rootFields hcollected) hreport hr⟩

theorem tells_deferred (hI : Calm I) {fragment : Deferred} (hgrouped : fragment.fields.Grouped)
    (h : Yields I ((Job.deferred object source path fragment).execute ctx) r) (hr : r.Clean) :
    r.Tells I ctx (.fields object source fragment.fields) path := by
  cases yields_execute h with
  | deferred hreport => exact gives_fields (tells_completeWithin hI _ _) hgrouped hreport hr

theorem tells_streamed (hI : Calm I) {plan : FieldPlan σ} {itemType : TypeRef}
    {label : Option String} {index : Nat} {source : ItemSource}
    (h : Yields I ((Job.streamed plan itemType path label index source).execute ctx) r)
    (hr : r.Clean) :
    source.values = [] ∧ r.value? = none ∧ r.jobs = [] ∨
      ∃ v rest w jobs later, source.values = v :: rest ∧ r.value? = some w ∧
        Gives I ctx (.value plan itemType v) (path.index index) (some w) jobs ∧
        Remains plan itemType path rest (index + 1) later ∧ r.jobs.map Prod.snd = jobs ++ later := by
  cases yields_execute h with
  | ended hsource => exact .inl ⟨hsource, rfl, rfl⟩
  | failed => exact absurd hr Report.not_clean_failed
  | last hsource hitem hlast =>
    obtain ⟨w, hw, hgives⟩ := gives_items (tells_completeWithin hI _ _) hitem hr
    refine .inr ⟨_, _, w, _, [], hsource, hw, hgives, ?_, (List.append_nil _).symm⟩
    have hexhausted := hlast.resolve_right (by simp [hr.2])
    rename_i rest
    obtain rfl : rest = .ready [] := by
      cases rest <;> simp_all [ItemSource.isExhausted]
    exact .nothing
  | more hsource hitem herror =>
    obtain ⟨w, hw, hgives⟩ := gives_items (tells_completeWithin hI _ _) hitem
      (Report.clean_followed.mp hr)
    refine .inr ⟨_, _, w, _, _, hsource, hw, hgives, @Remains.queued _ _ _ _ label _ _, ?_⟩
    rw [Report.jobs_followed, List.map_append]
    rfl

end GraphQL
