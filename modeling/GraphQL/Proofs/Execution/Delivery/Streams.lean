import GraphQL.Proofs.Execution.Process.Progress
import GraphQL.Proofs.Execution.Timing.Responses
import GraphQL.Proofs.Execution.Delivery.Threads

/-! # A streamed list is the list, cut in order

While nothing is aborted, a list that is streamed and stands in the data of its payload has there the
completions of its first items, as many as its initial count says. Those of the others are delivered
in the thread of a job of its own, one after the other, however the jobs of the request take turns.
-/

namespace GraphQL

open Process

variable {σ : Type} {I : World σ → Prop} {ctx : ExecutionContext σ}

/-! ## The fields of a report -/

/-- Whether a report may be about some work while nothing is aborted, and `D` holds of each field whose
value was completed: of its place, of that value and of the report about it. -/
inductive Throughout (ctx : ExecutionContext σ)
    (D : FieldPlan σ → Path → HostValue → Report σ → Prop) : Work σ → Path → Report σ → Prop
  | fields {object source collected path deferred} {fields : List (String × Report σ)}
    (hgroups : fields.map Prod.fst <+: collected.groups.map Prod.fst)
    (hfields : ∀ (i : Nat) key uses r, collected.groups[i]? = some (key, uses) →
      fields[i]? = some (key, r) →
      Throughout ctx D (.field object source uses) (path.key key i) r) :
    Throughout ctx D (.fields object source collected) path (.object deferred fields)
  | absent {object source uses path}
    (h : ∀ use ∈ uses.head?, use.node.name.item ≠ "__typename" ∧
      object.field? use.node.name.item = none) :
    Throughout ctx D (.field object source uses) path .absent
  | typeName {object source use others path} (hname : use.node.name.item = "__typename") :
    Throughout ctx D (.field object source (use :: others)) path (.leaf (.string object.name))
  | unresolved {object source use others field path e}
    (hfield : object.field? use.node.name.item = some field)
    (hresolved : Resolved World.Ongoing ctx ⟨object, field, use, others⟩ source path (.error e)) :
    Throughout ctx D (.field object source (use :: others)) path (.absorbing field.type (.failed e))
  | resolved {object source use others field path value r}
    (hname : use.node.name.item ≠ "__typename")
    (hfield : object.field? use.node.name.item = some field)
    (hresolved : Resolved World.Ongoing ctx ⟨object, field, use, others⟩ source path (.ok value))
    (hfact : D ⟨object, field, use, others⟩ path value r)
    (h : Throughout ctx D (.value ⟨object, field, use, others⟩ field.type value) path r) :
    Throughout ctx D (.field object source (use :: others)) path (r.absorbing field.type)
  | failed {plan t value path e} : Throughout ctx D (.value plan t value) path (.failed e)
  | null {plan t value path} (hnull : value.isNull) : Throughout ctx D (.value plan t value) path .null
  | leaf {plan t value path d v} (ht : t.item? = none) (hd : ctx.schema.type? t.innermost = some d)
    (hleaf : d.isLeaf) : Throughout ctx D (.value plan t value) path (.leaf v)
  | list {plan t item value items initial path} {reports : List (Report σ)} (ht : t.item? = some item)
    (hitems : value.items? = some items) (hinitial : initial <+: items.values)
    (hlength : reports.length = initial.length)
    (hreports : ∀ (i : Nat) v r, initial[i]? = some v → reports[i]? = some r →
      Throughout ctx D (.value plan item v) (path.index i) r) :
    Throughout ctx D (.value plan t value) path (.list reports)
  | object {plan t value path object collected r} (ht : t.item? = none)
    (hchosen : Chosen World.Ongoing ctx plan path value t.innermost object)
    (hcollected : ctx.subfields object plan.uses = some collected)
    (h : Throughout ctx D (.fields object value collected) path r) :
    Throughout ctx D (.value plan t value) path r
  | followed {work path r ticket job} (h : Throughout ctx D work path r) :
    Throughout ctx D work path (.followed r ticket job)
  | nullable {work path r} (h : Throughout ctx D work path r) : Throughout ctx D work path (.nullable r)

variable {D D' : FieldPlan σ → Path → HostValue → Report σ → Prop} {work : Work σ} {path : Path}
  {r : Report σ}

theorem Throughout.absorbing (h : Throughout ctx D work path r) (t : TypeRef) :
    Throughout ctx D work path (r.absorbing t) := by
  unfold Report.absorbing
  split
  · exact h
  · exact .nullable h

/-- What holds of each field may be concluded from where its report stands in the whole. -/
theorem Throughout.imp (h : Throughout ctx D work path r)
    (himp : ∀ q plan p value s, r.At q (s.absorbing plan.field.type) →
      p.segments = path.segments ++ q → D plan p value s → D' plan p value s) :
    Throughout ctx D' work path r := by
  induction h with
  | fields hgroups _ ih =>
    refine .fields hgroups fun i key uses r hgroup hr => ih i key uses r hgroup hr ?_
    intro q plan p value s hs hp
    refine himp (.key key :: q) plan p value s (.field (List.mem_of_getElem? hr) hs) ?_
    rw [hp, Path.key, Path.segments, List.append_assoc]
    rfl
  | absent h => exact .absent h
  | typeName hname => exact .typeName hname
  | unresolved hfield hresolved => exact .unresolved hfield hresolved
  | resolved hname hfield hresolved hfact _ ih =>
    refine .resolved hname hfield hresolved ?_ (ih fun q plan p value s hs => ?_)
    · exact himp [] _ _ _ _ (.here _) (List.append_nil _).symm hfact
    · exact himp q plan p value s (Completing.At.absorbing hs _)
  | failed => exact .failed
  | null hnull => exact .null hnull
  | leaf ht hd hleaf => exact .leaf ht hd hleaf
  | list ht hitems hinitial hlength _ ih =>
    refine .list ht hitems hinitial hlength fun i v r hv hr => ih i v r hv hr ?_
    intro q plan p value s hs hp
    refine himp (.index i :: q) plan p value s (.item hr hs) ?_
    rw [hp, Path.index, Path.segments, List.append_assoc]
    rfl
  | object ht hchosen hcollected _ ih => exact .object ht hchosen hcollected (ih himp)
  | followed _ ih => exact .followed (ih fun q plan p value s hs => himp q plan p value s (.followed hs))
  | nullable _ ih => exact .nullable (ih fun q plan p value s hs => himp q plan p value s (.nullable hs))

/-- Whether completing values leads to reports about them, and `D` holds of each field below. -/
def Completer.Throughout (I : World σ → Prop) (ctx : ExecutionContext σ)
    (D : FieldPlan σ → Path → HostValue → Report σ → Prop) (complete : Completer σ) : Prop :=
  ∀ plan t path value r, Yields I (complete plan t path value) r →
    GraphQL.Throughout ctx D (.value plan t value) path r

theorem prefix_of_cut {items : HostValue.Items} {initial : List HostValue}
    {remaining : Option ItemSource} (h : Cut I items initial remaining) : initial <+: items.values := by
  cases h with
  | all => exact List.prefix_refl _
  | some h => exact ⟨_, h.symm⟩
  | read => exact List.nil_prefix

section

variable {complete completeField : Completer σ} {object : ObjectType σ} {source : HostValue}
  {plan : FieldPlan σ} {item t : TypeRef} {value : HostValue} (hI : ∀ w, I w → w.Ongoing)

include hI

theorem FieldReport.throughout (hcomplete : completeField.Throughout I ctx D)
    (hfact : ∀ plan path value r, Yields I (completeField plan plan.field.type path value) r →
      D plan path value r)
    {uses : List FieldUse} (h : FieldReport I ctx completeField object source path uses r) :
    Throughout ctx D (.field object source uses) path r := by
  cases h with
  | unused => exact .absent (by simp)
  | unknown hname hfield => exact .absent (by simpa using ⟨hname, hfield⟩)
  | typeName hname => exact .typeName hname
  | unresolved _ hfield hresolved => exact .unresolved hfield (yields_mono hI hresolved)
  | resolved hname hfield hresolved hr =>
    exact .resolved hname hfield (yields_mono hI hresolved) (hfact _ _ _ _ hr)
      (hcomplete _ _ _ _ _ hr)

theorem ObjectReport.throughout (hcomplete : completeField.Throughout I ctx D)
    (hfact : ∀ plan path value r, Yields I (completeField plan plan.field.type path value) r →
      D plan path value r)
    {isSerial : Bool} {collected : Collected} {deferred : List (Nat × Job σ)}
    {fields : List (String × Report σ)}
    (h : ObjectReport I ctx completeField isSerial object source path collected deferred fields) :
    Throughout ctx D (.fields object source collected) path (.object deferred fields) := by
  refine .fields ?_ fun i key uses r hgroup hr => ?_
  · have hkeys := h.executed.prefix_keys
    rwa [fieldWork_keys] at hkeys
  · obtain ⟨uses', hgroup', hreport⟩ := h.field hr
    obtain rfl : uses' = uses := congrArg Prod.snd (Option.some.inj (hgroup'.symm.trans hgroup))
    exact hreport.throughout hI hcomplete hfact

omit hI in
theorem ItemReports.throughout (hcomplete : complete.Throughout I ctx D) {items : List HostValue}
    {reports : List (Report σ)} (h : ItemReports I complete plan item path items reports) (i : Nat)
    (v : HostValue) (r : Report σ) (hv : items[i]? = some v) (hr : reports[i]? = some r) :
    Throughout ctx D (.value plan item v) (path.index i) r := by
  obtain ⟨s, hs, rfl⟩ := yields_completeItem (h.item hv hr)
  exact (hcomplete _ _ _ _ _ hs).absorbing item

theorem ValueReport.throughout (hcomplete : complete.Throughout I ctx D)
    (hcompleteField : completeField.Throughout I ctx D)
    (hfact : ∀ plan path value r, Yields I (completeField plan plan.field.type path value) r →
      D plan path value r)
    (h : ValueReport I ctx complete completeField plan t path value r) :
    Throughout ctx D (.value plan t value) path r := by
  cases h with
  | failed => exact .failed
  | null hnull => exact .null hnull
  | scalar _ ht hs => exact .leaf ht hs rfl
  | enum _ ht hs => exact .leaf ht hs rfl
  | list _ ht hr =>
    cases hr with
    | failed => exact .failed
    | whole hitems hcut hreports =>
      exact .list ht hitems (prefix_of_cut hcut) hreports.length (hreports.throughout hcomplete)
    | begun hitems hcut hreports =>
      exact .followed
        (.list ht hitems (prefix_of_cut hcut) hreports.length (hreports.throughout hcomplete))
  | object _ ht hchosen hcollected hr =>
    exact .object ht (hchosen.mono hI) hcollected (hr.throughout hI hcompleteField hfact)

variable (hD : ∀ depth plan path value r,
  Yields I (completeWithin ctx depth true plan plan.field.type path value) r → D plan path value r)

include hD

theorem throughout_completeWithin (depth : Nat) (isStreamable : Bool) :
    (completeWithin ctx depth isStreamable).Throughout I ctx D := by
  induction depth generalizing isStreamable with
  | zero => exact fun _ _ _ _ _ h => h.elim
  | succ depth ih =>
    intro plan t path value r h
    exact (yields_completeValue h).throughout hI (ih false) (ih true) (hD depth)

theorem throughout_listItem {index : Nat} {v : HostValue}
    (h : Yields I (completeItem (completeListItem ctx) plan item (path.index index) v) r) :
    Throughout ctx D (.value plan item v) (path.index index) r := by
  obtain ⟨s, hs, rfl⟩ := yields_completeItem h
  exact (throughout_completeWithin hI hD _ _ _ _ _ _ _ hs).absorbing item

end

/-! ## What stands in the data -/

namespace Report

variable {q : List Segment} {s : Report σ} {job : Job σ}

theorem mem_leftByItems {items : List (Report σ)} {i : Nat} (hr : items[i]? = some r)
    (hjob : (q, job) ∈ r.left) (n : Nat) : (.index (n + i) :: q, job) ∈ leftByItems n items := by
  induction items generalizing i n with
  | nil => simp at hr
  | cons first items ih =>
    rw [leftByItems, List.mem_append]
    cases i with
    | zero =>
      obtain rfl : first = r := by simpa using hr
      exact .inl (List.mem_map.mpr ⟨_, hjob, rfl⟩)
    | succ i =>
      have hmem := ih (by simpa using hr) (n + 1)
      rw [Nat.add_right_comm] at hmem
      exact .inr hmem

theorem mem_leftByFields {fields : List (String × Report σ)} {key : String} (hr : (key, r) ∈ fields)
    (hjob : (q, job) ∈ r.left) : (.key key :: q, job) ∈ leftByFields fields := by
  induction fields with
  | nil => simp at hr
  | cons field fields ih =>
    rw [leftByFields, List.mem_append]
    rcases List.mem_cons.mp hr with rfl | hr
    · exact .inl (List.mem_map.mpr ⟨_, hjob, rfl⟩)
    · exact .inr (ih hr)

theorem At.mem_left (h : r.At q s) (hjob : ([], job) ∈ s.left) : (q, job) ∈ r.left := by
  induction h with
  | here => exact hjob
  | item hr _ ih => simpa [left] using mem_leftByItems hr (ih hjob) 0
  | field hr _ ih => exact List.mem_append_right _ (mem_leftByFields hr (ih hjob))
  | followed _ ih => exact List.mem_append_left _ (ih hjob)
  | nullable _ ih => exact ih hjob

theorem Placed.value?_of_at (h : r.Placed path) (hs : r.At q s) {v u : Value} (hv : r.value? = some v)
    (hu : v.at? q = some u) (hnull : u.isNull = false) : s.value? = some u := by
  induction hs generalizing path v with
  | here =>
    obtain rfl : v = u := by simpa [Value.at?] using hu
    exact hv
  | @item _ i r q s hr _ ih =>
    cases h with
    | list hitems =>
      rw [Value.at?, (child?_list hitems hv hr).1, Option.bind_eq_some_iff] at hu
      obtain ⟨w, hw, hu⟩ := hu
      exact ih (hitems i r hr) hw hu
  | @field _ _ key r q s hr _ ih =>
    cases h with
    | object hkeys hfields =>
      rw [Value.at?, (child?_object hkeys hv hr).1, Option.bind_eq_some_iff] at hu
      obtain ⟨w, hw, hu⟩ := hu
      obtain ⟨i, hi⟩ := List.mem_iff_getElem?.mp hr
      refine ih (hfields i key r hi ?_) hw hu
      rintro rfl
      cases hw
  | followed _ ih =>
    cases h with
    | followed h => exact ih h hv hu
  | nullable _ ih =>
    cases h with
    | nullable h =>
      rw [value?_nullable] at hv
      split at hv
      · obtain rfl := Option.some.inj hv
        obtain rfl := Value.at?_null hu
        obtain rfl : Value.null = u := by simpa [Value.at?] using hu
        cases hnull
      · exact ih h hv hu

theorem value?_of_absorbing {t : TypeRef} {u : Value} (h : (r.absorbing t).value? = some u)
    (hnull : u.isNull = false) : r.value? = some u := by
  unfold absorbing at h
  split at h
  · exact h
  · rw [value?_nullable] at h
    split at h
    · obtain rfl := Option.some.inj h
      cases hnull
    · exact h

theorem mem_left_of_rest? {t : TypeRef} (h : r.rest? = some job) : ([], job) ∈ (r.absorbing t).left := by
  cases r with
  | followed inner ticket next =>
    obtain rfl := Option.some.inj h
    unfold absorbing
    split <;> exact List.mem_append_right _ (List.mem_singleton_self _)
  | _ => cases h

end Report

/-! ## Streamed lists -/

/-- Whether a list that has some items is delivered in order, where it is shown in the data of its payload
and `rest` goes on after it. As many of its items as `count` says are inline, the others in a thread of
their own. Nothing goes on after a list at hand that has no others. -/
structure CutInOrder (ctx : ExecutionContext σ) (left : List (Job σ))
    (threads : List (Job σ × List (Finished σ))) (plan : FieldPlan σ) (itemType : TypeRef)
    (path : Path) (label : Option String) (count : Nat) (items : HostValue.Items)
    (results : List (Except FieldError HostValue)) (rest : Option (Job σ)) (shown : Value) : Prop where
  inline : ∃ values, shown = .list values ∧ values.length = min count results.length ∧
    ∀ (i : Nat) value, values[i]? = some value → ∃ item r, results[i]? = some (.ok item) ∧
      ReportsItem ctx plan itemType path i item r ∧ r.value? = some value
  others : rest = none ∧ results.length ≤ count ∨ ∃ source thread,
    rest = some (.streamed plan itemType path label count source) ∧
      source.results = results.drop count ∧
      (.streamed plan itemType path label count source, thread) ∈ threads ∧
      Trail ctx left plan itemType path label count source.results (partsOf thread)
  atHand : ∀ all, items = .ready all → all.length ≤ count → rest = none

/-- Whether the value of a field is delivered in order, if it is a list that is streamed and stands in
the data of its payload. -/
def InOrder (ctx : ExecutionContext σ) (taken : List Nat) (left : List (Job σ))
    (threads : List (Job σ × List (Finished σ))) (place : List Segment) (data : Option Value)
    (plan : FieldPlan σ) (path : Path) (value : HostValue) (r : Report σ) : Prop :=
  ∀ itemType items count label q shown, plan.field.type.item? = some itemType →
    value.items? = some items → plan.streaming path ctx = .ok (some (count, label)) →
    path.segments = place ++ q → data.bind (·.at? q) = some shown → shown.isNull = false →
    ∃ results, items.Offers taken results ∧
      CutInOrder ctx left threads plan itemType path label count items results r.rest? shown

/-- Whether the value of a field is cut at its initial count, if it is a list that is streamed. -/
def IsCut (I : World σ → Prop) (ctx : ExecutionContext σ) (taken : List Nat) (plan : FieldPlan σ)
    (path : Path) (value : HostValue) (r : Report σ) : Prop :=
  ∀ itemType items count label, plan.field.type.item? = some itemType →
    value.items? = some items → plan.streaming path ctx = .ok (some (count, label)) →
    ∃ depth results, items.Offers taken results ∧
      CutReport I (completeWithin ctx depth false) plan itemType path label count results r ∧
      ∀ all, items = .ready all → all.length ≤ count → r.rest? = none

section

variable {taken : List Nat} {left : List (Job σ)} {threads : List (Job σ × List (Finished σ))}
  {plan : FieldPlan σ} {itemType : TypeRef} {label : Option String} {count : Nat}
  {results : List (Except FieldError HostValue)}

theorem inline_of_cut (hI : ∀ w, I w → w.Ongoing) {depth : Nat} {initial : List HostValue}
    {remaining : Option ItemSource} {reports : List (Report σ)}
    (hcut : CutAt count results initial remaining)
    (hreports : ItemReports I (completeWithin ctx depth false) plan itemType path initial reports)
    {shown : Value} (hshown : (Report.list reports).value? = some shown) :
    ∃ values, shown = .list values ∧ values.length = min count results.length ∧
      ∀ (i : Nat) value, values[i]? = some value → ∃ item r, results[i]? = some (.ok item) ∧
        ReportsItem ctx plan itemType path i item r ∧ r.value? = some value := by
  have herror := Report.isError_of_value? hshown
  have hpresent := (hreports.placed (places_completeWithin _ _)).items_present herror
  rw [Report.value?_list, ← Report.isError_list, if_neg (by simp [herror])] at hshown
  refine ⟨_, (Option.some.inj hshown).symm, ?_, fun i value hvalue => ?_⟩
  · have hlength := congrArg List.length hcut.first
    rw [List.length_map, List.length_take] at hlength
    rw [List.filterMap_length_eq_length.mpr hpresent, hreports.length, hlength]
  · rw [Report.Placed.getElem?_filterMap_value? hpresent, Option.bind_eq_some_iff] at hvalue
    obtain ⟨r, hr, hvalue⟩ := hvalue
    have hi : i < initial.length := hreports.length ▸ (List.getElem?_eq_some_iff.mp hr).1
    have hv := List.getElem?_eq_getElem hi
    have hresult : (results.take count)[i]? = some (.ok initial[i]) := by
      rw [← hcut.first, List.getElem?_map, hv, Option.map_some]
    refine ⟨initial[i], r, ?_, reportsItem_of_yields hI (hreports.item hv hr), hvalue⟩
    rw [List.getElem?_take] at hresult
    split at hresult
    · exact hresult
    · cases hresult

/-- A list that is cut is delivered in order, when a thread delivers what its job has in store. -/
theorem CutReport.inOrder (hI : ∀ w, I w → w.Ongoing) {depth : Nat} {items : HostValue.Items}
    (h : CutReport I (completeWithin ctx depth false) plan itemType path label count results r)
    (hatHand : ∀ all, items = .ready all → all.length ≤ count → r.rest? = none)
    {shown : Value} (hshown : r.value? = some shown)
    (hthread : ∀ source, r.rest? = some (.streamed plan itemType path label count source) →
      ∃ thread, (.streamed plan itemType path label count source, thread) ∈ threads ∧
        Trail ctx left plan itemType path label count source.results (partsOf thread)) :
    CutInOrder ctx left threads plan itemType path label count items results r.rest? shown := by
  cases h with
  | failed => cases hshown
  | whole hcut hreports hwhole =>
    obtain rfl := hwhole.resolve_right (by simp [Report.isError_of_value? hshown])
    have hothers : [] = results.drop count := hcut.others
    refine ⟨inline_of_cut hI hcut hreports hshown, .inl ⟨rfl, ?_⟩, hatHand⟩
    exact List.drop_eq_nil_iff.mp hothers.symm
  | @begun initial source reports ticket hcut hreports =>
    obtain ⟨thread, hmem, htrail⟩ := hthread source rfl
    exact ⟨inline_of_cut hI hcut hreports hshown,
      .inr ⟨source, thread, rfl, hcut.others, hmem, htrail⟩, hatHand⟩

variable {data : Option Value}

theorem Throughout.inOrder (hI : ∀ w, I w → w.Ongoing)
    (h : Throughout ctx (IsCut I ctx taken) work path r) (hplaced : r ≠ .absent → r.Placed path)
    (hdata : data = r.value?)
    (hthreads : ∀ job ∈ r.due data, ∃ thread, (job, thread) ∈ threads)
    (htrails : ∀ plan itemType path label index source thread,
      (Job.streamed plan itemType path label index source, thread) ∈ threads →
      Trail ctx left plan itemType path label index source.results (partsOf thread)) :
    Throughout ctx (InOrder ctx taken left threads path.segments data) work path r := by
  refine h.imp fun q plan p value s hs hp hcut itemType items count label q' shown ht hitems
    hstreaming hplace hshown hnull => ?_
  obtain rfl : q = q' := List.append_cancel_left (hp.symm.trans hplace)
  have hstands : stands data q := by simp [stands, hshown, hnull]
  rw [hdata, Option.bind_eq_some_iff] at hshown
  obtain ⟨v, hv, hshown⟩ := hshown
  have hplaced := hplaced (by rintro rfl; cases hv)
  have hvalue := Report.value?_of_absorbing (hplaced.value?_of_at hs hv hshown hnull) hnull
  obtain ⟨depth, results, hoffers, hcut, hatHand⟩ :=
    hcut itemType items count label ht hitems hstreaming
  refine ⟨results, hoffers, hcut.inOrder hI hatHand hvalue fun source hrest => ?_⟩
  have hleft := hs.mem_left (Report.mem_left_of_rest? hrest)
  obtain ⟨thread, hthread⟩ := hthreads _
    (List.mem_map_of_mem (List.mem_filter.mpr ⟨hleft, hstands⟩))
  exact ⟨thread, hthread, htrails _ _ _ _ _ _ _ hthread⟩

end

/-! ## Jobs -/

/-- Whether `D` holds of each field that a job completed, with the fields of a deferred fragment or in
the next item of a list. -/
def Job.Throughout (ctx : ExecutionContext σ) (D : FieldPlan σ → Path → HostValue → Report σ → Prop) :
    Job σ → Report σ → Prop
  | .deferred object source path fragment, r =>
    GraphQL.Throughout ctx D (.fields object source fragment.fields) path r
  | .streamed plan itemType path _ index source, r => ∀ v later, source.results = .ok v :: later →
    GraphQL.Throughout ctx D (.value plan itemType v) (path.index index) r.completed

section

variable {taken : List Nat} {left : List (Job σ)} {threads : List (Job σ × List (Finished σ))}
  {root : ObjectType σ}

theorem isCut_completeWithin (ctx : ExecutionContext σ) (hI : ∀ w, I w → w.Within taken) (depth : Nat)
    (plan : FieldPlan σ) (path : Path) (value : HostValue) (r : Report σ)
    (h : Yields I (completeWithin ctx depth true plan plan.field.type path value) r) :
    IsCut I ctx taken plan path value r :=
  fun _ _ _ _ ht hitems hstreaming => cut_completeWithin hI ht hitems hstreaming h

theorem inOrder_job (hI : ∀ w, I w → w.Within taken) {f : Finished σ}
    (hjob : f.job.Declared ctx root) (h : Yields I (f.job.execute ctx) f.report)
    (hthreads : ∀ job ∈ f.opened, ∃ thread, (job, thread) ∈ threads)
    (htrails : ∀ plan itemType path label index source thread,
      (Job.streamed plan itemType path label index source, thread) ∈ threads →
      Trail ctx left plan itemType path label index source.results (partsOf thread)) :
    f.job.Throughout ctx
      (InOrder ctx taken left threads f.job.place.segments (f.part.bind Part.data?)) f.report := by
  have hongoing : ∀ w, I w → w.Ongoing := fun w hw => (hI w hw).ongoing
  have hcut := isCut_completeWithin ctx hI
  obtain ⟨job, r, hasNext⟩ := f
  cases job with
  | deferred object source path fragment =>
    cases yields_execute h with
    | deferred hreport =>
      obtain ⟨collected, hplace, hfragment⟩ := hjob
      have hplaced :=
        hreport.placed (places_completeWithin _ _) (hplace.grouped.deferred _ hfragment)
      refine (hreport.throughout hongoing (throughout_completeWithin hongoing hcut _ _)
        (hcut _)).inOrder hongoing (fun _ => hplaced) ?_ hthreads htrails
      exact object?_object _ _
  | streamed plan itemType path label index source =>
    have hreport := yields_streamed hongoing h
    intro v later hresults
    rw [hresults] at hreport
    have hitem {s : Report σ} (hs : r.completed = s) (hvalue : r.value? = s.value?)
        (hitem : Yields I (completeItem (completeListItem ctx) plan itemType (path.index index) v) s) :
        Throughout ctx (InOrder ctx taken left threads (path.index index).segments
          ((Job.part (.streamed plan itemType path label index source) r).bind Part.data?))
          (.value plan itemType v) (path.index index) s := by
      subst hs
      exact (throughout_listItem hongoing hcut hitem).inOrder hongoing (fun _ => placed_listItem hitem)
        (data?_part_streamed.trans hvalue) hthreads htrails
    cases hreport with
    | failed hlast | last hlast =>
      have hcompleted := Report.completed_of_rest? (rest?_completeListItem hlast)
      exact hcompleted.symm ▸ hitem hcompleted rfl hlast
    | more hmore => exact hitem rfl rfl hmore

/-! ## Histories -/

/-- Whether all lists that are streamed are delivered in order: those of the first payload, about whose
data a report tells, and those of the parts that jobs delivered since. -/
structure StreamsInOrder (ctx : ExecutionContext σ) (work : Work σ) (report : Report σ)
    (data : Option Value) (taken later : List Nat) (history : List (Finished σ))
    (left : List (Job σ)) (threads : List (Job σ × List (Finished σ))) : Prop where
  threaded : Threads (report.due data) history left threads
  first : Throughout ctx (InOrder ctx taken left threads [] data) work .root report
  others : ∀ f ∈ history, f.job.Throughout ctx
    (InOrder ctx later left threads f.job.place.segments (f.part.bind Part.data?)) f.report

theorem Unfolds.streamsInOrder {J : World σ → Prop} {later : List Nat}
    {jobs : List (Job σ)} {history : List (Finished σ)} {report : Report σ} {data : Option Value}
    (hI : ∀ w, I w → w.Ongoing) (hJ : ∀ w, J w → w.Within later)
    (h : Unfolds J ctx jobs history left) (hjobs : ∀ job ∈ jobs, job.Declared ctx root)
    (hreport : Throughout ctx (IsCut I ctx taken) work .root report) (hplaced : report.Placed .root)
    (hdata : data = report.value?) (hdue : jobs.Perm (report.due data)) :
    ∃ threads, StreamsInOrder ctx work report data taken later history left threads := by
  have hongoing : ∀ w, J w → w.Ongoing := fun w hw => (hJ w hw).ongoing
  have hyields : ∀ f ∈ history, f.job.Declared ctx root ∧ Yields J (f.job.execute ctx) f.report :=
    h.invariant (fun f hjob hyields => ⟨⟨hjob, hyields⟩, declared_of_job hjob hyields⟩) hjobs
  obtain ⟨threads, hthreads⟩ := h.threads fun f hf =>
    queued_job (hyields f hf).1 (hyields f hf).2 f.hasNext
  have hthreads := hthreads.of_perm hdue
  have hthread : ∀ job ∈ report.due data ++ history.flatMap Finished.opened,
      ∃ thread, (job, thread) ∈ threads := by
    intro job hjob
    simpa using hthreads.started.mem_iff.mpr hjob
  have htrails (plan itemType path label index source thread)
      (hmem : (Job.streamed plan itemType path label index source, thread) ∈ threads) :
      Trail ctx left plan itemType path label index source.results (partsOf thread) :=
    (hthreads.thread _ hmem).trail hongoing
      (fun f hf => (hyields f ((hthreads.inOrder _ hmem).subset hf)).2) rfl
  refine ⟨threads, hthreads, ?_, fun f hf => ?_⟩
  · exact hreport.inOrder hI (fun _ => hplaced) hdata
      (fun job hjob => hthread job (List.mem_append_left _ hjob)) htrails
  · exact inOrder_job hJ (hyields f hf).1 (hyields f hf).2
      (fun job hjob => hthread job
        (List.mem_append_right _ (List.mem_flatMap.mpr ⟨f, hf, hjob⟩))) htrails

/-! ## Deliveries that nobody aborts -/

/-- Whether the delivery of some jobs may get to `d`, whatever the host does but abort the request. -/
inductive DeliversWithin (taken : List Nat) (ctx : ExecutionContext σ) (jobs : List (Job σ)) :
    List (Finished σ) → Delivery σ → Prop
  | start : DeliversWithin taken ctx jobs [] (Delivery.empty.start ctx jobs)
  | next {history d d' finished rounds} {w w' : World σ} (h : DeliversWithin taken ctx jobs history d)
    (hnext : d.next ctx rounds w = some (some finished, d', w')) (hw' : w'.Within taken) :
    DeliversWithin taken ctx jobs (history ++ [finished]) d'

theorem tame_heads (taken : List Nat) (howned : ctx.schema.Owns root) :
    Tame (Job.Declared ctx root) (fun _ => True) (World.Heads taken) ctx where
  acts hjob := acts_execute (permits_heads taken) (acts_heads taken ctx) (hjob.owned howned)
    (fun _ _ => trivial) (fun _ _ => trivial) fun _ _ => trivial
  leaves := declared_of_job

theorem yields_within (howned : ctx.schema.Owns root) {rounds : Nat} {w v : World σ} {report : Report σ}
    (h : (executeRoot ctx root).run rounds w = some (report, v)) (hv : v.Ongoing) :
    Yields (World.Within v.taken) (executeRoot ctx root) report := by
  have hlast : v.Within v.taken := ⟨hv, List.suffix_refl _⟩
  have hcourse := (permits_heads (σ := σ) v.taken).course
  have hacts := acts_executeRoot (permits_heads v.taken) (acts_heads v.taken ctx) howned
    fun _ _ => trivial
  have hfirst : w.Within v.taken := run_acts hcourse trivial hacts h hlast
  have hyields := run_yields hcourse trivial hacts h
  rwa [between_heads hfirst hlast] at hyields

section

variable {jobs : List (Job σ)} {history : List (Finished σ)} (howned : ctx.schema.Owns root)
  (hjobs : ∀ job ∈ jobs, job.Declared ctx root)

include howned hjobs

theorem DeliversWithin.unfolds {d : Delivery σ} (h : DeliversWithin taken ctx jobs history d) :
    Unfolds (World.Within taken) ctx jobs history d.jobs := by
  have hcourse := (permits_heads (σ := σ) taken).course
  have htame := tame_heads taken howned
  suffices Unfolds (World.Within taken) ctx jobs history d.jobs ∧
      d.Orderly (Job.Declared ctx root) (fun _ => True) (World.Heads taken) ctx ∧
      d.Sound (World.Within taken) ctx from this.1
  induction h with
  | start =>
    rw [Delivery.jobs_start]
    refine ⟨.refl, Delivery.orderly_start htame Delivery.orderly_empty hjobs, ?_⟩
    exact Delivery.sound_start (by simp [Delivery.Sound, Delivery.empty]) jobs
  | @next _ d d' _ _ w w' _ hnext hw' ih =>
    obtain ⟨hunfolds, horderly, hsound⟩ := ih
    obtain ⟨hheads, horderly'⟩ := Delivery.next_acts hcourse htame horderly trivial hnext
    rw [← between_heads (hheads hw') hw'] at hsound
    have hfound := Delivery.next_spec hcourse htame trivial horderly hsound (hcourse.refl w)
      (hcourse.refl w') hnext
    rw [between_heads (hheads hw') hw'] at hfound
    obtain ⟨others, hperm, hyields, hjobs', hsound'⟩ := hfound
    exact ⟨hjobs' ▸ hunfolds.concat hperm hyields, horderly', hsound'⟩

theorem unfolds_within {w v : World σ} (h : runJobs ctx jobs w = some (history, v)) (hv : v.Ongoing) :
    Unfolds (World.Within v.taken) ctx jobs history [] := by
  have hlast : v.Within v.taken := ⟨hv, List.suffix_refl _⟩
  have hcourse := (permits_heads (σ := σ) v.taken).course
  have htame := tame_heads v.taken howned
  have hqueued := Delivery.course_enqueue hcourse jobs .empty w
  have hdone := Delivery.history_acts hcourse htame
    (Delivery.orderly_start htame Delivery.orderly_empty hjobs) trivial h
  have hfirst : w.Within v.taken := hcourse.trans hqueued hdone hlast
  have hunfolds := runJobs_unfolds hcourse htame hjobs trivial h
  rwa [between_heads hfirst hlast] at hunfolds

end

end

/-! ## Responses -/

/-- Whether all lists of a response that are streamed are delivered in order, where the report tells what
its first payload has: in whatever is delivered while nobody aborts, and in all later payloads when
they come to their end. -/
def Response.StreamsInOrder (ctx : ExecutionContext σ) (work : Work σ) (report : Report σ)
    (taken : List Nat) : Response σ → Prop
  | .single result => ∃ threads, GraphQL.StreamsInOrder ctx work report (result.data.map .object)
      taken taken [] [] threads
  | .incremental initial ctx' jobs =>
    (∀ later history d, DeliversWithin later ctx' jobs history d → ∃ threads,
      GraphQL.StreamsInOrder ctx work report (some (.object initial.data)) taken later history d.jobs
        threads) ∧
    ∀ w payloads v, laterPayloads ctx' jobs w = some (payloads, v) → v.Ongoing →
      ∃ history threads, payloads.flatMap (·.parts) = partsOf history ∧
        GraphQL.StreamsInOrder ctx work report (some (.object initial.data)) taken v.taken history []
          threads

theorem ongoing_of_executeIncrementally {r : Request σ} {root : ObjectType σ} {report : Report σ}
    {response : Response σ} {w v w' : World σ} (h : r.executeIncrementally w = some (response, w'))
    (hprepare : r.prepare = .ok (ctx, root))
    (hrun : (executeRoot ctx root).run ctx.bounds.rounds (w.trace (.executing ctx.operation.name?)) =
      some (report, v)) (hw' : w'.Ongoing) : v.Ongoing := by
  simp only [Request.executeIncrementally, hprepare, Request.executePrepared, Option.bind_eq_bind, hrun,
    Option.bind_some] at h
  split at h <;>
  · obtain ⟨-, rfl⟩ := Prod.mk.inj (Option.some.inj h)
    exact hw'

/-- Unless it is aborted, a request is refused, or each list that is streamed and stands in the data of
its payload is delivered in order. -/
theorem executeIncrementally_streamsInOrder {r : Request σ} {w w' : World σ} {response : Response σ}
    (h : r.executeIncrementally w = some (response, w')) (hw' : w'.Ongoing) :
    (∃ e, r.prepare = .error e ∧ response = .single e.result) ∨
      ∃ ctx root collected report v, r.prepare = .ok (ctx, root) ∧
        ctx.rootFields root = some collected ∧
        (executeRoot ctx root).run ctx.bounds.rounds
          (w.trace (.executing ctx.operation.name?)) = some (report, v) ∧
        Responds ctx report response ∧
        response.StreamsInOrder ctx (.fields root ctx.root collected) report w'.taken := by
  rcases executeIncrementally_cases h with hrefused | ⟨ctx, root, report, v, hprepare, hrun, hr, hread⟩
  · exact .inl hrefused
  obtain ⟨-, -, howned⟩ := prepare_spec hprepare
  have hyields := yields_within howned hrun (ongoing_of_executeIncrementally h hprepare hrun hw')
  rw [hread] at hyields
  have hI : ∀ w : World σ, w.Within w'.taken → w.Ongoing := fun _ hw => hw.ongoing
  have hjobs := declared_of_queued (jobsDeclared_executeRoot hyields)
  obtain ⟨collected, deferred, fields, rfl, hcollected, hreport⟩ := yields_executeRoot hyields
  have hplaced := hreport.placed (places_completeWithin _ _)
    (ExecutionContext.grouped_rootFields hcollected)
  have hcut := isCut_completeWithin ctx (I := World.Within w'.taken) fun _ hw => hw
  have hthroughout := hreport.throughout hI (throughout_completeWithin hI hcut _ _) (hcut _)
  have hdue := ((hreport.leaves (leaves_completeWithin _ _)).settled fun _ => hplaced).queued
  have hdata := object?_object deferred fields
  rw [← hdata] at hdue
  refine .inr ⟨ctx, root, collected, _, v, hprepare, hcollected, hrun, hr, ?_⟩
  cases hr with
  | single hsingle =>
    have hnothing : [].Perm ((Report.object deferred fields).due
        ((Report.object deferred fields).outcome.object?.map .object)) := by
      rcases hsingle with hnone | hqueued
      · simp [hnone]
      · rwa [hqueued] at hdue
    have hnone : ∀ job ∈ [], Job.Declared ctx root job := by simp
    exact Unfolds.refl.streamsInOrder hI (fun _ hw => hw) hnone hthroughout hplaced hdata hnothing
  | incremental hobject =>
    rw [hobject] at hdue hdata
    refine ⟨fun later history d hdelivers => ?_, fun w payloads u hlater hu => ?_⟩
    · exact (hdelivers.unfolds howned hjobs).streamsInOrder hI (fun _ hw => hw) hjobs hthroughout
        hplaced hdata hdue
    · simp only [laterPayloads, Option.bind_eq_bind, Option.bind_eq_some_iff] at hlater
      obtain ⟨⟨history, u'⟩, hrun, hlater⟩ := hlater
      obtain ⟨rfl, rfl⟩ : _ = payloads ∧ u' = u := by simpa using hlater
      obtain ⟨threads, hthreads⟩ := (unfolds_within howned hjobs hrun hu).streamsInOrder hI
        (fun _ hw => hw) hjobs hthroughout hplaced hdata hdue
      exact ⟨history, threads, parts_of_payloads history, hthreads⟩

/-- `{ numbers @stream(initialCount: 1) }` -/
def sampleStream (numbers : List Value) : Request Unit :=
  let count : Argument := ⟨sampleText "initialCount", sampleText (.int 1)⟩
  let stream : Directive := ⟨sampleText "stream", some (sampleText [count])⟩
  { sampleRequest numbers with
    document := [.operation { sampleOperation with
      selections := [sampleField "numbers" [sampleText stream]] }] }

/-- The list of the first number, then a part for the second, and a last one without items for the
null. -/
theorem sampleStream_streamsInOrder :
    ∃ initial ctx jobs w report work payloads v,
      (sampleStream [.int 1, .int 2, .null, .int 4]).executeIncrementally sampleWorld =
        some (.incremental initial ctx jobs, w) ∧ w.Ongoing ∧
      (Value.object initial.data == .object [("numbers", .list [.int 1])]) ∧
      laterPayloads ctx jobs w = some (payloads, v) ∧ v.Ongoing ∧
      (payloads.flatMap (·.parts)).map (·.content matches .items (some _)) = [true, false] ∧
      Response.StreamsInOrder ctx work report w.taken (.incremental initial ctx jobs) := by
  have hanswered : ((sampleStream [.int 1, .int 2, .null, .int 4]).executeIncrementally
      sampleWorld).any fun
      | (.incremental initial ctx jobs, w) => !w.signal.isAborted &&
          Value.object initial.data == .object [("numbers", .list [.int 1])] &&
          (laterPayloads ctx jobs w).any fun (payloads, v) => !v.signal.isAborted &&
            (payloads.flatMap (·.parts)).map (·.content matches .items (some _)) == [true, false]
      | (.single _, _) => false := by decide +kernel
  obtain ⟨⟨response, w⟩, h, hlater⟩ := (Option.any_eq_true _ _).mp hanswered
  cases response with
  | single => cases hlater
  | incremental initial ctx jobs =>
    simp only [Bool.and_eq_true, Option.any_eq_true, Bool.not_eq_true'] at hlater
    obtain ⟨⟨hw, hdata⟩, ⟨payloads, v⟩, hpayloads, hv, hparts⟩ := hlater
    rcases executeIncrementally_streamsInOrder h hw with
      ⟨e, -, he⟩ | ⟨_, _, _, report, _, -, -, -, hr, hstreams⟩
    · cases he
    · cases hr with
      | incremental =>
        exact ⟨_, _, _, w, report, _, payloads, v, h, hw, hdata, hpayloads, hv, by simpa using hparts,
          hstreams⟩

end GraphQL
