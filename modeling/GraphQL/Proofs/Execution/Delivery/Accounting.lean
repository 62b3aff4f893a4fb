import GraphQL.Proofs.Execution.Completion.CleanData
import GraphQL.Proofs.Execution.Delivery.Histories

/-! # Every job is delivered once, or its place is null

An object leaves the deferred fragments that were collected on it, and a list the first of its items
that were not completed. They are delivered if the place they belong to stands in the data of its
payload, each of them once and after that payload. If null took the place, or one around it, they
are not delivered at all.
-/

namespace GraphQL

open Process

variable {σ : Type}

/-! ## What is due -/

/-- Whether something other than null stands at a place of some data. -/
def stands (data : Option Value) (q : List Segment) : Bool :=
  (data.bind (·.at? q)).any fun v => !v.isNull

@[simp] theorem stands_none (q : List Segment) : stands none q = false := rfl

@[simp] theorem stands_null (q : List Segment) : stands (some .null) q = false := by
  cases q <;> rfl

theorem stands_cons (data : Option Value) (segment : Segment) (q : List Segment) :
    stands data (segment :: q) = stands (data.bind (·.child? segment)) q := by
  cases data <;> rfl

namespace Report

mutual

/-- The jobs that were left, each with the place it belongs to, whatever became of that place. -/
def left : Report σ → List (List Segment × Job σ)
  | list items => leftByItems 0 items
  | object deferred fields => deferred.map (fun job => ([], job.2)) ++ leftByFields fields
  | followed inner _ job => inner.left ++ [([], job)]
  | nullable inner => inner.left
  | absent | null | leaf _ | failed _ => []

def leftByItems : Nat → List (Report σ) → List (List Segment × Job σ)
  | _, [] => []
  | i, r :: rest => r.left.map (fun job => (.index i :: job.1, job.2)) ++ leftByItems (i + 1) rest

def leftByFields : List (String × Report σ) → List (List Segment × Job σ)
  | [] => []
  | (key, r) :: rest => r.left.map (fun job => (.key key :: job.1, job.2)) ++ leftByFields rest

end

/-- The jobs whose places stand in the data of the payload. -/
def due (r : Report σ) (data : Option Value) : List (Job σ) :=
  (r.left.filter fun job => stands data job.1).map Prod.snd

variable {r : Report σ} {data : Option Value}

@[simp] theorem due_none : r.due none = [] := by simp [due]

@[simp] theorem due_null : r.due (some .null) = [] := by simp [due]

theorem due_below (segment : Segment) :
    ((r.left.map fun job => (segment :: job.1, job.2)).filter fun job => stands data job.1).map
      Prod.snd = r.due (data.bind (·.child? segment)) := by
  rw [due, List.filter_map, List.map_map]
  simp only [Function.comp_def, stands_cons]

theorem due_followed {ticket : Nat} {job : Job σ} (h : stands data []) :
    (followed r ticket job).due data = r.due data ++ [job] := by
  simp [due, left, h]

@[simp] theorem due_nullable : (nullable r).due data = r.due data := by simp [due, left]

theorem due_list (items : List (Report σ)) : (list items).due data =
    items.zipIdx.flatMap fun item => item.1.due (data.bind (·.child? (.index item.2))) := by
  suffices ∀ i, ((leftByItems i items).filter fun job => stands data job.1).map Prod.snd =
      (items.zipIdx i).flatMap fun item => item.1.due (data.bind (·.child? (.index item.2))) by
    simpa [due, left] using this 0
  induction items with
  | nil => exact fun _ => rfl
  | cons r items ih =>
    intro i
    rw [leftByItems, List.filter_append, List.map_append, due_below, ih, List.zipIdx_cons,
      List.flatMap_cons]

theorem due_object {deferred : List (Nat × Job σ)} (fields : List (String × Report σ))
    (h : stands data []) : (object deferred fields).due data = deferred.map Prod.snd ++
      fields.flatMap fun field => field.2.due (data.bind (·.child? (.key field.1))) := by
  suffices ((leftByFields fields).filter fun job => stands data job.1).map Prod.snd =
      fields.flatMap fun field => field.2.due (data.bind (·.child? (.key field.1))) by
    simp [due, left, h, this, List.filter_map, Function.comp_def]
  induction fields with
  | nil => rfl
  | cons field fields ih =>
    rw [leftByFields, List.filter_append, List.map_append, due_below, ih, List.flatMap_cons]

end Report

/-! ## What is left -/

/-- Whether a report may be about some work: it leaves the deferred fragments of each object, and the
rest of each list. -/
inductive Leaves (I : World σ → Prop) (ctx : ExecutionContext σ) : Work σ → Path → Report σ → Prop
  | fields {object source collected path deferred} {fields : List (String × Report σ)}
    (hdeferred : deferred.map Prod.snd = collected.deferred.map (Job.deferred object source path))
    (hgroups : fields.map Prod.fst <+: collected.groups.map Prod.fst)
    (hall : (Report.object deferred fields).isError = false →
      fields.map Prod.fst = collected.groups.map Prod.fst)
    (hfields : ∀ (i : Nat) key uses r, collected.groups[i]? = some (key, uses) →
      fields[i]? = some (key, r) → Leaves I ctx (.field object source uses) (path.key key i) r) :
    Leaves I ctx (.fields object source collected) path (.object deferred fields)
  | absent {object source uses path}
    (h : ∀ use ∈ uses.head?, use.node.name.item ≠ "__typename" ∧
      object.field? use.node.name.item = none) :
    Leaves I ctx (.field object source uses) path .absent
  | typeName {object source use others path} (hname : use.node.name.item = "__typename") :
    Leaves I ctx (.field object source (use :: others)) path (.leaf (.string object.name))
  | unresolved {object source use others field path e}
    (hfield : object.field? use.node.name.item = some field)
    (hresolved : Resolved I ctx ⟨object, field, use, others⟩ source path (.error e)) :
    Leaves I ctx (.field object source (use :: others)) path (.absorbing field.type (.failed e))
  | resolved {object source use others field path value r}
    (hfield : object.field? use.node.name.item = some field)
    (hresolved : Resolved I ctx ⟨object, field, use, others⟩ source path (.ok value))
    (h : Leaves I ctx (.value ⟨object, field, use, others⟩ field.type value) path r) :
    Leaves I ctx (.field object source (use :: others)) path r
  | failed {plan t value path e} :
    Leaves I ctx (.value plan t value) path (.absorbing t (.failed e))
  | null {plan t value path} (hnull : value.isNull) :
    Leaves I ctx (.value plan t value) path (.absorbing t .null)
  | scalar {plan t value path s v} (ht : t.item? = none)
    (hs : ctx.schema.type? t.innermost = some (.scalar s)) :
    Leaves I ctx (.value plan t value) path (.absorbing t (.leaf v))
  | enum {plan t value path s v} (ht : t.item? = none)
    (hs : ctx.schema.type? t.innermost = some (.enum s)) :
    Leaves I ctx (.value plan t value) path (.absorbing t (.leaf v))
  | whole {plan t item value items initial remaining path reports} (ht : t.item? = some item)
    (hitems : value.items? = some items) (hcut : Cut I items initial remaining)
    (hlength : reports.length = initial.length)
    (hreports : ∀ (i : Nat) v r, initial[i]? = some v → reports[i]? = some r →
      Leaves I ctx (.value plan item v) (path.index i) r)
    (hwhole : remaining = none ∨ (Report.list reports).isError) :
    Leaves I ctx (.value plan t value) path (.absorbing t (.list reports))
  | begun {plan t item value items initial source path reports ticket label}
    (ht : t.item? = some item) (hitems : value.items? = some items)
    (hcut : Cut I items initial (some source)) (hlength : reports.length = initial.length)
    (hreports : ∀ (i : Nat) v r, initial[i]? = some v → reports[i]? = some r →
      Leaves I ctx (.value plan item v) (path.index i) r)
    (herror : (Report.list reports).isError = false) :
    Leaves I ctx (.value plan t value) path (.absorbing t
      (.followed (.list reports) ticket (.streamed plan item path label initial.length source)))
  | object {plan t value path object collected r} (ht : t.item? = none)
    (hchosen : Chosen I ctx plan path value t.innermost object)
    (hcollected : ctx.subfields object plan.uses = some collected)
    (h : Leaves I ctx (.fields object value collected) path r) :
    Leaves I ctx (.value plan t value) path (.absorbing t r)

variable {I : World σ → Prop} {ctx : ExecutionContext σ}

/-- Whether completing values leaves what it should. -/
def Completer.Leaves (I : World σ → Prop) (ctx : ExecutionContext σ) (complete : Completer σ) : Prop :=
  ∀ plan t path value r, Yields I (complete plan t path value) r →
    GraphQL.Leaves I ctx (.value plan t value) path (r.absorbing t)

section

variable {complete completeField : Completer σ} {object : ObjectType σ} {source : HostValue}
  {path : Path} {plan : FieldPlan σ} {item t : TypeRef} {value : HostValue} {r : Report σ}

theorem FieldReport.leaves (hcomplete : completeField.Leaves I ctx) {uses : List FieldUse}
    (h : FieldReport I ctx completeField object source path uses r) :
    Leaves I ctx (.field object source uses) path r := by
  cases h with
  | unused => exact .absent (by simp)
  | unknown hname hfield => exact .absent (by simpa using ⟨hname, hfield⟩)
  | typeName hname => exact .typeName hname
  | unresolved _ hfield hresolved => exact .unresolved hfield hresolved
  | resolved _ hfield hresolved hr => exact .resolved hfield hresolved (hcomplete _ _ _ _ _ hr)

theorem ObjectReport.leaves (hcomplete : completeField.Leaves I ctx) {isSerial : Bool}
    {collected : Collected} {deferred : List (Nat × Job σ)} {fields : List (String × Report σ)}
    (h : ObjectReport I ctx completeField isSerial object source path collected deferred fields) :
    Leaves I ctx (.fields object source collected) path (.object deferred fields) := by
  refine .fields h.jobs ?_ (fun herror => h.keys ?_) fun i key uses r hgroup hr => ?_
  · have hkeys := h.executed.prefix_keys
    rwa [fieldWork_keys] at hkeys
  · rw [Report.isError_object] at herror
    simpa using herror
  · obtain ⟨uses', hgroup', hreport⟩ := h.field hr
    obtain rfl : uses' = uses := congrArg Prod.snd (Option.some.inj (hgroup'.symm.trans hgroup))
    exact hreport.leaves hcomplete

theorem ItemReports.leaves (hcomplete : complete.Leaves I ctx) {items : List HostValue}
    {reports : List (Report σ)} (h : ItemReports I complete plan item path items reports) (i : Nat)
    (v : HostValue) (r : Report σ) (hv : items[i]? = some v) (hr : reports[i]? = some r) :
    Leaves I ctx (.value plan item v) (path.index i) r := by
  obtain ⟨s, hs, rfl⟩ := yields_completeItem (h.item hv hr)
  exact hcomplete _ _ _ _ _ hs

theorem ValueReport.leaves (hcomplete : complete.Leaves I ctx)
    (hcompleteField : completeField.Leaves I ctx)
    (h : ValueReport I ctx complete completeField plan t path value r) :
    Leaves I ctx (.value plan t value) path (r.absorbing t) := by
  cases h with
  | failed => exact .failed
  | null hnull => exact .null hnull
  | scalar _ ht hs => exact .scalar ht hs
  | enum _ ht hs => exact .enum ht hs
  | list _ ht hr =>
    cases hr with
    | failed => exact .failed
    | whole hitems hcut hreports hwhole =>
      exact .whole ht hitems hcut hreports.length (hreports.leaves hcomplete) hwhole
    | begun hitems hcut hreports herror =>
      exact .begun ht hitems hcut hreports.length (hreports.leaves hcomplete) herror
  | object _ ht hchosen hcollected hr =>
    exact .object ht hchosen hcollected (hr.leaves hcompleteField)

end

theorem leaves_completeWithin (depth : Nat) (isStreamable : Bool) :
    (completeWithin ctx depth isStreamable).Leaves I ctx := by
  induction depth generalizing isStreamable with
  | zero => exact fun _ _ _ _ _ h => h.elim
  | succ depth ih =>
    intro plan t path value r h
    exact (yields_completeValue h).leaves (ih false) (ih true)

/-! ### What is left is due -/

theorem Report.Placed.of_absorbing {path : Path} {r : Report σ} {t : TypeRef}
    (h : (r.absorbing t).Placed path) : r.Placed path := by
  unfold Report.absorbing at h
  split at h
  · exact h
  · cases h with
    | nullable h => exact h

theorem Report.absorbing_ne_absent {r : Report σ} (h : r ≠ .absent) (t : TypeRef) :
    r.absorbing t ≠ .absent := by
  unfold Report.absorbing
  split
  · exact h
  · simp

namespace Report

variable {r : Report σ}

/-- Whether the jobs of a report, if no error escapes from it, are those that are due. -/
def Settled (r : Report σ) : Prop := r.isError = false → r.due r.value? = r.jobs.map Prod.snd

theorem Settled.absorbing (h : r.Settled) (t : TypeRef) : (r.absorbing t).Settled := by
  unfold Report.absorbing
  split
  · exact h
  · intro _
    rw [due_nullable, value?_nullable, jobs_nullable]
    cases herror : r.isError with
    | true => simp
    | false => simpa using h herror

theorem settled_list {path : Path} {items : List (Report σ)} (hplaced : (list items).Placed path)
    (h : ∀ r ∈ items, r.Settled) : (list items).Settled := by
  intro herror
  obtain ⟨v, hv⟩ := Option.isSome_iff_exists.mp (hplaced.present herror)
  rw [due_list, jobs_list, List.map_flatMap, hv]
  cases hplaced with
  | list hitems =>
    have hdue : ∀ item ∈ items.zipIdx, item.1.due ((some v).bind (·.child? (.index item.2))) =
        item.1.jobs.map Prod.snd := by
      rintro ⟨r, i⟩ hr
      have hi := List.mem_zipIdx_iff_getElem?.mp hr
      obtain ⟨hchild, hok⟩ := Placed.child?_list hitems hv hi
      rw [Option.bind_some, hchild]
      exact h r (List.mem_of_getElem? hi) hok
    have hjobs := congrArg (List.map fun r : Report σ => r.jobs.map Prod.snd) (List.zipIdx_map_fst 0 items)
    rw [List.map_map] at hjobs
    rw [List.flatMap_def, List.map_congr_left hdue, List.flatMap_def]
    exact congrArg List.flatten hjobs

theorem settled_object {path : Path} {deferred : List (Nat × Job σ)}
    {fields : List (String × Report σ)} (hplaced : (object deferred fields).Placed path)
    (h : ∀ field ∈ fields, field.2.Settled) : (object deferred fields).Settled := by
  intro herror
  obtain ⟨v, hv⟩ := Option.isSome_iff_exists.mp (hplaced.present herror)
  have hstands : stands (some v) [] := by
    rw [value?_object] at hv
    split at hv
    · cases hv
    · obtain rfl := Option.some.inj hv
      rfl
  rw [hv, due_object fields hstands, jobs_object, List.map_append, List.map_flatMap]
  cases hplaced with
  | object hkeys =>
    have hdue : ∀ field ∈ fields, field.2.due ((some v).bind (·.child? (.key field.1))) =
        field.2.jobs.map Prod.snd := by
      rintro ⟨key, r⟩ hr
      obtain ⟨hchild, hok⟩ := Placed.child?_object hkeys hv hr
      rw [Option.bind_some, hchild]
      exact h _ hr hok
    rw [List.flatMap_def, List.map_congr_left hdue, List.flatMap_def]

theorem settled_followed {items : List (Report σ)} {ticket : Nat} {job : Job σ}
    (h : (list items).Settled) : (followed (list items) ticket job).Settled := by
  intro herror
  have herror : (list items).isError = false := herror
  have hstands : stands (list items).value? [] := by
    rw [isError_list] at herror
    rw [value?_list, herror]
    rfl
  rw [value?_followed, due_followed hstands, jobs_followed, List.map_append, h herror]
  rfl

end Report

theorem exists_uses_of_prefix {fields : List (String × Report σ)}
    {groups : List (String × List FieldUse)} (h : fields.map Prod.fst <+: groups.map Prod.fst) {i : Nat} {key : String} {r : Report σ}
    (hr : fields[i]? = some (key, r)) : ∃ uses, groups[i]? = some (key, uses) := by
  obtain ⟨rest, hrest⟩ := h
  have hkey : (fields.map Prod.fst)[i]? = some key := by simp [hr]
  have hgroup : (fields.map Prod.fst ++ rest)[i]? = (fields.map Prod.fst)[i]? :=
    List.getElem?_append_left (List.getElem?_eq_some_iff.mp hkey).1
  rw [hrest, hkey, List.getElem?_map, Option.map_eq_some_iff] at hgroup
  obtain ⟨⟨_, uses⟩, hgroup, rfl⟩ := hgroup
  exact ⟨uses, hgroup⟩

theorem Leaves.settled {work : Work σ} {path : Path} {r : Report σ} (h : Leaves I ctx work path r)
    (hplaced : r ≠ .absent → r.Placed path) : r.Settled := by
  have hitems {initial : List HostValue} {reports : List (Report σ)} {path : Path} (hlength : reports.length = initial.length)
      (hplaced : (Report.list reports).Placed path)
      (ih : ∀ (i : Nat) v r, initial[i]? = some v → reports[i]? = some r →
        (r ≠ .absent → r.Placed (path.index i)) → r.Settled) : ∀ r ∈ reports, r.Settled := by
    intro r hr
    obtain ⟨i, hi⟩ := List.mem_iff_getElem?.mp hr
    have hlt : i < initial.length := hlength ▸ (List.getElem?_eq_some_iff.mp hi).1
    cases hplaced with
    | list hplaced => exact ih i _ r (List.getElem?_eq_getElem hlt) hi fun _ => hplaced i r hi
  induction h with
  | absent | typeName => exact fun _ => rfl
  | unresolved | failed | null | scalar | enum => exact Report.Settled.absorbing (fun _ => rfl) _
  | resolved _ _ _ ih => exact ih hplaced
  | fields _ hgroups _ _ ih =>
    have hplaced := hplaced nofun
    cases hplaced with
    | object hkeys hfields =>
      refine Report.settled_object (.object hkeys hfields) fun ⟨key, r⟩ hr => ?_
      obtain ⟨i, hi⟩ := List.mem_iff_getElem?.mp hr
      obtain ⟨uses, hgroup⟩ := exists_uses_of_prefix hgroups hi
      exact ih i key uses r hgroup hi (hfields i key r hi)
  | whole _ _ _ hlength _ _ ih =>
    have hplaced := (hplaced (Report.absorbing_ne_absent (by simp) _)).of_absorbing
    exact (Report.settled_list hplaced (hitems hlength hplaced ih)).absorbing _
  | begun _ _ _ hlength _ _ ih =>
    cases (hplaced (Report.absorbing_ne_absent (by simp) _)).of_absorbing with
    | followed hplaced =>
      have hlist := Report.settled_list hplaced (hitems hlength hplaced ih)
      exact (Report.settled_followed hlist).absorbing _
  | object _ _ _ h ih =>
    cases h with
    | fields =>
      have hplaced := (hplaced (Report.absorbing_ne_absent (by simp) _)).of_absorbing
      exact (ih fun _ => hplaced).absorbing _

/-! ## Jobs that come to their ends -/

/-- Whether a report may be about a job. The rest of a list is left after each item, unless an error
escapes from it. -/
inductive Job.Leaves (I : World σ → Prop) (ctx : ExecutionContext σ) : Job σ → Report σ → Prop
  | deferred {object source path fragment r}
    (h : GraphQL.Leaves I ctx (.fields object source fragment.fields) path r) :
    Job.Leaves I ctx (.deferred object source path fragment) r
  | ended {plan itemType path label index source} (h : source.values = []) :
    Job.Leaves I ctx (.streamed plan itemType path label index source) .absent
  | failed {plan itemType path label index source e} :
    Job.Leaves I ctx (.streamed plan itemType path label index source) (.failed e)
  | last {plan itemType path label index source v rest r}
    (hsource : source.values = v :: ItemSource.values rest)
    (h : GraphQL.Leaves I ctx (.value plan itemType v) (path.index index) r)
    (hlast : rest.isExhausted ∨ r.isError) :
    Job.Leaves I ctx (.streamed plan itemType path label index source) r
  | more {plan itemType path label index source v rest r ticket}
    (hsource : source.values = v :: ItemSource.values rest)
    (h : GraphQL.Leaves I ctx (.value plan itemType v) (path.index index) r)
    (herror : r.isError = false) :
    Job.Leaves I ctx (.streamed plan itemType path label index source)
      (.followed r ticket (.streamed plan itemType path label (index + 1) rest))

/-- Whether a job delivers one part, of its own place and label. There is none for a list that turns
out to have no more items. -/
def Job.Answered (part : Option Part) : Job σ → Prop
  | .deferred _ _ path fragment => ∃ data errors, part = some ⟨.fields data, errors, path, fragment.label⟩
  | .streamed _ _ path label index source =>
    (∃ items errors, part = some ⟨.items items, errors, path.index index, label⟩) ∨
      part = none ∧ source.values = []

/-- What was completed, without the job that goes on after it. -/
def Report.completed : Report σ → Report σ
  | followed inner _ _ => inner
  | r => r

/-- The jobs that are due after a job: those whose places stand in the data of its part, and the one
that goes on with the same list. -/
def Finished.due (f : Finished σ) : List (Job σ) :=
  f.report.completed.due (f.part.bind Part.data?) ++ f.report.rest?.toList

theorem leaves_job {job : Job σ} {r : Report σ} (h : Yields I (job.execute ctx) r) :
    job.Leaves I ctx r := by
  cases yields_execute h with
  | deferred hreport => exact .deferred (hreport.leaves (leaves_completeWithin _ _))
  | ended hsource => exact .ended hsource
  | failed => exact .failed
  | last hsource hitem hlast =>
    obtain ⟨s, hs, rfl⟩ := yields_completeItem hitem
    exact .last hsource (leaves_completeWithin _ _ _ _ _ _ _ hs) hlast
  | more hsource hitem herror =>
    obtain ⟨s, hs, rfl⟩ := yields_completeItem hitem
    exact .more hsource (leaves_completeWithin _ _ _ _ _ _ _ hs) herror

section

variable {root : ObjectType σ} {job : Job σ} {r : Report σ} {plan : FieldPlan σ} {itemType : TypeRef}
  {path : Path} {label : Option String} {index : Nat} {source : ItemSource}

theorem Report.value?_of_isError (h : r.isError) : r.value? = none := by
  cases hv : r.value? with
  | none => rfl
  | some v => simp [isError_of_value? hv] at h

theorem Report.Settled.queued (h : r.Settled) : r.outcome.queued.Perm (r.due r.value?) := by
  by_cases herror : r.isError
  · rw [Report.value?_of_isError herror, Report.due_none]
    unfold Report.isError at herror
    simp [Outcome.queued, herror]
  · have herror : r.isError = false := by simpa using herror
    rw [h herror]
    exact Outcome.queued_perm herror

theorem data?_part_streamed :
    ((Job.streamed plan itemType path label index source).part r).bind Part.data? = r.value? := by
  unfold Report.value? Outcome.value?
  simp only [Job.part]
  split <;> rename_i h <;> simp [h, Part.data?]

theorem answered_streamed (h : r.isError = false → r.value?.isSome ∨ source.values = []) :
    (Job.streamed plan itemType path label index source).Answered
      ((Job.streamed plan itemType path label index source).part r) := by
  unfold Report.value? Report.isError Outcome.value? Outcome.isError at h
  simp only [Job.part]
  split
  · next hresult =>
    simp only [hresult, Option.isSome_none, Bool.false_eq_true, false_or, forall_const] at h
    exact .inr ⟨rfl, h⟩
  · exact .inl ⟨_, _, rfl⟩
  · exact .inl ⟨_, _, rfl⟩

theorem placed_listItem {v : HostValue}
    (h : Yields I (completeItem (completeListItem ctx) plan itemType path v) r) : r.Placed path := by
  obtain ⟨s, hs, rfl⟩ := yields_completeItem h
  exact (places_completeWithin _ _ _ _ _ _ _ hs).absorbing itemType

theorem answered_job (h : Yields I (job.execute ctx) r) : job.Answered (job.part r) := by
  cases yields_execute h with
  | deferred => exact ⟨_, _, rfl⟩
  | ended hsource => exact answered_streamed fun _ => .inr hsource
  | failed => exact .inl ⟨_, _, rfl⟩
  | last _ hitem => exact answered_streamed fun herror => .inl ((placed_listItem hitem).present herror)
  | more _ hitem herror => exact answered_streamed fun _ => .inl ((placed_listItem hitem).present herror)

theorem settled_listItem {v : HostValue}
    (h : Yields I (completeItem (completeListItem ctx) plan itemType path v) r) : r.Settled := by
  have hplaced := placed_listItem h
  obtain ⟨s, hs, rfl⟩ := yields_completeItem h
  exact (leaves_completeWithin _ _ _ _ _ _ _ hs).settled fun _ => hplaced

theorem Report.completed_of_rest? (h : r.rest? = none) : r.completed = r := by
  cases r <;> first | rfl | cases h

theorem queued_last (hrest : r.rest? = none) (h : r.Settled) (hasNext : Bool) :
    r.outcome.queued.Perm
      (Finished.due ⟨.streamed plan itemType path label index source, r, hasNext⟩) := by
  unfold Finished.due Finished.part
  rw [data?_part_streamed, hrest, Report.completed_of_rest? hrest]
  simpa using h.queued

theorem queued_job (hjob : job.Declared ctx root) (h : Yields I (job.execute ctx) r)
    (hasNext : Bool) : r.outcome.queued.Perm (Finished.due ⟨job, r, hasNext⟩) := by
  cases yields_execute h with
  | @deferred object source path fragment deferred fields hreport =>
    obtain ⟨collected, hplace, hfragment⟩ := hjob
    have hplaced := hreport.placed (places_completeWithin _ _) (hplace.grouped.deferred _ hfragment)
    have hsettled := (hreport.leaves (leaves_completeWithin _ _)).settled fun _ => hplaced
    unfold Finished.due Finished.part
    simp only [Job.part, Option.bind_some, Part.data?, object?_object]
    simpa [Report.completed, Report.rest?] using hsettled.queued
  | ended | failed => exact queued_last rfl (fun _ => rfl) _
  | last _ hitem => exact queued_last (rest?_completeListItem hitem) (settled_listItem hitem) _
  | @more _ _ _ _ index _ v rest r ticket _ hitem herror =>
    unfold Finished.due Finished.part
    rw [data?_part_streamed]
    refine (Outcome.queued_perm (by exact herror)).trans (.of_eq ?_)
    change (Report.followed r ticket _).jobs.map Prod.snd = r.due r.value? ++ _
    rw [Report.jobs_followed, List.map_append, settled_listItem hitem herror]
    rfl

end

/-! ## Histories -/

/-- Whether the jobs that came to their ends and those that are left are the ones that were due at
first and the ones that became due since, each as often, and none of them before it was due. -/
structure Accounts (I : World σ → Prop) (ctx : ExecutionContext σ) (due : List (Job σ))
    (history : List (Finished σ)) (left : List (Job σ)) : Prop where
  once : (history.map (·.job) ++ left).Perm (due ++ history.flatMap Finished.due)
  inTurn : ∀ before f after, history = before ++ f :: after →
    ((before ++ [f]).map (·.job)).Subperm (due ++ before.flatMap Finished.due)
  leaves : ∀ f ∈ history, f.job.Leaves I ctx f.report
  answered : ∀ f ∈ history, f.job.Answered f.part

namespace Unfolds

variable {root : ObjectType σ} {jobs left : List (Job σ)} {history : List (Finished σ)}

theorem exists_split {before after : List (Finished σ)} (h : Unfolds I ctx jobs (before ++ after) left) :
    ∃ between, Unfolds I ctx jobs before between ∧ Unfolds I ctx between after left := by
  induction before generalizing jobs with
  | nil => exact ⟨jobs, .refl, h⟩
  | cons f before ih =>
    cases h with
    | cons hjobs hyields hrest =>
      obtain ⟨between, hbefore, hafter⟩ := ih hrest
      exact ⟨between, .cons hjobs hyields hbefore, hafter⟩

theorem once (h : Unfolds I ctx jobs history left) (hjobs : ∀ job ∈ jobs, job.Declared ctx root) :
    (history.map (·.job) ++ left).Perm (jobs ++ history.flatMap Finished.due) := by
  have hdue : ∀ f ∈ history, f.report.outcome.queued.Perm f.due :=
    h.invariant (fun f hjob hyields =>
      ⟨queued_job hjob hyields f.hasNext, declared_of_job hjob hyields⟩) hjobs
  exact h.conserved.trans (.append_left _ (.flatMap_left _ hdue))

theorem accounts {due : List (Job σ)} (h : Unfolds I ctx jobs history left)
    (hjobs : ∀ job ∈ jobs, job.Declared ctx root) (hdue : jobs.Perm due) :
    Accounts I ctx due history left where
  once := (h.once hjobs).trans (hdue.append_right _)
  inTurn before f after heq := by
    subst heq
    obtain ⟨between, hbefore, hafter⟩ := h.exists_split
    cases hafter with
    | @cons _ others _ _ _ hbetween =>
      have honce := (hbefore.once hjobs).trans (hdue.append_right _)
      refine List.Subperm.trans ?_ ((hbetween.symm.append_left _).trans honce).subperm
      rw [List.map_append, List.map_singleton]
      exact ((List.singleton_sublist.mpr List.mem_cons_self).append_left _).subperm
  leaves := h.invariant (fun f _ hyields => ⟨leaves_job hyields, fun _ _ => trivial⟩) fun _ _ => trivial
  answered := h.invariant (fun f _ hyields => ⟨answered_job hyields, fun _ _ => trivial⟩)
    fun _ _ => trivial

end Unfolds

/-! ## Responses -/

/-- Whether the later payloads of a response deliver all that is due, and nothing else, where the
report tells what the first payload leaves. -/
def Response.Accounted (report : Report σ) : Response σ → Prop
  | .single result => report.due (result.data.map .object) = []
  | .incremental initial ctx jobs =>
    (∀ history d, Delivers ctx jobs history d →
      Accounts (fun _ => True) ctx (report.due (some (.object initial.data))) history d.jobs) ∧
    ∀ w payloads v, laterPayloads ctx jobs w = some (payloads, v) → ∃ history,
      payloads.flatMap (·.parts) = partsOf history ∧
      Accounts (fun _ => True) ctx (report.due (some (.object initial.data))) history []

/-- Whatever the callbacks of the host do, a request is refused, or each job that its payloads leave
is delivered as often as its place stands in their data. -/
theorem executeIncrementally_accounted {r : Request σ} {w w' : World σ} {response : Response σ}
    (h : r.executeIncrementally w = some (response, w')) :
    (∃ e, r.prepare = .error e ∧ response = .single e.result) ∨
      ∃ ctx root collected report v, r.prepare = .ok (ctx, root) ∧
        ctx.rootFields root = some collected ∧
        (executeRoot ctx root).run ctx.bounds.rounds
          (w.trace (.executing ctx.operation.name?)) = some (report, v) ∧
        Responds ctx report response ∧
        Leaves (fun _ => True) ctx (.fields root ctx.root collected) .root report ∧
        response.Accounted report := by
  rcases executeIncrementally_cases h with hrefused | ⟨ctx, root, report, v, hprepare, hrun, hr, -⟩
  · exact .inl hrefused
  · have hyields := run_possible hrun
    obtain ⟨collected, deferred, fields, rfl, hcollected, hreport⟩ := yields_executeRoot hyields
    have hplaced := hreport.placed (places_completeWithin _ _)
      (ExecutionContext.grouped_rootFields hcollected)
    have hleaves := hreport.leaves (leaves_completeWithin _ _)
    have hjobs := declared_of_queued (jobsDeclared_executeRoot hyields)
    have hdue := (hleaves.settled fun _ => hplaced).queued
    rw [← object?_object] at hdue
    refine .inr ⟨ctx, root, collected, _, v, hprepare, hcollected, hrun, hr, hleaves, ?_⟩
    cases hr with
    | single hsingle =>
      rcases hsingle with hnone | hqueued
      · unfold Response.Accounted
        rw [hnone]
        exact Report.due_none
      · rw [hqueued] at hdue
        exact List.nil_perm.mp hdue
    | incremental hobject =>
      rw [hobject] at hdue
      refine ⟨fun history d hdelivers => hdelivers.unfolds.accounts hjobs hdue, fun w payloads v hlater => ?_⟩
      simp only [laterPayloads, Option.bind_eq_bind, Option.bind_eq_some_iff] at hlater
      obtain ⟨⟨history, u⟩, hrun, hlater⟩ := hlater
      obtain ⟨rfl, rfl⟩ : _ = payloads ∧ u = v := by simpa using hlater
      have hunfolds := runJobs_unfolds Course.any (tame_any ctx) (fun _ _ => trivial) trivial hrun
      rw [between_any] at hunfolds
      exact ⟨history, parts_of_payloads history, hunfolds.accounts hjobs hdue⟩

theorem sampleRequest_accounted :
    ∃ initial ctx jobs w report payloads v,
      (sampleRequest [.int 1, .int 2]).executeIncrementally sampleWorld =
        some (.incremental initial ctx jobs, w) ∧
      laterPayloads ctx jobs w = some (payloads, v) ∧ payloads.length = 3 ∧
      Response.Accounted report (.incremental initial ctx jobs) := by
  have hanswered : ((sampleRequest [.int 1, .int 2]).executeIncrementally sampleWorld).any fun
      | (.incremental _ ctx jobs, w) => (laterPayloads ctx jobs w).any fun (payloads, _) =>
          payloads.length = 3
      | (.single _, _) => false := by decide +kernel
  obtain ⟨⟨response, w⟩, h, hlater⟩ := (Option.any_eq_true _ _).mp hanswered
  cases response with
  | single => cases hlater
  | incremental initial ctx jobs =>
    obtain ⟨⟨payloads, v⟩, hpayloads, hlength⟩ := (Option.any_eq_true _ _).mp hlater
    rcases executeIncrementally_accounted h with ⟨e, -, he⟩ | ⟨_, _, _, report, _, -, -, -, -, -, hr⟩
    · cases he
    · exact ⟨initial, ctx, jobs, w, report, payloads, v, h, hpayloads, by simpa using hlength, hr⟩

end GraphQL
