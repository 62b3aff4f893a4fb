import GraphQL.Execution.Completion
import GraphQL.Proofs.Execution.Process.Answers
import GraphQL.Proofs.Schema.Attempts
import GraphQL.Proofs.Execution.Report

/-! # What completing reports

One statement for each step of the executor: what a report about an object, a field, a list or a
value may be, in terms of the reports of the work below.
-/

namespace GraphQL

open Process Completing

variable {σ : Type} {I : World σ → Prop}

/-! ## Objects and fields -/

/-- Whether reports are about some fields: all of them, unless they are executed one after the other
and an error escapes from the last that was executed. -/
inductive Executed (I : World σ → Prop) (isSerial : Bool) :
    List (String × Completing σ) → List (String × Report σ) → Prop
  | nil : Executed I isSerial [] []
  | stopped {key p rest r} (hserial : isSerial) (h : Yields I p r) (hr : r.isError) :
    Executed I isSerial ((key, p) :: rest) [(key, r)]
  | cons {key p rest r reports} (h : Yields I p r) (hr : isSerial → r.isError = false)
    (hrest : Executed I isSerial rest reports) :
    Executed I isSerial ((key, p) :: rest) ((key, r) :: reports)

theorem executed_of_forall₂ {fields : List (String × Completing σ)} {reports : List (Report σ)}
    (h : List.Forall₂ (Yields I) (fields.map Prod.snd) reports) :
    Executed I false fields ((fields.map Prod.fst).zip reports) := by
  induction fields generalizing reports with
  | nil => exact .nil
  | cons field fields ih =>
    obtain ⟨r, rest, hr, hrest, rfl⟩ := List.forall₂_cons_left_iff.mp h
    exact .cons hr (by simp) (ih hrest)

theorem executed_of_sideBySide {deferred : List (Nat × Job σ)}
    {fields : List (String × Completing σ)} {r : Report σ}
    (h : Yields I (sideBySide deferred fields) r) :
    ∃ reports, r = .object deferred reports ∧ Executed I false fields reports := by
  obtain ⟨reports, hreports, rfl⟩ := h
  exact ⟨_, rfl, executed_of_forall₂ (yieldsAll_iff.mp hreports)⟩

theorem executed_of_inSequence {deferred : List (Nat × Job σ)} {finished : List (String × Report σ)}
    {fields : List (String × Completing σ)} {r : Report σ}
    (h : Yields I (inSequence deferred finished fields) r) :
    ∃ reports, r = .object deferred (finished ++ reports) ∧ Executed I true fields reports := by
  induction fields generalizing finished with
  | nil => exact ⟨[], by simpa [inSequence] using h, .nil⟩
  | cons field fields ih =>
    obtain ⟨s, hs, h⟩ := yields_bind.mp h
    by_cases herror : s.isError
    · rw [if_pos herror] at h
      exact ⟨[(field.1, s)], h, .stopped rfl hs herror⟩
    · rw [if_neg herror] at h
      obtain ⟨reports, rfl, hreports⟩ := ih h
      exact ⟨(field.1, s) :: reports, by simp, .cons hs (by simpa using herror) hreports⟩

/-- A report about an object on which fields were collected. -/
structure ObjectReport (I : World σ → Prop) (ctx : ExecutionContext σ) (completeField : Completer σ)
    (isSerial : Bool) (object : ObjectType σ) (source : HostValue) (path : Path)
    (collected : Collected) (deferred : List (Nat × Job σ)) (fields : List (String × Report σ)) :
    Prop where
  jobs : deferred.map Prod.snd = collected.deferred.map (Job.deferred object source path)
  executed : Executed I isSerial
    (fieldWork ctx completeField object source path collected.groups) fields

variable {ctx : ExecutionContext σ} {complete completeField : Completer σ} {isSerial : Bool}
  {object : ObjectType σ} {source : HostValue} {path : Path} {collected : Collected}

theorem yields_executeObject {r : Report σ}
    (h : Yields I (executeObject ctx completeField isSerial object source path collected) r) :
    ∃ deferred fields, r = .object deferred fields ∧
      ObjectReport I ctx completeField isSerial object source path collected deferred fields := by
  obtain ⟨w, -, -, h⟩ := h
  have hjobs (jobs : List (Job σ)) (n : Nat) :
      ((jobs.zipIdx n).map fun entry => (entry.2, entry.1)).map Prod.snd = jobs := by
    rw [List.map_map]
    exact List.zipIdx_map_fst n jobs
  cases isSerial with
  | false =>
    obtain ⟨fields, rfl, hfields⟩ := executed_of_sideBySide h
    exact ⟨_, fields, rfl, hjobs _ _, hfields⟩
  | true =>
    obtain ⟨fields, rfl, hfields⟩ := executed_of_inSequence h
    exact ⟨_, fields, rfl, hjobs _ _, hfields⟩

/-- A report about a field with the given uses. -/
inductive FieldReport (I : World σ → Prop) (ctx : ExecutionContext σ) (completeField : Completer σ)
    (object : ObjectType σ) (source : HostValue) (path : Path) :
    List FieldUse → Report σ → Prop
  | unused : FieldReport I ctx completeField object source path [] .absent
  | typeName {use others} (hname : use.node.name.item = "__typename") :
    FieldReport I ctx completeField object source path (use :: others)
      (.leaf (.string object.name))
  | unknown {use others} (hname : use.node.name.item ≠ "__typename")
    (hfield : object.field? use.node.name.item = none) :
    FieldReport I ctx completeField object source path (use :: others) .absent
  | unresolved {use others field e} (hname : use.node.name.item ≠ "__typename")
    (hfield : object.field? use.node.name.item = some field)
    (hresolved : Resolved I ctx ⟨object, field, use, others⟩ source path (.error e)) :
    FieldReport I ctx completeField object source path (use :: others)
      (.absorbing field.type (.failed e))
  | resolved {use others field v r} (hname : use.node.name.item ≠ "__typename")
    (hfield : object.field? use.node.name.item = some field)
    (hresolved : Resolved I ctx ⟨object, field, use, others⟩ source path (.ok v))
    (hr : Yields I (completeField ⟨object, field, use, others⟩ field.type path v) r) :
    FieldReport I ctx completeField object source path (use :: others) (r.absorbing field.type)

theorem yields_executeField {uses : List FieldUse} {r : Report σ}
    (h : Yields I (executeField ctx completeField object source uses path) r) :
    FieldReport I ctx completeField object source path uses r := by
  unfold executeField at h
  split at h
  · obtain rfl := h
    exact .unused
  · split at h
    · next hname =>
      obtain rfl := h
      exact .typeName hname
    · next hname =>
      split at h
      · next hfield =>
        obtain rfl := h
        exact .unknown hname hfield
      · next hfield =>
        obtain ⟨s, hs, rfl⟩ := yields_map.mp h
        obtain ⟨x, hx, hs⟩ := yields_resolveField.mp hs
        cases x with
        | error e =>
          obtain rfl := hs
          exact .unresolved hname hfield hx
        | ok v => exact .resolved hname hfield hx hs

theorem fieldWork_getElem? {groups : List (String × List FieldUse)} (i : Nat) :
    (fieldWork ctx completeField object source path groups)[i]? = groups[i]?.map fun group =>
      (group.1, executeField ctx completeField object source group.2 (path.key group.1 i)) := by
  simp only [fieldWork, List.getElem?_map, List.getElem?_zipIdx]
  cases groups[i]? with
  | none => rfl
  | some group => simp

theorem fieldWork_keys (groups : List (String × List FieldUse)) :
    (fieldWork ctx completeField object source path groups).map Prod.fst = groups.map Prod.fst := by
  apply List.ext_getElem?
  intro i
  rw [List.getElem?_map, List.getElem?_map, fieldWork_getElem?, Option.map_map]
  rfl

theorem Executed.getElem? {fields : List (String × Completing σ)}
    {reports : List (String × Report σ)} (h : Executed I isSerial fields reports) {i : Nat}
    {key : String} {r : Report σ} (hr : reports[i]? = some (key, r)) :
    ∃ p, fields[i]? = some (key, p) ∧ Yields I p r := by
  induction h generalizing i with
  | nil => simp at hr
  | @stopped key' p rest r' hserial h herror =>
    cases i with
    | zero =>
      obtain ⟨rfl, rfl⟩ : key' = key ∧ r' = r := by simpa using hr
      exact ⟨_, rfl, h⟩
    | succ i => simp at hr
  | @cons key' p rest r' reports h herror hrest ih =>
    cases i with
    | zero =>
      obtain ⟨rfl, rfl⟩ : key' = key ∧ r' = r := by simpa using hr
      exact ⟨_, rfl, h⟩
    | succ i => exact ih (by simpa using hr)

theorem Executed.keys {fields : List (String × Completing σ)} {reports : List (String × Report σ)}
    (h : Executed I isSerial fields reports) (herror : ∀ field ∈ reports, field.2.isError = false) :
    reports.map Prod.fst = fields.map Prod.fst := by
  induction h with
  | nil => rfl
  | stopped hserial h hr => simp [hr] at herror
  | cons h hr hrest ih => simp [ih fun field hfield => herror field (List.mem_cons_of_mem _ hfield)]

namespace ObjectReport

variable {deferred : List (Nat × Job σ)} {fields : List (String × Report σ)}

theorem field
    (h : ObjectReport I ctx completeField isSerial object source path collected deferred fields)
    {i : Nat} {key : String} {r : Report σ} (hr : fields[i]? = some (key, r)) :
    ∃ uses, collected.groups[i]? = some (key, uses) ∧
      FieldReport I ctx completeField object source (path.key key i) uses r := by
  obtain ⟨p, hp, hr⟩ := h.executed.getElem? hr
  rw [fieldWork_getElem?, Option.map_eq_some_iff] at hp
  obtain ⟨⟨key', uses⟩, hgroup, heq⟩ := hp
  obtain ⟨rfl, rfl⟩ : key' = key ∧ _ = p := by simpa using heq
  exact ⟨uses, hgroup, yields_executeField hr⟩

theorem keys
    (h : ObjectReport I ctx completeField isSerial object source path collected deferred fields)
    (herror : ∀ field ∈ fields, field.2.isError = false) :
    fields.map Prod.fst = collected.groups.map Prod.fst := by
  rw [h.executed.keys herror, fieldWork_keys]

theorem forall_jobs {Q : Job σ → Prop}
    (h : ObjectReport I ctx completeField isSerial object source path collected deferred fields)
    (hdeferred : ∀ fragment ∈ collected.deferred, Q (.deferred object source path fragment))
    (hfields : ∀ (i : Nat) key r, fields[i]? = some (key, r) → ∀ job ∈ r.jobs, Q job.2) :
    ∀ job ∈ (Report.object deferred fields).jobs, Q job.2 := by
  rw [Report.jobs_object, List.forall_mem_append]
  constructor
  · intro job hjob
    have hmem : job.2 ∈ collected.deferred.map (Job.deferred object source path) :=
      h.jobs ▸ List.mem_map_of_mem hjob
    obtain ⟨fragment, hfragment, heq⟩ := List.mem_map.mp hmem
    rw [← heq]
    exact hdeferred fragment hfragment
  · intro job hjob
    obtain ⟨⟨key, r⟩, hr, hjob⟩ := List.mem_flatMap.mp hjob
    obtain ⟨i, hi⟩ := List.mem_iff_getElem?.mp hr
    exact hfields i key r hi job hjob

end ObjectReport

/-! ## The errors of asking -/

variable {plan : FieldPlan σ} {e : ExecutionError}

theorem path_of_arguments (h : plan.arguments ctx path = .error e) : e.path = path := by
  obtain ⟨_, -, rfl⟩ := mapError_eq_error h
  rfl

theorem path_of_streaming (h : plan.streaming path ctx = .error e) : e.path = path := by
  unfold FieldPlan.streaming at h
  split at h
  · rcases bind_eq_error h with hargs | ⟨args, -, h⟩
    · obtain ⟨_, -, rfl⟩ := mapError_eq_error hargs
      rfl
    · split at h
      · simp [Pure.pure, Except.pure] at h
      · dsimp only at h
        split at h
        · obtain rfl := Except.error.inj h
          rfl
        · simp [Pure.pure, Except.pure] at h
  · simp at h

theorem came_cases {events : List Event} {x : Except ExecutionError (Option (HostValue × List Event))}
    (h : Came I plan path events x) :
    (∃ e, x = .error e ∧ e.path = path) ∨ events = [] ∧ x = .ok none ∨
      ∃ e rest v, events = e :: rest ∧ e.result = .ok v ∧ x = .ok (some (v, rest)) := by
  obtain ⟨w, -, h⟩ := yields_of_look h
  split at h
  · obtain rfl := h
    exact .inl ⟨_, rfl, rfl⟩
  · cases events with
    | nil =>
      obtain rfl := h
      exact .inr (.inl ⟨rfl, rfl⟩)
    | cons event rest =>
      rcases h with ⟨-, _, -, -, h⟩ | ⟨_, -, h⟩
      · obtain rfl := h
        exact .inl ⟨_, rfl, rfl⟩
      · split at h
        · next v hv =>
          obtain rfl := h
          exact .inr (.inr ⟨event, rest, v, rfl, hv, rfl⟩)
        · obtain rfl := h
          exact .inl ⟨_, rfl, rfl⟩

/-- The items among some events. -/
def itemsOf (events : List Event) : List HostValue := events.filterMap (·.result.toOption)

@[simp] theorem itemsOf_nil : itemsOf [] = [] := rfl

theorem itemsOf_cons {event : Event} {v : HostValue} (h : event.result = .ok v)
    (rest : List Event) : itemsOf (event :: rest) = v :: itemsOf rest := by
  simp [itemsOf, h, Except.toOption]

/-- What may be taken of some events: an error at the place, or the first items. -/
theorem taken_cases {limit : Option Nat} {events : List Event} {items : List HostValue}
    {x : Except ExecutionError (List HostValue × Option (List Event))}
    (h : Taken I plan path limit events items x) :
    (∃ e, x = .error e ∧ e.path = path) ∨
      ∃ more rest, x = .ok (items ++ more, rest) ∧ itemsOf events = more ++ itemsOf (rest.getD []) := by
  induction events generalizing items with
  | nil =>
    unfold Taken takeEvents at h
    split at h
    · -- The limit is reached.
      exact .inr ⟨[], some [], by simpa using h, rfl⟩
    · obtain ⟨y, hy, h⟩ := yields_nextEvent.mp h
      rcases came_cases hy with ⟨e, rfl, he⟩ | ⟨-, rfl⟩ | ⟨_, _, _, heq, -⟩
      · exact .inl ⟨e, h, he⟩
      · exact .inr ⟨[], none, by simpa using h, rfl⟩
      · simp at heq
  | cons event rest ih =>
    unfold Taken takeEvents at h
    split at h
    · -- The limit is reached.
      exact .inr ⟨[], some (event :: rest), by simpa using h, rfl⟩
    · obtain ⟨y, hy, h⟩ := yields_nextEvent.mp h
      rcases came_cases hy with ⟨e, rfl, he⟩ | ⟨heq, -⟩ | ⟨_, _, v, heq, hv, rfl⟩
      · exact .inl ⟨e, h, he⟩
      · simp at heq
      · obtain ⟨rfl, rfl⟩ := List.cons.inj heq
        rcases ih h with ⟨e, rfl, he⟩ | ⟨more, left, rfl, hitems⟩
        · exact .inl ⟨e, rfl, he⟩
        · refine .inr ⟨v :: more, left, by simp, ?_⟩
          rw [itemsOf_cons hv, hitems]
          rfl

theorem taken_all {events : List Event} {items : List HostValue}
    {x : Except ExecutionError (List HostValue × Option (List Event))}
    (h : Taken I plan path none events items x) {taken rest} (hx : x = .ok (taken, rest)) :
    rest = none := by
  induction events generalizing items with
  | nil =>
    unfold Taken takeEvents at h
    rw [if_neg (by simp)] at h
    obtain ⟨y, -, h⟩ := yields_nextEvent.mp h
    cases y <;> simp_all
  | cons e events ih =>
    unfold Taken takeEvents at h
    rw [if_neg (by simp)] at h
    obtain ⟨y, -, h⟩ := yields_nextEvent.mp h
    rcases y with _ | _ | ⟨v, _⟩
    · simp_all
    · simp_all
    · exact ih h

theorem path_of_resolved (h : Resolved I ctx plan source path (.error e)) : e.path = path := by
  obtain ⟨w, -, h⟩ := yields_of_look h
  split at h
  · obtain ⟨w, -, -, h⟩ := h
    obtain rfl := Except.error.inj h
    rfl
  · split at h
    · next harguments =>
      obtain rfl := Except.error.inj h
      exact path_of_arguments harguments
    · have h := yields_of_perform h
      split at h
      · simp at h
      · obtain ⟨x, -, h⟩ := yields_call.mp h
        obtain ⟨_, -, rfl⟩ := mapError_eq_error h.symm
        rfl

/-! ## Lists -/

def ItemSource.values : ItemSource → List HostValue
  | .ready items => items
  | .events arriving => itemsOf arriving

def HostValue.Items.values : HostValue.Items → List HostValue
  | .ready items => items
  | .stream _ events => itemsOf events

/-- How the items of a list may be cut in those that are completed at once and the others, if any
may be left. A stream that was read before has no items. -/
inductive Cut (I : World σ → Prop) : HostValue.Items → List HostValue → Option ItemSource → Prop
  | all {items} : Cut I items items.values none
  | some {items initial source} (h : items.values = initial ++ source.values) :
    Cut I items initial (some source)
  | read {identity events w} (hw : I w) (hw' : I (w.take identity)) (h : w.isTaken identity) :
    Cut I (.stream identity events) [] none

theorem getElem?_of_cut {items : HostValue.Items} {initial : List HostValue}
    {remaining : Option ItemSource} (h : Cut I items initial remaining) {i : Nat} {v : HostValue}
    (hv : initial[i]? = some v) : items.values[i]? = some v := by
  cases h with
  | all => exact hv
  | some h => rw [h, List.getElem?_append_left (List.getElem?_eq_some_iff.mp hv).1, hv]
  | read => simp at hv

/-- Reports about the items of a list. -/
structure ItemReports (I : World σ → Prop) (complete : Completer σ) (plan : FieldPlan σ)
    (itemType : TypeRef) (path : Path) (items : List HostValue) (reports : List (Report σ)) :
    Prop where
  length : reports.length = items.length
  item {i : Nat} {v : HostValue} {r : Report σ} (hv : items[i]? = some v)
    (hr : reports[i]? = some r) : Yields I (completeItem complete plan itemType (path.index i) v) r

/-- A report about a list. It is begun only if the field is streamed. -/
inductive ListReport (I : World σ → Prop) (ctx : ExecutionContext σ) (complete : Completer σ)
    (plan : FieldPlan σ) (itemType : TypeRef) (path : Path) (value : HostValue) : Report σ → Prop
  | failed {e : ExecutionError} (he : e.path = path) :
    ListReport I ctx complete plan itemType path value (.failed e)
  | whole {items initial remaining reports} (hitems : value.items? = some items)
    (hcut : Cut I items initial remaining)
    (hreports : ItemReports I complete plan itemType path initial reports)
    (hwhole : remaining = none ∨ (Report.list reports).isError) :
    ListReport I ctx complete plan itemType path value (.list reports)
  | begun {items initial source reports ticket label count} (hitems : value.items? = some items)
    (hcut : Cut I items initial (some source))
    (hreports : ItemReports I complete plan itemType path initial reports)
    (herror : (Report.list reports).isError = false)
    (hstreaming : plan.streaming path ctx = .ok (some (count, label))) :
    ListReport I ctx complete plan itemType path value
      (.followed (.list reports) ticket (.streamed plan itemType path label initial.length source))

variable {itemType : TypeRef} {r : Report σ}

theorem yields_completeItem {item : HostValue}
    (h : Yields I (completeItem complete plan itemType path item) r) :
    ∃ s, Yields I (complete plan itemType path item) s ∧ r = s.absorbing itemType :=
  yields_map.mp h

theorem yields_completeItems {items : List HostValue}
    (h : Yields I (completeItems complete plan itemType path items) r) :
    ∃ reports, r = .list reports ∧ ItemReports I complete plan itemType path items reports := by
  obtain ⟨reports, hreports, rfl⟩ := h
  have hall := yieldsAll_iff.mp hreports
  refine ⟨reports, rfl, by simpa using hall.length_eq.symm, ?_⟩
  intro i v r hv hr
  have hi : i < reports.length := (List.getElem?_eq_some_iff.mp hr).1
  have hget := hall.get (hall.length_eq.symm ▸ hi) hi
  simp only [List.get_eq_getElem, List.getElem_map, List.getElem_zipIdx, Nat.zero_add] at hget
  rwa [(List.getElem?_eq_some_iff.mp hv).2, (List.getElem?_eq_some_iff.mp hr).2] at hget

theorem yields_thenQueue {job : Job σ} {p : Completing σ} (h : Yields I (p.thenQueue job) r) :
    (Yields I p r ∧ r.isError) ∨
      ∃ s ticket, Yields I p s ∧ s.isError = false ∧ r = .followed s ticket job := by
  obtain ⟨s, hs, h⟩ := yields_bind.mp h
  split at h
  · next herror =>
    obtain rfl := h
    exact .inl ⟨hs, herror⟩
  · next herror =>
    obtain ⟨w, -, -, rfl⟩ := h
    exact .inr ⟨s, _, hs, by simpa using herror, rfl⟩

variable {value : HostValue} {items : HostValue.Items}

/-- The initial items are completed, and if there may be others, a job for them is queued unless an
error escapes. -/
theorem completeInitial_cases {label : Option String} {initial : List HostValue}
    {remaining : Option ItemSource}
    (h : Yields I (completeInitial complete plan itemType path label initial remaining) r) :
    ∃ reports, ItemReports I complete plan itemType path initial reports ∧
      (r = .list reports ∧ (remaining = none ∨ (Report.list reports).isError) ∨
        ∃ source ticket, remaining = some source ∧ (Report.list reports).isError = false ∧
          r = .followed (.list reports) ticket
            (.streamed plan itemType path label initial.length source)) := by
  cases remaining with
  | none =>
    obtain ⟨reports, rfl, hreports⟩ := yields_completeItems h
    exact ⟨reports, hreports, .inl ⟨rfl, .inl rfl⟩⟩
  | some source =>
    rcases yields_thenQueue h with ⟨h, herror⟩ | ⟨s, ticket, hs, herror, rfl⟩
    · obtain ⟨reports, rfl, hreports⟩ := yields_completeItems h
      exact ⟨reports, hreports, .inl ⟨rfl, .inr herror⟩⟩
    · obtain ⟨reports, rfl, hreports⟩ := yields_completeItems hs
      exact ⟨reports, hreports, .inr ⟨source, ticket, rfl, herror, rfl⟩⟩

theorem yields_completeInitial {label : Option String} {initial : List HostValue}
    {remaining : Option ItemSource} (hitems : value.items? = some items)
    (hcut : Cut I items initial remaining)
    (hstreaming : remaining.isSome → ∃ count, plan.streaming path ctx = .ok (some (count, label)))
    (h : Yields I (completeInitial complete plan itemType path label initial remaining) r) :
    ListReport I ctx complete plan itemType path value r := by
  obtain ⟨reports, hreports, ⟨rfl, hwhole⟩ | ⟨source, ticket, rfl, herror, rfl⟩⟩ :=
    completeInitial_cases h
  · exact .whole hitems hcut hreports hwhole
  · obtain ⟨count, hstreaming⟩ := hstreaming rfl
    exact .begun hitems hcut hreports herror hstreaming

theorem yields_completeItemsOf {isStreamable : Bool} {source : Option ItemSource}
    (hitems : value.items? = some items) (hnone : source = none → Cut I items [] none)
    (hsome : ∀ s, source = some s → items.values = s.values)
    (h : Yields I (completeItemsOf ctx complete isStreamable plan itemType path source) r) :
    ListReport I ctx complete plan itemType path value r := by
  unfold completeItemsOf at h
  split at h
  · next e he =>
    -- The arguments of `@stream` are not valid.
    obtain rfl := h
    cases isStreamable with
    | true => exact .failed (path_of_streaming he)
    | false => simp at he
  · next streaming hasked =>
    have hstreaming (active : streaming.isSome) : ∃ count,
        plan.streaming path ctx = .ok (some (count, streaming.bind Prod.snd)) := by
      obtain ⟨⟨count, label⟩, rfl⟩ := Option.isSome_iff_exists.mp active
      cases isStreamable with
      | true => exact ⟨count, hasked⟩
      | false => simp at hasked
    split at h
    · -- A stream that was read before.
      exact yields_completeInitial hitems (hnone rfl) (by simp) h
    · next all =>
      -- Items that are all there; a streamed field may leave some of them.
      have hall : Cut I items all none := by
        have hvalues : items.values = all := hsome _ rfl
        rw [← hvalues]
        exact .all
      split at h
      · split at h
        · refine yields_completeInitial hitems (.some ?_) (fun _ => hstreaming rfl) h
          rw [hsome _ rfl]
          exact (List.take_append_drop _ all).symm
        · exact yields_completeInitial hitems hall (by simp) h
      · exact yields_completeInitial hitems hall (by simp) h
    · next events =>
      -- Items that arrive.
      obtain ⟨x, hx, h⟩ := yields_takeEvents.mp h
      rcases taken_cases hx with ⟨e, rfl, he⟩ | ⟨initial, rest, rfl, hevents⟩
      · obtain rfl := h
        exact .failed he
      · have hvalues : items.values = initial ++ itemsOf (rest.getD []) :=
          (hsome _ rfl).trans hevents
        rw [List.nil_append] at h
        refine yields_completeInitial hitems ?_ (fun hrest => hstreaming ?_) h
        · cases rest with
          | none =>
            have hvalues : items.values = initial := by simpa using hvalues
            rw [← hvalues]
            exact .all
          | some rest => exact .some hvalues
        · cases streaming with
          | none => simp [taken_all hx rfl] at hrest
          | some streaming => rfl

theorem yields_completeList {isStreamable : Bool}
    (h : Yields I (completeList ctx complete isStreamable plan itemType path value) r) :
    ListReport I ctx complete plan itemType path value r := by
  unfold completeList at h
  split at h
  · obtain rfl := h
    exact .failed rfl
  · next all hitems =>
    exact yields_completeItemsOf hitems (by simp) (by rintro _ ⟨⟩; rfl) h
  · next identity events hitems =>
    obtain ⟨w, hw, hw', h⟩ := h
    dsimp only at h
    split at h
    · next hread => exact yields_completeItemsOf hitems (fun _ => .read hw hw' hread) (by simp) h
    · exact yields_completeItemsOf hitems (by simp) (by rintro _ ⟨⟩; rfl) h

/-! ## Values -/

/-- Whether values of the type called `name` may be objects of an object type. -/
def Schema.Allows (schema : Schema σ) (name : String) (object : ObjectType σ) : Prop :=
  ∃ t, schema.type? name = some t ∧ schema.isPossibleType t object.name ∧
    schema.type? object.name = some (.object object)

/-- Whether an object type may be found for a value of the type called `name`. -/
inductive Chosen (I : World σ → Prop) (ctx : ExecutionContext σ) (plan : FieldPlan σ) (path : Path)
    (value : HostValue) (name : String) (object : ObjectType σ) : Prop
  | declared (h : ctx.schema.type? name = some (.object object))
  | resolved {t : TypeDefinition σ} {found : Option String} (ht : ctx.schema.type? name = some t)
    (hfound : Typed I ctx t (plan.info ctx path) value (.ok found))
    (h : plan.runtimeObject path ctx.schema t found = .ok object)

theorem type?_eq_some {schema : Schema σ} {name : String} {t : TypeDefinition σ}
    (h : schema.type? name = some t) : t.name = name := by
  simpa using List.find?_some h

theorem Chosen.allows {name : String} (h : Chosen I ctx plan path value name object) :
    ctx.schema.Allows name object := by
  cases h with
  | declared h =>
    have hname : object.name = name := type?_eq_some h
    exact ⟨_, h, by simp [Schema.isPossibleType], hname ▸ h⟩
  | @resolved t found ht hfound h =>
    unfold FieldPlan.runtimeObject at h
    split at h
    · simp at h
    · next found =>
      split at h
      · simp at h
      · next o ho =>
        split at h
        · next hpossible =>
          obtain rfl := Except.ok.inj h
          have hname : o.name = found := type?_eq_some ho
          exact ⟨t, ht, hname ▸ hpossible, hname ▸ ho⟩
        · simp at h
      · simp at h

theorem Chosen.mono {J : World σ → Prop} (hJ : ∀ w, I w → J w) {name : String}
    (h : Chosen I ctx plan path value name object) : Chosen J ctx plan path value name object := by
  cases h with
  | declared h => exact .declared h
  | resolved ht hfound h => exact .resolved ht (yields_mono hJ hfound) h

/-- A report about a value of the type `t`. -/
inductive ValueReport (I : World σ → Prop) (ctx : ExecutionContext σ)
    (complete completeField : Completer σ) (plan : FieldPlan σ) (t : TypeRef) (path : Path)
    (value : HostValue) : Report σ → Prop
  | failed {e : ExecutionError} (he : e.path = path) :
    ValueReport I ctx complete completeField plan t path value (.failed e)
  | null (hnull : value.isNull) (ht : t.isNonNull = false) :
    ValueReport I ctx complete completeField plan t path value .null
  | scalar {s v} (hnull : value.isNull = false) (ht : t.item? = none)
    (hs : ctx.schema.type? t.innermost = some (.scalar s))
    (hv : plan.completeScalar path s value = .ok v) :
    ValueReport I ctx complete completeField plan t path value (.leaf v)
  | enum {s v} (hnull : value.isNull = false) (ht : t.item? = none)
    (hs : ctx.schema.type? t.innermost = some (.enum s))
    (hv : plan.completeEnum path s value = .ok v) :
    ValueReport I ctx complete completeField plan t path value (.leaf v)
  | list {item r} (hnull : value.isNull = false) (ht : t.item? = some item)
    (hr : ListReport I ctx complete plan item path value r) :
    ValueReport I ctx complete completeField plan t path value r
  | object {object collected deferred fields} (hnull : value.isNull = false) (ht : t.item? = none)
    (hchosen : Chosen I ctx plan path value t.innermost object)
    (hcollected : ctx.subfields object plan.uses = some collected)
    (hr : ObjectReport I ctx completeField false object value path collected deferred fields) :
    ValueReport I ctx complete completeField plan t path value (.object deferred fields)

theorem yields_subfields {uses : List FieldUse} (h : Yields I (match ctx.subfields object uses with
      | none => .unending
      | some collected =>
        executeObject ctx completeField false object value path collected) r) :
    ∃ collected deferred fields, r = .object deferred fields ∧
      ctx.subfields object uses = some collected ∧
      ObjectReport I ctx completeField false object value path collected deferred fields := by
  split at h
  · exact h.elim
  · next collected hcollected =>
    obtain ⟨deferred, fields, hr, hreport⟩ := yields_executeObject h
    exact ⟨collected, deferred, fields, hr, hcollected, hreport⟩

theorem yields_completeObject (h : Yields I (completeObject ctx completeField plan object path value) r) :
    (∃ e, r = .failed e ∧ e.path = path) ∨
      ∃ collected deferred fields, r = .object deferred fields ∧
        ctx.subfields object plan.uses = some collected ∧
        ObjectReport I ctx completeField false object value path collected deferred fields := by
  unfold completeObject at h
  dsimp only at h
  split at h
  · exact .inr (yields_subfields h)
  · obtain ⟨x, -, h⟩ := yields_call.mp h
    split at h
    · obtain rfl := h
      exact .inl ⟨_, rfl, rfl⟩
    · exact .inr (yields_subfields h)
    · obtain rfl := h
      exact .inl ⟨_, rfl, rfl⟩

theorem path_of_runtimeObject {schema : Schema σ} {t : TypeDefinition σ} {name : Option String}
    {e : ExecutionError} (h : plan.runtimeObject path schema t name = .error e) : e.path = path := by
  unfold FieldPlan.runtimeObject at h
  split at h
  · obtain rfl := Except.error.inj h
    rfl
  · split at h
    · obtain rfl := Except.error.inj h
      rfl
    · split at h
      · simp at h
      · obtain rfl := Except.error.inj h
        rfl
    · obtain rfl := Except.error.inj h
      rfl

theorem path_of_completeScalar {t : ScalarType} {e : ExecutionError}
    (h : plan.completeScalar path t value = .error e) : e.path = path := by
  unfold FieldPlan.completeScalar at h
  split at h
  · obtain rfl := Except.error.inj h
    rfl
  · split at h
    · obtain rfl := Except.error.inj h
      rfl
    · split at h
      · obtain rfl := Except.error.inj h
        rfl
      · simp at h

theorem path_of_completeEnum {t : EnumType} {e : ExecutionError}
    (h : plan.completeEnum path t value = .error e) : e.path = path := by
  unfold FieldPlan.completeEnum at h
  split at h
  · simp at h
  · obtain rfl := Except.error.inj h
    rfl

theorem yields_completeAbstract {t : TypeRef} {d : TypeDefinition σ}
    (hnull : value.isNull = false) (ht : t.item? = none)
    (hd : ctx.schema.type? t.innermost = some d)
    (h : Yields I (completeAbstract ctx completeField plan d path value) r) :
    ValueReport I ctx complete completeField plan t path value r := by
  obtain ⟨x, hx, h⟩ := yields_resolveType.mp h
  split at h
  · obtain rfl := h
    exact .failed rfl
  · split at h
    · next e he =>
      obtain rfl := h
      exact .failed (path_of_runtimeObject he)
    · next object hobject =>
      rcases yields_completeObject h with ⟨e, rfl, he⟩ | ⟨collected, deferred, fields, rfl, hc, hr⟩
      · exact .failed he
      · exact .object hnull ht (.resolved hd hx hobject) hc hr

theorem yields_completeValue {isStreamable : Bool} {t : TypeRef}
    (h : Yields I (completeValue ctx complete completeField isStreamable plan t path value) r) :
    ValueReport I ctx complete completeField plan t path value r := by
  unfold completeValue at h
  split at h
  · next hnull =>
    split at h
    · obtain rfl := h
      exact .failed rfl
    · next ht =>
      obtain rfl := h
      exact .null hnull (by simpa using ht)
  · next hnull =>
    have hnull : value.isNull = false := by simpa using hnull
    split at h
    · next item ht => exact .list hnull ht (yields_completeList h)
    · next ht =>
      split at h
      · next s hs =>
        obtain rfl := h
        cases hv : plan.completeScalar path s value with
        | error e => exact .failed (path_of_completeScalar hv)
        | ok v => exact .scalar hnull ht hs hv
      · next s hs =>
        obtain rfl := h
        cases hv : plan.completeEnum path s value with
        | error e => exact .failed (path_of_completeEnum hv)
        | ok v => exact .enum hnull ht hs hv
      · next object ho =>
        rcases yields_completeObject h with ⟨e, rfl, he⟩ | ⟨collected, deferred, fields, rfl, hc, hr⟩
        · exact .failed he
        · exact .object hnull ht (.declared ho) hc hr
      · next hd => exact yields_completeAbstract hnull ht hd h
      · next hd => exact yields_completeAbstract hnull ht hd h
      · obtain rfl := h
        exact .failed rfl

/-! ## The root and jobs -/

/-- A report about a job. -/
inductive JobReport (I : World σ → Prop) (ctx : ExecutionContext σ) : Job σ → Report σ → Prop
  | deferred {object source path fragment deferred fields}
    (h : ObjectReport I ctx (GraphQL.completeField ctx) false object source path fragment.fields
      deferred fields) :
    JobReport I ctx (.deferred object source path fragment) (.object deferred fields)
  | ended {plan itemType path label index source} (h : source.values = []) :
    JobReport I ctx (.streamed plan itemType path label index source) .absent
  | failed {plan itemType path label index source e} (he : e.path = path.index index) :
    JobReport I ctx (.streamed plan itemType path label index source) (.failed e)
  | last {plan itemType path label index source v rest r}
    (hsource : source.values = v :: ItemSource.values rest)
    (h : Yields I (completeItem (completeListItem ctx) plan itemType (path.index index) v) r)
    (hlast : rest.isExhausted ∨ r.isError) :
    JobReport I ctx (.streamed plan itemType path label index source) r
  | more {plan itemType path label index source v rest r ticket}
    (hsource : source.values = v :: ItemSource.values rest)
    (h : Yields I (completeItem (completeListItem ctx) plan itemType (path.index index) v) r)
    (herror : r.isError = false) :
    JobReport I ctx (.streamed plan itemType path label index source)
      (.followed r ticket (.streamed plan itemType path label (index + 1) rest))

theorem yields_executeStreamed {label : Option String} {index : Nat} {v : HostValue}
    {source rest : ItemSource} (hsource : source.values = v :: rest.values)
    (h : Yields I (executeStreamed ctx plan itemType path label index v rest) r) :
    JobReport I ctx (.streamed plan itemType path label index source) r := by
  have h := yields_of_perform h
  split at h
  · next hexhausted => exact .last hsource h (.inl hexhausted)
  · rcases yields_thenQueue h with ⟨h, herror⟩ | ⟨s, ticket, hs, herror, rfl⟩
    · exact .last hsource h (.inr herror)
    · exact .more hsource hs herror

theorem yields_execute {job : Job σ} (h : Yields I (job.execute ctx) r) :
    JobReport I ctx job r := by
  unfold Job.execute at h
  split at h
  · obtain ⟨deferred, fields, rfl, hreport⟩ := yields_executeObject (yields_of_perform h)
    exact .deferred hreport
  · split at h
    · obtain rfl := h
      exact .ended rfl
    · exact yields_executeStreamed rfl h
    · obtain ⟨x, hx, h⟩ := yields_nextEvent.mp h
      rcases came_cases hx with ⟨e, rfl, he⟩ | ⟨rfl, rfl⟩ | ⟨event, rest, v, rfl, hv, rfl⟩
      · obtain rfl := h
        exact .failed he
      · obtain rfl := h
        exact .ended rfl
      · refine yields_executeStreamed ?_ h
        exact itemsOf_cons hv rest

theorem yields_executeRoot (h : Yields I (executeRoot ctx object) r) :
    ∃ collected deferred fields, r = .object deferred fields ∧
      ctx.rootFields object = some collected ∧
      ObjectReport I ctx (GraphQL.completeField ctx) (ctx.operation.kind == .mutation) object
        ctx.root .root collected deferred fields := by
  unfold executeRoot at h
  split at h
  · exact h.elim
  · next collected hcollected =>
    obtain ⟨deferred, fields, rfl, hreport⟩ := yields_executeObject h
    exact ⟨collected, deferred, fields, rfl, hcollected, hreport⟩

end GraphQL
