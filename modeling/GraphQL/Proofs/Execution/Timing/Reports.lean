import GraphQL.Proofs.Execution.Timing.Agreement

/-! # The schedule leaves no trace in reports

Two runs of the same work, of which only the timing differs, come to reports that differ only in the
tickets of their jobs and in the timing of what is left to them.
-/

namespace GraphQL

open Process Completing

variable {σ : Type}

def FieldInfo.timeless (info : FieldInfo) : FieldInfo := { info with root := info.root.timeless }

/-- All of a request but its timing. -/
def View.timeless : View FieldRequest TypeRequest where
  field request := ⟨request.info.timeless, request.source.timeless, request.arguments⟩
  type request := ⟨request.info.timeless, request.value.timeless, request.type⟩

/-- The field that a resolver is asked for, its source value and arguments; the value that a type
resolver or membership check is asked about, and the type. -/
def View.source : View (String × String × HostValue × Object) (HostValue × String) where
  field request :=
    (request.info.parentType, request.info.fieldName, request.source.timeless, request.arguments)
  type request := (request.value.timeless, request.type)

/-- The same context with another root value. -/
def ExecutionContext.withRoot (ctx : ExecutionContext σ) (root : HostValue) : ExecutionContext σ :=
  { ctx with root }

theorem shares_withRoot (ctx : ExecutionContext σ) (root : HostValue) :
    ctx.Shares (ctx.withRoot root) := ⟨rfl, rfl, rfl⟩

theorem prepare_withRoot (r : Request σ) (value : HostValue) :
    ({ r with root := value } : Request σ).prepare =
      r.prepare.map fun prepared => (prepared.1.withRoot value, prepared.2) := by
  unfold Request.prepare
  dsimp only
  simp only [Bind.bind, Except.bind, Pure.pure, Except.pure, throw, throwThe, MonadExceptOf.throw]
  split
  · cases r.document.chooseOperation r.operationName with
    | error e => rfl
    | ok operation =>
      dsimp only
      split
      · cases r.schema.coerceVariables operation.variableList r.variableValues
          r.variableErrorLimit <;> rfl
      · rfl
  · rfl

theorem mem_of_chooseOperation {d : Document} {name : Option String} {o : Operation}
    (h : d.chooseOperation name = .ok o) : o ∈ d.operations := by
  unfold Document.chooseOperation at h
  cases name with
  | some name =>
    dsimp only at h
    split at h
    · next found hfound =>
      obtain rfl := Except.ok.inj h
      simpa using List.mem_of_find?_eq_some hfound
    · cases h
  | none =>
    dsimp only at h
    split at h
    · cases h
    · next hsingle =>
      obtain rfl := Except.ok.inj h
      rw [hsingle]
      exact List.mem_singleton_self _
    · cases h

theorem exists_of_prepare {r : Request σ} {ctx : ExecutionContext σ} {root : ObjectType σ}
    (h : r.prepare = .ok (ctx, root)) : ∃ operation values,
      r.document.chooseOperation r.operationName = .ok operation ∧
      r.schema.root? operation.kind = some root ∧
      ctx = {
        schema := r.schema
        fragments := r.document.fragments
        operation
        variableValues := values
        root := r.root
        fieldResolver := r.fieldResolver
        typeResolver := r.typeResolver
        subscriber := r.subscriber
        bounds := r.bounds } := by
  unfold Request.prepare at h
  simp only [Bind.bind, Except.bind, Pure.pure, Except.pure, throw, throwThe, MonadExceptOf.throw] at h
  split at h
  · cases hop : r.document.chooseOperation r.operationName with
    | error e => simp [hop] at h
    | ok operation =>
      simp only [hop] at h
      cases hroot : r.schema.root? operation.kind with
      | none => simp [hroot] at h
      | some object =>
        simp only [hroot] at h
        cases hvars : r.schema.coerceVariables operation.variableList r.variableValues
          r.variableErrorLimit with
        | error e => simp [hvars, Except.mapError] at h
        | ok values =>
          simp only [hvars, Except.mapError, Except.ok.injEq, Prod.mk.injEq] at h
          obtain ⟨rfl, rfl⟩ := h
          exact ⟨operation, values, rfl, hroot, rfl⟩
  · cases h

theorem prepare_spec {r : Request σ} {ctx : ExecutionContext σ} {root : ObjectType σ}
    (h : r.prepare = .ok (ctx, root)) : ctx.root = r.root ∧ ctx.fragments = r.document.fragments ∧
      ctx.schema.Owns root := by
  obtain ⟨operation, values, -, hroot, rfl⟩ := exists_of_prepare h
  exact ⟨rfl, rfl, Schema.owns_of_root? hroot⟩

theorem Request.Heeds.prepared {F : FieldResolver σ → Prop} {T : TypeResolver σ → Prop}
    {M : MembershipCheck σ → Prop} {r : Request σ} {ctx : ExecutionContext σ} {root : ObjectType σ}
    (hr : r.Heeds F T M) (h : r.prepare = .ok (ctx, root)) : ctx.Heeds F T M := by
  obtain ⟨operation, values, -, -, rfl⟩ := exists_of_prepare h
  exact ⟨hr.schema, hr.fieldResolver, hr.typeResolver⟩

theorem Request.Steady.prepared {κ ι : Type} {view : View κ ι} {r : Request σ}
    {ctx : ExecutionContext σ} {root : ObjectType σ} (hr : r.Steady view) (h : r.prepare = .ok (ctx, root)) :
    ctx.Steady view := by
  obtain ⟨operation, values, -, -, rfl⟩ := exists_of_prepare h
  exact ⟨hr.schema, hr.fieldResolver, hr.typeResolver⟩

/-! ## Reports of two runs -/

/-- Whether two reports are the same up to timing, but for what is at unsteady places. An error that
escapes from there in one run only may stop what goes on in the other. -/
inductive Report.Alike (unsteady : List Segment → Prop) :
    List Segment → Report σ → Report σ → Prop
  | apart {place r s} (h : unsteady place) : Alike unsteady place r s
  | absent {place} : Alike unsteady place .absent .absent
  | null {place} : Alike unsteady place .null .null
  | leaf {place v} : Alike unsteady place (.leaf v) (.leaf v)
  | failed {place e} : Alike unsteady place (.failed e) (.failed e)
  | list {place items items'} (hlength : items.length = items'.length)
    (hitems : ∀ (i : Nat) (r s : Report σ), items[i]? = some r → items'[i]? = some s →
      Alike unsteady (place ++ [.index i]) r s) :
    Alike unsteady place (.list items) (.list items')
  | object {place deferred deferred' fields fields'}
    (hjobs : deferred.map (·.2.timeless) = deferred'.map (·.2.timeless))
    (hkeys : ∀ (i : Nat) key key' (r s : Report σ), fields[i]? = some (key, r) →
      fields'[i]? = some (key', s) → key = key')
    (hfields : ∀ (i : Nat) key (r s : Report σ), fields[i]? = some (key, r) →
      fields'[i]? = some (key, s) → Alike unsteady (place ++ [.key key]) r s)
    (hlength : fields.length = fields'.length ∨
      ∃ (i : Nat) (key : String) (r s : Report σ), fields[i]? = some (key, r) ∧
      fields'[i]? = some (key, s) ∧ r.isError ≠ s.isError) :
    Alike unsteady place (.object deferred fields) (.object deferred' fields')
  | followed {place r s ticket ticket' job job'} (h : Alike unsteady place r s)
    (hjob : job.timeless = job'.timeless) :
    Alike unsteady place (.followed r ticket job) (.followed s ticket' job')
  | first {place r s ticket job} (h : Alike unsteady place r s) (herror : r.isError ≠ s.isError) :
    Alike unsteady place (.followed r ticket job) s
  | second {place r s ticket job} (h : Alike unsteady place r s) (herror : r.isError ≠ s.isError) :
    Alike unsteady place r (.followed s ticket job)
  | nullable {place r s} (h : Alike unsteady place r s) :
    Alike unsteady place (.nullable r) (.nullable s)

namespace Report

variable {unsteady : List Segment → Prop} {place : List Segment} {r s : Report σ}

theorem isError_of_timeless (h : r.timeless = s.timeless) : r.isError = s.isError := by
  have houtcome := congrArg outcome h
  rw [outcome_timeless, outcome_timeless] at houtcome
  have herror := congrArg Outcome.isError houtcome
  exact herror

namespace Alike

theorem refl (r : Report σ) (place : List Segment) : Alike unsteady place r r := by
  induction r using induct generalizing place with
  | absent => exact .absent
  | null => exact .null
  | leaf v => exact .leaf
  | failed e => exact .failed
  | list items ih =>
    refine .list rfl fun i r s hr hs => ?_
    obtain rfl := Option.some.inj (hr.symm.trans hs)
    exact ih r (List.mem_of_getElem? hr) _
  | object deferred fields ih =>
    refine .object rfl (fun i key key' r s hr hs => ?_) (fun i key r s hr hs => ?_) (.inl rfl)
    · exact congrArg Prod.fst (Option.some.inj (hr.symm.trans hs))
    · obtain rfl : r = s := congrArg Prod.snd (Option.some.inj (hr.symm.trans hs))
      exact ih key r (List.mem_of_getElem? hr) _
  | followed inner ticket job ih => exact .followed (ih place) rfl
  | nullable inner ih => exact .nullable (ih place)

theorem absorbing (h : Alike unsteady place r s) (t : TypeRef) :
    Alike unsteady place (r.absorbing t) (s.absorbing t) := by
  unfold Report.absorbing
  split
  · exact h
  · exact .nullable h

theorem timeless (h : Alike unsteady place r s) (hsteady : ∀ below, ¬ unsteady (place ++ below)) :
    r.timeless = s.timeless := by
  have hbelow {place : List Segment} (hsteady : ∀ below, ¬ unsteady (place ++ below))
      (segment : Segment) : ∀ below, ¬ unsteady (place ++ [segment] ++ below) := fun below => by
    simpa using hsteady (segment :: below)
  induction h with
  | apart h => exact (hsteady [] (by simpa using h)).elim
  | absent | null | leaf | failed => rfl
  | @list place items items' hlength _ ih =>
    simp only [Report.timeless, timelessItems_eq, Report.list.injEq]
    refine List.ext_getElem (by simpa using hlength) fun i hi hi' => ?_
    rw [List.length_map] at hi hi'
    simp only [List.getElem_map]
    exact ih i _ _ (List.getElem?_eq_getElem hi) (List.getElem?_eq_getElem hi') (hbelow hsteady _)
  | @object place deferred deferred' fields fields' hjobs hkeys hfields hlength ih =>
    have hlength : fields.length = fields'.length := by
      refine hlength.resolve_right ?_
      rintro ⟨i, key, r, s, hr, hs, herror⟩
      exact herror (isError_of_timeless (ih i key r s hr hs (hbelow hsteady _)))
    simp only [Report.timeless, timelessFields_eq, Report.object.injEq]
    constructor
    · have hjobs := congrArg (List.map fun job => (0, job)) hjobs
      simpa only [List.map_map, Function.comp_def] using hjobs
    · refine List.ext_getElem (by simpa using hlength) fun i hi hi' => ?_
      rw [List.length_map] at hi hi'
      simp only [List.getElem_map, Prod.mk.injEq]
      have hr := List.getElem?_eq_getElem hi
      have hs := List.getElem?_eq_getElem hi'
      have hkey := hkeys i _ _ _ _ hr hs
      exact ⟨hkey, ih i _ _ _ hr (hkey ▸ hs) (hbelow hsteady _)⟩
  | followed h hjob ih => simp only [Report.timeless, ih hsteady, hjob]
  | first h herror ih => exact (herror (isError_of_timeless (ih hsteady))).elim
  | second h herror ih => exact (herror (isError_of_timeless (ih hsteady))).elim
  | nullable h ih => simp only [Report.timeless, ih hsteady]

end Alike

end Report

/-- Whether two pieces of work at a place come to the same report up to timing, but for unsteady
places. -/
def Agree (unsteady : List Segment → Prop) (I J : World σ → Prop) (place : List Segment)
    (p q : Completing σ) : Prop :=
  ∀ r s, Yields I p r → Yields J q s → r.Alike unsteady place s

/-- Whether values that are the same up to timing are completed to the same reports. -/
def Completer.Agrees (unsteady : List Segment → Prop) (I J : World σ → Prop)
    (complete complete' : Completer σ) : Prop :=
  ∀ plan t (path : Path) v v', v.timeless = v'.timeless →
    Agree unsteady I J path.segments (complete plan t path v) (complete' plan t path v')

section

variable {unsteady : List Segment → Prop} {I J : World σ → Prop} {ctx : ExecutionContext σ}
  {root : HostValue} {place : List Segment}
  {complete complete' completeField completeField' : Completer σ} {plan : FieldPlan σ}
  {itemType : TypeRef} {path : Path}

theorem agree_done (r : Report σ) : Agree unsteady I J place (.done r) (.done r) := by
  rintro _ _ rfl rfl
  exact .refl _ _

theorem agree_apart {p q : Completing σ} (h : unsteady place) : Agree unsteady I J place p q :=
  fun _ _ _ _ => .apart h

/-! ## Lists -/

theorem agree_completeItem (hagrees : complete.Agrees unsteady I J complete') {v v' : HostValue}
    (hv : v.timeless = v'.timeless) :
    Agree unsteady I J path.segments (completeItem complete plan itemType path v)
      (completeItem complete' plan itemType path v') := by
  intro r s hr hs
  obtain ⟨r', hr', rfl⟩ := yields_completeItem hr
  obtain ⟨s', hs', rfl⟩ := yields_completeItem hs
  exact (hagrees _ _ _ _ _ hv r' s' hr' hs').absorbing itemType

theorem agree_completeItems (hagrees : complete.Agrees unsteady I J complete')
    {items items' : List HostValue}
    (hitems : items.map HostValue.timeless = items'.map HostValue.timeless) :
    Agree unsteady I J path.segments (completeItems complete plan itemType path items)
      (completeItems complete' plan itemType path items') := by
  intro r s hr hs
  obtain ⟨reports, rfl, hreports⟩ := yields_completeItems hr
  obtain ⟨reports', rfl, hreports'⟩ := yields_completeItems hs
  have hlength : items.length = items'.length := by simpa using congrArg List.length hitems
  refine .list (by rw [hreports.length, hreports'.length, hlength]) fun i r s hr hs => ?_
  obtain ⟨hi, -⟩ := List.getElem?_eq_some_iff.mp hr
  have hv : i < items.length := hreports.length ▸ hi
  have hv' : i < items'.length := hlength ▸ hv
  have hitem : items[i].timeless = items'[i].timeless := by
    have := List.getElem_of_eq hitems (by simpa using hv)
    simpa using this
  exact agree_completeItem hagrees hitem _ _
    (hreports.item (List.getElem?_eq_getElem hv) hr) (hreports'.item (List.getElem?_eq_getElem hv') hs)

theorem agree_thenQueue {p q : Completing σ} (h : Agree unsteady I J place p q) {job job' : Job σ}
    (hjob : job.timeless = job'.timeless) :
    Agree unsteady I J place (p.thenQueue job) (q.thenQueue job') := by
  intro r s hr hs
  rcases yields_thenQueue hr with ⟨hr', herror⟩ | ⟨r', ticket, hr', herror, rfl⟩ <;>
    rcases yields_thenQueue hs with ⟨hs', herror'⟩ | ⟨s', ticket', hs', herror', rfl⟩ <;>
      have hagree := h _ _ hr' hs'
  · exact hagree
  · exact .second hagree (by simp [herror, herror'])
  · exact .first hagree (by simp [herror, herror'])
  · exact .followed hagree hjob

theorem agree_completeInitial (hagrees : complete.Agrees unsteady I J complete')
    {label : Option String} {items items' : List HostValue}
    {remaining remaining' : Option ItemSource}
    (hitems : items.map HostValue.timeless = items'.map HostValue.timeless)
    (hremaining : remaining.map ItemSource.timeless = remaining'.map ItemSource.timeless) :
    Agree unsteady I J path.segments
      (completeInitial complete plan itemType path label items remaining)
      (completeInitial complete' plan itemType path label items' remaining') := by
  have hlength : items.length = items'.length := by simpa using congrArg List.length hitems
  have hall : Agree unsteady I J path.segments (completeItems complete plan itemType path items)
      (completeItems complete' plan itemType path items') := agree_completeItems hagrees hitems
  cases remaining <;> cases remaining' <;> simp only [Option.map, reduceCtorEq, Option.some.injEq]
    at hremaining
  · exact hall
  · exact agree_thenQueue hall (by simp only [Job.timeless, hlength, hremaining])

theorem agree_completeItemsOf (hI : Calm I) (hJ : Calm J)
    (hagrees : complete.Agrees unsteady I J complete') (isStreamable : Bool) {source source' : Option ItemSource}
    (hsource : source.map ItemSource.timeless = source'.map ItemSource.timeless) :
    Agree unsteady I J path.segments
      (completeItemsOf ctx complete isStreamable plan itemType path source)
      (completeItemsOf (ctx.withRoot root) complete' isStreamable plan itemType path source') := by
  have hstreaming : plan.streaming path (ctx.withRoot root) = plan.streaming path ctx := rfl
  unfold completeItemsOf
  rw [hstreaming]
  split
  · exact agree_done _
  · next streaming _ =>
    dsimp only
    rcases source with _ | items | events <;> rcases source' with _ | items' | events' <;>
      simp only [Option.map, ItemSource.timeless, reduceCtorEq, Option.some.injEq,
        ItemSource.ready.injEq, ItemSource.events.injEq] at hsource
    · exact agree_completeInitial hagrees rfl rfl
    · -- Items that are all there are cut at the same index.
      have hlength : items.length = items'.length := by simpa using congrArg List.length hsource
      cases streaming with
      | none => exact agree_completeInitial hagrees hsource rfl
      | some streaming =>
        dsimp only
        rw [hlength]
        split
        · refine agree_completeInitial hagrees ?_ ?_
          · rw [List.map_take, List.map_take, hsource]
          · simp only [Option.map, ItemSource.timeless, List.map_drop, hsource]
        · exact agree_completeInitial hagrees hsource rfl
    · -- Of items that arrive, the same are taken.
      intro r s hr hs
      obtain ⟨x, hx, hr⟩ := yields_takeEvents.mp hr
      obtain ⟨y, hy, hs⟩ := yields_takeEvents.mp hs
      have htaken := taken_agree hI hJ hsource rfl hx hy
      cases x <;> cases y <;>
        simp only [Except.map, Except.error.injEq, Except.ok.injEq, reduceCtorEq] at htaken
      · rw [htaken] at hr
        exact agree_done _ r s hr hs
      · refine agree_completeInitial hagrees (congrArg Prod.fst htaken) ?_ r s hr hs
        have hrest := congrArg (Option.map ItemSource.events) (congrArg Prod.snd htaken)
        simpa only [takenTimeless, Option.map_map, Function.comp_def, ItemSource.timeless] using hrest

theorem agree_completeList (hI : Calm I) (hJ : Calm J)
    (hagrees : complete.Agrees unsteady I J complete') (isStreamable : Bool) {v v' : HostValue} (hv : v.timeless = v'.timeless) :
    Agree unsteady I J path.segments (completeList ctx complete isStreamable plan itemType path v)
      (completeList (ctx.withRoot root) complete' isStreamable plan itemType path v') := by
  have hitems : v.items?.map HostValue.Items.timeless = v'.items?.map HostValue.Items.timeless := by
    rw [← HostValue.items?_timeless, hv, HostValue.items?_timeless]
  unfold completeList
  generalize v.items? = items, v'.items? = items' at hitems
  rcases items with _ | items | ⟨n, events⟩ <;> rcases items' with _ | items' | ⟨n', events'⟩ <;>
    simp only [Option.map, HostValue.Items.timeless, reduceCtorEq, Option.some.injEq,
      HostValue.Items.ready.injEq, HostValue.Items.stream.injEq, true_and] at hitems
  · exact agree_done _
  · exact agree_completeItemsOf hI hJ hagrees isStreamable (by simp [ItemSource.timeless, hitems])
  · intro r s hr hs
    obtain ⟨w, -, hw, hr⟩ := hr
    obtain ⟨w', -, hw', hs⟩ := hs
    simp only [hI.fresh w n hw, hJ.fresh w' n' hw', Bool.false_eq_true, if_false] at hr hs
    exact agree_completeItemsOf hI hJ hagrees isStreamable
      (by simp [ItemSource.timeless, hitems]) r s hr hs

/-! ## Objects -/

variable (hI : Calm I) (hJ : Calm J)
  (hctx : ctx.SteadyWhere (fun place => ¬ unsteady place) View.timeless)
  (hroot : root.timeless = ctx.root.timeless)

include hroot in
theorem info_withRoot (plan : FieldPlan σ) (path : Path) :
    (plan.info (ctx.withRoot root) path).timeless = (plan.info ctx path).timeless := by
  simp only [FieldInfo.timeless, FieldPlan.info, ExecutionContext.withRoot, hroot]

include hroot in
theorem typeView_withRoot {v v' : HostValue} (hv : v.timeless = v'.timeless) (type : String) :
    View.timeless.type ⟨plan.info ctx path, v, type⟩ =
      View.timeless.type ⟨plan.info (ctx.withRoot root) path, v', type⟩ := by
  simp only [View.timeless, hv, info_withRoot hroot]

include hI hJ hctx hroot

theorem resolved_agree (hsteady : ¬ unsteady path.segments)
    (hparent : ctx.schema.Owns plan.parent) {name : String}
    (hfield : plan.parent.field? name = some plan.field) {v v' : HostValue}
    (hv : v.timeless = v'.timeless) {x x' : Except ExecutionError HostValue}
    (hx : Resolved I ctx plan v path x) (hx' : Resolved J (ctx.withRoot root) plan v' path x') :
    x.map HostValue.timeless = x'.map HostValue.timeless := by
  have harguments : plan.arguments (ctx.withRoot root) path = plan.arguments ctx path := rfl
  have hresolver : (plan.field.resolve <|> (ctx.withRoot root).fieldResolver) =
    (plan.field.resolve <|> ctx.fieldResolver) := rfl
  rcases resolved_cases hI hx with ⟨e, he, rfl⟩ | ⟨args, hargs, hx⟩ <;>
    rcases resolved_cases hJ hx' with ⟨e', he', rfl⟩ | ⟨args', hargs', hx'⟩ <;>
      simp only [harguments, hresolver] at *
  · rw [he] at he'
    rw [Except.error.inj he']
  · rw [he] at hargs'
    cases hargs'
  · rw [hargs] at he'
    cases he'
  · rw [hargs] at hargs'
    obtain rfl := Except.ok.inj hargs'
    rcases hx with ⟨hnone, rfl⟩ | ⟨resolver, y, hresolver, hy, rfl⟩ <;>
      rcases hx' with ⟨hnone', rfl⟩ | ⟨resolver', y', hresolver', hy', rfl⟩
    · rw [← defaultFieldValue_timeless v, hv, defaultFieldValue_timeless]
    · rw [hnone] at hresolver'
      cases hresolver'
    · rw [hresolver] at hnone'
      cases hnone'
    · rw [hresolver] at hresolver'
      obtain rfl := Option.some.inj hresolver'
      have hagree := called_agree hI hJ (hctx.ofField hparent hfield hresolver) hsteady hsteady
        (by simp only [View.timeless, hv, info_withRoot hroot]) hy hy'
      cases y <;> cases y' <;>
        simp only [Except.map, Except.error.injEq, Except.ok.injEq, reduceCtorEq] at hagree
      · rw [hagree]
      · simp only [Except.mapError, Except.map, hagree]

variable (hfields : completeField.Agrees unsteady I J completeField')

include hfields

theorem agree_executeField {object : ObjectType σ} (hobject : ctx.schema.Owns object)
    {v v' : HostValue} (hv : v.timeless = v'.timeless) (uses : List FieldUse) :
    Agree unsteady I J path.segments (executeField ctx completeField object v uses path)
      (executeField (ctx.withRoot root) completeField' object v' uses path) := by
  unfold executeField
  cases uses with
  | nil => exact agree_done _
  | cons use others =>
    dsimp only
    split
    · exact agree_done _
    · split
      · exact agree_done _
      · next field hfield =>
        intro r s hr hs
        obtain ⟨r', hr', rfl⟩ := yields_map.mp hr
        obtain ⟨s', hs', rfl⟩ := yields_map.mp hs
        refine Report.Alike.absorbing ?_ field.type
        by_cases hsteady : unsteady path.segments
        · exact .apart hsteady
        obtain ⟨x, hx, hr'⟩ := yields_resolveField.mp hr'
        obtain ⟨x', hx', hs'⟩ := yields_resolveField.mp hs'
        have hagree := resolved_agree hI hJ hctx hroot hsteady hobject hfield hv hx hx'
        cases x <;> cases x' <;>
          simp only [Except.map, Except.error.injEq, Except.ok.injEq, reduceCtorEq] at hagree
        · rw [hagree] at hr'
          exact agree_done _ r' s' hr' hs'
        · exact hfields _ _ _ _ _ hagree r' s' hr' hs'

theorem agree_fieldWork {object : ObjectType σ} (hobject : ctx.schema.Owns object)
    {v v' : HostValue} (hv : v.timeless = v'.timeless) (groups : List (String × List FieldUse)) :
    List.Forall₂ (fun p q => p.1 = q.1 ∧ Agree unsteady I J (path.segments ++ [.key p.1]) p.2 q.2)
      (fieldWork ctx completeField object v path groups)
      (fieldWork (ctx.withRoot root) completeField' object v' path groups) := by
  rw [fieldWork, fieldWork, List.forall₂_map_left_iff, List.forall₂_map_right_iff,
    List.forall₂_same]
  exact fun group _ =>
    ⟨rfl, agree_executeField hI hJ hctx hroot hfields hobject hv group.1.2⟩

omit hI hJ hctx hroot hfields in
theorem alike_executed {isSerial : Bool} {work work' : List (String × Completing σ)}
    {deferred deferred' : List (Nat × Job σ)} {fields fields' : List (String × Report σ)}
    (hr : Executed I isSerial work fields) (hs : Executed J isSerial work' fields')
    (h : List.Forall₂ (fun p q => p.1 = q.1 ∧ Agree unsteady I J (place ++ [.key p.1]) p.2 q.2)
      work work') (hjobs : deferred.map (·.2.timeless) = deferred'.map (·.2.timeless)) :
    (Report.object deferred fields).Alike unsteady place (.object deferred' fields') := by
  have hwork (i : Nat) (key key' : String) (r s : Report σ) (hr' : fields[i]? = some (key, r))
      (hs' : fields'[i]? = some (key', s)) : key = key' ∧ r.Alike unsteady (place ++ [.key key]) s := by
    obtain ⟨p, hp, hr⟩ := hr.getElem? hr'
    obtain ⟨q, hq, hs⟩ := hs.getElem? hs'
    obtain ⟨hi, hp⟩ := List.getElem?_eq_some_iff.mp hp
    obtain ⟨hi', hq⟩ := List.getElem?_eq_some_iff.mp hq
    have hboth := h.get hi hi'
    rw [List.get_eq_getElem, List.get_eq_getElem, hp, hq] at hboth
    exact ⟨hboth.1, hboth.2 r s hr hs⟩
  refine .object hjobs (fun i key key' r s hr hs => (hwork i key key' r s hr hs).1)
    (fun i key r s hr hs => (hwork i key key r s hr hs).2) ?_
  clear hwork
  induction hr generalizing work' fields' with
  | nil =>
    cases h
    cases hs
    exact .inl rfl
  | @stopped key p rest r hserial hr herror =>
    obtain ⟨⟨key', q⟩, rest', ⟨rfl, -⟩, -, rfl⟩ := List.forall₂_cons_left_iff.mp h
    cases hs with
    | stopped => exact .inl rfl
    | @cons _ _ _ s _ hs herror' hrest =>
      exact .inr ⟨0, key, r, s, rfl, rfl, by simp [herror, herror' hserial]⟩
  | @cons key p rest r reports hr herror hrest ih =>
    obtain ⟨⟨key', q⟩, rest', ⟨rfl, -⟩, hrest', rfl⟩ := List.forall₂_cons_left_iff.mp h
    cases hs with
    | @stopped _ _ _ s hserial hs herror' =>
      exact .inr ⟨0, key, r, s, rfl, rfl, by simp [herror hserial, herror']⟩
    | cons hs herror' hothers =>
      rcases ih hothers hrest' with hlength | ⟨i, key, r, s, hr, hs, herror⟩
      · exact .inl (by simp [hlength])
      · exact .inr ⟨i + 1, key, r, s, by simpa using hr, by simpa using hs, herror⟩

theorem agree_executeObject {isSerial : Bool} {object : ObjectType σ}
    (hobject : ctx.schema.Owns object) {v v' : HostValue} (hv : v.timeless = v'.timeless)
    (collected : Collected) :
    Agree unsteady I J path.segments
      (executeObject ctx completeField isSerial object v path collected)
      (executeObject (ctx.withRoot root) completeField' isSerial object v' path collected) := by
  intro r s hr hs
  obtain ⟨deferred, fields, rfl, hreport⟩ := yields_executeObject hr
  obtain ⟨deferred', fields', rfl, hreport'⟩ := yields_executeObject hs
  have hjobs : (deferred.map Prod.snd).map Job.timeless = (deferred'.map Prod.snd).map Job.timeless := by
    rw [hreport.jobs, hreport'.jobs]
    simp [Job.timeless, hv]
  exact alike_executed hreport.executed hreport'.executed
    (agree_fieldWork hI hJ hctx hroot hfields hobject hv collected.groups)
    (by simpa only [List.map_map, Function.comp_def] using hjobs)

/-! ## Values -/

theorem agree_subfields (path : Path) (uses : List FieldUse) {object : ObjectType σ}
    (hobject : ctx.schema.Owns object) {v v' : HostValue} (hv : v.timeless = v'.timeless) :
    Agree unsteady I J path.segments
      (match ctx.subfields object uses with
        | none => .unending
        | some collected => executeObject ctx completeField false object v path collected)
      (match (ctx.withRoot root).subfields object uses with
        | none => .unending
        | some collected =>
          executeObject (ctx.withRoot root) completeField' false object v' path collected) := by
  have hsubfields : (ctx.withRoot root).subfields object uses = ctx.subfields object uses := rfl
  rw [hsubfields]
  split
  · exact fun r s hr => hr.elim
  · exact agree_executeObject hI hJ hctx hroot hfields hobject hv _

theorem agree_completeObject (hsteady : ¬ unsteady path.segments) {object : ObjectType σ}
    (hobject : ctx.schema.Owns object) {v v' : HostValue} (hv : v.timeless = v'.timeless) :
    Agree unsteady I J path.segments (completeObject ctx completeField plan object path v)
      (completeObject (ctx.withRoot root) completeField' plan object path v') := by
  have hexecute := agree_subfields hI hJ hctx hroot hfields path plan.uses hobject hv
  unfold completeObject
  dsimp only
  split
  · exact hexecute
  · next check hcheck =>
    intro r s hr hs
    obtain ⟨x, hx, hr⟩ := yields_call.mp hr
    obtain ⟨x', hx', hs⟩ := yields_call.mp hs
    have hcheck := hctx.schema.members object hobject check hcheck
    obtain rfl : x = x' := by
      have hagree := called_agree hI hJ hcheck hsteady hsteady (typeView_withRoot hroot hv _) hx hx'
      cases x <;> cases x' <;> simp_all [Except.map]
    rcases x with e | _ | _
    · exact agree_done _ r s hr hs
    · have hproblem : plan.problem path (.otherObject object.name v) =
          plan.problem path (.otherObject object.name v') := by
        rw [← plan.otherObject_timeless, hv, plan.otherObject_timeless]
      rw [hproblem] at hr
      exact agree_done _ r s hr hs
    · exact hexecute r s hr hs

theorem agree_completeAbstract (hsteady : ¬ unsteady path.segments) {t : TypeDefinition σ}
    (ht : t ∈ ctx.schema.types) {v v' : HostValue} (hv : v.timeless = v'.timeless) :
    Agree unsteady I J path.segments (completeAbstract ctx completeField plan t path v)
      (completeAbstract (ctx.withRoot root) completeField' plan t path v') := by
  intro r s hr hs
  obtain ⟨x, hx, hr⟩ := yields_resolveType.mp hr
  obtain ⟨x', hx', hs⟩ := yields_resolveType.mp hs
  obtain rfl : x = x' := typed_agree hI hJ hsteady hsteady hctx (shares_withRoot ctx root) ht
    hv (typeView_withRoot hroot hv) hx hx'
  cases x with
  | error e => exact agree_done _ r s hr hs
  | ok name =>
    have hschema : (ctx.withRoot root).schema = ctx.schema := rfl
    dsimp only at hr hs
    rw [hschema] at hs
    split at hr
    · next e he =>
      rw [he] at hs
      exact agree_done _ r s hr hs
    · next object hobject =>
      rw [hobject] at hs
      exact agree_completeObject hI hJ hctx hroot hfields hsteady
        (Schema.owns_of_runtimeObject hobject) hv r s hr hs

theorem agree_completeValue (hitems : complete.Agrees unsteady I J complete') (isStreamable : Bool)
    (t : TypeRef) {v v' : HostValue} (hv : v.timeless = v'.timeless) :
    Agree unsteady I J path.segments
      (completeValue ctx complete completeField isStreamable plan t path v)
      (completeValue (ctx.withRoot root) complete' completeField' isStreamable plan t path v') := by
  have hschema : (ctx.withRoot root).schema = ctx.schema := rfl
  have hnull : v.isNull = v'.isNull := by
    rw [← HostValue.isNull_timeless, hv, HostValue.isNull_timeless]
  by_cases hsteady : unsteady path.segments
  · exact agree_apart hsteady
  unfold completeValue
  rw [hschema, hnull]
  split
  · split <;> exact agree_done _
  · split
    · exact agree_completeList hI hJ hitems isStreamable hv
    · split
      · next t _ =>
        rw [← plan.completeScalar_timeless path t v, hv, plan.completeScalar_timeless]
        exact agree_done _
      · next t _ =>
        rw [← plan.completeEnum_timeless path t v, hv, plan.completeEnum_timeless]
        exact agree_done _
      · next object hobject =>
        exact agree_completeObject hI hJ hctx hroot hfields hsteady (Schema.mem_of_type? hobject) hv
      · next hd =>
        exact agree_completeAbstract hI hJ hctx hroot hfields hsteady (Schema.mem_of_type? hd) hv
      · next hd =>
        exact agree_completeAbstract hI hJ hctx hroot hfields hsteady (Schema.mem_of_type? hd) hv
      · exact agree_done _

omit hfields

theorem agrees_completeWithin (depth : Nat) (isStreamable : Bool) :
    Completer.Agrees unsteady I J (completeWithin ctx depth isStreamable)
      (completeWithin (ctx.withRoot root) depth isStreamable) := by
  induction depth generalizing isStreamable with
  | zero => exact fun _ _ _ _ _ _ r s hr => hr.elim
  | succ depth ih =>
    exact fun plan t path v v' hv =>
      agree_completeValue hI hJ hctx hroot (ih true) (ih false) isStreamable t hv

/-! ## The root and jobs -/

theorem agree_executeRoot {object : ObjectType σ} (hobject : ctx.schema.Owns object) :
    Agree unsteady I J [] (executeRoot ctx object) (executeRoot (ctx.withRoot root) object) := by
  have hcollected : (ctx.withRoot root).rootFields object = ctx.rootFields object := rfl
  unfold executeRoot
  rw [hcollected]
  split
  · exact fun r s hr => hr.elim
  · exact agree_executeObject hI hJ hctx hroot (agrees_completeWithin hI hJ hctx hroot _ _) hobject
      hroot.symm _

theorem agree_executeStreamed {label : Option String} {index : Nat} {v v' : HostValue}
    {rest rest' : ItemSource} (hv : v.timeless = v'.timeless)
    (hrest : rest.timeless = rest'.timeless) :
    Agree unsteady I J (path.index index).segments
      (executeStreamed ctx plan itemType path label index v rest)
      (executeStreamed (ctx.withRoot root) plan itemType path label index v' rest') := by
  intro r s hr hs
  have hr := yields_of_perform hr
  have hs := yields_of_perform hs
  have hexhausted : rest.isExhausted = rest'.isExhausted := by
    rw [← ItemSource.isExhausted_timeless, hrest, ItemSource.isExhausted_timeless]
  have hitem : Agree unsteady I J (path.index index).segments
      (completeItem (completeListItem ctx) plan itemType (path.index index) v)
      (completeItem (completeListItem (ctx.withRoot root)) plan itemType (path.index index) v') :=
    agree_completeItem (agrees_completeWithin hI hJ hctx hroot _ _) hv
  rw [hexhausted] at hr
  split at hr
  · next hdone =>
    rw [if_pos hdone] at hs
    exact hitem r s hr hs
  · next hdone =>
    rw [if_neg hdone] at hs
    exact agree_thenQueue hitem (by simp only [Job.timeless, hrest]) r s hr hs

theorem agree_execute {job job' : Job σ} (howned : job.OwnedBy ctx.schema)
    (hjob : job.timeless = job'.timeless) :
    Agree unsteady I J job.place.segments (job.execute ctx) (job'.execute (ctx.withRoot root)) := by
  intro r s hr hs
  cases job with
  | deferred object source path fragment =>
    cases job' with
    | streamed => simp [Job.timeless] at hjob
    | deferred object' source' path' fragment' =>
      simp only [Job.timeless, Job.deferred.injEq] at hjob
      obtain ⟨rfl, hsource, rfl, rfl⟩ := hjob
      exact agree_executeObject hI hJ hctx hroot (agrees_completeWithin hI hJ hctx hroot _ _) howned
        hsource _ r s (yields_of_perform hr) (yields_of_perform hs)
  | streamed plan itemType path label index source =>
    cases job' with
    | deferred => simp [Job.timeless] at hjob
    | streamed plan' itemType' path' label' index' source' =>
      simp only [Job.timeless, Job.streamed.injEq] at hjob
      obtain ⟨rfl, rfl, rfl, rfl, rfl, hsource⟩ := hjob
      unfold Job.execute at hr hs
      rcases source with (_ | ⟨v, rest⟩) | events <;> rcases source' with (_ | ⟨v', rest'⟩) | events' <;>
        simp only [ItemSource.timeless, List.map_nil, List.map_cons, ItemSource.ready.injEq,
          ItemSource.events.injEq, List.cons.injEq, reduceCtorEq] at hsource
      · exact agree_done _ r s hr hs
      · exact agree_executeStreamed hI hJ hctx hroot hsource.1
          (by simp [ItemSource.timeless, hsource.2]) r s hr hs
      · obtain ⟨x, hx, hr⟩ := yields_nextEvent.mp hr
        obtain ⟨x', hx', hs⟩ := yields_nextEvent.mp hs
        have hagree := came_agree hI hJ hsource hx hx'
        rcases x with e | _ | ⟨v, rest⟩ <;> rcases x' with e' | _ | ⟨v', rest'⟩ <;>
          simp only [Except.map, Option.map, Except.error.injEq, Except.ok.injEq, reduceCtorEq,
            Option.some.injEq, nextTimeless, Prod.mk.injEq] at hagree
        · rw [hagree] at hr
          exact agree_done _ r s hr hs
        · exact agree_done _ r s hr hs
        · exact agree_executeStreamed hI hJ hctx hroot hagree.1
            (by simp [ItemSource.timeless, hagree.2]) r s hr hs

end

end GraphQL
