import GraphQL.Proofs.Execution.Assembly.Pieces

/-! # Errors are contained

What the host answers at one place of a response, and below, shows nowhere outside of the nearest
place above where null is allowed: neither in the data nor in the errors.
-/

namespace GraphQL

open Process

variable {σ : Type}

/-! ## Data without a place -/

/-- The value with null in the given place, if it has that place. -/
def Value.without (v : Value) : List Segment → Value
  | [] => .null
  | segment :: rest => match v with
    | .object fields => .object (fields.map fun (key, w) =>
        (key, if segment = .key key then w.without rest else w))
    | .list items => .list (items.mapIdx fun i w =>
        if segment = .index i then w.without rest else w)
    | v => v

/-- Whether an error is neither of a place nor of one below it. -/
def ExecutionError.isOutside (q : List Segment) (e : ExecutionError) : Bool :=
  ¬ q <+: e.path.segments

/-! ## Reports that differ in one place -/

namespace Report

/-- Whether a report, where it tells of a place, allows null there. -/
def Spares (q : List Segment) (r : Report σ) : Prop :=
  ∀ s, r.At q s → ∃ inner, r.At q (.nullable inner)

/-- Whether two reports about a place tell the same of all places that are not at `q` or below. -/
structure Contained (place q : List Segment) (r s : Report σ) : Prop where
  value : r.value?.map (·.without q) = s.value?.map (·.without q)
  escape : r.escape? = s.escape?
  errors : r.errors.filter (·.isOutside (place ++ q)) = s.errors.filter (·.isOutside (place ++ q))

variable {r s : Report σ} {q place : List Segment}

theorem of_timeless (h : r.timeless = s.timeless) :
    r.value? = s.value? ∧ r.escape? = s.escape? ∧ r.errors = s.errors := by
  have houtcome := congrArg outcome h
  rw [outcome_timeless, outcome_timeless] at houtcome
  have hvalue := congrArg Outcome.value? houtcome
  have hescape := congrArg Outcome.escape? houtcome
  have herrors := congrArg Outcome.errors houtcome
  exact ⟨hvalue, hescape, herrors⟩

namespace Spares

theorem field {deferred : List (Nat × Job σ)} {fields : List (String × Report σ)} {key : String}
    (h : (object deferred fields).Spares (.key key :: q)) (hr : (key, r) ∈ fields)
    (hkeys : (fields.map Prod.fst).Nodup) : r.Spares q := by
  intro s hs
  obtain ⟨inner, hinner⟩ := h s (.field hr hs)
  cases hinner with
  | @field _ _ _ r' _ _ hr' hinner =>
    have heq := List.inj_on_of_nodup_map hkeys hr hr' rfl
    obtain rfl : r = r' := congrArg Prod.snd heq
    exact ⟨inner, hinner⟩

theorem item {items : List (Report σ)} {i : Nat} (h : (list items).Spares (.index i :: q))
    (hr : items[i]? = some r) : r.Spares q := by
  intro s hs
  obtain ⟨inner, hinner⟩ := h s (.item hr hs)
  cases hinner with
  | @item _ _ r' _ _ hr' hinner =>
    obtain rfl : r = r' := Option.some.inj (hr.symm.trans hr')
    exact ⟨inner, hinner⟩

theorem ofFollowed {ticket : Nat} {job : Job σ} (h : (followed r ticket job).Spares q) :
    r.Spares q := by
  intro s hs
  obtain ⟨inner, hinner⟩ := h s (.followed hs)
  cases hinner with
  | followed hinner => exact ⟨inner, hinner⟩

theorem ofNullable {segment : Segment} (h : (nullable r).Spares (segment :: q)) :
    r.Spares (segment :: q) := by
  intro s hs
  obtain ⟨inner, hinner⟩ := h s (.nullable hs)
  cases hinner with
  | nullable hinner => exact ⟨inner, hinner⟩

end Spares

theorem escape?_of_at_nullable {inner : Report σ} (h : r.At [] (.nullable inner)) :
    r.escape? = none := by
  generalize hq : [] = q, hs : nullable inner = s at h
  induction h with
  | here =>
    subst hs
    simp
  | item | field => cases hq
  | followed _ ih => exact ih hq hs
  | nullable => simp

theorem contained_here {path : Path} (hr : r.Spares []) (hs : s.Spares [])
    (hplaced : r ≠ .absent → r.Placed path) (hplaced' : s ≠ .absent → s.Placed path) :
    Contained path.segments [] r s := by
  have hsettled {r : Report σ} (hr : r.Spares []) (hplaced : r ≠ .absent → r.Placed path) :
      r.value?.map (·.without []) = some .null ∧ r.escape? = none ∧
        r.errors.filter (·.isOutside path.segments) = [] := by
    obtain ⟨inner, hinner⟩ := hr r (.here r)
    have hescape := escape?_of_at_nullable hinner
    have hplaced := hplaced (by rintro rfl; cases hinner)
    obtain ⟨v, hv⟩ := Option.isSome_iff_exists.mp (hplaced.present (by simp [isError_eq, hescape]))
    refine ⟨by simp [hv, Value.without], hescape, List.filter_eq_nil_iff.mpr fun e he => ?_⟩
    have hbelow := (hplaced.prefix_steps e (List.mem_append_left _ he)).map Prod.fst
    simpa [ExecutionError.isOutside, Path.segments_eq] using hbelow
  obtain ⟨hvalue, hescape, herrors⟩ := hsettled hr hplaced
  obtain ⟨hvalue', hescape', herrors'⟩ := hsettled hs hplaced'
  exact ⟨hvalue.trans hvalue'.symm, hescape.trans hescape'.symm, by
    rw [List.append_nil]
    exact herrors.trans herrors'.symm⟩

/-- Whether two reports about a child of a place tell the same of all that is not at `segment :: q`
below the place. -/
structure ChildContained (place : List Segment) (segment : Segment) (q : List Segment)
    (child : Segment) (r s : Report σ) : Prop where
  value : (r.value?.map fun v => if segment = child then v.without q else v) =
    s.value?.map fun v => if segment = child then v.without q else v
  escape : r.escape? = s.escape?
  errors : r.errors.filter (·.isOutside (place ++ segment :: q)) =
    s.errors.filter (·.isOutside (place ++ segment :: q))

theorem childContained_of_timeless (h : r.timeless = s.timeless) (segment child : Segment) :
    ChildContained place segment q child r s := by
  obtain ⟨hvalue, hescape, herrors⟩ := of_timeless h
  exact ⟨by rw [hvalue], hescape, by rw [herrors]⟩

theorem Contained.child {segment : Segment} (h : Contained (place ++ [segment]) q r s) :
    ChildContained place segment q segment r s :=
  ⟨by simpa using h.value, h.escape, by simpa using h.errors⟩

theorem map_eq_of_getElem? {α β γ : Type} {f : α → γ} {g : β → γ} {l : List α} {l' : List β}
    (hlength : l.length = l'.length)
    (h : ∀ (i : Nat) a b, l[i]? = some a → l'[i]? = some b → f a = g b) : l.map f = l'.map g := by
  refine List.ext_getElem (by simpa using hlength) fun i hi hi' => ?_
  rw [List.getElem_map, List.getElem_map]
  exact h i _ _ (List.getElem?_eq_getElem _) (List.getElem?_eq_getElem _)

theorem isError_eq_of_escape? (h : r.escape? = s.escape?) : r.isError = s.isError := by
  rw [isError_eq, isError_eq, h]

theorem contained_list {path : Path} {segment : Segment} {items items' : List (Report σ)}
    (hplaced : (list items).Placed path) (hplaced' : (list items').Placed path)
    (hlength : items.length = items'.length)
    (h : ∀ (i : Nat) r s, items[i]? = some r → items'[i]? = some s →
      ChildContained place segment q (.index i) r s) :
    Contained place (segment :: q) (list items) (list items') := by
  have hescape : (list items).escape? = (list items').escape? := by
    have hall := map_eq_of_getElem? hlength fun i r s hr hs => (h i r s hr hs).escape
    have hfirst := congrArg (List.findSome? id) hall
    rw [List.findSome?_map, List.findSome?_map] at hfirst
    simpa using hfirst
  have herrors := map_eq_of_getElem? hlength fun i r s hr hs => (h i r s hr hs).errors
  refine ⟨?_, hescape, ?_⟩
  · have herror := isError_eq_of_escape? hescape
    by_cases hok : (list items).isError
    · have hok' := herror.symm.trans hok
      rw [isError_list] at hok hok'
      rw [value?_list, value?_list, if_pos hok, if_pos hok']
    · have hok : (list items).isError = false := by simpa using hok
      have hpresent := hplaced.items_present hok
      have hpresent' := hplaced'.items_present (herror.symm.trans hok)
      rw [isError_list] at hok herror
      rw [isError_list] at herror
      rw [value?_list, value?_list, ← herror, hok]
      simp only [Bool.false_eq_true, if_false, Option.map_some, Value.without, Option.some.injEq,
        Value.list.injEq]
      refine List.ext_getElem? fun i => ?_
      rw [List.getElem?_mapIdx, List.getElem?_mapIdx, Placed.getElem?_filterMap_value? hpresent,
        Placed.getElem?_filterMap_value? hpresent']
      by_cases hi : i < items.length
      · have hr := List.getElem?_eq_getElem hi
        have hs := List.getElem?_eq_getElem (hlength ▸ hi)
        rw [hr, hs]
        exact (h i _ _ hr hs).value
      · rw [List.getElem?_eq_none (by omega), List.getElem?_eq_none (by omega)]
  · rw [errors_list, errors_list, List.filter_flatMap, List.filter_flatMap, List.flatMap_def,
      List.flatMap_def]
    exact congrArg List.flatten herrors

theorem contained_object {segment : Segment} {deferred deferred' : List (Nat × Job σ)}
    {fields fields' : List (String × Report σ)} (hlength : fields.length = fields'.length)
    (hkeys : ∀ (i : Nat) key key' r s, fields[i]? = some (key, r) → fields'[i]? = some (key', s) →
      key = key')
    (h : ∀ (i : Nat) key r s, fields[i]? = some (key, r) → fields'[i]? = some (key, s) →
      ChildContained place segment q (.key key) r s) :
    Contained place (segment :: q) (object deferred fields) (object deferred' fields') := by
  have hfields {α : Type} {f : String × Report σ → α}
      (hf : ∀ key r s, ChildContained place segment q (.key key) r s → f (key, r) = f (key, s)) :
      fields.map f = fields'.map f := by
    refine map_eq_of_getElem? hlength fun i ⟨key, r⟩ ⟨key', s⟩ hr hs => ?_
    obtain rfl := hkeys i key key' r s hr hs
    exact hf key r s (h i key r s hr hs)
  have hescape : (object deferred fields).escape? = (object deferred' fields').escape? := by
    have hall := hfields (f := fun field => field.2.escape?) fun _ _ _ h => h.escape
    have hfirst := congrArg (List.findSome? id) hall
    rw [List.findSome?_map, List.findSome?_map] at hfirst
    simpa [Function.comp_def] using hfirst
  have herrors := hfields (f := fun field =>
    field.2.errors.filter (·.isOutside (place ++ segment :: q))) fun _ _ _ h => h.errors
  have hvalues := hfields (f := fun field => field.2.value?.map fun v =>
    (field.1, if segment = .key field.1 then v.without q else v)) fun key r s h => by
      have hvalue := congrArg (Option.map fun v => (key, v)) h.value
      simpa [Option.map_map, Function.comp_def] using hvalue
  refine ⟨?_, hescape, ?_⟩
  · have herror := isError_eq_of_escape? hescape
    rw [isError_object, isError_object] at herror
    rw [value?_object, value?_object, ← herror]
    split
    · rfl
    · have hvalues := congrArg (List.filterMap id) hvalues
      rw [List.filterMap_map, List.filterMap_map] at hvalues
      simp only [Option.map_some, Value.without, List.map_filterMap, Option.map_map,
        Function.comp_def, id_eq] at hvalues ⊢
      rw [hvalues]
  · rw [errors_object, errors_object, List.filter_flatMap, List.filter_flatMap, List.flatMap_def,
      List.flatMap_def]
    exact congrArg List.flatten herrors

theorem not_below {p : List Segment} {segment child : Segment} (hq : place ++ segment :: q <+: p)
    (hne : segment ≠ child) : ∀ below, ¬ p <+: place ++ [child] ++ below := by
  intro below hp
  have hsegment : place ++ [segment] <+: p := by
    refine List.IsPrefix.trans ⟨q, ?_⟩ hq
    simp
  exact hne (Path.eq_of_prefixes (hsegment.trans hp) (List.prefix_append _ _))

theorem placed_followed {path : Path} {ticket : Nat} {job : Job σ}
    (h : followed r ticket job ≠ .absent → (followed r ticket job).Placed path) (_ : r ≠ .absent) :
    r.Placed path := by
  cases h (by simp) with
  | followed h => exact h

theorem placed_nullable {path : Path} (h : nullable r ≠ .absent → (nullable r).Placed path)
    (_ : r ≠ .absent) : r.Placed path := by
  cases h (by simp) with
  | nullable h => exact h

theorem contained_nullable {segment : Segment} (h : Contained place (segment :: q) r s) :
    Contained place (segment :: q) (nullable r) (nullable s) := by
  refine ⟨?_, by simp, ?_⟩
  · rw [value?_nullable, value?_nullable, isError_eq_of_escape? h.escape]
    split
    · rfl
    · exact h.value
  · rw [errors_nullable, errors_nullable, List.filter_append, List.filter_append, h.errors, h.escape]

/-- Two reports that are alike but for what is at `p` or below tell the same outside of `q`, if `q` is
above and allows null in both. -/
theorem Alike.contained {p : List Segment} (h : r.Alike (p <+: ·) place s) {path : Path}
    (hpath : path.segments = place) (hq : place ++ q <+: p) (hr : r.Spares q) (hs : s.Spares q)
    (hplaced : r ≠ .absent → r.Placed path) (hplaced' : s ≠ .absent → s.Placed path) :
    Contained place q r s := by
  induction h generalizing path q with
  | apart happart =>
    have hlength := (hq.trans happart).length_le
    obtain rfl : q = [] := by
      rw [List.length_append] at hlength
      exact List.length_eq_zero_iff.mp (by omega)
    exact hpath ▸ contained_here hr hs hplaced hplaced'
  | absent | null | leaf | failed => exact ⟨rfl, rfl, rfl⟩
  | @list place items items' hlength hitems ih =>
    cases q with
    | nil => exact hpath ▸ contained_here hr hs hplaced hplaced'
    | cons segment q =>
      have hplaced := hplaced (by simp)
      have hplaced' := hplaced' (by simp)
      refine contained_list hplaced hplaced' hlength fun i r s hi hi' => ?_
      by_cases heq : segment = .index i
      · subst heq
        cases hplaced with
        | list hplaced =>
          cases hplaced' with
          | list hplaced' =>
            have hindex : (path.index i).segments = place ++ [.index i] := by rw [← hpath]; rfl
            exact (ih i r s hi hi' hindex (by simpa using hq)
              (hr.item hi) (hs.item hi') (fun _ => hplaced i r hi) fun _ => hplaced' i s hi').child
      · exact childContained_of_timeless ((hitems i r s hi hi').timeless (not_below hq heq)) _ _
  | @object place deferred deferred' fields fields' _ hkeys hfields hlength ih =>
    cases q with
    | nil => exact hpath ▸ contained_here hr hs hplaced hplaced'
    | cons segment q =>
      have hchild (i : Nat) (key : String) (r s : Report σ) (hi : fields[i]? = some (key, r))
          (hi' : fields'[i]? = some (key, s)) : ChildContained place segment q (.key key) r s := by
        by_cases heq : segment = .key key
        · subst heq
          cases hplaced (by simp) with
          | object hdistinct hplaced =>
            cases hplaced' (by simp) with
            | object hdistinct' hplaced' =>
              have hchild : (path.key key i).segments = place ++ [.key key] := by rw [← hpath]; rfl
              exact (ih i key r s hi hi' hchild
                (by simpa using hq) (hr.field (List.mem_of_getElem? hi) hdistinct)
                (hs.field (List.mem_of_getElem? hi') hdistinct') (hplaced i key r hi)
                (hplaced' i key s hi')).child
        · exact childContained_of_timeless ((hfields i key r s hi hi').timeless (not_below hq heq)) _ _
      refine contained_object (hlength.resolve_right ?_) hkeys hchild
      rintro ⟨i, key, r, s, hi, hi', herror⟩
      exact herror (isError_eq_of_escape? (hchild i key r s hi hi').escape)
  | followed _ _ ih =>
    have hinner := ih hpath hq hr.ofFollowed hs.ofFollowed (placed_followed hplaced)
      (placed_followed hplaced')
    exact ⟨hinner.value, hinner.escape, hinner.errors⟩
  | first _ herror ih =>
    have hinner := ih hpath hq hr.ofFollowed hs (placed_followed hplaced) hplaced'
    exact (herror (isError_eq_of_escape? hinner.escape)).elim
  | second _ herror ih =>
    have hinner := ih hpath hq hr hs.ofFollowed hplaced (placed_followed hplaced')
    exact (herror (isError_eq_of_escape? hinner.escape)).elim
  | nullable _ ih =>
    cases q with
    | nil => exact hpath ▸ contained_here hr hs hplaced hplaced'
    | cons segment q =>
      have hinner := ih hpath hq hr.ofNullable hs.ofNullable (placed_nullable hplaced)
        (placed_nullable hplaced')
      exact contained_nullable hinner

end Report

theorem filter_inResponseOrder {errors errors' : List ExecutionError} {keep : ExecutionError → Bool}
    (h : errors.Pairwise fun a b => a.path.Diverge b.path)
    (h' : errors'.Pairwise fun a b => a.path.Diverge b.path)
    (heq : errors.filter keep = errors'.filter keep) :
    (inResponseOrder errors).filter keep = (inResponseOrder errors').filter keep := by
  have hperm := (inResponseOrder_perm errors).filter keep
  have hperm' := (inResponseOrder_perm errors').filter keep
  rw [heq] at hperm
  have hincreasing := (inResponseOrder_increasing h).2.filter keep
  have hincreasing' := (inResponseOrder_increasing h').2.filter keep
  refine List.Perm.eq_of_pairwise (fun a b _ _ hab hba => ?_) hincreasing hincreasing'
    (hperm.trans hperm'.symm)
  exact (List.lt_asymm hab hba).elim

/-! ## Declared types of places -/

/-- The type that is declared for a field of an object type. -/
def ObjectType.declared? (object : ObjectType σ) (name : String) : Option TypeRef :=
  if name = "__typename" then none else (object.field? name).map (·.type)

/-- Whether a place below some work is a field or an item of a list, of the given declared type, the
way the host may answer while nothing is aborted. -/
inductive Work.Leads (ctx : ExecutionContext σ) : Work σ → Path → List Segment → Option TypeRef → Prop
  | fields {object source collected path i key uses q t}
    (hgroup : collected.groups[i]? = some (key, uses))
    (h : Leads ctx (.field object source uses) (path.key key i) q t) :
    Leads ctx (.fields object source collected) path (.key key :: q) t
  | field {object source uses path} :
    Leads ctx (.field object source uses) path []
      (uses.head?.bind fun use => object.declared? use.node.name.item)
  | resolved {object source use others field value path segment q t}
    (hname : use.node.name.item ≠ "__typename")
    (hfield : object.field? use.node.name.item = some field)
    (hresolved : Resolved World.Ongoing ctx ⟨object, field, use, others⟩ source path (.ok value))
    (h : Leads ctx (.value ⟨object, field, use, others⟩ field.type value) path (segment :: q) t) :
    Leads ctx (.field object source (use :: others)) path (segment :: q) t
  | here {plan t value path} : Leads ctx (.value plan t value) path [] (some t)
  | item {plan t item value items i v path q t'} (ht : t.item? = some item)
    (hitems : value.items? = some items) (hv : items.values[i]? = some v)
    (h : Leads ctx (.value plan item v) (path.index i) q t') :
    Leads ctx (.value plan t value) path (.index i :: q) t'
  | object {plan t value path object collected segment q t'} (ht : t.item? = none)
    (hchosen : Chosen World.Ongoing ctx plan path value t.innermost object)
    (hcollected : ctx.subfields object plan.uses = some collected)
    (h : Leads ctx (.fields object value collected) path (segment :: q) t') :
    Leads ctx (.value plan t value) path (segment :: q) t'

/-- Whether a report may be about some work. -/
def Work.Reports (I : World σ → Prop) (ctx : ExecutionContext σ) : Work σ → Path → Report σ → Prop
  | .fields object source collected, path, r => ∃ depth isSerial deferred fields,
    r = .object deferred fields ∧ ObjectReport I ctx (completeWithin ctx depth true) isSerial object
      source path collected deferred fields
  | .field object source uses, path, r => ∃ depth,
    FieldReport I ctx (completeWithin ctx depth true) object source path uses r
  | .value plan t v, path, r => ∃ depth isStreamable s,
    Yields I (completeWithin ctx depth isStreamable plan t path v) s ∧ r = s.absorbing t

/-- Whether null is allowed at a place below some work, whichever type is declared for it. -/
def Work.AllowsNull (ctx : ExecutionContext σ) (work : Work σ) (path : Path) (q : List Segment) : Prop :=
  ∀ t, work.Leads ctx path q t → ∃ type, t = some type ∧ type.isNonNull = false

/-- Whether reports about some work spare a place if null is allowed there. -/
def Work.Spares (I : World σ → Prop) (ctx : ExecutionContext σ) (work : Work σ) (path : Path)
    (q : List Segment) : Prop :=
  work.AllowsNull ctx path q → ∀ r, work.Reports I ctx path r → r.Spares q

namespace Report

variable {r : Report σ} {segment : Segment} {q : List Segment} {t : TypeRef}

theorem Spares.absorbing (h : r.Spares (segment :: q)) : (r.absorbing t).Spares (segment :: q) := by
  unfold Report.absorbing
  split
  · exact h
  · intro s hs
    cases hs with
    | nullable hs =>
      obtain ⟨inner, hinner⟩ := h s hs
      exact ⟨inner, .nullable hinner⟩

theorem spares_absorbing_here (ht : t.isNonNull = false) : (r.absorbing t).Spares [] := by
  unfold Report.absorbing
  rw [if_neg (by simp [ht])]
  exact fun _ _ => ⟨r, .here _⟩

end Report

section

variable {I : World σ → Prop} {ctx : ExecutionContext σ} (hI : ∀ w, I w → w.Ongoing)

theorem spares_fields {object : ObjectType σ} {source : HostValue} {collected : Collected}
    {path : Path} {segment : Segment} {q : List Segment}
    (ih : ∀ uses path, (Work.field object source uses).Spares I ctx path q) :
    (Work.fields object source collected).Spares I ctx path (segment :: q) := by
  rintro hnull r ⟨depth, isSerial, deferred, fields, rfl, hreport⟩ s hs
  cases hs with
  | @field _ _ key r _ _ hr hs =>
    obtain ⟨i, hi⟩ := List.mem_iff_getElem?.mp hr
    obtain ⟨uses, hgroup, hfield⟩ := hreport.field hi
    obtain ⟨inner, hinner⟩ := ih uses _ (fun t h => hnull t (.fields hgroup h)) r ⟨depth, hfield⟩ s hs
    exact ⟨inner, .field hr hinner⟩

theorem spares_field {object : ObjectType σ} {source : HostValue} {uses : List FieldUse} {path : Path} :
    (Work.field object source uses).Spares I ctx path [] := by
  rintro hnull r ⟨depth, hr⟩
  obtain ⟨t, hdeclared, ht⟩ := hnull _ .field
  cases hr with
  | unused => cases hdeclared
  | typeName hname => simp [ObjectType.declared?, hname] at hdeclared
  | unknown _ hfield => simp [ObjectType.declared?, hfield] at hdeclared
  | unresolved hname hfield =>
    obtain rfl : _ = t := by simpa [ObjectType.declared?, hname, hfield] using hdeclared
    exact Report.spares_absorbing_here ht
  | resolved hname hfield =>
    obtain rfl : _ = t := by simpa [ObjectType.declared?, hname, hfield] using hdeclared
    exact Report.spares_absorbing_here ht

theorem spares_value {plan : FieldPlan σ} {t : TypeRef} {value : HostValue} {path : Path} :
    (Work.value plan t value).Spares I ctx path [] := by
  rintro hnull r ⟨depth, isStreamable, s, -, rfl⟩
  obtain ⟨_, ⟨⟩, ht⟩ := hnull _ .here
  exact Report.spares_absorbing_here ht

theorem spares_items {plan : FieldPlan σ} {t item : TypeRef} {value : HostValue}
    {items : HostValue.Items} {initial : List HostValue} {remaining : Option ItemSource}
    {reports : List (Report σ)} {depth : Nat} {path : Path} {segment : Segment} {q : List Segment}
    (ih : ∀ v path, (Work.value plan item v).Spares I ctx path q) (ht : t.item? = some item)
    (hitems : value.items? = some items) (hcut : Cut I items initial remaining)
    (hreports : ItemReports I (completeWithin ctx depth false) plan item path initial reports)
    (hnull : (Work.value plan t value).AllowsNull ctx path (segment :: q)) :
    (Report.list reports).Spares (segment :: q) := by
  intro s hs
  cases hs with
  | @item _ i r _ _ hr hs =>
    obtain ⟨hi, -⟩ := List.getElem?_eq_some_iff.mp hr
    have hv := List.getElem?_eq_getElem (hreports.length ▸ hi)
    obtain ⟨s', hs', rfl⟩ := yields_completeItem (hreports.item hv hr)
    obtain ⟨inner, hinner⟩ := ih _ _ (fun t h => hnull t (.item ht hitems (getElem?_of_cut hcut hv) h)) _
      ⟨depth, false, s', hs', rfl⟩ s hs
    exact ⟨inner, .item hr hinner⟩

include hI

theorem spares_below {plan : FieldPlan σ} {t : TypeRef} {value : HostValue} {path : Path}
    {segment : Segment} {q : List Segment}
    (ihfield : ∀ object source uses path, (Work.field object source uses).Spares I ctx path q)
    (ihvalue : ∀ t v path, (Work.value plan t v).Spares I ctx path q) :
    (Work.value plan t value).Spares I ctx path (segment :: q) := by
  rintro hnull r ⟨depth, isStreamable, s, hs, rfl⟩
  refine Report.Spares.absorbing ?_
  cases depth with
  | zero => exact hs.elim
  | succ depth =>
    cases yields_completeValue hs with
    | failed | null | scalar | enum => exact fun s hs => by cases hs
    | object _ ht hchosen hcollected hr =>
      exact spares_fields (fun uses path => ihfield _ _ uses path)
        (fun t h => hnull t (.object ht (hchosen.mono hI) hcollected h)) _ ⟨depth, false, _, _, rfl, hr⟩
    | list _ ht hr =>
      cases hr with
      | failed => exact fun s hs => by cases hs
      | whole hitems hcut hreports =>
        exact spares_items (fun v path => ihvalue _ v path) ht hitems hcut hreports hnull
      | begun hitems hcut hreports =>
        intro s hs
        cases hs with
        | followed hs =>
          obtain ⟨inner, hinner⟩ :=
            spares_items (fun v path => ihvalue _ v path) ht hitems hcut hreports hnull s hs
          exact ⟨inner, .followed hinner⟩

theorem spares_resolved {object : ObjectType σ} {source : HostValue} {uses : List FieldUse}
    {path : Path} {segment : Segment} {q : List Segment}
    (ih : ∀ plan t v path, (Work.value plan t v).Spares I ctx path (segment :: q)) :
    (Work.field object source uses).Spares I ctx path (segment :: q) := by
  rintro hnull r ⟨depth, hr⟩
  cases hr with
  | unused | typeName | unknown => exact fun s hs => by cases hs
  | unresolved => exact Report.Spares.absorbing fun s hs => by cases hs
  | resolved hname hfield hresolved hs =>
    exact ih _ _ _ _ (fun t h => hnull t (.resolved hname hfield (yields_mono hI hresolved) h)) _
      ⟨depth, true, _, hs, rfl⟩

theorem spares (q : List Segment) :
    (∀ object source uses path, (Work.field object source uses).Spares I ctx path q) ∧
      ∀ plan t value path, (Work.value plan t value).Spares I ctx path q := by
  induction q with
  | nil => exact ⟨fun _ _ _ _ => spares_field, fun _ _ _ _ => spares_value⟩
  | cons segment q ih =>
    have hvalue plan t value path : (Work.value plan t value).Spares I ctx path (segment :: q) :=
      spares_below hI ih.1 (ih.2 plan)
    exact ⟨fun _ _ _ _ => spares_resolved hI hvalue, hvalue⟩

end

/-! ## Responses -/

/-- The first payload of a response, or all of it. -/
def Response.first : Response σ → ExecutionResult
  | .single result => result
  | .incremental initial _ _ => ⟨some initial.data, initial.errors, none⟩

/-- The data of a result; null if there is none. -/
def ExecutionResult.value (result : ExecutionResult) : Value := (result.data.map .object).getD .null

/-- Whether two results are the same at all places that are not at `q` or below. -/
structure ExecutionResult.SameOutside (q : List Segment) (result result' : ExecutionResult) : Prop where
  data : result.value.without q = result'.value.without q
  errors : result.errors.filter (·.isOutside q) = result'.errors.filter (·.isOutside q)

/-- Whether null is allowed at a place of the response, by the type that is declared there, or since
it is the root. -/
def Request.AllowsNull (r : Request σ) (q : List Segment) : Prop :=
  ∀ ctx root collected, r.prepare = .ok (ctx, root) → ctx.rootFields root = some collected →
    (Work.fields root ctx.root collected).AllowsNull ctx .root q

/-- Whether callbacks are steady unless they are asked about a place or what is below it. What they
answer there may depend on anything. -/
abbrev Request.SteadyOutside (p : List Segment) (r : Request σ) : Prop :=
  r.Heeds
    (Callback.SteadyWhere (fun request => ¬ p <+: request.info.path.segments) View.timeless.field
      HostValue.timeless)
    (Callback.SteadyWhere (fun request => ¬ p <+: request.info.path.segments) View.timeless.type id)
    (Callback.SteadyWhere (fun request => ¬ p <+: request.info.path.segments) View.timeless.type id)

theorem first_of_responds {ctx : ExecutionContext σ} {report : Report σ} {response : Response σ}
    (h : Responds ctx report response) :
    response.first = ⟨report.outcome.object?, report.outcome.allErrors, none⟩ := by
  cases h with
  | single => rfl
  | incremental hdata => rw [hdata]; rfl

theorem sameOutside_root (result result' : ExecutionResult) : result.SameOutside [] result' where
  data := rfl
  errors := by simp [ExecutionError.isOutside]

theorem sameOutside_of_contained {segment : Segment} {q : List Segment} {report report' : Report σ}
    {data data' : Option Object} (hplaced : report.Placed .root) (hplaced' : report'.Placed .root)
    (hdata : data.map Value.object = report.value?) (hdata' : data'.map Value.object = report'.value?)
    (h : report.Contained [] (segment :: q) report') :
    ExecutionResult.SameOutside (segment :: q) ⟨data, report.outcome.allErrors, none⟩
      ⟨data', report'.outcome.allErrors, none⟩ where
  data := by
    have hvalue := h.value
    unfold ExecutionResult.value
    dsimp only
    rw [hdata, hdata']
    cases hr : report.value? <;> cases hs : report'.value? <;>
      simp only [hr, hs, Option.map_none, Option.map_some, reduceCtorEq, Option.some.injEq] at hvalue
    · rfl
    · exact hvalue
  errors := by
    have hraised : report.raised.filter (·.isOutside (segment :: q)) =
        report'.raised.filter (·.isOutside (segment :: q)) := by
      unfold Report.raised
      have herrors := h.errors
      rw [List.nil_append] at herrors
      rw [List.filter_append, List.filter_append, herrors, h.escape]
    rw [Report.allErrors_eq, Report.allErrors_eq]
    exact filter_inResponseOrder hplaced.diverge hplaced'.diverge hraised

/-- What the host answers at one place of a response and below shows only at places where it is below
or at each place that allows null and is above. Everywhere else, two runs have the same data, with the
same fields in the same order, and the same errors in the same order. -/
theorem executeIncrementally_contained {r : Request σ} {p q : List Segment}
    (hsteady : r.SteadyOutside p) (hq : q <+: p) (hnull : r.AllowsNull q) {w w' v v' : World σ}
    {response response' : Response σ} (hw : w.Ongoing) (hw' : w'.Ongoing)
    (h : r.executeIncrementally w = some (response, v))
    (h' : r.executeIncrementally w' = some (response', v')) (hv : v.taken.Nodup)
    (hv' : v'.taken.Nodup) : response.first.SameOutside q response'.first := by
  rcases executeIncrementally_cases h with ⟨e, he, rfl⟩ |
      ⟨ctx, root, report, u, hprepare, hrun, hr, hu⟩ <;>
    rcases executeIncrementally_cases h' with ⟨e', he', rfl⟩ |
      ⟨ctx', root', report', u', hprepare', hrun', hr', hu'⟩
  · obtain rfl := Except.error.inj (he.symm.trans he')
    exact ⟨rfl, rfl⟩
  · cases he.symm.trans hprepare'
  · cases he'.symm.trans hprepare
  obtain ⟨rfl, rfl⟩ := Prod.mk.inj (Except.ok.inj (hprepare.symm.trans hprepare'))
  obtain ⟨-, -, howned⟩ := prepare_spec hprepare
  have hctx : ctx.SteadyWhere (fun place => ¬ p <+: place) View.timeless := hsteady.prepared hprepare
  obtain ⟨I, hI, hyields⟩ := yields_of_run (w := w.trace _) hctx howned hw (hu ▸ hv) hrun
  obtain ⟨J, hJ, hyields'⟩ := yields_of_run (w := w'.trace _) hctx howned hw' (hu' ▸ hv') hrun'
  rw [first_of_responds hr, first_of_responds hr']
  cases q with
  | nil => exact sameOutside_root _ _
  | cons segment q =>
    have hroot : ctx.root.timeless = ctx.root.timeless := rfl
    have halike := agree_executeRoot hI hJ hctx hroot howned _ _ hyields hyields'
    obtain ⟨collected, deferred, fields, rfl, hcollected, hreport⟩ := yields_executeRoot hyields
    obtain ⟨collected', deferred', fields', rfl, hcollected', hreport'⟩ := yields_executeRoot hyields'
    obtain rfl := Option.some.inj (hcollected.symm.trans hcollected')
    have hgrouped := ExecutionContext.grouped_rootFields hcollected
    have hplaced := hreport.placed (places_completeWithin _ _) hgrouped
    have hplaced' := hreport'.placed (places_completeWithin _ _) hgrouped
    have hnull := hnull ctx root collected hprepare hcollected
    have hspares := spares_fields (fun uses path => (spares hI.ongoing q).1 root ctx.root uses path)
      hnull _ ⟨_, _, _, _, rfl, hreport⟩
    have hspares' := spares_fields (fun uses path => (spares hJ.ongoing q).1 root ctx.root uses path)
      hnull _ ⟨_, _, _, _, rfl, hreport'⟩
    have hpath : Path.root.segments = [] := rfl
    have hcontained := halike.contained hpath hq hspares hspares' (fun _ => hplaced) fun _ => hplaced'
    exact sameOutside_of_contained hplaced hplaced' (object?_object _ _) (object?_object _ _) hcontained

/-- Answers what object data holds, but for the numbers when the host is in a bad mood. -/
def moodyResolver : FieldResolver Bool := fun request _ isBad =>
  let found := defaultFieldValue request.source request.info.fieldName
  let isRefused := isBad && request.info.path.segments == [.key "numbers"]
  ⟨.ready (if isRefused then .error (.ofMessage "Not today") else .ok found), isBad, []⟩

/-- `{ name numbers }` -/
def moodyRequest : Request Bool where
  schema := sampleSchema
  document := [.operation { sampleOperation with
    selections := [sampleField "name" [], sampleField "numbers" []] }]
  root := .data (.object [("name", .string "Ada"), ("numbers", .list [.int 1, .int 2])])
  fieldResolver := some moodyResolver
  bounds := ⟨5, 5, 50⟩

theorem moodyResolver_steadyWhere :
    moodyResolver.SteadyWhere (fun request => ¬ [.key "numbers"] <+: request.info.path.segments)
      View.timeless.field HostValue.timeless where
  harmless := ⟨fun _ _ _ _ => rfl, fun _ _ _ _ _ _ h => by cases h⟩
  settles := by
    let outcome (request : FieldRequest) : Except FieldError HostValue :=
      .ok (defaultFieldValue request.source request.info.fieldName).timeless
    refine ⟨outcome, fun request hasked signal isBad _ => ?_⟩
    have hplace : (request.info.path.segments == [.key "numbers"]) = false := by
      rw [beq_eq_false_iff_ne]
      exact fun h => hasked (h ▸ List.prefix_refl _)
    have hname : request.info.timeless.fieldName = request.info.fieldName := rfl
    simp [moodyResolver, outcome, hplace, hname, Answer.Settles, Except.map, View.timeless,
      defaultFieldValue_timeless]

theorem moodyRequest_allowsNull : moodyRequest.AllowsNull [.key "numbers"] := by
  intro ctx root collected hprepare hcollected t hleads
  obtain ⟨operation, values, hoperation, hroot, rfl⟩ := exists_of_prepare hprepare
  obtain rfl := Except.ok.inj hoperation
  obtain rfl : sampleType = root := Option.some.inj hroot
  obtain rfl : ⟨["name", "numbers"].map fun name => (name, [sampleUse name]), []⟩ = collected :=
    Option.some.inj hcollected
  cases hleads with
  | fields hgroup h =>
    obtain ⟨name, -, heq⟩ := List.mem_map.mp (List.mem_of_getElem? hgroup)
    obtain ⟨rfl, rfl⟩ := Prod.mk.inj heq
    cases h with
    | field => exact ⟨_, rfl, rfl⟩

theorem moodyRequest_contained :
    ∃ response response' : Response Bool, ∃ v v',
      moodyRequest.executeIncrementally { host := false } = some (response, v) ∧
      moodyRequest.executeIncrementally { host := true } = some (response', v') ∧
      response.first.errors.length = 0 ∧ response'.first.errors.length = 1 ∧
      response.first.SameOutside [.key "numbers"] response'.first := by
  have hgood : (moodyRequest.executeIncrementally { host := false }).any
      fun (response, v) => v.taken.Nodup ∧ response.first.errors.length = 0 := by decide +kernel
  have hbad : (moodyRequest.executeIncrementally { host := true }).any
      fun (response, v) => v.taken.Nodup ∧ response.first.errors.length = 1 := by decide +kernel
  obtain ⟨⟨response, v⟩, h, hv⟩ := (Option.any_eq_true _ _).mp hgood
  obtain ⟨⟨response', v'⟩, h', hv'⟩ := (Option.any_eq_true _ _).mp hbad
  simp only [decide_eq_true_eq] at hv hv'
  have hsteady : moodyRequest.SteadyOutside [.key "numbers"] := by
    refine ⟨steady_sampleSchema.anywhere _ _, ?_, fun resolver hresolver => nomatch hresolver⟩
    rintro _ ⟨⟩
    exact moodyResolver_steadyWhere
  have hw (isBad : Bool) : World.Ongoing { host := isBad } := rfl
  exact ⟨response, response', v, v', h, h', hv.2, hv'.2, executeIncrementally_contained hsteady
    (List.prefix_refl _) moodyRequest_allowsNull (hw false) (hw true) h h' hv.1 hv'.1⟩

end GraphQL
