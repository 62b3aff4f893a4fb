import GraphQL.Proofs.Execution.Assembly.Parts

/-! # Parts give pieces

What is given for a part of some work is a piece of what is given for the whole, and so is what its
jobs will deliver.
-/

namespace GraphQL

open Process

variable {σ : Type} {I J : World σ → Prop} {ctx : ExecutionContext σ} {root : ObjectType σ}

/-! ## What is given for values -/

section

variable {plan plan' : FieldPlan σ} {t item : TypeRef} {v v' : HostValue} {path path' : Path}
  {x : Option Value} {jobs : List (Job σ)}

theorem isNull_same (hv : v.timeless = v'.timeless) : v.isNull = v'.isNull := by
  rw [← HostValue.isNull_timeless, hv, HostValue.isNull_timeless]

theorem completeScalar_same {s : ScalarType} {w w' : Value} (hv : v.timeless = v'.timeless)
    (h : plan.completeScalar path s v = .ok w) (h' : plan'.completeScalar path' s v' = .ok w') :
    w = w' := by
  have hdata : v.toData = v'.toData := by
    rw [← HostValue.toData_timeless, hv, HostValue.toData_timeless]
  unfold FieldPlan.completeScalar at h h'
  rw [← hdata] at h'
  cases hraw : v.toData with
  | none => simp [hraw] at h
  | some raw =>
    simp only [hraw] at h h'
    cases hout : s.output raw with
    | error e => simp [hout] at h
    | ok out =>
      simp only [hout] at h h'
      split at h
      · cases h
      · next hnull =>
        rw [if_neg hnull] at h'
        exact (Except.ok.inj h).symm.trans (Except.ok.inj h')

theorem completeEnum_same {s : EnumType} {w w' : Value} (hv : v.timeless = v'.timeless)
    (h : plan.completeEnum path s v = .ok w) (h' : plan'.completeEnum path' s v' = .ok w') :
    w = w' := by
  have hdata : v.toData = v'.toData := by
    rw [← HostValue.toData_timeless, hv, HostValue.toData_timeless]
  unfold FieldPlan.completeEnum at h h'
  rw [← hdata] at h'
  cases hfound : v.toData.bind s.seenAs? with
  | none => simp [hfound] at h
  | some found =>
    simp only [hfound] at h h'
    exact (Except.ok.inj h).symm.trans (Except.ok.inj h')

namespace Gives

theorem of_null (h : Gives I ctx (.value plan t v) path x jobs) (hnull : v.isNull) :
    x = some .null ∧ jobs = [] := by
  cases h with
  | null => exact ⟨rfl, rfl⟩
  | scalar hnull' | enum hnull' | list hnull' | object hnull' => simp [hnull] at hnull'

theorem of_scalar {s : ScalarType} (h : Gives I ctx (.value plan t v) path x jobs)
    (hnull : v.isNull = false) (ht : t.item? = none)
    (hs : ctx.schema.type? t.innermost = some (.scalar s)) :
    ∃ w, plan.completeScalar path s v = .ok w ∧ x = some w ∧ jobs = [] := by
  cases h with
  | null hnull' => simp [hnull] at hnull'
  | scalar _ _ hs' hv =>
    obtain rfl := TypeDefinition.scalar.inj (Option.some.inj (hs.symm.trans hs'))
    exact ⟨_, hv, rfl, rfl⟩
  | enum _ _ hs' => cases hs.symm.trans hs'
  | list _ ht' => cases ht.symm.trans ht'
  | object _ _ hchosen => exact absurd hs (hchosen.allows.not_leaf.1 s)

theorem of_enum {s : EnumType} (h : Gives I ctx (.value plan t v) path x jobs)
    (hnull : v.isNull = false) (ht : t.item? = none)
    (hs : ctx.schema.type? t.innermost = some (.enum s)) :
    ∃ w, plan.completeEnum path s v = .ok w ∧ x = some w ∧ jobs = [] := by
  cases h with
  | null hnull' => simp [hnull] at hnull'
  | enum _ _ hs' hv =>
    obtain rfl := TypeDefinition.enum.inj (Option.some.inj (hs.symm.trans hs'))
    exact ⟨_, hv, rfl, rfl⟩
  | scalar _ _ hs' => cases hs.symm.trans hs'
  | list _ ht' => cases ht.symm.trans ht'
  | object _ _ hchosen => exact absurd hs (hchosen.allows.not_leaf.2 s)

theorem of_list (h : Gives I ctx (.value plan t v) path x jobs) (hnull : v.isNull = false)
    (ht : t.item? = some item) :
    ∃ (items : HostValue.Items) (initial remaining : List HostValue)
      (pieces : List (Value × List (Job σ))) (later : List (Job σ)),
      v.items? = some items ∧ items.values = initial ++ remaining ∧
      pieces.length = initial.length ∧
      (∀ (i : Nat) y w js, initial[i]? = some y → pieces[i]? = some (w, js) →
        Gives I ctx (.value plan item y) (path.index i) (some w) js) ∧
      Remains plan item path remaining initial.length later ∧
      x = some (.list (pieces.map Prod.fst)) ∧ jobs = pieces.flatMap Prod.snd ++ later := by
  cases h with
  | null hnull' => simp [hnull] at hnull'
  | scalar _ ht' | enum _ ht' | object _ ht' => cases ht.symm.trans ht'
  | list _ ht' hitems hcut hlength hpieces hremains =>
    obtain rfl := Option.some.inj (ht.symm.trans ht')
    exact ⟨_, _, _, _, _, hitems, hcut, hlength, hpieces, hremains, rfl, rfl⟩

theorem of_object {object : ObjectType σ} (h : Gives I ctx (.value plan t v) path x jobs)
    (hnull : v.isNull = false) (ht : t.item? = none) (hallows : ctx.schema.Allows t.innermost object) :
    ∃ object collected, Chosen I ctx plan path v t.innermost object ∧
      ctx.subfields object plan.uses = some collected ∧
      Gives I ctx (.fields object v collected) path x jobs := by
  cases h with
  | null hnull' => simp [hnull] at hnull'
  | scalar _ _ hs => exact absurd hs (hallows.not_leaf.1 _)
  | enum _ _ hs => exact absurd hs (hallows.not_leaf.2 _)
  | list _ ht' => cases ht.symm.trans ht'
  | object _ _ hchosen hcollected h => exact ⟨_, _, hchosen, hcollected, h⟩

end Gives

theorem itemsOf_timeless (events : List Event) :
    itemsOf (events.map Event.timeless) = (itemsOf events).map HostValue.timeless := by
  induction events with
  | nil => rfl
  | cons e events ih =>
    cases e with
    | item delay y =>
      have hevents : itemsOf (.item delay y :: events) = y :: itemsOf events := itemsOf_cons rfl _
      rw [List.map_cons, hevents, List.map_cons, ← ih]
      exact itemsOf_cons rfl _
    | failure delay e => exact ih

theorem values_same {items items' : HostValue.Items} (hv : v.timeless = v'.timeless)
    (h : v.items? = some items) (h' : v'.items? = some items') :
    items.values.map HostValue.timeless = items'.values.map HostValue.timeless := by
  have hitems : v.items?.map HostValue.Items.timeless = v'.items?.map HostValue.Items.timeless := by
    rw [← HostValue.items?_timeless, hv, HostValue.items?_timeless]
  rw [h, h', Option.map_some, Option.map_some] at hitems
  have hitems := Option.some.inj hitems
  cases items <;> cases items' <;> simp only [HostValue.Items.timeless, reduceCtorEq,
    HostValue.Items.ready.injEq, HostValue.Items.stream.injEq] at hitems
  · exact hitems
  · simp only [HostValue.Items.values, ← itemsOf_timeless, hitems.2]

theorem exists_item_same {items items' : HostValue.Items} (hv : v.timeless = v'.timeless)
    (h : v.items? = some items) (h' : v'.items? = some items') {i : Nat} {y' : HostValue}
    (hy : items'.values[i]? = some y') :
    ∃ y, items.values[i]? = some y ∧ y.timeless = y'.timeless := by
  have hsame : (items.values.map HostValue.timeless)[i]? =
      (items'.values.map HostValue.timeless)[i]? := by rw [values_same hv h h']
  rw [List.getElem?_map, List.getElem?_map, hy] at hsame
  exact Option.map_eq_some_iff.mp hsame

end

/-! ## Pieces of an object -/

section

variable {groups : FieldGroups} {pieces : List (String × Option Value × List (Job σ))} {i : Nat}
  {key : String} {v : Option Value} {jobs : List (Job σ)}

theorem exists_group_of_piece (hkeys : pieces.map Prod.fst = groups.map Prod.fst)
    (h : pieces[i]? = some (key, v, jobs)) : ∃ uses, groups[i]? = some (key, uses) := by
  have hkey : (groups.map Prod.fst)[i]? = some key := by rw [← hkeys, List.getElem?_map, h]; rfl
  rw [List.getElem?_map, Option.map_eq_some_iff] at hkey
  obtain ⟨⟨_, uses⟩, hgroup, rfl⟩ := hkey
  exact ⟨uses, hgroup⟩

theorem exists_piece_of_group (hkeys : pieces.map Prod.fst = groups.map Prod.fst)
    {uses : List FieldUse} (h : (key, uses) ∈ groups) :
    ∃ (i : Nat) (v : Option Value) (jobs : List (Job σ)),
      groups[i]? = some (key, uses) ∧ pieces[i]? = some (key, v, jobs) := by
  obtain ⟨i, hgroup⟩ := List.mem_iff_getElem?.mp h
  have hkey : (pieces.map Prod.fst)[i]? = some key := by
    rw [hkeys, List.getElem?_map, hgroup]
    rfl
  rw [List.getElem?_map, Option.map_eq_some_iff] at hkey
  obtain ⟨⟨_, v, jobs⟩, hpiece, rfl⟩ := hkey
  exact ⟨i, v, jobs, hgroup, hpiece⟩

theorem exists_piece_of_get? {w : Value} (h : Entries.get? key (fieldsOf pieces) = some w) :
    ∃ (i : Nat) (jobs : List (Job σ)), pieces[i]? = some (key, some w, jobs) := by
  obtain ⟨⟨_, v, jobs⟩, hpiece, hw⟩ := List.mem_filterMap.mp (Entries.mem_of_get? h)
  obtain ⟨w', rfl, heq⟩ := Option.map_eq_some_iff.mp hw
  obtain ⟨rfl, rfl⟩ := Prod.mk.inj heq
  obtain ⟨i, hi⟩ := List.mem_iff_getElem?.mp hpiece
  exact ⟨i, jobs, hi⟩

theorem get?_fieldsOf (hnodup : (pieces.map Prod.fst).Nodup) (h : (key, v, jobs) ∈ pieces) :
    Entries.get? key (fieldsOf pieces) = v := by
  induction pieces with
  | nil => cases h
  | cons piece pieces ih =>
    obtain ⟨key', v', jobs'⟩ := piece
    rw [List.map_cons, List.nodup_cons] at hnodup
    have hcons : fieldsOf ((key', v', jobs') :: pieces) =
        (v'.map (key', ·)).toList ++ fieldsOf pieces := by
      unfold fieldsOf
      rw [List.filterMap_cons]
      cases v' <;> rfl
    rw [hcons]
    rcases List.mem_cons.mp h with heq | hmem
    · obtain ⟨rfl, rfl, rfl⟩ : key = key' ∧ v = v' ∧ jobs = jobs' := by simpa using heq
      cases v with
      | none =>
        refine Option.eq_none_iff_forall_ne_some.mpr fun w hw => ?_
        obtain ⟨i, js, hpiece⟩ := exists_piece_of_get? hw
        exact hnodup.1 (List.mem_map.mpr ⟨_, List.mem_of_getElem? hpiece, rfl⟩)
      | some w => exact (Entries.get?_cons ..).trans (if_pos rfl)
    · have hne : key ≠ key' := by
        rintro rfl
        exact hnodup.1 (List.mem_map.mpr ⟨_, hmem, rfl⟩)
      cases v' with
      | none => exact ih hnodup.2 hmem
      | some w => exact (Entries.get?_cons ..).trans ((if_neg hne).trans (ih hnodup.2 hmem))

end

/-! ## A part is a piece of the whole -/

/-- Whether two runs of a request, and of the same request on the plain document, can be compared. -/
structure Comparable (I J : World σ → Prop) (ctx : ExecutionContext σ) (root : ObjectType σ) :
    Prop where
  calm : Calm I
  calmWhole : Calm J
  steady : ctx.Steady View.source
  closed : ∀ f ∈ ctx.fragments, f.variableDefinitions = none
  consistent : ctx.plain.Consistent root
  owns : ctx.schema.Owns root

/-- Whether some work is a part of what gives what stands at a place of `whole`. -/
def Backed (J : World σ → Prop) (ctx : ExecutionContext σ) (root : ObjectType σ) (whole : Value)
    (work : Work σ) (place : List Segment) : Prop :=
  ∃ work' path w, work.PartOf work' ∧ work'.Declared ctx.plain root path ∧
    Gives J ctx.plain work' path w [] ∧ whole.at? place = w

/-- Whether a job delivers pieces of what stands in `whole`. -/
def Job.Backed (J : World σ → Prop) (ctx : ExecutionContext σ) (root : ObjectType σ) (whole : Value) :
    Job σ → Prop
  | .deferred object source path fragment => fragment.fields.Grouped ∧
    GraphQL.Backed J ctx root whole (.fields object source fragment.fields) path.segments
  | .streamed plan itemType path _ index source => ∀ (i : Nat) v, source.values[i]? = some v →
    GraphQL.Backed J ctx root whole (.value plan itemType v) (path.segments ++ [.index (index + i)])

theorem Remains.backed {plan : FieldPlan σ} {itemType : TypeRef} {path : Path}
    {remaining : List HostValue} {index : Nat} {jobs : List (Job σ)} {whole : Value}
    (h : Remains plan itemType path remaining index jobs)
    (hitems : ∀ (i : Nat) v, remaining[i]? = some v →
      Backed J ctx root whole (.value plan itemType v) (path.segments ++ [.index (index + i)])) :
    ∀ job ∈ jobs, job.Backed J ctx root whole := by
  cases h with
  | nothing => simp
  | queued =>
    intro job hjob
    obtain rfl := List.mem_singleton.mp hjob
    exact hitems

/-- Whether parts of some work give pieces of what it gives, and leave jobs for other such pieces. -/
def Work.Bounds (I J : World σ → Prop) (ctx : ExecutionContext σ) (root : ObjectType σ) (whole : Value)
    (work' : Work σ) (w : Option Value) : Prop :=
  ∀ ⦃work path v jobs⦄, Gives I ctx work path v jobs → work.PartOf work' →
    whole.at? path.segments = w →
    Value.OptionWithin v w ∧ ∀ job ∈ jobs, job.Backed J ctx root whole

variable {whole : Value}

theorem bounds_fields {object : ObjectType σ} {source : HostValue} {collected : Collected}
    {path : Path} {pieces : List (String × Option Value × List (Job σ))}
    (hgrouped : collected.Grouped) (hkeys : pieces.map Prod.fst = collected.groups.map Prod.fst)
    (hgives : ∀ (i : Nat) key uses v jobs, collected.groups[i]? = some (key, uses) →
      pieces[i]? = some (key, v, jobs) →
      Gives J ctx.plain (.field object source uses) (path.key key i) v jobs)
    (hpieces : ∀ (i : Nat) key uses v jobs, collected.groups[i]? = some (key, uses) →
      pieces[i]? = some (key, v, jobs) →
      (Work.field object source uses).Bounds I J ctx root whole v)
    (hjobs : collected.deferred.map (Job.deferred object source path) ++ pieces.flatMap (·.2.2) = [])
    (hdeclared : (Work.fields object source collected).Declared ctx.plain root path) :
    (Work.fields object source collected).Bounds I J ctx root whole
      (some (.object (fieldsOf pieces))) := by
  intro work path' v jobs h hpart hwhole
  have hdeferred : collected.deferred = [] := by simpa using (List.append_eq_nil_iff.mp hjobs).1
  have hnodup : (pieces.map Prod.fst).Nodup := hkeys ▸ hgrouped.keys
  have halike := hpart.alike
  cases halike with
  | @fields _ source₁ _ collected₁ _ hsource =>
  cases h with
  | @fields _ _ _ _ pieces₁ hgrouped₁ hkeys₁ hpieces₁ =>
  have hpiece {i : Nat} {key : String} {v : Option Value} {js : List (Job σ)}
      (hmem : pieces₁[i]? = some (key, v, js)) :
      Value.OptionWithin v (Entries.get? key (fieldsOf pieces)) ∧
        ∀ job ∈ js, job.Backed J ctx root whole := by
    obtain ⟨uses₁, hgroup₁⟩ := exists_group_of_piece hkeys₁ hmem
    obtain ⟨uses, hgroup, hfield⟩ :=
      hpart.exists_group hgrouped₁ hgrouped hdeferred (List.mem_of_getElem? hgroup₁)
    obtain ⟨j, w, js', hgroup, hpiece⟩ := exists_piece_of_group hkeys hgroup
    have hw : Entries.get? key (fieldsOf pieces) = w :=
      get?_fieldsOf hnodup (List.mem_of_getElem? hpiece)
    have hplace : whole.at? (path'.key key i).segments = w := by
      change whole.at? (path'.segments ++ [.key key]) = w
      rw [Value.at?_concat, hwhole, ← hw]
      rfl
    rw [hw]
    exact hpieces j key uses w js' hgroup hpiece (hpieces₁ i _ _ _ _ hgroup₁ hmem) hfield hplace
  refine ⟨.some rfl (Value.within_object_iff.mpr fun key => ?_), List.forall_mem_append.mpr ⟨?_, ?_⟩⟩
  · intro v hv
    obtain ⟨i, js, hmem⟩ := exists_piece_of_get? hv
    exact (hpiece hmem).1 v rfl
  · intro job hjob
    obtain ⟨fragment, hfragment, rfl⟩ := List.mem_map.mp hjob
    refine ⟨hgrouped₁.deferred fragment hfragment, _, path, _, ⟨.fields hsource, fun u hu => ?_⟩,
      hdeclared, hjobs ▸ Gives.fields hgrouped hkeys hgives, hwhole⟩
    exact hpart.selects u (.deferred hfragment hu)
  · intro job hjob
    obtain ⟨⟨key, v, js⟩, hmem, hjob⟩ := List.mem_flatMap.mp hjob
    obtain ⟨i, hi⟩ := List.mem_iff_getElem?.mp hmem
    exact (hpiece hi).2 job hjob

theorem bounds_leaf {plan : FieldPlan σ} {t : TypeRef} {v : HostValue} {w : Value}
    (h : ∀ plan₁ v₁ path₁ x js, v₁.timeless = v.timeless →
      Gives I ctx (.value plan₁ t v₁) path₁ x js → x = some w ∧ js = []) :
    (Work.value plan t v).Bounds I J ctx root whole (some w) := by
  intro work path' x js hgives hpart _
  have halike := hpart.alike
  cases halike with
  | value hv =>
    obtain ⟨rfl, rfl⟩ := h _ _ _ _ _ hv hgives
    exact ⟨.some rfl (.refl w), by simp⟩

theorem backed_item {plan plan' : FieldPlan σ} {t item : TypeRef} {v v' : HostValue}
    {path path' : Path} {items items' : HostValue.Items} {pieces : List (Value × List (Job σ))}
    (hpart : (Work.value plan t v).PartOf (.value plan' t v')) (ht : t.item? = some item)
    (hitems : v.items? = some items) (hitems' : v'.items? = some items')
    (hlength : pieces.length = items'.values.length)
    (hgives : ∀ (i : Nat) v w jobs, items'.values[i]? = some v → pieces[i]? = some (w, jobs) →
      Gives J ctx.plain (.value plan' item v) (path'.index i) (some w) [])
    (hdeclared : (Work.value plan' t v').Declared ctx.plain root path')
    (hwhole : whole.at? path.segments = some (.list (pieces.map Prod.fst))) {i : Nat} {y : HostValue}
    (hy : items.values[i]? = some y) :
    ∃ y' w js, items'.values[i]? = some y' ∧ pieces[i]? = some (w, js) ∧
      (Work.value plan item y).PartOf (.value plan' item y') ∧
      (Work.value plan' item y').Declared ctx.plain root (path'.index i) ∧
      whole.at? (path.segments ++ [.index i]) = some w ∧
      Backed J ctx root whole (.value plan item y) (path.segments ++ [.index i]) := by
  have hv : v.timeless = v'.timeless := by
    cases hpart.alike with
    | value h => exact h
  obtain ⟨y', hy', htimeless⟩ := exists_item_same hv.symm hitems' hitems hy
  have hi : i < pieces.length := hlength ▸ (List.getElem?_eq_some_iff.mp hy').1
  obtain ⟨⟨w, js⟩, hpiece⟩ : ∃ piece, pieces[i]? = some piece := ⟨_, List.getElem?_eq_getElem hi⟩
  have hitem : (Work.value plan item y).PartOf (.value plan' item y') :=
    ⟨.value htimeless.symm, hpart.selects⟩
  have hdeclared' : (Work.value plan' item y').Declared ctx.plain root (path'.index i) :=
    GraphQL.Declared.item hdeclared i ht
  have hplace : whole.at? (path.segments ++ [.index i]) = some w := by
    rw [Value.at?_concat, hwhole]
    change (pieces.map Prod.fst)[i]? = some w
    rw [List.getElem?_map, hpiece]
    rfl
  exact ⟨y', w, js, hy', hpiece, hitem, hdeclared', hplace, _, _, _, hitem, hdeclared',
    hgives i y' w js hy' hpiece, hplace⟩

theorem bounds_list {plan : FieldPlan σ} {t item : TypeRef} {v : HostValue}
    {path : Path} {items : HostValue.Items} {pieces : List (Value × List (Job σ))}
    (hnull : v.isNull = false) (ht : t.item? = some item) (hitems : v.items? = some items)
    (hlength : pieces.length = items.values.length)
    (hgives : ∀ (i : Nat) v w jobs, items.values[i]? = some v → pieces[i]? = some (w, jobs) →
      Gives J ctx.plain (.value plan item v) (path.index i) (some w) [])
    (hpieces : ∀ (i : Nat) v w jobs, items.values[i]? = some v → pieces[i]? = some (w, jobs) →
      (Work.value plan item v).Bounds I J ctx root whole (some w))
    (hdeclared : (Work.value plan t v).Declared ctx.plain root path) :
    (Work.value plan t v).Bounds I J ctx root whole (some (.list (pieces.map Prod.fst))) := by
  intro work path' x jobs h hpart hwhole
  have halike := hpart.alike
  cases halike with
  | @value plan₁ _ _ v₁ _ hv =>
  have hnull₁ : v₁.isNull = false := (isNull_same hv).trans hnull
  obtain ⟨items₁, initial, remaining, pieces₁, later, hitems₁, hcut, hlength₁, hpieces₁, hremains,
    rfl, rfl⟩ := h.of_list hnull₁ ht
  have hpiece {i : Nat} {w : Value} {js : List (Job σ)} (hmem : pieces₁[i]? = some (w, js)) :
      Value.OptionWithin (some w) (pieces.map Prod.fst)[i]? ∧
        ∀ job ∈ js, job.Backed J ctx root whole := by
    have hi : i < initial.length := hlength₁ ▸ (List.getElem?_eq_some_iff.mp hmem).1
    have hy : initial[i]? = some initial[i] := List.getElem?_eq_getElem hi
    have hy' : items₁.values[i]? = some initial[i] := by
      rw [hcut, List.getElem?_append_left hi, hy]
    obtain ⟨y', w', js', hy'', hpiece, hitem, -, hplace, -⟩ :=
      backed_item hpart ht hitems₁ hitems hlength hgives hdeclared hwhole hy'
    have hbounds := hpieces i y' w' js' hy'' hpiece (hpieces₁ i _ w js hy hmem) hitem hplace
    rwa [List.getElem?_map, hpiece, Option.map_some]
  refine ⟨.some rfl (Value.within_list_iff.mpr fun i => ?_), List.forall_mem_append.mpr ⟨?_, ?_⟩⟩
  · intro w hw
    rw [List.getElem?_map, Option.map_eq_some_iff] at hw
    obtain ⟨⟨_, js⟩, hmem, rfl⟩ := hw
    exact (hpiece hmem).1 _ rfl
  · intro job hjob
    obtain ⟨⟨w, js⟩, hmem, hjob⟩ := List.mem_flatMap.mp hjob
    obtain ⟨i, hi⟩ := List.mem_iff_getElem?.mp hmem
    exact (hpiece hi).2 job hjob
  · refine hremains.backed fun i y hy => ?_
    have hy' : items₁.values[initial.length + i]? = some y := by
      rw [hcut, List.getElem?_append_right (Nat.le_add_right _ _), Nat.add_sub_cancel_left, hy]
    obtain ⟨_, _, _, -, -, -, -, -, hbacked⟩ :=
      backed_item hpart ht hitems₁ hitems hlength hgives hdeclared hwhole hy'
    exact hbacked

section

variable (hC : Comparable I J ctx root)

include hC

theorem bounds_typeName {object : ObjectType σ} {source : HostValue} {use : FieldUse}
    {others : List FieldUse} {path : Path} (hname : use.node.name.item = "__typename")
    (hdeclared : (Work.field object source (use :: others)).Declared ctx.plain root path) :
    (Work.field object source (use :: others)).Bounds I J ctx root whole
      (some (.string object.name)) := by
  intro work path' v jobs h hpart _
  have halike := hpart.alike
  cases halike
  cases h with
  | absent => exact ⟨.none _, by simp⟩
  | typeName => exact ⟨.some rfl (.refl _), by simp⟩
  | field hname₁ =>
    exact absurd ((hpart.same_arguments hC.consistent hdeclared).1.trans hname) hname₁

theorem bounds_absent {object : ObjectType σ} {source : HostValue} {uses : List FieldUse} {path : Path}
    (h : ∀ use ∈ uses.head?, use.node.name.item ≠ "__typename" ∧
      object.field? use.node.name.item = none)
    (hdeclared : (Work.field object source uses).Declared ctx.plain root path) :
    (Work.field object source uses).Bounds I J ctx root whole none := by
  intro work path' v jobs hgives hpart _
  have halike := hpart.alike
  cases halike with
  | @field _ _ _ uses₁ =>
  have huses {use : FieldUse} {others : List FieldUse} (huses₁ : uses₁ = use :: others) :
      use.node.name.item ≠ "__typename" ∧ object.field? use.node.name.item = none := by
    subst huses₁
    cases uses with
    | nil => exact absurd (hpart.selects use List.mem_cons_self).2 List.not_mem_nil
    | cons first rest => exact (hpart.same_arguments hC.consistent hdeclared).1 ▸ h first rfl
  cases hgives with
  | absent => exact ⟨.none _, by simp⟩
  | typeName hname => exact absurd hname (huses rfl).1
  | field _ hfield => simp [(huses rfl).2] at hfield

theorem bounds_field {object : ObjectType σ} {source v : HostValue} {use : FieldUse}
    {others : List FieldUse} {field : FieldDefinition σ} {path : Path} {w : Option Value}
    (hname : use.node.name.item ≠ "__typename")
    (hfield : object.field? use.node.name.item = some field)
    (hresolved : Resolved J ctx.plain ⟨object, field, use, others⟩ source path (.ok v))
    (h : (Work.value ⟨object, field, use, others⟩ field.type v).Bounds I J ctx root whole w)
    (hdeclared : (Work.field object source (use :: others)).Declared ctx.plain root path) :
    (Work.field object source (use :: others)).Bounds I J ctx root whole w := by
  intro work path' x jobs hgives hpart hwhole
  have halike := hpart.alike
  cases halike
  cases hgives with
  | absent => exact ⟨.none _, by simp⟩
  | typeName hname₁ =>
    exact absurd ((hpart.same_arguments hC.consistent hdeclared).1.symm.trans hname₁) hname
  | field _ hfield₁ hresolved₁ hgives =>
    obtain ⟨rfl, hvalue⟩ := hpart.value hC.calm hC.calmWhole hC.steady hC.consistent hC.owns hdeclared
      hfield₁ hfield hresolved₁ hresolved
    exact h hgives hvalue hwhole

theorem bounds_object {plan : FieldPlan σ} {t : TypeRef} {v : HostValue} {path : Path}
    {object : ObjectType σ} {collected : Collected} {w : Option Value} (hnull : v.isNull = false)
    (ht : t.item? = none) (hchosen : Chosen J ctx.plain plan path v t.innermost object)
    (hcollected : ctx.plain.subfields object plan.uses = some collected)
    (h : (Work.fields object v collected).Bounds I J ctx root whole w)
    (hdeclared : (Work.value plan t v).Declared ctx.plain root path) :
    (Work.value plan t v).Bounds I J ctx root whole w := by
  intro work path' x jobs hgives hpart hwhole
  have halike := hpart.alike
  cases halike with
  | @value plan₁ _ _ v₁ _ hv =>
  have hnull₁ : v₁.isNull = false := (isNull_same hv).trans hnull
  have hallows : ctx.schema.Allows t.innermost object := hchosen.allows
  obtain ⟨object₁, collected₁, hchosen₁, hcollected₁, hgives⟩ := hgives.of_object hnull₁ ht hallows
  obtain rfl := chosen_same hC.calm hC.calmWhole hC.steady hv hchosen₁ hchosen
  exact h hgives (hpart.subfields hC.closed hdeclared hcollected₁ hcollected) hwhole

/-- What is given for a part of some work is a piece of what is given for the whole. -/
theorem Gives.bounds {work : Work σ} {path : Path} {w : Option Value} {jobs : List (Job σ)}
    (h : Gives J ctx.plain work path w jobs) (hjobs : jobs = [])
    (hdeclared : work.Declared ctx.plain root path) : work.Bounds I J ctx root whole w := by
  induction h with
  | @fields object source collected path pieces hgrouped hkeys hpieces ih =>
    have hnil : ∀ piece ∈ pieces, piece.2.2 = [] :=
      List.flatMap_eq_nil_iff.mp (List.append_eq_nil_iff.mp hjobs).2
    refine bounds_fields hgrouped hkeys hpieces (fun i key uses v jobs hgroup hpiece => ?_) hjobs
      hdeclared
    exact ih i key uses v jobs hgroup hpiece (hnil _ (List.mem_of_getElem? hpiece))
      ⟨path, key, i, collected, rfl, hdeclared, hgroup⟩
  | absent h => exact bounds_absent hC h hdeclared
  | typeName hname => exact bounds_typeName hC hname hdeclared
  | field hname hfield hresolved _ ih =>
    refine bounds_field hC hname hfield hresolved (ih hjobs ?_) hdeclared
    obtain ⟨above, key, i, collected, rfl, hplace, hgroup⟩ := hdeclared
    exact .field hplace hgroup hfield
  | null hnull =>
    exact bounds_leaf fun _ _ _ _ _ hv hgives => hgives.of_null ((isNull_same hv).trans hnull)
  | scalar hnull ht hs hw =>
    refine bounds_leaf fun _ _ _ _ _ hv hgives => ?_
    obtain ⟨w', hw', hx, hjs⟩ := hgives.of_scalar ((isNull_same hv).trans hnull) ht hs
    exact ⟨completeScalar_same hv hw' hw ▸ hx, hjs⟩
  | enum hnull ht hs hw =>
    refine bounds_leaf fun _ _ _ _ _ hv hgives => ?_
    obtain ⟨w', hw', hx, hjs⟩ := hgives.of_enum ((isNull_same hv).trans hnull) ht hs
    exact ⟨completeEnum_same hv hw' hw ▸ hx, hjs⟩
  | @list plan t item value items initial remaining path later pieces hnull ht hitems hcut hlength
      hpieces hremains ih =>
    obtain ⟨hpiecesNil, rfl⟩ := List.append_eq_nil_iff.mp hjobs
    obtain rfl : remaining = [] := by
      cases hremains
      rfl
    obtain rfl : items.values = initial := hcut.trans (List.append_nil _)
    have hnil {i : Nat} {w : Value} {js : List (Job σ)} (hpiece : pieces[i]? = some (w, js)) :
        js = [] := List.flatMap_eq_nil_iff.mp hpiecesNil _ (List.mem_of_getElem? hpiece)
    refine bounds_list hnull ht hitems hlength (fun i v w js hv hpiece => ?_)
      (fun i v w js hv hpiece => ?_) hdeclared
    · exact hnil hpiece ▸ hpieces i v w js hv hpiece
    · exact ih i v w js hv hpiece (hnil hpiece) (GraphQL.Declared.item hdeclared i ht)
  | object hnull ht hchosen hcollected _ ih =>
    refine bounds_object hC hnull ht hchosen hcollected (ih hjobs ?_) hdeclared
    exact .object hdeclared ht hchosen.allows hcollected

end

end GraphQL
