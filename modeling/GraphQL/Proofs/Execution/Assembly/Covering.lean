import GraphQL.Proofs.Execution.Assembly.Pieces

/-! # Pieces cover the whole

When all jobs that were left have delivered, the data into which the pieces for all parts of some
work were merged has everything that is given for the whole.
-/

namespace GraphQL

open Process

variable {σ : Type} {I J : World σ → Prop} {ctx : ExecutionContext σ} {root : ObjectType σ}
  {done : Job σ → Prop} {merged : Value}

/-! ## What was delivered -/

/-- Whether what some work gives is in the merged data, and the jobs that it left are done. -/
def Held (I : World σ → Prop) (ctx : ExecutionContext σ) (done : Job σ → Prop) (merged : Value)
    (work : Work σ) (place : List Segment) : Prop :=
  ∃ path v jobs, path.segments = place ∧ Gives I ctx work path v jobs ∧
    Value.OptionWithin v (merged.at? place) ∧ ∀ job ∈ jobs, done job

/-- Whether jobs that are done have delivered into the merged data. -/
structure Settles (I : World σ → Prop) (ctx : ExecutionContext σ) (done : Job σ → Prop)
    (merged : Value) : Prop where
  deferred {object source path fragment} : done (.deferred object source path fragment) →
    Held I ctx done merged (.fields object source fragment.fields) path.segments
  streamed {plan itemType path label index source v rest} :
    done (.streamed plan itemType path label index source) →
    source.values = v :: rest →
    Held I ctx done merged (.value plan itemType v) (path.segments ++ [.index index]) ∧
      ∃ jobs, Remains plan itemType path rest (index + 1) jobs ∧ ∀ job ∈ jobs, done job

section

variable (hsettles : Settles I ctx done merged)

include hsettles

theorem held_group {object : ObjectType σ} {source : HostValue} {collected : Collected}
    {u : FieldUse} (hu : collected.Has u) {place : List Segment}
    (h : Held I ctx done merged (.fields object source collected) place) :
    ∃ (part : Collected) (uses : List FieldUse),
      part.Grouped ∧ (u.node.responseKey, uses) ∈ part.groups ∧ u ∈ uses ∧
      (∀ u', part.Has u' → collected.Has u') ∧
      Held I ctx done merged (.field object source uses) (place ++ [.key u.node.responseKey]) := by
  induction hu generalizing place with
  | @group c key uses u hgroup huse =>
    obtain ⟨path, v, jobs, rfl, hgives, hv, hjobs⟩ := h
    cases hgives with
    | @fields _ _ _ _ pieces hgrouped hkeys hpieces =>
    obtain rfl := (hgrouped.uses hgroup).2 u huse
    obtain ⟨i, w, js, hgroup', hpiece⟩ := exists_piece_of_group hkeys hgroup
    have hmem := List.mem_of_getElem? hpiece
    have hfield : Entries.get? u.node.responseKey (fieldsOf pieces) = w :=
      get?_fieldsOf (hkeys ▸ hgrouped.keys) hmem
    have hw := hv.child? (.key u.node.responseKey)
    change Value.OptionWithin (Entries.get? _ _) _ at hw
    rw [hfield] at hw
    exact ⟨c, uses, hgrouped, hgroup, huse, fun _ => id, path.key _ i, w, js, rfl,
      hpieces i _ _ _ _ hgroup' hpiece, hw, fun job hjob =>
        hjobs job (List.mem_append_right _ (List.mem_flatMap.mpr ⟨_, hmem, hjob⟩))⟩
  | @deferred c fragment u hfragment _ ih =>
    obtain ⟨path, v, jobs, rfl, hgives, -, hjobs⟩ := h
    cases hgives with
    | fields =>
    have hjob := hjobs (.deferred object source path fragment)
      (List.mem_append_left _ (List.mem_map_of_mem hfragment))
    obtain ⟨part, uses, hgrouped, hgroup, huse, hpart, hheld⟩ := ih (hsettles.deferred hjob)
    exact ⟨part, uses, hgrouped, hgroup, huse, fun u' hu' => .deferred hfragment (hpart u' hu'), hheld⟩

theorem held_of_remains {plan : FieldPlan σ} {itemType : TypeRef} {path : Path}
    {remaining : List HostValue} {index : Nat} {jobs : List (Job σ)}
    (h : Remains plan itemType path remaining index jobs) (hjobs : ∀ job ∈ jobs, done job) {i : Nat}
    {v : HostValue} (hv : remaining[i]? = some v) :
    Held I ctx done merged (.value plan itemType v) (path.segments ++ [.index (index + i)]) := by
  induction i generalizing remaining index jobs with
  | zero =>
    cases h with
    | nothing => simp at hv
    | @queued _ _ source =>
      obtain ⟨rest, hsource⟩ : ∃ rest, source.values = v :: rest := by
        cases hvalues : source.values with
        | nil => simp [hvalues] at hv
        | cons w rest => exact ⟨rest, by simpa [hvalues] using hv⟩
      exact (hsettles.streamed (hjobs _ (List.mem_singleton_self _)) hsource).1
  | succ i ih =>
    cases h with
    | nothing => simp at hv
    | @queued _ _ source =>
      cases hvalues : source.values with
      | nil => simp [hvalues] at hv
      | cons w rest =>
        obtain ⟨-, later, hremains, hlater⟩ :=
          hsettles.streamed (hjobs _ (List.mem_singleton_self _)) hvalues
        rw [hvalues, List.getElem?_cons_succ] at hv
        have hheld := ih hremains hlater hv
        rwa [Nat.add_assoc, Nat.add_comm 1 i] at hheld

theorem held_item {plan : FieldPlan σ} {t item : TypeRef} {v y : HostValue} {place : List Segment}
    {items : HostValue.Items} (h : Held I ctx done merged (.value plan t v) place)
    (hnull : v.isNull = false) (ht : t.item? = some item) (hitems : v.items? = some items) {i : Nat}
    (hy : items.values[i]? = some y) :
    Held I ctx done merged (.value plan item y) (place ++ [.index i]) := by
  obtain ⟨path, x, jobs, rfl, hgives, hx, hjobs⟩ := h
  obtain ⟨items', initial, remaining, pieces, later, hitems', hcut, hlength, hpieces, hremains,
    rfl, rfl⟩ := hgives.of_list hnull ht
  obtain rfl := Option.some.inj (hitems.symm.trans hitems')
  rw [hcut] at hy
  by_cases hi : i < initial.length
  · rw [List.getElem?_append_left hi] at hy
    have hpiece : pieces[i]? = some pieces[i] := List.getElem?_eq_getElem (hlength ▸ hi)
    have hw := hx.child? (.index i)
    change Value.OptionWithin (pieces.map Prod.fst)[i]? _ at hw
    rw [List.getElem?_map, hpiece] at hw
    exact ⟨path.index i, _, _, rfl, hpieces i y _ _ hy hpiece, hw, fun job hjob =>
      hjobs job (List.mem_append_left _
        (List.mem_flatMap.mpr ⟨_, List.mem_of_getElem? hpiece, hjob⟩))⟩
  · have hle : initial.length ≤ i := Nat.le_of_not_lt hi
    rw [List.getElem?_append_right hle] at hy
    have hheld := held_of_remains hsettles hremains
      (fun job hjob => hjobs job (List.mem_append_right _ hjob)) hy
    rwa [Nat.add_sub_cancel' hle] at hheld

end

/-! ## Parts that cover the whole -/

/-- Whether parts of some work are in the merged data, and one of them for each selected field. -/
structure Covered (I : World σ → Prop) (ctx : ExecutionContext σ) (done : Job σ → Prop)
    (merged : Value) (whole : Work σ) (place : List Segment) : Prop where
  part : ∃ work, work.PartOf whole ∧ Held I ctx done merged work place
  covers : ∀ u', whole.Selects u' → ∃ work u, work.PartOf whole ∧ work.Selects u ∧ u.plain = u' ∧
    Held I ctx done merged work place

section

variable {place : List Segment}

theorem Covered.of_covers {whole : Work σ} {u' : FieldUse} (hu' : whole.Selects u')
    (hcovers : ∀ u', whole.Selects u' → ∃ work u, work.PartOf whole ∧ work.Selects u ∧ u.plain = u' ∧
      Held I ctx done merged work place) : Covered I ctx done merged whole place := by
  obtain ⟨work, -, hpart, -, -, hheld⟩ := hcovers u' hu'
  exact ⟨⟨work, hpart, hheld⟩, hcovers⟩

theorem Covered.exists_object {object : ObjectType σ} {source : HostValue} {collected : Collected}
    (h : Covered I ctx done merged (.fields object source collected) place) :
    ∃ fields, merged.at? place = some (.object fields) := by
  obtain ⟨work, hpart, path, v, jobs, rfl, hgives, hv, -⟩ := h.part
  have halike := hpart.alike
  cases halike
  cases hgives
  exact hv.object

theorem Covered.exists_list {plan : FieldPlan σ} {t item : TypeRef} {v : HostValue}
    (hnull : v.isNull = false) (ht : t.item? = some item)
    (h : Covered I ctx done merged (.value plan t v) place) :
    ∃ items, merged.at? place = some (.list items) := by
  obtain ⟨work, hpart, path, w, jobs, rfl, hgives, hw, -⟩ := h.part
  have halike := hpart.alike
  cases halike with
  | value hv =>
    obtain ⟨_, _, _, _, _, -, -, -, -, -, rfl, -⟩ :=
      hgives.of_list ((isNull_same hv).trans hnull) ht
    obtain ⟨items, hitems, -⟩ := hw.list
    exact ⟨items, hitems⟩

theorem Covered.group (hsettles : Settles I ctx done merged) {object : ObjectType σ}
    {source : HostValue} {collected : Collected} (hgrouped : collected.Grouped)
    (hdeferred : collected.deferred = [])
    (h : Covered I ctx done merged (.fields object source collected) place) {key : String}
    {uses : List FieldUse} (hgroup : (key, uses) ∈ collected.groups) :
    Covered I ctx done merged (.field object source uses) (place ++ [.key key]) := by
  obtain ⟨hne, hkeys⟩ := hgrouped.uses hgroup
  have hcovers : ∀ u' ∈ uses, ∃ work u, work.PartOf (.field object source uses) ∧
      work.Selects u ∧ u.plain = u' ∧ Held I ctx done merged work (place ++ [.key key]) := by
    intro u' hu'
    obtain ⟨work, u, hpart, hu, rfl, hheld⟩ := h.covers u' (.group hgroup hu')
    have hkey : u.node.responseKey = key := hkeys u.plain hu'
    have halike := hpart.alike
    cases halike with
    | fields hsource =>
      obtain ⟨part, uses₁, hgrouped₁, hgroup₁, hmem, hsub, hheld⟩ := held_group hsettles hu hheld
      have hpart₁ : (Work.fields object _ part).PartOf (.fields object source collected) :=
        ⟨.fields hsource, fun u' hu' => hpart.selects u' (hsub u' hu')⟩
      obtain ⟨uses', hgroup', hfield⟩ := hpart₁.exists_group hgrouped₁ hgrouped hdeferred hgroup₁
      rw [hkey] at hgroup' hheld
      obtain rfl := eq_of_mem_groups hgrouped hgroup hgroup'
      exact ⟨_, u, hfield, hmem, rfl, hheld⟩
  obtain ⟨first, hfirst⟩ := List.exists_mem_of_ne_nil uses hne
  exact .of_covers hfirst hcovers

theorem Covered.item (hsettles : Settles I ctx done merged) {plan : FieldPlan σ} {t item : TypeRef}
    {v y : HostValue} {items : HostValue.Items} (hnull : v.isNull = false)
    (ht : t.item? = some item) (hitems : v.items? = some items)
    (h : Covered I ctx done merged (.value plan t v) place) {i : Nat}
    (hy : items.values[i]? = some y) :
    Covered I ctx done merged (.value plan item y) (place ++ [.index i]) := by
  -- What holds a part of the list holds an item of it.
  have hstep {plan₁ : FieldPlan σ} {v₁ : HostValue}
      (hpart : (Work.value plan₁ t v₁).PartOf (.value plan t v))
      (hheld : Held I ctx done merged (.value plan₁ t v₁) place) :
      ∃ y₁, (Work.value plan₁ item y₁).PartOf (.value plan item y) ∧
        Held I ctx done merged (.value plan₁ item y₁) (place ++ [.index i]) := by
    have halike := hpart.alike
    cases halike with
    | value hv =>
    have hnull₁ := (isNull_same hv).trans hnull
    obtain ⟨items₁, hitems₁⟩ : ∃ items₁, v₁.items? = some items₁ := by
      obtain ⟨_, _, _, _, hgives, -, -⟩ := hheld
      obtain ⟨items₁, _, _, _, _, hitems₁, -⟩ := hgives.of_list hnull₁ ht
      exact ⟨items₁, hitems₁⟩
    obtain ⟨y₁, hy₁, htimeless⟩ := exists_item_same hv hitems₁ hitems hy
    exact ⟨y₁, ⟨.value htimeless, hpart.selects⟩, held_item hsettles hheld hnull₁ ht hitems₁ hy₁⟩
  constructor
  · obtain ⟨work, hpart, hheld⟩ := h.part
    have halike := hpart.alike
    cases halike
    obtain ⟨y₁, hitem, hheld⟩ := hstep hpart hheld
    exact ⟨_, hitem, hheld⟩
  · intro u' hu'
    obtain ⟨work, u, hpart, hu, rfl, hheld⟩ := h.covers u' hu'
    have halike := hpart.alike
    cases halike
    obtain ⟨y₁, hitem, hheld⟩ := hstep hpart hheld
    exact ⟨_, u, hitem, hu, rfl, hheld⟩

theorem Covered.leaf {plan : FieldPlan σ} {t : TypeRef} {v : HostValue} {w : Value}
    (h : Covered I ctx done merged (.value plan t v) place)
    (hleaf : ∀ plan₁ v₁ path₁ x js, v₁.timeless = v.timeless →
      Gives I ctx (.value plan₁ t v₁) path₁ x js → x = some w) :
    Value.OptionWithin (some w) (merged.at? place) := by
  obtain ⟨work, hpart, path₁, x, js, rfl, hgives, hx, -⟩ := h.part
  have halike := hpart.alike
  cases halike with
  | value hv =>
    obtain rfl := hleaf _ _ _ _ _ hv hgives
    exact hx

variable (hC : Comparable I J ctx root)

include hC

theorem Covered.value {object : ObjectType σ} {source v : HostValue} {use : FieldUse}
    {others : List FieldUse} {field : FieldDefinition σ} {path : Path}
    (hname : use.node.name.item ≠ "__typename")
    (hfield : object.field? use.node.name.item = some field)
    (hresolved : Resolved J ctx.plain ⟨object, field, use, others⟩ source path (.ok v))
    (hdeclared : (Work.field object source (use :: others)).Declared ctx.plain root path)
    (h : Covered I ctx done merged (.field object source (use :: others)) place) :
    Covered I ctx done merged (.value ⟨object, field, use, others⟩ field.type v) place := by
  have hcovers : ∀ u' ∈ use :: others, ∃ work u,
      work.PartOf (.value ⟨object, field, use, others⟩ field.type v) ∧ work.Selects u ∧
        u.plain = u' ∧ Held I ctx done merged work place := by
    intro u' hu'
    obtain ⟨work, u, hpart, hu, rfl, path₁, x, jobs, rfl, hgives, hx, hjobs⟩ := h.covers u' hu'
    have halike := hpart.alike
    cases halike with
    | @field _ _ _ uses₁ =>
    cases uses₁ with
    | nil => cases hu
    | cons use₁ others₁ =>
      have hsame := (hpart.same_arguments hC.consistent hdeclared).1
      cases hgives with
      | absent habsent =>
        have hnone := (habsent use₁ rfl).2
        rw [hsame, hfield] at hnone
        cases hnone
      | typeName hname₁ => exact absurd (hsame.symm.trans hname₁) hname
      | field _ hfield₁ hresolved₁ hgives =>
        obtain ⟨rfl, hvalue⟩ := hpart.value hC.calm hC.calmWhole hC.steady hC.consistent hC.owns
          hdeclared hfield₁ hfield hresolved₁ hresolved
        exact ⟨_, u, hvalue, hu, rfl, path₁, _, jobs, rfl, hgives, hx, hjobs⟩
  exact .of_covers List.mem_cons_self hcovers

theorem Covered.fields {plan : FieldPlan σ} {t : TypeRef} {v : HostValue} {path : Path}
    {object : ObjectType σ} {collected : Collected} (hnull : v.isNull = false) (ht : t.item? = none)
    (hchosen : Chosen J ctx.plain plan path v t.innermost object)
    (hcollected : ctx.plain.subfields object plan.uses = some collected)
    (hdeclared : (Work.value plan t v).Declared ctx.plain root path)
    (h : Covered I ctx done merged (.value plan t v) place) :
    Covered I ctx done merged (.fields object v collected) place := by
  -- What holds a part of the value holds what this part collected.
  have hstep {plan₁ : FieldPlan σ} {v₁ : HostValue}
      (hpart : (Work.value plan₁ t v₁).PartOf (.value plan t v))
      (hheld : Held I ctx done merged (.value plan₁ t v₁) place) :
      ∃ collected₁, ctx.subfields object plan₁.uses = some collected₁ ∧
        (Work.fields object v₁ collected₁).PartOf (.fields object v collected) ∧
        Held I ctx done merged (.fields object v₁ collected₁) place := by
    have halike := hpart.alike
    cases halike with
    | value hv =>
    obtain ⟨path₁, x, jobs, rfl, hgives, hx, hjobs⟩ := hheld
    have hallows : ctx.schema.Allows t.innermost object := hchosen.allows
    obtain ⟨object₁, collected₁, hchosen₁, hcollected₁, hgives⟩ :=
      hgives.of_object ((isNull_same hv).trans hnull) ht hallows
    obtain rfl := chosen_same hC.calm hC.calmWhole hC.steady hv hchosen₁ hchosen
    exact ⟨collected₁, hcollected₁, hpart.subfields hC.closed hdeclared hcollected₁ hcollected,
      path₁, x, jobs, rfl, hgives, hx, hjobs⟩
  constructor
  · obtain ⟨work, hpart, hheld⟩ := h.part
    have halike := hpart.alike
    cases halike
    obtain ⟨collected₁, -, hfields, hheld⟩ := hstep hpart hheld
    exact ⟨_, hfields, hheld⟩
  · intro u' hu'
    obtain ⟨use', huse', hselects⟩ := exists_use_of_subfields hC.closed hdeclared hcollected hu'
    obtain ⟨work, use, hpart, huse, rfl, hheld⟩ := h.covers use' huse'
    have halike := hpart.alike
    cases halike
    obtain ⟨collected₁, hcollected₁, hfields, hheld⟩ := hstep hpart hheld
    obtain ⟨u, hu, rfl⟩ := exists_has_of_subfields hC.closed (fun use huse => (hpart.selects use huse).1)
      hcollected₁ huse hselects
    exact ⟨_, u, hfields, hu, rfl, hheld⟩

theorem covered_typeName {object : ObjectType σ} {source : HostValue} {use : FieldUse}
    {others : List FieldUse} {path : Path} (hname : use.node.name.item = "__typename")
    (hdeclared : (Work.field object source (use :: others)).Declared ctx.plain root path)
    (h : Covered I ctx done merged (.field object source (use :: others)) place) :
    Value.OptionWithin (some (.string object.name)) (merged.at? place) := by
  obtain ⟨work, u, hpart, hu, -, path₁, x, js, rfl, hgives, hx, -⟩ :=
    h.covers use List.mem_cons_self
  have halike := hpart.alike
  cases halike with
  | @field _ _ _ uses₁ =>
  cases uses₁ with
  | nil => cases hu
  | cons use₁ others₁ =>
    have hname₁ := (hpart.same_arguments hC.consistent hdeclared).1.trans hname
    cases hgives with
    | absent habsent => exact absurd hname₁ (habsent use₁ rfl).1
    | typeName => exact hx
    | field hother => exact absurd hname₁ hother

/-- What covers some work has everything that is given for it. -/
theorem Gives.covered (hsettles : Settles I ctx done merged) {work : Work σ} {path : Path}
    {w : Option Value} {jobs : List (Job σ)} (h : Gives J ctx.plain work path w jobs)
    (hjobs : jobs = []) (hdeclared : work.Declared ctx.plain root path)
    (hcovered : Covered I ctx done merged work place) : Value.OptionWithin w (merged.at? place) := by
  induction h generalizing place with
  | @fields object source collected path pieces hgrouped hkeys hpieces ih =>
    obtain ⟨hdeferred, hnil⟩ := List.append_eq_nil_iff.mp hjobs
    have hdeferred : collected.deferred = [] := by simpa using hdeferred
    obtain ⟨fields, hfields⟩ := hcovered.exists_object
    refine .some hfields (Value.within_object_iff.mpr fun key => ?_)
    intro v hv
    obtain ⟨i, js, hpiece⟩ := exists_piece_of_get? hv
    obtain ⟨uses, hgroup⟩ := exists_group_of_piece hkeys hpiece
    have hfield := ih i key uses (some v) js hgroup hpiece
      (List.flatMap_eq_nil_iff.mp hnil _ (List.mem_of_getElem? hpiece))
      ⟨path, key, i, collected, rfl, hdeclared, hgroup⟩
      (hcovered.group hsettles hgrouped hdeferred (List.mem_of_getElem? hgroup))
    rw [Value.at?_concat, hfields] at hfield
    exact hfield v rfl
  | absent => exact .none _
  | typeName hname => exact covered_typeName hC hname hdeclared hcovered
  | field hname hfield hresolved _ ih =>
    refine ih hjobs ?_ (hcovered.value hC hname hfield hresolved hdeclared)
    obtain ⟨above, key, i, collected, rfl, hplace, hgroup⟩ := hdeclared
    exact .field hplace hgroup hfield
  | null hnull =>
    exact hcovered.leaf fun _ _ _ _ _ hv hgives => (hgives.of_null ((isNull_same hv).trans hnull)).1
  | scalar hnull ht hs hw =>
    refine hcovered.leaf fun _ _ _ _ _ hv hgives => ?_
    obtain ⟨w', hw', hx, -⟩ := hgives.of_scalar ((isNull_same hv).trans hnull) ht hs
    exact completeScalar_same hv hw' hw ▸ hx
  | enum hnull ht hs hw =>
    refine hcovered.leaf fun _ _ _ _ _ hv hgives => ?_
    obtain ⟨w', hw', hx, -⟩ := hgives.of_enum ((isNull_same hv).trans hnull) ht hs
    exact completeEnum_same hv hw' hw ▸ hx
  | @list plan t item value items initial remaining path later pieces hnull ht hitems hcut hlength
      hpieces hremains ih =>
    obtain ⟨hnil, rfl⟩ := List.append_eq_nil_iff.mp hjobs
    obtain rfl : remaining = [] := by
      cases hremains
      rfl
    obtain rfl : items.values = initial := hcut.trans (List.append_nil _)
    obtain ⟨found, hfound⟩ := hcovered.exists_list hnull ht
    refine .some hfound (Value.within_list_iff.mpr fun i => ?_)
    intro w hw
    rw [List.getElem?_map, Option.map_eq_some_iff] at hw
    obtain ⟨⟨w, js⟩, hpiece, rfl⟩ := hw
    have hi : i < items.values.length := hlength ▸ (List.getElem?_eq_some_iff.mp hpiece).1
    have hy : items.values[i]? = some items.values[i] := List.getElem?_eq_getElem hi
    have hitem := ih i _ w js hy hpiece
      (List.flatMap_eq_nil_iff.mp hnil _ (List.mem_of_getElem? hpiece))
      (GraphQL.Declared.item hdeclared i ht)
      (hcovered.item hsettles hnull ht hitems hy)
    rw [Value.at?_concat, hfound] at hitem
    exact hitem w rfl
  | object hnull ht hchosen hcollected _ ih =>
    refine ih hjobs ?_ (hcovered.fields hC hnull ht hchosen hcollected hdeclared)
    exact .object hdeclared ht hchosen.allows hcollected

end

end GraphQL
