import GraphQL.Proofs.Execution.Collection.Basic
import GraphQL.Proofs.Execution.Rewriting.Plain

/-! # What selections reach

Selections reach fields through fragments. As long as fragments declare no variables, the fields that
are collected, now or for later, are exactly those that are reached, though each fragment is entered
only once. So the same fields are collected when nothing is deferred.
-/

namespace GraphQL

variable {σ : Type}

/-- Whether a use is among what was collected, here or in a deferred fragment. -/
inductive Collected.Has : Collected → FieldUse → Prop
  | group {c key uses use} (hgroup : (key, uses) ∈ c.groups) (huse : use ∈ uses) : Has c use
  | deferred {c fragment use} (hfragment : fragment ∈ c.deferred) (h : fragment.fields.Has use) :
    Has c use

namespace Collected

variable {c d : Collected} {u use : FieldUse} {label : Option String}

theorem has_iff : c.Has u ↔
    u ∈ c.groups.flatMap Prod.snd ∨ ∃ fragment ∈ c.deferred, fragment.fields.Has u := by
  constructor
  · intro h
    cases h with
    | group hgroup huse => exact .inl (List.mem_flatMap.mpr ⟨_, hgroup, huse⟩)
    | deferred hfragment h => exact .inr ⟨_, hfragment, h⟩
  · rintro (h | ⟨fragment, hfragment, h⟩)
    · obtain ⟨⟨key, uses⟩, hgroup, huse⟩ := List.mem_flatMap.mp h
      exact .group hgroup huse
    · exact .deferred hfragment h

@[simp] theorem not_has_empty : ¬ Collected.empty.Has u := by
  rw [has_iff]
  simp [empty]

theorem has_add : (c.add use).Has u ↔ u = use ∨ c.Has u := by
  rw [has_iff, has_iff, add, FieldGroups.mem_uses_add, or_assoc]

theorem has_defer : (c.defer label d).Has u ↔ c.Has u ∨ d.Has u := by
  rw [has_iff, has_iff (c := c), or_assoc]
  refine or_congr_right ⟨?_, ?_⟩
  · rintro ⟨fragment, hfragment, h⟩
    rcases List.mem_append.mp hfragment with hfragment | hfragment
    · exact .inl ⟨fragment, hfragment, h⟩
    · obtain rfl := List.mem_singleton.mp hfragment
      exact .inr h
  · rintro (⟨fragment, hfragment, h⟩ | h)
    · exact ⟨fragment, List.mem_append_left _ hfragment, h⟩
    · exact ⟨_, List.mem_append_right _ (List.mem_singleton_self _), h⟩

end Collected

theorem mem_of_findFragment {fragments : List Fragment} {name : String} {f : Fragment}
    (h : findFragment fragments name = some f) : f ∈ fragments := by
  unfold findFragment at h
  simpa using List.mem_of_find?_eq_some h

namespace CollectionContext

variable (ctx : CollectionContext σ)

/-- The fragment called `name`, if it applies to the object. -/
def fragment? (name : String) : Option Fragment :=
  (findFragment ctx.fragments name).filter fun f =>
    ctx.schema.conditionApplies f.typeCondition.item ctx.object

/-- Whether a selection outside of fragments with variables selects a field, itself or through
fragments. -/
inductive Reaches : Selection → FieldUse → Prop
  | field {span head selections} (h : ctx.isExcluded none head.directives = false) :
    Reaches (.field span head selections) ⟨⟨head, span, selections⟩, none⟩
  | inline {span head selections x u} (h : ctx.Opens none head) (hx : x ∈ selections)
    (hrest : Reaches x u) : Reaches (.inline span head selections) u
  | spread {span} {spread : Spread} {f x u} (h : ctx.isExcluded none spread.directives = false)
    (hf : ctx.fragment? spread.name.item = some f) (hx : x ∈ f.selections)
    (hrest : Reaches x u) : Reaches (.spread span spread) u

/-- Whether what a selection reaches is there, but for what the visited fragments reach. -/
inductive Handles (visited : List String) (has : FieldUse → Prop) : Selection → Prop
  | field {span head selections}
    (h : ctx.isExcluded none head.directives = false → has ⟨⟨head, span, selections⟩, none⟩) :
    Handles visited has (.field span head selections)
  | inline {span head selections}
    (h : ctx.Opens none head → ∀ x ∈ selections, Handles visited has x) :
    Handles visited has (.inline span head selections)
  | spread {span} {spread : Spread}
    (h : ctx.isExcluded none spread.directives = false → spread.name.item ∉ visited →
      ∀ f, ctx.fragment? spread.name.item = some f → ∀ x ∈ f.selections, Handles visited has x) :
    Handles visited has (.spread span spread)

/-- Whether what a fragment reaches is there, but for what the visited fragments reach. -/
def Entered (visited : List String) (has : FieldUse → Prop) (name : String) : Prop :=
  ∀ f, ctx.fragment? name = some f → ∀ x ∈ f.selections, ctx.Handles visited has x

variable {ctx} {visited : List String} {has : FieldUse → Prop}

theorem Handles.has_of_reaches {selection : Selection} {u : FieldUse}
    (hvisited : ∀ name ∈ visited, ctx.Entered visited has name) (h : ctx.Reaches selection u)
    (hhandles : ctx.Handles visited has selection) : has u := by
  induction h with
  | field hincluded =>
    cases hhandles with
    | field h => exact h hincluded
  | inline hopens hx _ ih =>
    cases hhandles with
    | inline h => exact ih (h hopens _ hx)
  | @spread _ spread _ _ _ hincluded hf hx _ ih =>
    cases hhandles with
    | spread h =>
      by_cases hmem : spread.name.item ∈ visited
      · exact ih (hvisited _ hmem _ hf _ hx)
      · exact ih (h hincluded hmem _ hf _ hx)

/-- What it means that selections were collected between two states. -/
structure Explored (ctx : CollectionContext σ) (P : Selection → Prop) (s s' : Collecting) : Prop where
  keeps : ∀ u, s.found.Has u → s'.found.Has u
  grows : s.visited ⊆ s'.visited
  reached : ∀ u, s'.found.Has u → s.found.Has u ∨ ∃ x, P x ∧ ctx.Reaches x u
  handled : ∀ visited has, s'.visited ⊆ visited → (∀ u, s'.found.Has u → has u) →
    (∀ x, P x → ctx.Handles visited has x) ∧
      ∀ name ∈ s'.visited, name ∉ s.visited → ctx.Entered visited has name

namespace Explored

variable {P Q : Selection → Prop} {s s₁ s' : Collecting}

theorem weaken (h : ctx.Explored P s s') (hPQ : ∀ x, P x ↔ Q x) : ctx.Explored Q s s' := by
  obtain rfl : P = Q := funext fun x => propext (hPQ x)
  exact h

theorem skipped (h : ∀ x, P x → ctx.Skips none s x) : ctx.Explored P s s where
  keeps _ := id
  grows := List.Subset.refl _
  reached _ := .inl
  handled visited has hvisited _ := by
    refine ⟨fun x hx => ?_, fun name hmem hnew => absurd hmem hnew⟩
    cases h x hx with
    | field hexcluded => exact .field fun hincluded => by simp [hexcluded] at hincluded
    | excluded hexcluded =>
      exact .inline fun hopens => absurd (hexcluded.symm.trans hopens.included) (by simp)
    | otherType ht hother =>
      exact .inline fun hopens => absurd (hother.symm.trans (hopens.applies _ ht)) (by simp)
    | spread hexcluded => exact .spread fun hincluded => by simp [hexcluded] at hincluded
    | again hmem => exact .spread fun _ hnew => absurd (hvisited hmem) hnew

theorem trans (h : ctx.Explored P s s₁) (h' : ctx.Explored Q s₁ s') :
    ctx.Explored (fun x => P x ∨ Q x) s s' where
  keeps u hu := h'.keeps u (h.keeps u hu)
  grows := List.Subset.trans h.grows h'.grows
  reached u hu := by
    rcases h'.reached u hu with hu | ⟨x, hx, hu⟩
    · exact (h.reached u hu).imp_right fun ⟨x, hx, hu⟩ => ⟨x, .inl hx, hu⟩
    · exact .inr ⟨x, .inr hx, hu⟩
  handled visited has hvisited hhas := by
    obtain ⟨hfirst, hentered⟩ := h.handled visited has (List.Subset.trans h'.grows hvisited)
      fun u hu => hhas u (h'.keeps u hu)
    obtain ⟨hsecond, hentered'⟩ := h'.handled visited has hvisited hhas
    refine ⟨fun x hx => hx.elim (hfirst x) (hsecond x), fun name hmem hnew => ?_⟩
    by_cases hmem' : name ∈ s₁.visited
    · exact hentered name hmem' hnew
    · exact hentered' name hmem hmem'

theorem field {span : Span} {head : FieldHead} {selections : List Selection}
    (h : ctx.isExcluded none head.directives = false) :
    ctx.Explored (· = .field span head selections) s
      { s with found := s.found.add ⟨⟨head, span, selections⟩, none⟩ } where
  keeps _ hu := Collected.has_add.mpr (.inr hu)
  grows := List.Subset.refl _
  reached u hu := by
    rcases Collected.has_add.mp hu with rfl | hu
    · exact .inr ⟨_, rfl, .field h⟩
    · exact .inl hu
  handled visited has hvisited hhas := by
    refine ⟨?_, fun name hmem hnew => absurd hmem hnew⟩
    rintro _ rfl
    exact .field fun _ => hhas _ (Collected.has_add.mpr (.inl rfl))

theorem inline {span : Span} {head : InlineHead} {selections : List Selection}
    (hopens : ctx.Opens none head) (h : ctx.Explored (· ∈ selections) s s') :
    ctx.Explored (· = .inline span head selections) s s' where
  keeps := h.keeps
  grows := h.grows
  reached u hu := (h.reached u hu).imp_right fun ⟨_, hx, hu⟩ => ⟨_, rfl, .inline hopens hx hu⟩
  handled visited has hvisited hhas := by
    obtain ⟨hselections, hentered⟩ := h.handled visited has hvisited hhas
    refine ⟨?_, hentered⟩
    rintro _ rfl
    exact .inline fun _ => hselections

theorem deferred {label : Option String} (h : ctx.Explored P { s with found := .empty } s₁) :
    ctx.Explored P s { s₁ with found := s.found.defer label s₁.found } where
  keeps _ hu := Collected.has_defer.mpr (.inl hu)
  grows := h.grows
  reached u hu := by
    rcases Collected.has_defer.mp hu with hu | hu
    · exact .inl hu
    · exact .inr ((h.reached u hu).resolve_left Collected.not_has_empty)
  handled visited has hvisited hhas :=
    h.handled visited has hvisited fun u hu => hhas u (Collected.has_defer.mpr (.inr hu))

theorem nothing {span : Span} {spread : Spread} {label : Option (Option String)}
    (h : ctx.fragment? spread.name.item = none) :
    ctx.Explored (· = .spread span spread) s (entering label spread.name.item s) where
  keeps u hu := by
    unfold entering
    split <;> exact hu
  grows := by
    unfold entering
    split
    · exact List.subset_cons_self _ _
    · exact List.Subset.refl _
  reached u hu := by
    unfold entering at hu
    split at hu <;> exact .inl hu
  handled visited has _ _ := by
    refine ⟨?_, fun name hmem hnew f hf => ?_⟩
    · rintro _ rfl
      exact .spread fun _ _ f hf => by simp [h] at hf
    · unfold entering at hmem
      split at hmem
      · rcases List.mem_cons.mp hmem with rfl | hmem
        · simp [h] at hf
        · exact absurd hmem hnew
      · exact absurd hmem hnew

theorem spread {span : Span} {spread : Spread} {f : Fragment}
    (hincluded : ctx.isExcluded none spread.directives = false)
    (hf : ctx.fragment? spread.name.item = some f)
    (h : ctx.Explored (· ∈ f.selections) (entering none spread.name.item s) s') :
    ctx.Explored (· = .spread span spread) s s' where
  keeps := h.keeps
  grows := List.Subset.trans (List.subset_cons_self _ _) h.grows
  reached u hu :=
    (h.reached u hu).imp_right fun ⟨_, hx, hu⟩ => ⟨_, rfl, .spread hincluded hf hx hu⟩
  handled visited has hvisited hhas := by
    obtain ⟨hselections, hentered⟩ := h.handled visited has hvisited hhas
    refine ⟨?_, fun name hmem hnew => ?_⟩
    · rintro _ rfl
      refine .spread fun _ _ f' hf' => ?_
      obtain rfl := Option.some.inj (hf.symm.trans hf')
      exact hselections
    · by_cases heq : name = spread.name.item
      · rintro f' hf'
        obtain rfl := Option.some.inj (hf.symm.trans (heq ▸ hf'))
        exact hselections
      · exact hentered name hmem (by simpa [entering, heq] using hnew)

theorem spreadDeferred {span : Span} {spread : Spread} {f : Fragment}
    (hincluded : ctx.isExcluded none spread.directives = false)
    (hf : ctx.fragment? spread.name.item = some f) (h : ctx.Explored (· ∈ f.selections) s s') :
    ctx.Explored (· = .spread span spread) s s' where
  keeps := h.keeps
  grows := h.grows
  reached u hu :=
    (h.reached u hu).imp_right fun ⟨_, hx, hu⟩ => ⟨_, rfl, .spread hincluded hf hx hu⟩
  handled visited has hvisited hhas := by
    obtain ⟨hselections, hentered⟩ := h.handled visited has hvisited hhas
    refine ⟨?_, hentered⟩
    rintro _ rfl
    refine .spread fun _ _ f' hf' => ?_
    obtain rfl := Option.some.inj (hf.symm.trans hf')
    exact hselections

/-- From the start, exactly what is reached is found. -/
theorem has_iff (h : ctx.Explored P .start s') {u : FieldUse} :
    s'.found.Has u ↔ ∃ x, P x ∧ ctx.Reaches x u := by
  obtain ⟨hhandles, hentered⟩ := h.handled s'.visited s'.found.Has (List.Subset.refl _) fun _ => id
  refine ⟨fun hu => (h.reached u hu).resolve_left Collected.not_has_empty, ?_⟩
  rintro ⟨x, hx, hu⟩
  exact (hhandles x hx).has_of_reaches (fun name hmem => hentered name hmem (by simp [Collecting.start]))
    hu

end Explored

variable (hvariables : ∀ f ∈ ctx.fragments, f.variableDefinitions = none)

include hvariables

theorem variablesIn_none {name : String} {f : Fragment} (hf : ctx.fragment? name = some f)
    (fragmentVariables : Option FragmentVariables) (spread : Spread) :
    ctx.variablesIn fragmentVariables f spread = none := by
  have hmem := mem_of_findFragment (Option.filter_eq_some_iff.mp hf).1
  simp [variablesIn, hvariables f hmem]

theorem Collects.explored {selections : List Selection} {s s' : Collecting}
    (h : ctx.Collects none selections s s') : ctx.Explored (· ∈ selections) s s' := by
  have hcons {selection : Selection} {rest : List Selection} {s s₁ s' : Collecting}
      (hfirst : ctx.Explored (· = selection) s s₁) (hrest : ctx.Explored (· ∈ rest) s₁ s') :
      ctx.Explored (· ∈ selection :: rest) s s' :=
    (hfirst.trans hrest).weaken fun _ => List.mem_cons.symm
  generalize hnone : (none : Option FragmentVariables) = fragmentVariables at h
  induction h with
  | nil => exact .skipped (by simp)
  | skip h _ ih =>
    subst hnone
    exact hcons (.skipped (by rintro _ rfl; exact h)) (ih rfl)
  | field h _ ih =>
    subst hnone
    exact hcons (.field h) (ih rfl)
  | inline h _ _ _ ihInner ih =>
    subst hnone
    exact hcons (.inline h (ihInner rfl)) (ih rfl)
  | inlineDeferred h _ _ _ ihInner ih =>
    subst hnone
    exact hcons (.inline h (.deferred (ihInner rfl))) (ih rfl)
  | nothing h _ ih =>
    subst hnone
    exact hcons (.nothing h.found.symm) (ih rfl)
  | spread h _ _ _ ihInner ih =>
    subst hnone
    have hf := h.found.symm
    have hinner := ihInner (variablesIn_none hvariables hf none _).symm
    exact hcons (.spread h.included hf hinner) (ih rfl)
  | spreadDeferred h _ _ _ ihInner ih =>
    subst hnone
    have hf := h.found.symm
    have hinner := ihInner (variablesIn_none hvariables hf none _).symm
    exact hcons (.spreadDeferred h.included hf (.deferred hinner)) (ih rfl)

theorem CollectsUses.explored {uses : List FieldUse} {s s' : Collecting}
    (huses : ∀ use ∈ uses, use.fragmentVariables = none) (h : ctx.CollectsUses uses s s') :
    ctx.Explored (fun x => ∃ use ∈ uses, x ∈ use.node.selections) s s' := by
  induction h with
  | nil => exact .skipped (by simp)
  | cons h _ ih =>
    obtain ⟨huse, huses⟩ := List.forall_mem_cons.mp huses
    rw [huse] at h
    exact ((h.explored hvariables).trans (ih huses)).weaken fun x => by simp

omit hvariables

/-! ## Without deferring -/

/-- The same context with plain fragments. -/
def plain (ctx : CollectionContext σ) : CollectionContext σ :=
  { ctx with fragments := ctx.fragments.map Fragment.plain }

theorem isExcluded_plain (directives : List (Located Directive)) :
    ctx.plain.isExcluded none (plainDirectives directives) = ctx.isExcluded none directives := by
  have harguments (name : String) (hdefer : name ≠ "defer") (hstream : name ≠ "stream") :
      ctx.plain.directiveArguments? none (plainDirectives directives) name =
        ctx.directiveArguments? none directives name := by
    unfold directiveArguments?
    rw [findDirective_plain hdefer hstream]
    rfl
  have hskip := harguments "skip" (by decide) (by decide)
  have hinclude := harguments "include" (by decide) (by decide)
  simp only [isExcluded, hskip, hinclude]

theorem opens_plain {head : InlineHead} : ctx.plain.Opens none head.plain ↔ ctx.Opens none head := by
  have hexcluded : ctx.plain.isExcluded none head.plain.directives =
      ctx.isExcluded none head.directives := isExcluded_plain _
  exact ⟨fun h => ⟨hexcluded ▸ h.included, h.applies⟩, fun h => ⟨hexcluded.trans h.included, h.applies⟩⟩

theorem fragment?_plain (name : String) :
    ctx.plain.fragment? name = (ctx.fragment? name).map Fragment.plain := by
  unfold fragment?
  change ((findFragment (ctx.fragments.map Fragment.plain) name).filter _) = _
  rw [findFragment_plain, Option.filter_map]
  rfl

theorem mem_plainAll {x : Selection} {selections : List Selection} :
    x ∈ Selection.plainAll selections ↔ ∃ y ∈ selections, y.plain = x := by
  rw [Selection.plainAll_eq, List.mem_map]

theorem Reaches.plain {x : Selection} {u : FieldUse} (h : ctx.Reaches x u) :
    ctx.plain.Reaches x.plain u.plain := by
  induction h with
  | field h => exact .field ((isExcluded_plain _).trans h)
  | inline h hx _ ih => exact .inline (opens_plain.mpr h) (mem_plainAll.mpr ⟨_, hx, rfl⟩) ih
  | @spread _ spread f x u h hf hx _ ih =>
    have hplain : ctx.plain.fragment? spread.plain.name.item = some f.plain := by
      change ctx.plain.fragment? spread.name.item = _
      rw [fragment?_plain, hf, Option.map_some]
    exact .spread ((isExcluded_plain _).trans h) hplain (mem_plainAll.mpr ⟨_, hx, rfl⟩) ih

theorem Reaches.of_plain {x : Selection} {u' : FieldUse} (h : ctx.plain.Reaches x.plain u') :
    ∃ u, ctx.Reaches x u ∧ u.plain = u' := by
  generalize hplain : x.plain = x' at h
  induction h generalizing x with
  | field h =>
    cases x with
    | field span head selections =>
      obtain ⟨rfl, rfl, rfl⟩ := Selection.field.inj hplain
      exact ⟨_, .field ((isExcluded_plain _).symm.trans h), rfl⟩
    | spread | inline => cases hplain
  | inline h hx _ ih =>
    cases x with
    | inline span head selections =>
      obtain ⟨rfl, rfl, rfl⟩ := Selection.inline.inj hplain
      obtain ⟨y, hy, hyx⟩ := mem_plainAll.mp hx
      obtain ⟨u, hu, rfl⟩ := ih hyx
      exact ⟨u, .inline (opens_plain.mp h) hy hu, rfl⟩
    | field | spread => cases hplain
  | spread h hf hx _ ih =>
    cases x with
    | spread span spread =>
      obtain ⟨rfl, rfl⟩ := Selection.spread.inj hplain
      change ctx.plain.fragment? spread.name.item = _ at hf
      rw [fragment?_plain, Option.map_eq_some_iff] at hf
      obtain ⟨f, hf, rfl⟩ := hf
      obtain ⟨y, hy, hyx⟩ := mem_plainAll.mp hx
      obtain ⟨u, hu, rfl⟩ := ih hyx
      exact ⟨u, .spread ((isExcluded_plain _).symm.trans h) hf hy hu, rfl⟩
    | field | inline => cases hplain

theorem Reaches.unbound {x : Selection} {u : FieldUse} (h : ctx.Reaches x u) :
    u.fragmentVariables = none := by
  induction h with
  | field => rfl
  | inline _ _ _ ih | spread _ _ _ _ ih => exact ih

end CollectionContext

/-! ## Fields of objects -/

namespace ExecutionContext

variable (ctx : ExecutionContext σ) (object : ObjectType σ)

/-- How fields are collected on objects of a type. -/
def collection : CollectionContext σ := ⟨ctx.schema, ctx.fragments, ctx.variableValues, object⟩

/-- Whether some selections reach a field. -/
def Selects (selections : List Selection) (u : FieldUse) : Prop :=
  ∃ x ∈ selections, (ctx.collection object).Reaches x u

variable {ctx object} {selections : List Selection} {collected : Collected} {u u' : FieldUse}

theorem Selects.unbound (h : ctx.Selects object selections u) : u.fragmentVariables = none := by
  obtain ⟨x, -, h⟩ := h
  exact h.unbound

theorem Selects.plain (h : ctx.Selects object selections u) :
    ctx.plain.Selects object (Selection.plainAll selections) u.plain := by
  obtain ⟨x, hx, h⟩ := h
  exact ⟨x.plain, CollectionContext.mem_plainAll.mpr ⟨x, hx, rfl⟩, h.plain⟩

theorem Selects.of_plain (h : ctx.plain.Selects object (Selection.plainAll selections) u') :
    ∃ u, ctx.Selects object selections u ∧ u.plain = u' := by
  obtain ⟨x', hx', h⟩ := h
  obtain ⟨x, hx, rfl⟩ := CollectionContext.mem_plainAll.mp hx'
  have hreaches : (ctx.collection object).plain.Reaches x.plain u' := h
  obtain ⟨u, hu, rfl⟩ := hreaches.of_plain
  exact ⟨u, ⟨x, hx, hu⟩, rfl⟩

section

variable (hvariables : ∀ f ∈ ctx.fragments, f.variableDefinitions = none)

include hvariables

theorem has_rootFields (h : ctx.rootFields object = some collected) :
    collected.Has u ↔ ctx.Selects object ctx.operation.selections u := by
  obtain ⟨visited, hcollects⟩ := CollectionContext.collects_of_collectFields h
  exact (hcollects.explored hvariables).has_iff

theorem has_subfields {uses : List FieldUse} (huses : ∀ use ∈ uses, use.fragmentVariables = none)
    (h : ctx.subfields object uses = some collected) :
    collected.Has u ↔ ∃ use ∈ uses, ctx.Selects object use.node.selections u := by
  obtain ⟨visited, hcollects⟩ := CollectionContext.collects_of_collectSubfields h
  refine (hcollects.explored hvariables huses).has_iff.trans ⟨?_, ?_⟩
  · rintro ⟨x, ⟨use, huse, hx⟩, h⟩
    exact ⟨use, huse, x, hx, h⟩
  · rintro ⟨use, huse, x, hx, h⟩
    exact ⟨x, ⟨use, huse, hx⟩, h⟩

end

theorem variableDefinitions_plain (h : ∀ f ∈ ctx.fragments, f.variableDefinitions = none) :
    ∀ f ∈ ctx.plain.fragments, f.variableDefinitions = none := by
  intro f hf
  obtain ⟨g, hg, rfl⟩ := List.mem_map.mp hf
  exact h g hg

end ExecutionContext

end GraphQL
