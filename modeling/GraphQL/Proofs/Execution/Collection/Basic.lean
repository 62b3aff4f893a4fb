import GraphQL.Execution.Request

/-! # How fields are collected

Collecting goes through selections one after the other. `Collects` tells what becomes of each of
them, so that facts about what was collected are proved by induction on it.
-/

namespace GraphQL

variable {σ : Type}

theorem Selection.induct {P : List Selection → Prop} (nil : P [])
    (field : ∀ span head selections rest, P selections → P rest →
      P (.field span head selections :: rest))
    (spread : ∀ span spread rest, P rest → P (.spread span spread :: rest))
    (inline : ∀ span head selections rest, P selections → P rest →
      P (.inline span head selections :: rest)) (selections : List Selection) : P selections :=
  Selection.rec_1 (motive_1 := fun selection => ∀ rest, P rest → P (selection :: rest))
    (motive_2 := P) (fun span head selections h rest => field span head selections rest h)
    (fun span s rest => spread span s rest)
    (fun span head selections h rest => inline span head selections rest h) nil
    (fun _ rest h hrest => h rest hrest) selections

namespace CollectionContext

variable (ctx : CollectionContext σ)

/-- Whether a selection is left out. -/
inductive Skips (fragmentVariables : Option FragmentVariables) (s : Collecting) : Selection → Prop
  | field {span head selections} (h : ctx.isExcluded fragmentVariables head.directives) :
    Skips fragmentVariables s (.field span head selections)
  | excluded {span head selections} (h : ctx.isExcluded fragmentVariables head.directives) :
    Skips fragmentVariables s (.inline span head selections)
  | otherType {span head selections t} (ht : head.typeCondition = some t)
    (h : ctx.schema.conditionApplies t.item ctx.object = false) :
    Skips fragmentVariables s (.inline span head selections)
  | spread {span spread} (h : ctx.isExcluded fragmentVariables spread.directives) :
    Skips fragmentVariables s (.spread span spread)
  | again {span} {spread : Spread} (h : spread.name.item ∈ s.visited) :
    Skips fragmentVariables s (.spread span spread)

/-- Whether the fields of an inline fragment are selected. -/
structure Opens (fragmentVariables : Option FragmentVariables) (head : InlineHead) : Prop where
  included : ctx.isExcluded fragmentVariables head.directives = false
  applies : ∀ t, head.typeCondition = some t → ctx.schema.conditionApplies t.item ctx.object

/-- The state in which a fragment is entered. A spread that is not deferred is the last. -/
def entering (label : Option (Option String)) (name : String) (s : Collecting) : Collecting :=
  if label.isNone then { s with visited := name :: s.visited } else s

/-- The variables in a fragment, given those around its spread. -/
def variablesIn (fragmentVariables : Option FragmentVariables) (fragment : Fragment)
    (spread : Spread) : Option FragmentVariables :=
  fragment.variableDefinitions.map fun definitions =>
    ctx.schema.coerceFragmentVariables (ctx.scope fragmentVariables) definitions.item
      spread.arguments

/-- Whether a spread is followed, and to which fragment. -/
structure Spreads (fragmentVariables : Option FragmentVariables) (s : Collecting) (spread : Spread)
    (fragment : Option Fragment) : Prop where
  included : ctx.isExcluded fragmentVariables spread.directives = false
  first : spread.name.item ∉ s.visited
  found : fragment = (findFragment ctx.fragments spread.name.item).filter fun f =>
    ctx.schema.conditionApplies f.typeCondition.item ctx.object

/-- Whether collecting some selections leads from a state to another. -/
inductive Collects : Option FragmentVariables → List Selection → Collecting → Collecting → Prop
  | nil {fragmentVariables s} : Collects fragmentVariables [] s s
  | skip {fragmentVariables selection rest s s'} (h : ctx.Skips fragmentVariables s selection)
    (hrest : Collects fragmentVariables rest s s') :
    Collects fragmentVariables (selection :: rest) s s'
  | field {fragmentVariables span head selections rest s s'}
    (h : ctx.isExcluded fragmentVariables head.directives = false)
    (hrest : Collects fragmentVariables rest
      { s with found := s.found.add ⟨⟨head, span, selections⟩, fragmentVariables⟩ } s') :
    Collects fragmentVariables (.field span head selections :: rest) s s'
  | inline {fragmentVariables span head selections rest s s₁ s'}
    (h : ctx.Opens fragmentVariables head)
    (hlabel : ctx.deferLabel? fragmentVariables head.directives = none)
    (hinner : Collects fragmentVariables selections s s₁)
    (hrest : Collects fragmentVariables rest s₁ s') :
    Collects fragmentVariables (.inline span head selections :: rest) s s'
  | inlineDeferred {fragmentVariables span head selections rest s s₁ s' label}
    (h : ctx.Opens fragmentVariables head)
    (hlabel : ctx.deferLabel? fragmentVariables head.directives = some label)
    (hinner : Collects fragmentVariables selections { s with found := .empty } s₁)
    (hrest : Collects fragmentVariables rest
      { s₁ with found := s.found.defer label s₁.found } s') :
    Collects fragmentVariables (.inline span head selections :: rest) s s'
  | nothing {fragmentVariables span spread rest s s'}
    (h : ctx.Spreads fragmentVariables s spread none)
    (hrest : Collects fragmentVariables rest
      (entering (ctx.deferLabel? fragmentVariables spread.directives) spread.name.item s) s') :
    Collects fragmentVariables (.spread span spread :: rest) s s'
  | spread {fragmentVariables span spread fragment rest s s₁ s'}
    (h : ctx.Spreads fragmentVariables s spread (some fragment))
    (hlabel : ctx.deferLabel? fragmentVariables spread.directives = none)
    (hinner : Collects (ctx.variablesIn fragmentVariables fragment spread) fragment.selections
      (entering none spread.name.item s) s₁)
    (hrest : Collects fragmentVariables rest s₁ s') :
    Collects fragmentVariables (.spread span spread :: rest) s s'
  | spreadDeferred {fragmentVariables span spread fragment rest s s₁ s' label}
    (h : ctx.Spreads fragmentVariables s spread (some fragment))
    (hlabel : ctx.deferLabel? fragmentVariables spread.directives = some label)
    (hinner : Collects (ctx.variablesIn fragmentVariables fragment spread) fragment.selections
      { s with found := .empty } s₁)
    (hrest : Collects fragmentVariables rest
      { s₁ with found := s.found.defer label s₁.found } s') :
    Collects fragmentVariables (.spread span spread :: rest) s s'

variable {ctx}

theorem Opens.not_skipped {fragmentVariables : Option FragmentVariables} {head : InlineHead}
    (h : ctx.Opens fragmentVariables head) : (ctx.isExcluded fragmentVariables head.directives
      || head.typeCondition.any fun t => !ctx.schema.conditionApplies t.item ctx.object) = false := by
  rw [h.included, Bool.false_or, Option.any_eq_false]
  exact fun t ht => by simp [h.applies t ht]

theorem deferring_none {collect : Collecting → Option Collecting} {s s' : Collecting}
    (h : deferring none collect s = some s') : collect s = some s' := h

theorem deferring_some {label : Option String} {collect : Collecting → Option Collecting}
    {s s' : Collecting} (h : deferring (some label) collect s = some s') :
    ∃ s₁, collect { s with found := .empty } = some s₁ ∧
      s' = { s₁ with found := s.found.defer label s₁.found } := by
  simp only [deferring, Option.bind_eq_bind, Option.bind_eq_some_iff] at h
  obtain ⟨s₁, h₁, h⟩ := h
  exact ⟨s₁, h₁, by simpa using h.symm⟩

/-- Whether entering fragments collects their selections. -/
def Enters (ctx : CollectionContext σ) (enter : FragmentEntry) : Prop :=
  ∀ selections fragmentVariables s s', enter selections fragmentVariables s = some s' →
    ctx.Collects fragmentVariables selections s s'

theorem collects_spread {enter : FragmentEntry} (henter : ctx.Enters enter) {span : Span}
    {fragmentVariables : Option FragmentVariables} {spread : Spread} {rest : List Selection}
    {s s₁ s' : Collecting} (h : ctx.collectSpread enter fragmentVariables spread s = some s₁)
    (hrest : ctx.Collects fragmentVariables rest s₁ s') :
    ctx.Collects fragmentVariables (.spread span spread :: rest) s s' := by
  unfold collectSpread at h
  dsimp only at h
  split at h
  · next hskip =>
    -- It is left out, or its fragment was visited.
    obtain rfl := Option.some.inj h
    rw [Bool.or_eq_true, List.contains_iff_mem] at hskip
    rcases hskip with hexcluded | hvisited
    · exact .skip (.spread hexcluded) hrest
    · exact .skip (.again hvisited) hrest
  · next hskip =>
    rw [Bool.or_eq_true, List.contains_iff_mem, not_or] at hskip
    have hincluded : ctx.isExcluded fragmentVariables spread.directives = false := by
      simpa using hskip.1
    split at h
    · next hfound =>
      -- There is no such fragment.
      obtain rfl := Option.some.inj h
      exact .nothing ⟨hincluded, hskip.2, by simp [hfound]⟩ hrest
    · next fragment hfound =>
      split at h
      · next happlies =>
        -- The fragment is for other types.
        obtain rfl := Option.some.inj h
        exact .nothing ⟨hincluded, hskip.2, by simp_all [Option.filter]⟩ hrest
      · next happlies =>
        have hspreads : ctx.Spreads fragmentVariables s spread (some fragment) :=
          ⟨hincluded, hskip.2, by simpa [hfound, Option.filter] using happlies⟩
        cases hlabel : ctx.deferLabel? fragmentVariables spread.directives with
        | none =>
          rw [hlabel] at h
          exact .spread hspreads hlabel (henter _ _ _ _ (deferring_none h)) hrest
        | some label =>
          rw [hlabel] at h
          obtain ⟨s₂, hinner, rfl⟩ := deferring_some h
          exact .spreadDeferred hspreads hlabel (henter _ _ _ _ hinner) hrest

theorem enters_collectAll {enter : FragmentEntry} (henter : ctx.Enters enter) :
    ctx.Enters fun selections fragmentVariables =>
      ctx.collectAll enter fragmentVariables selections := by
  intro selections
  induction selections using Selection.induct with
  | nil =>
    intro fragmentVariables s s' h
    obtain rfl := Option.some.inj h
    exact .nil
  | field span head selections rest _ ih =>
    intro fragmentVariables s s' h
    obtain ⟨s₁, h₁, h⟩ := Option.bind_eq_some_iff.mp h
    simp only [collectSelection] at h₁
    split at h₁
    · next hexcluded =>
      obtain rfl := Option.some.inj h₁
      exact .skip (.field hexcluded) (ih _ _ _ h)
    · next hexcluded =>
      obtain rfl := Option.some.inj h₁
      exact .field (by simpa using hexcluded) (ih _ _ _ h)
  | spread span spread rest ih =>
    intro fragmentVariables s s' h
    obtain ⟨s₁, h₁, h⟩ := Option.bind_eq_some_iff.mp h
    exact collects_spread henter h₁ (ih _ _ _ h)
  | inline span head selections rest ihInner ih =>
    intro fragmentVariables s s' h
    obtain ⟨s₁, h₁, h⟩ := Option.bind_eq_some_iff.mp h
    simp only [collectSelection] at h₁
    split at h₁
    · next hskip =>
      obtain rfl := Option.some.inj h₁
      rw [Bool.or_eq_true, Option.any_eq_true] at hskip
      rcases hskip with hexcluded | ⟨t, ht, hother⟩
      · exact .skip (.excluded hexcluded) (ih _ _ _ h)
      · exact .skip (.otherType ht (by simpa using hother)) (ih _ _ _ h)
    · next hopen =>
      rw [Bool.or_eq_true, Option.any_eq_true, not_or] at hopen
      have hopens : ctx.Opens fragmentVariables head :=
        ⟨by simpa using hopen.1, fun t ht => by
          cases happlies : ctx.schema.conditionApplies t.item ctx.object with
          | true => rfl
          | false => exact (hopen.2 ⟨t, ht, by simp [happlies]⟩).elim⟩
      cases hlabel : ctx.deferLabel? fragmentVariables head.directives with
      | none =>
        rw [hlabel] at h₁
        exact .inline hopens hlabel (ihInner _ _ _ (deferring_none h₁)) (ih _ _ _ h)
      | some label =>
        rw [hlabel] at h₁
        obtain ⟨s₂, hinner, rfl⟩ := deferring_some h₁
        exact .inlineDeferred hopens hlabel (ihInner _ _ _ hinner) (ih _ _ _ h)

theorem enters_collectWithin (depth : Nat) : ctx.Enters (ctx.collectWithin depth) := by
  induction depth with
  | zero =>
    intro _ _ _ _ h
    simp [collectWithin] at h
  | succ depth ih => exact enters_collectAll ih

/-- Whether the fields below all of some uses of a field are collected one after the other. -/
inductive CollectsUses (ctx : CollectionContext σ) : List FieldUse → Collecting → Collecting → Prop
  | nil {s} : CollectsUses ctx [] s s
  | cons {use uses s s₁ s'}
    (h : ctx.Collects use.fragmentVariables use.node.selections s s₁)
    (hrest : CollectsUses ctx uses s₁ s') : CollectsUses ctx (use :: uses) s s'

theorem collects_of_collectFields {depth : Nat} {selections : List Selection}
    {collected : Collected} (h : ctx.collectFields depth selections = some collected) :
    ∃ visited, ctx.Collects none selections .start ⟨visited, collected⟩ := by
  obtain ⟨⟨visited, _⟩, hs, rfl⟩ := Option.map_eq_some_iff.mp h
  exact ⟨visited, enters_collectWithin depth _ _ _ _ hs⟩

theorem collects_of_collectSubfields {depth : Nat} {uses : List FieldUse} {collected : Collected}
    (h : ctx.collectSubfields depth uses = some collected) :
    ∃ visited, ctx.CollectsUses uses .start ⟨visited, collected⟩ := by
  obtain ⟨⟨visited, _⟩, hs, rfl⟩ := Option.map_eq_some_iff.mp h
  refine ⟨visited, ?_⟩
  clear h
  generalize Collecting.start = s at hs
  induction uses generalizing s with
  | nil =>
    obtain rfl := Option.some.inj hs
    exact .nil
  | cons use uses ih =>
    rw [List.foldlM_cons, Option.bind_eq_bind, Option.bind_eq_some_iff] at hs
    obtain ⟨s₁, h₁, hs⟩ := hs
    exact .cons (enters_collectWithin depth _ _ _ _ h₁) (ih s₁ hs)

end CollectionContext

/-! ## Groups of response keys -/

/-- Whether fields are grouped by their response keys, here and in all deferred fragments. -/
inductive Collected.Grouped : Collected → Prop
  | intro {c : Collected} (keys : (c.groups.map Prod.fst).Nodup)
    (uses : ∀ key uses, (key, uses) ∈ c.groups →
      uses ≠ [] ∧ ∀ use ∈ uses, use.node.responseKey = key)
    (deferred : ∀ fragment ∈ c.deferred, fragment.fields.Grouped) : Grouped c

namespace Collected.Grouped

variable {c d : Collected}

theorem keys (h : c.Grouped) : (c.groups.map Prod.fst).Nodup := by
  cases h with
  | intro keys _ _ => exact keys

theorem uses (h : c.Grouped) {key : String} {uses : List FieldUse} (hgroup : (key, uses) ∈ c.groups) :
    uses ≠ [] ∧ ∀ use ∈ uses, use.node.responseKey = key := by
  cases h with
  | intro _ huses _ => exact huses key uses hgroup

theorem deferred (h : c.Grouped) : ∀ fragment ∈ c.deferred, fragment.fields.Grouped := by
  cases h with
  | intro _ _ deferred => exact deferred

theorem empty : Collected.empty.Grouped :=
  .intro .nil (by simp [Collected.empty]) (by simp [Collected.empty])

theorem defer (h : c.Grouped) (label : Option String) (hd : d.Grouped) :
    (c.defer label d).Grouped := by
  refine .intro h.keys (fun _ _ => h.uses) ?_
  simp only [Collected.defer, List.mem_append, List.mem_singleton]
  rintro fragment (hfragment | rfl)
  · exact h.deferred fragment hfragment
  · exact hd

end Collected.Grouped

namespace FieldGroups

variable {key k : String} {use : FieldUse} {uses : List FieldUse} {groups : FieldGroups}

theorem mem_keys_add : k ∈ (groups.add key use).map Prod.fst ↔ k = key ∨ k ∈ groups.map Prod.fst := by
  induction groups with
  | nil => simp [FieldGroups.add]
  | cons group groups ih =>
    unfold FieldGroups.add
    split
    · next heq => simp [heq]
    · rw [List.map_cons, List.mem_cons, ih, List.map_cons, List.mem_cons]
      exact or_left_comm

theorem nodup_keys_add (h : (groups.map Prod.fst).Nodup) :
    ((groups.add key use).map Prod.fst).Nodup := by
  induction groups with
  | nil => simp [FieldGroups.add]
  | cons group groups ih =>
    rw [List.map_cons, List.nodup_cons] at h
    unfold FieldGroups.add
    split
    · simpa using h
    · next hne =>
      rw [List.map_cons, List.nodup_cons, FieldGroups.mem_keys_add, not_or]
      exact ⟨⟨hne, h.1⟩, ih h.2⟩

/-- A group after a use was added is one from before, or that of the use with the use at its end. -/
theorem mem_add (h : (k, uses) ∈ groups.add key use) :
    (k, uses) ∈ groups ∨ k = key ∧ ∃ before, uses = before ++ [use] ∧
      (before = [] ∨ (key, before) ∈ groups) := by
  induction groups with
  | nil =>
    obtain ⟨rfl, rfl⟩ : k = key ∧ uses = [use] := by simpa [FieldGroups.add] using h
    exact .inr ⟨rfl, [], rfl, .inl rfl⟩
  | cons group groups ih =>
    obtain ⟨k', before⟩ := group
    unfold FieldGroups.add at h
    split at h
    · next heq =>
      rcases List.mem_cons.mp h with heq' | h
      · obtain ⟨rfl, rfl⟩ := Prod.mk.inj heq'
        exact .inr ⟨heq, before, rfl, .inr (heq ▸ List.mem_cons_self)⟩
      · exact .inl (List.mem_cons_of_mem _ h)
    · rcases List.mem_cons.mp h with heq' | h
      · exact .inl (heq' ▸ List.mem_cons_self)
      · rcases ih h with h | ⟨hkey, others, huses, hothers⟩
        · exact .inl (List.mem_cons_of_mem _ h)
        · exact .inr ⟨hkey, others, huses, hothers.imp_right (List.mem_cons_of_mem _)⟩

theorem mem_uses_add {u : FieldUse} :
    u ∈ (groups.add key use).flatMap Prod.snd ↔ u = use ∨ u ∈ groups.flatMap Prod.snd := by
  induction groups with
  | nil => simp [FieldGroups.add]
  | cons group groups ih =>
    unfold FieldGroups.add
    split
    · simp only [List.flatMap_cons, List.mem_append, List.mem_singleton]
      exact ⟨by rintro ((h | h) | h) <;> simp [h], by rintro (h | h | h) <;> simp [h]⟩
    · rw [List.flatMap_cons, List.mem_append, ih, List.flatMap_cons, List.mem_append]
      exact or_left_comm

end FieldGroups

theorem Collected.Grouped.add {c : Collected} (h : c.Grouped) (use : FieldUse) :
    (c.add use).Grouped := by
  refine .intro (FieldGroups.nodup_keys_add h.keys) (fun key uses hgroup => ?_) h.deferred
  rcases FieldGroups.mem_add hgroup with hgroup | ⟨rfl, before, rfl, hbefore⟩
  · exact h.uses hgroup
  · refine ⟨by simp, List.forall_mem_append.mpr ⟨?_, by simp⟩⟩
    rcases hbefore with rfl | hbefore
    · simp
    · exact (h.uses hbefore).2

namespace CollectionContext

variable {ctx : CollectionContext σ}

theorem Collects.grouped {fragmentVariables : Option FragmentVariables}
    {selections : List Selection} {s s' : Collecting}
    (h : ctx.Collects fragmentVariables selections s s') (hs : s.found.Grouped) :
    s'.found.Grouped := by
  have hentering (label : Option (Option String)) (name : String) {s : Collecting}
      (hs : s.found.Grouped) : (entering label name s).found.Grouped := by
    unfold entering
    split <;> exact hs
  induction h with
  | nil => exact hs
  | skip _ _ ih => exact ih hs
  | field _ _ ih => exact ih (hs.add _)
  | inline _ _ _ _ ihInner ih => exact ih (ihInner hs)
  | inlineDeferred _ _ _ _ ihInner ih => exact ih (hs.defer _ (ihInner .empty))
  | nothing _ _ ih => exact ih (hentering _ _ hs)
  | spread _ _ _ _ ihInner ih => exact ih (ihInner (hentering _ _ hs))
  | spreadDeferred _ _ _ _ ihInner ih => exact ih (hs.defer _ (ihInner .empty))

theorem CollectsUses.grouped {uses : List FieldUse} {s s' : Collecting}
    (h : ctx.CollectsUses uses s s') (hs : s.found.Grouped) : s'.found.Grouped := by
  induction h with
  | nil => exact hs
  | cons h _ ih => exact ih (h.grouped hs)

end CollectionContext

namespace ExecutionContext

variable {ctx : ExecutionContext σ} {object : ObjectType σ} {collected : Collected}

theorem grouped_rootFields (h : ctx.rootFields object = some collected) : collected.Grouped := by
  obtain ⟨visited, hcollects⟩ := CollectionContext.collects_of_collectFields h
  exact hcollects.grouped .empty

theorem grouped_subfields {uses : List FieldUse} (h : ctx.subfields object uses = some collected) :
    collected.Grouped := by
  obtain ⟨visited, hcollects⟩ := CollectionContext.collects_of_collectSubfields h
  exact hcollects.grouped .empty

end ExecutionContext

end GraphQL
