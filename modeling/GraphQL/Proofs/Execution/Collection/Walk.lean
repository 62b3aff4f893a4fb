import Mathlib.Data.List.Flatten
import Mathlib.Data.List.Perm.Subperm
import GraphQL.Proofs.Execution.Collection.Termination
import GraphQL.Proofs.Value.RoundTrip

/-! # Collected groups are the walk, grouped

A walk goes through selections from left to right and into fragments. It passes over what is left
out, over fragments that are unknown or on another type, and over spreads of a fragment that it
followed before. Where it meets no active `@defer`, collecting groups the fields that it meets by
their response keys.
-/

namespace GraphQL

variable {σ : Type}

/-- What is met on a walk, with the variables of the fragment around it. -/
inductive Encounter where
  | field (use : FieldUse)
  | inline (fragmentVariables : Option FragmentVariables) (head : InlineHead)
  | spread (fragmentVariables : Option FragmentVariables) (spread : Spread)

namespace Encounter

def use? : Encounter → Option FieldUse
  | .field use => some use
  | _ => none

def name? : Encounter → Option String
  | .spread _ s => some s.name.item
  | _ => none

/-- The fields that are met. -/
def uses (walk : List Encounter) : List FieldUse := walk.filterMap use?

/-- The names of the fragments whose spreads are followed. -/
def names (walk : List Encounter) : List String := walk.filterMap name?

variable {walk rest : List Encounter}

@[simp] theorem uses_field (use : FieldUse) : uses (.field use :: walk) = use :: uses walk := rfl

@[simp] theorem uses_inline (fragmentVariables : Option FragmentVariables) (head : InlineHead) :
    uses (.inline fragmentVariables head :: walk) = uses walk := rfl

@[simp] theorem uses_spread (fragmentVariables : Option FragmentVariables) (spread : Spread) :
    uses (.spread fragmentVariables spread :: walk) = uses walk := rfl

@[simp] theorem uses_append : uses (walk ++ rest) = uses walk ++ uses rest :=
  List.filterMap_append

@[simp] theorem names_field (use : FieldUse) : names (.field use :: walk) = names walk := rfl

@[simp] theorem names_inline (fragmentVariables : Option FragmentVariables) (head : InlineHead) :
    names (.inline fragmentVariables head :: walk) = names walk := rfl

@[simp] theorem names_spread (fragmentVariables : Option FragmentVariables) (spread : Spread) :
    names (.spread fragmentVariables spread :: walk) = spread.name.item :: names walk := rfl

@[simp] theorem names_append : names (walk ++ rest) = names walk ++ names rest :=
  List.filterMap_append

end Encounter

open Encounter (uses names)

namespace CollectionContext

/-! ## The walk -/

section

variable (ctx : CollectionContext σ)

/-- Whether a walk that followed spreads of some fragments passes over a selection. -/
inductive Passes (followed : List String) (fragmentVariables : Option FragmentVariables) :
    Selection → Prop
  | field {span head selections} (h : ctx.isExcluded fragmentVariables head.directives) :
    Passes followed fragmentVariables (.field span head selections)
  | inline {span head selections} (h : ctx.isExcluded fragmentVariables head.directives) :
    Passes followed fragmentVariables (.inline span head selections)
  | otherType {span head selections t} (ht : head.typeCondition = some t)
    (h : ctx.schema.conditionApplies t.item ctx.object = false) :
    Passes followed fragmentVariables (.inline span head selections)
  | spread {span spread} (h : ctx.isExcluded fragmentVariables spread.directives) :
    Passes followed fragmentVariables (.spread span spread)
  | again {span} {spread : Spread} (h : spread.name.item ∈ followed) :
    Passes followed fragmentVariables (.spread span spread)
  | unknown {span} {spread : Spread} (h : ctx.fragment? spread.name.item = none) :
    Passes followed fragmentVariables (.spread span spread)

/-- What a walk over selections meets, after it followed spreads of some fragments. -/
inductive Walks : List String → Option FragmentVariables → List Selection → List Encounter → Prop
  | nil {followed fragmentVariables} : Walks followed fragmentVariables [] []
  | pass {followed fragmentVariables selection rest after}
    (h : ctx.Passes followed fragmentVariables selection)
    (hrest : Walks followed fragmentVariables rest after) :
    Walks followed fragmentVariables (selection :: rest) after
  | field {followed fragmentVariables span head selections rest after}
    (h : ctx.isExcluded fragmentVariables head.directives = false)
    (hrest : Walks followed fragmentVariables rest after) :
    Walks followed fragmentVariables (.field span head selections :: rest)
      (.field ⟨⟨head, span, selections⟩, fragmentVariables⟩ :: after)
  | inline {followed fragmentVariables span head selections rest inner after}
    (h : ctx.Opens fragmentVariables head)
    (hinner : Walks followed fragmentVariables selections inner)
    (hrest : Walks (followed ++ names inner) fragmentVariables rest after) :
    Walks followed fragmentVariables (.inline span head selections :: rest)
      (.inline fragmentVariables head :: inner ++ after)
  | spread {followed fragmentVariables span spread f rest inner after}
    (h : ctx.isExcluded fragmentVariables spread.directives = false)
    (hfirst : spread.name.item ∉ followed) (hf : ctx.fragment? spread.name.item = some f)
    (hinner : Walks (followed ++ [spread.name.item]) (ctx.variablesIn fragmentVariables f spread)
      f.selections inner)
    (hrest : Walks (followed ++ spread.name.item :: names inner) fragmentVariables rest after) :
    Walks followed fragmentVariables (.spread span spread :: rest)
      (.spread fragmentVariables spread :: inner ++ after)

/-- What one walk meets that starts in one place after the other, each with the variables of the
fragment around it. -/
inductive WalksThrough :
    List String → List (List Selection × Option FragmentVariables) → List Encounter → Prop
  | nil {followed} : WalksThrough followed [] []
  | cons {followed selections fragmentVariables places inner after}
    (h : ctx.Walks followed fragmentVariables selections inner)
    (hrest : WalksThrough (followed ++ names inner) places after) :
    WalksThrough followed ((selections, fragmentVariables) :: places) (inner ++ after)

/-- The label of the active `@defer` of what is met. -/
def labelAt? : Encounter → Option (Option String)
  | .field _ => none
  | .inline fragmentVariables head => ctx.deferLabel? fragmentVariables head.directives
  | .spread fragmentVariables spread => ctx.deferLabel? fragmentVariables spread.directives

/-- Whether no `@defer` is active on a walk. -/
def DefersNothing (walk : List Encounter) : Prop := ∀ e ∈ walk, ctx.labelAt? e = none

end

variable {ctx : CollectionContext σ} {followed : List String}
  {fragmentVariables : Option FragmentVariables} {selections : List Selection}
  {walk : List Encounter} {places : List (List Selection × Option FragmentVariables)}

theorem not_passes_field {span : Span} {head : FieldHead}
    (h : ctx.isExcluded fragmentVariables head.directives = false) :
    ¬ ctx.Passes followed fragmentVariables (.field span head selections) := by
  intro hpass
  cases hpass with
  | field h' => simp [h] at h'

theorem not_passes_inline {span : Span} {head : InlineHead} (h : ctx.Opens fragmentVariables head) :
    ¬ ctx.Passes followed fragmentVariables (.inline span head selections) := by
  intro hpass
  cases hpass with
  | inline h' => simp [h.included] at h'
  | otherType ht h' => simp [h.applies _ ht] at h'

theorem not_passes_spread {span : Span} {spread : Spread} {f : Fragment}
    (h : ctx.isExcluded fragmentVariables spread.directives = false)
    (hfirst : spread.name.item ∉ followed) (hf : ctx.fragment? spread.name.item = some f) :
    ¬ ctx.Passes followed fragmentVariables (.spread span spread) := by
  intro hpass
  cases hpass with
  | spread h' => simp [h] at h'
  | again h' => exact hfirst h'
  | unknown h' => simp [hf] at h'

theorem passes_or_opens (followed : List String) (fragmentVariables : Option FragmentVariables)
    (span : Span) (head : InlineHead) (selections : List Selection) :
    ctx.Passes followed fragmentVariables (.inline span head selections) ∨
      ctx.Opens fragmentVariables head := by
  cases hexcluded : ctx.isExcluded fragmentVariables head.directives with
  | true => exact .inl (.inline hexcluded)
  | false =>
    by_cases happlies : ∀ t, head.typeCondition = some t →
      ctx.schema.conditionApplies t.item ctx.object
    · exact .inr ⟨hexcluded, happlies⟩
    · push Not at happlies
      obtain ⟨t, ht, hother⟩ := happlies
      exact .inl (.otherType ht (by simpa using hother))

theorem Walks.unique (h : ctx.Walks followed fragmentVariables selections walk) :
    ∀ other, ctx.Walks followed fragmentVariables selections other → other = walk := by
  induction h with
  | nil =>
    intro other hother
    cases hother
    rfl
  | pass hpass _ ih =>
    intro other hother
    cases hother with
    | pass _ hrest => exact ih _ hrest
    | field h => exact absurd hpass (not_passes_field h)
    | inline h => exact absurd hpass (not_passes_inline h)
    | spread h hfirst hf => exact absurd hpass (not_passes_spread h hfirst hf)
  | field h _ ih =>
    intro other hother
    cases hother with
    | pass hpass => exact absurd hpass (not_passes_field h)
    | field _ hrest => rw [ih _ hrest]
  | inline h _ _ ihInner ih =>
    intro other hother
    cases hother with
    | pass hpass => exact absurd hpass (not_passes_inline h)
    | inline _ hinner hrest =>
      obtain rfl := ihInner _ hinner
      rw [ih _ hrest]
  | spread h hfirst hf _ _ ihInner ih =>
    intro other hother
    cases hother with
    | pass hpass => exact absurd hpass (not_passes_spread h hfirst hf)
    | spread _ _ hf' hinner hrest =>
      obtain rfl := Option.some.inj (hf.symm.trans hf')
      obtain rfl := ihInner _ hinner
      rw [ih _ hrest]

theorem unvisited_concat_lt {name : String} {f : Fragment} (hf : ctx.fragment? name = some f)
    (hnew : name ∉ followed) : ctx.unvisited (followed ++ [name]) < ctx.unvisited followed :=
  Nat.lt_of_le_of_lt (unvisited_mono (by simp)) (unvisited_cons_lt hf hnew)

theorem unvisited_append_le (followed more : List String) :
    ctx.unvisited (followed ++ more) ≤ ctx.unvisited followed :=
  unvisited_mono (List.subset_append_left _ _)

/-- Walks end, as there are fewer fragments to follow after each that was followed. -/
theorem exists_walks (n : Nat) (fragmentVariables : Option FragmentVariables)
    (selections : List Selection) (followed : List String) (hn : ctx.unvisited followed ≤ n) :
    ∃ walk, ctx.Walks followed fragmentVariables selections walk := by
  induction n using Nat.strongRecOn generalizing fragmentVariables selections followed with
  | ind n ihFewer =>
    induction selections using Selection.induct generalizing followed with
    | nil => exact ⟨_, .nil⟩
    | field span head selections rest _ ih =>
      obtain ⟨after, hrest⟩ := ih followed hn
      cases h : ctx.isExcluded fragmentVariables head.directives with
      | true => exact ⟨_, .pass (.field h) hrest⟩
      | false => exact ⟨_, .field h hrest⟩
    | inline span head selections rest ihInner ih =>
      rcases passes_or_opens followed fragmentVariables span head selections with hpass | hopens
      · obtain ⟨after, hrest⟩ := ih followed hn
        exact ⟨_, .pass hpass hrest⟩
      · obtain ⟨inner, hinner⟩ := ihInner followed hn
        obtain ⟨after, hrest⟩ := ih (followed ++ names inner)
          (Nat.le_trans (unvisited_append_le _ _) hn)
        exact ⟨_, .inline hopens hinner hrest⟩
    | spread span spread rest ih =>
      have hpasses (hpass : ctx.Passes followed fragmentVariables (.spread span spread)) :
          ∃ walk, ctx.Walks followed fragmentVariables (.spread span spread :: rest) walk := by
        obtain ⟨after, hrest⟩ := ih followed hn
        exact ⟨_, .pass hpass hrest⟩
      cases h : ctx.isExcluded fragmentVariables spread.directives with
      | true => exact hpasses (.spread h)
      | false =>
        by_cases hfirst : spread.name.item ∈ followed
        · exact hpasses (.again hfirst)
        cases hf : ctx.fragment? spread.name.item with
        | none => exact hpasses (.unknown hf)
        | some f =>
          have hless := unvisited_concat_lt hf hfirst
          obtain ⟨inner, hinner⟩ := ihFewer _ (Nat.lt_of_lt_of_le hless hn)
            (ctx.variablesIn fragmentVariables f spread) f.selections
            (followed ++ [spread.name.item]) (Nat.le_refl _)
          obtain ⟨after, hrest⟩ := ih (followed ++ spread.name.item :: names inner)
            (Nat.le_trans (unvisited_append_le _ _) hn)
          exact ⟨_, .spread h hfirst hf hinner hrest⟩

theorem WalksThrough.unique (h : ctx.WalksThrough followed places walk) :
    ∀ other, ctx.WalksThrough followed places other → other = walk := by
  induction h with
  | nil =>
    intro other hother
    cases hother
    rfl
  | cons h _ ih =>
    intro other hother
    cases hother with
    | cons h' hrest =>
      obtain rfl := h.unique _ h'
      rw [ih _ hrest]

theorem exists_walksThrough (places : List (List Selection × Option FragmentVariables))
    (followed : List String) : ∃ walk, ctx.WalksThrough followed places walk := by
  induction places generalizing followed with
  | nil => exact ⟨_, .nil⟩
  | cons place places ih =>
    obtain ⟨inner, hinner⟩ : ∃ inner, ctx.Walks followed place.2 place.1 inner :=
      exists_walks _ _ _ _ (Nat.le_refl _)
    obtain ⟨after, hrest⟩ := ih (followed ++ names inner)
    exact ⟨_, .cons hinner hrest⟩

/-! ## Where the fields of a walk come from -/

end CollectionContext

namespace Selection

mutual

/-- The fields in a selection that are not inside of a field. -/
def ownFields : Selection → List FieldNode
  | .field span head selections => [⟨head, span, selections⟩]
  | .spread _ _ => []
  | .inline _ _ selections => ownFieldsAll selections

def ownFieldsAll : List Selection → List FieldNode
  | [] => []
  | selection :: rest => selection.ownFields ++ ownFieldsAll rest

end

end Selection

open Selection (ownFieldsAll)

namespace CollectionContext

variable {ctx : CollectionContext σ} {followed : List String}
  {fragmentVariables : Option FragmentVariables} {selections : List Selection}
  {walk : List Encounter} {places : List (List Selection × Option FragmentVariables)}

/-- Whether a field is selected in a place itself or in a fragment that was followed, and has the
variables that are around it there. -/
def ComesFrom (ctx : CollectionContext σ) (places : List (List Selection × Option FragmentVariables))
    (walk : List Encounter) (use : FieldUse) : Prop :=
  (∃ place ∈ places, use.node ∈ ownFieldsAll place.1 ∧ use.fragmentVariables = place.2) ∨
    ∃ outer spread f, .spread outer spread ∈ walk ∧ ctx.fragment? spread.name.item = some f ∧
      use.node ∈ ownFieldsAll f.selections ∧ use.fragmentVariables = ctx.variablesIn outer f spread

theorem ComesFrom.mono {use : FieldUse} {places' : List (List Selection × Option FragmentVariables)}
    {walk' : List Encounter} (h : ctx.ComesFrom places walk use)
    (hplaces : ∀ place ∈ places, ∃ place' ∈ places', place.2 = place'.2 ∧
      ownFieldsAll place.1 ⊆ ownFieldsAll place'.1)
    (hwalk : walk ⊆ walk') : ctx.ComesFrom places' walk' use := by
  rcases h with ⟨place, hplace, hnode, hvariables⟩ | ⟨outer, spread, f, hspread, h⟩
  · obtain ⟨place', hplace', hsame, hsubset⟩ := hplaces place hplace
    exact .inl ⟨place', hplace', hsubset hnode, hvariables.trans hsame⟩
  · exact .inr ⟨outer, spread, f, hwalk hspread, h⟩

theorem Walks.comesFrom (h : ctx.Walks followed fragmentVariables selections walk) :
    ∀ use ∈ uses walk, ctx.ComesFrom [(selections, fragmentVariables)] walk use := by
  have hplace {more less : List Selection} {v : Option FragmentVariables}
      (hsubset : ownFieldsAll less ⊆ ownFieldsAll more) :
      ∀ place ∈ [(less, v)], ∃ place' ∈ [(more, v)], place.2 = place'.2 ∧
        ownFieldsAll place.1 ⊆ ownFieldsAll place'.1 := by
    simpa using hsubset
  induction h with
  | nil => simp [uses]
  | pass _ _ ih =>
    exact fun use huse => (ih use huse).mono (hplace (List.subset_append_right _ _))
      (List.Subset.refl _)
  | field _ _ ih =>
    rw [Encounter.uses_field, List.forall_mem_cons]
    refine ⟨.inl ⟨_, List.mem_singleton_self _, List.mem_cons_self, rfl⟩, fun use huse => ?_⟩
    exact (ih use huse).mono (hplace (List.subset_append_right _ _)) (List.subset_cons_self _ _)
  | inline _ _ _ ihInner ih =>
    rw [Encounter.uses_append, Encounter.uses_inline, List.forall_mem_append]
    refine ⟨fun use huse => ?_, fun use huse => ?_⟩
    · exact (ihInner use huse).mono (hplace (List.subset_append_left _ _))
        (List.subset_cons_of_subset _ (List.subset_append_left _ _))
    · exact (ih use huse).mono (hplace (List.subset_append_right _ _))
        (List.subset_append_right _ _)
  | @spread _ outer _ spread f _ inner after _ _ hf _ _ ihInner ih =>
    rw [Encounter.uses_append, Encounter.uses_spread, List.forall_mem_append]
    refine ⟨fun use huse => ?_, fun use huse => ?_⟩
    · -- What was selected in the fragment itself was met through this spread.
      rcases ihInner use huse with ⟨place, hplace, hnode, hvariables⟩ | ⟨outer', spread', f', hmem, h⟩
      · obtain rfl := List.mem_singleton.mp hplace
        exact .inr ⟨outer, spread, f, by simp, hf, hnode, hvariables⟩
      · exact .inr ⟨outer', spread', f', by simp [hmem], h⟩
    · exact (ih use huse).mono (hplace (List.subset_append_right _ _))
        (List.subset_append_right _ _)

theorem WalksThrough.comesFrom (h : ctx.WalksThrough followed places walk) :
    ∀ use ∈ uses walk, ctx.ComesFrom places walk use := by
  induction h with
  | nil => simp [uses]
  | @cons _ selections fragmentVariables places _ _ h _ ih =>
    rw [Encounter.uses_append, List.forall_mem_append]
    refine ⟨fun use huse => ?_, fun use huse => ?_⟩
    · refine (h.comesFrom use huse).mono (fun place hplace => ?_) (List.subset_append_left _ _)
      obtain rfl := List.mem_singleton.mp hplace
      exact ⟨_, List.mem_cons_self, rfl, List.Subset.refl _⟩
    · exact (ih use huse).mono
        (fun place hplace => ⟨place, List.mem_cons_of_mem _ hplace, rfl, List.Subset.refl _⟩)
        (List.subset_append_right _ _)

/-! ## No field is met twice -/

/-- The fields in the fragment called `name`, if it applies to the object. -/
def fieldsIn (ctx : CollectionContext σ) (name : String) : List FieldNode :=
  ((ctx.fragment? name).map fun f => ownFieldsAll f.selections).getD []

theorem Walks.nodup_names (h : ctx.Walks followed fragmentVariables selections walk)
    (hfollowed : followed.Nodup) : (followed ++ names walk).Nodup := by
  induction h with
  | nil => simpa [names] using hfollowed
  | pass _ _ ih | field _ _ ih => exact ih hfollowed
  | inline _ _ _ ihInner ih => simpa using ih (ihInner hfollowed)
  | spread _ hfirst _ _ _ ihInner ih =>
    have hinner := ihInner (List.concat_eq_append ▸ hfollowed.concat hfirst)
    simpa using ih (by simpa using hinner)

theorem WalksThrough.nodup_names (h : ctx.WalksThrough followed places walk)
    (hfollowed : followed.Nodup) : (followed ++ names walk).Nodup := by
  induction h with
  | nil => simpa [names] using hfollowed
  | cons h _ ih => simpa using ih (h.nodup_names hfollowed)

theorem append_append_perm {α : Type} (a b c d : List α) :
    ((a ++ b) ++ (c ++ d)).Perm ((a ++ c) ++ (b ++ d)) := by
  simp only [List.append_assoc]
  exact (List.perm_append_comm_assoc b c d).append_left a

theorem Walks.nodes_subperm (h : ctx.Walks followed fragmentVariables selections walk) :
    ((uses walk).map (·.node)).Subperm
      (ownFieldsAll selections ++ (names walk).flatMap ctx.fieldsIn) := by
  induction h with
  | nil => exact List.nil_subperm
  | pass _ _ ih =>
    rw [ownFieldsAll, List.append_assoc]
    exact ih.trans (List.sublist_append_right _ _).subperm
  | field _ _ ih => exact (List.subperm_cons _).mpr ih
  | inline _ _ _ ihInner ih =>
    rw [Encounter.uses_append, List.map_append, Encounter.names_append, List.flatMap_append]
    exact (ihInner.append ih).trans (append_append_perm _ _ _ _).subperm
  | @spread _ _ _ spread f rest inner _ _ _ hf _ _ ihInner ih =>
    rw [Encounter.uses_append, List.map_append, Encounter.names_append, List.flatMap_append,
      Encounter.names_spread, List.flatMap_cons, fieldsIn, hf]
    exact (ihInner.append ih).trans (List.perm_append_comm_assoc _ _ _).subperm

theorem WalksThrough.nodes_subperm (h : ctx.WalksThrough followed places walk) :
    ((uses walk).map (·.node)).Subperm
      (places.flatMap (ownFieldsAll ·.1) ++ (names walk).flatMap ctx.fieldsIn) := by
  induction h with
  | nil => exact List.nil_subperm
  | cons h _ ih =>
    rw [Encounter.uses_append, List.map_append, Encounter.names_append, List.flatMap_append,
      List.flatMap_cons]
    exact (h.nodes_subperm.append ih).trans (append_append_perm _ _ _ _).subperm

theorem flatMap_fieldsIn (followed : List String) : followed.flatMap ctx.fieldsIn =
    (followed.filterMap ctx.fragment?).flatMap (ownFieldsAll ·.selections) := by
  induction followed with
  | nil => rfl
  | cons name followed ih =>
    rw [List.flatMap_cons, List.filterMap_cons, ih, fieldsIn]
    cases ctx.fragment? name <;> rfl

theorem fieldsIn_subperm {followed : List String} (h : followed.Nodup) :
    (followed.flatMap ctx.fieldsIn).Subperm (ctx.fragments.flatMap (ownFieldsAll ·.selections)) := by
  have hname {name : String} {f : Fragment} (hf : ctx.fragment? name = some f) :
      f ∈ ctx.fragments ∧ f.name.item = name :=
    have hfound := (Option.filter_eq_some_iff.mp hf).1
    ⟨mem_of_findFragment hfound, name_of_findFragment hfound⟩
  have hnodup : (followed.filterMap ctx.fragment?).Nodup :=
    h.filterMap fun _ _ _ hf hf' => (hname hf).2.symm.trans (hname hf').2
  have hsubset : followed.filterMap ctx.fragment? ⊆ ctx.fragments := by
    intro f hf
    obtain ⟨name, -, hf⟩ := List.mem_filterMap.mp hf
    exact (hname hf).1
  obtain ⟨l, hperm, hsublist⟩ := List.subperm_of_subset hnodup hsubset
  rw [flatMap_fieldsIn]
  exact ⟨_, hperm.flatMap_right _, List.Sublist.flatMap hsublist _⟩

/-! ## Collecting follows the walk -/

/-- Whether fragments that apply are visited when their spreads were followed. -/
def Agrees (ctx : CollectionContext σ) (followed visited : List String) : Prop :=
  ∀ name f, ctx.fragment? name = some f → (name ∈ visited ↔ name ∈ followed)

theorem collectSelection_unknown {span : Span} {spread : Spread}
    (hf : ctx.fragment? spread.name.item = none) (enter : FragmentEntry) (s : Collecting)
    (hagrees : ctx.Agrees followed s.visited) :
    ∃ visited, ctx.Agrees followed visited ∧
      ctx.collectSelection enter fragmentVariables (.spread span spread) s = some ⟨visited, s.found⟩ := by
  by_cases hskips : ctx.Skips fragmentVariables s (.spread span spread)
  · exact ⟨s.visited, hagrees, collectSelection_skips hskips⟩
  · have hspreads : ctx.Spreads fragmentVariables s spread none :=
      ⟨by simpa using mt Skips.spread hskips, mt Skips.again hskips, hf.symm⟩
    rw [collectSelection, collectSpread_spreads hspreads]
    simp only [Option.elim_none, entering]
    split
    · refine ⟨_, fun name f hname => ?_, rfl⟩
      have hother : name ≠ spread.name.item := by
        rintro rfl
        simp [hf] at hname
      rw [List.mem_cons, or_iff_right hother, hagrees name f hname]
    · exact ⟨_, hagrees, rfl⟩

theorem Passes.collectSelection_eq {selection : Selection}
    (h : ctx.Passes followed fragmentVariables selection) (enter : FragmentEntry) (s : Collecting)
    (hagrees : ctx.Agrees followed s.visited) :
    ∃ visited, ctx.Agrees followed visited ∧
      ctx.collectSelection enter fragmentVariables selection s = some ⟨visited, s.found⟩ := by
  have hskips (h : ctx.Skips fragmentVariables s selection) : ∃ visited, ctx.Agrees followed visited ∧
      ctx.collectSelection enter fragmentVariables selection s = some ⟨visited, s.found⟩ :=
    ⟨s.visited, hagrees, collectSelection_skips h⟩
  cases h with
  | field h => exact hskips (.field h)
  | inline h => exact hskips (.excluded h)
  | otherType ht h => exact hskips (.otherType ht h)
  | spread h => exact hskips (.spread h)
  | @again _ spread h =>
    cases hf : ctx.fragment? spread.name.item with
    | none => exact collectSelection_unknown hf enter s hagrees
    | some f => exact hskips (.again ((hagrees _ f hf).mpr h))
  | unknown hf => exact collectSelection_unknown hf enter s hagrees

/-- Adds fields one after the other. -/
def addAll (found : Collected) (met : List FieldUse) : Collected := met.foldl Collected.add found

theorem addAll_append (found : Collected) (met more : List FieldUse) :
    addAll found (met ++ more) = addAll (addAll found met) more :=
  List.foldl_append

theorem Agrees.concat {visited : List String} (h : ctx.Agrees followed visited) (name : String) :
    ctx.Agrees (followed ++ [name]) (name :: visited) := by
  intro other f hf
  rw [List.mem_cons, List.mem_append, List.mem_singleton, h other f hf, or_comm]

/-- Collecting finds the fields of the walk, when as many fragments may be entered inside one another
as were not followed yet. -/
theorem Walks.collectAll_eq (h : ctx.Walks followed fragmentVariables selections walk)
    (hprompt : ctx.DefersNothing walk) {depth : Nat} (hdepth : ctx.unvisited followed ≤ depth)
    {visited : List String} (found : Collected) (hagrees : ctx.Agrees followed visited) :
    ∃ visited', ctx.Agrees (followed ++ names walk) visited' ∧
      ctx.collectAll (ctx.collectWithin depth) fragmentVariables selections ⟨visited, found⟩ =
        some ⟨visited', addAll found (uses walk)⟩ := by
  -- On the way, what was visited agrees with what was followed, and no more fragments are left to follow
  -- than may be entered.
  induction h generalizing depth visited found with
  | nil => exact ⟨visited, by simpa [names] using hagrees, rfl⟩
  | pass hpass _ ih =>
    obtain ⟨visited₁, hagrees₁, hselection⟩ :=
      hpass.collectSelection_eq (ctx.collectWithin depth) ⟨visited, found⟩ hagrees
    obtain ⟨visited', hafter, hrest⟩ := ih hprompt hdepth found hagrees₁
    exact ⟨visited', hafter, by rw [collectAll, hselection, Option.bind_some, hrest]⟩
  | @field _ fragmentVariables span head selections _ _ h _ ih =>
    obtain ⟨visited', hafter, hrest⟩ := ih (List.forall_mem_cons.mp hprompt).2 hdepth
      (found.add ⟨⟨head, span, selections⟩, fragmentVariables⟩) hagrees
    refine ⟨visited', hafter, ?_⟩
    simp only [collectAll, collectSelection, h, Bool.false_eq_true, ↓reduceIte, Option.bind_some, hrest]
    rfl
  | inline h _ _ ihInner ih =>
    obtain ⟨hlabel, hprompt⟩ := List.forall_mem_cons.mp hprompt
    obtain ⟨hpromptInner, hpromptRest⟩ := List.forall_mem_append.mp hprompt
    obtain ⟨visited₁, hagrees₁, hinner⟩ := ihInner hpromptInner hdepth found hagrees
    obtain ⟨visited', hafter, hrest⟩ :=
      ih hpromptRest (Nat.le_trans (unvisited_append_le _ _) hdepth) _ hagrees₁
    refine ⟨visited', by simpa using hafter, ?_⟩
    rw [labelAt?] at hlabel
    rw [collectAll, collectSelection_opens h, hlabel, deferring, hinner, Option.bind_some, hrest,
      Encounter.uses_append, Encounter.uses_inline, addAll_append]
  | @spread followed fragmentVariables _ spread f _ inner _ h hfirst hf _ _ ihInner ih =>
    obtain ⟨hlabel, hprompt⟩ := List.forall_mem_cons.mp hprompt
    obtain ⟨hpromptInner, hpromptRest⟩ := List.forall_mem_append.mp hprompt
    have hfewer := Nat.lt_of_lt_of_le (unvisited_concat_lt hf hfirst) hdepth
    obtain ⟨depth, rfl⟩ := Nat.exists_eq_succ_of_ne_zero (Nat.ne_zero_of_lt hfewer)
    obtain ⟨visited₁, hagrees₁, hinner⟩ :=
      ihInner hpromptInner (Nat.lt_succ_iff.mp hfewer) found (hagrees.concat _)
    obtain ⟨visited', hafter, hrest⟩ := ih hpromptRest
      (Nat.le_trans (unvisited_append_le _ _) hdepth) (addAll found (uses inner))
      (by simpa using hagrees₁)
    refine ⟨visited', by simpa using hafter, ?_⟩
    have hspreads : ctx.Spreads fragmentVariables ⟨visited, found⟩ spread (some f) :=
      ⟨h, fun hvisited => hfirst ((hagrees _ f hf).mp hvisited), hf.symm⟩
    rw [labelAt?] at hlabel
    rw [collectAll, collectSelection, collectSpread_spreads hspreads, hlabel]
    have hentered : ctx.collectWithin (depth + 1) f.selections
        (ctx.variablesIn fragmentVariables f spread)
        (entering none spread.name.item ⟨visited, found⟩) = _ := hinner
    simp only [Option.elim_some, deferring, hentered, Option.bind_some, hrest, Encounter.uses_append,
      Encounter.uses_spread, addAll_append]

theorem WalksThrough.foldlM_eq (h : ctx.WalksThrough followed places walk)
    (hprompt : ctx.DefersNothing walk) {depth : Nat} (hdepth : ctx.unvisited followed < depth)
    {visited : List String} (found : Collected) (hagrees : ctx.Agrees followed visited) :
    ∃ visited', places.foldlM (fun s place => ctx.collectWithin depth place.1 place.2 s)
      ⟨visited, found⟩ = some ⟨visited', addAll found (uses walk)⟩ := by
  induction h generalizing visited found with
  | nil => exact ⟨visited, rfl⟩
  | cons h _ ih =>
    obtain ⟨hpromptFirst, hpromptRest⟩ := List.forall_mem_append.mp hprompt
    obtain ⟨depth, rfl⟩ := Nat.exists_eq_succ_of_ne_zero (Nat.ne_zero_of_lt hdepth)
    obtain ⟨visited₁, hagrees₁, hfirst⟩ :=
      h.collectAll_eq hpromptFirst (Nat.lt_succ_iff.mp hdepth) found hagrees
    obtain ⟨visited', hrest⟩ := ih hpromptRest
      (Nat.lt_of_le_of_lt (unvisited_append_le _ _) hdepth) _ hagrees₁
    refine ⟨visited', ?_⟩
    rw [List.foldlM_cons, collectWithin, hfirst, Option.bind_eq_bind, Option.bind_some, hrest,
      Encounter.uses_append, addAll_append]

end CollectionContext

/-! ## Groups of a walk -/

/-- The groups of fields by their response keys. Keys stand where they stand first, and a group has
its fields in order. -/
def FieldGroups.ofWalk (met : List FieldUse) : FieldGroups :=
  (met.map (·.node.responseKey)).eraseDups.map fun key =>
    (key, met.filter (·.node.responseKey = key))

namespace FieldGroups

theorem add_map {keys : List String} (hkeys : keys.Nodup) (group : String → List FieldUse)
    (key : String) (use : FieldUse) :
    FieldGroups.add key use (keys.map fun k => (k, group k)) =
      if key ∈ keys then keys.map fun k => (k, if k = key then group k ++ [use] else group k)
      else (keys.map fun k => (k, group k)) ++ [(key, [use])] := by
  induction keys with
  | nil => rfl
  | cons k keys ih =>
    obtain ⟨hk, hkeys⟩ := List.nodup_cons.mp hkeys
    rw [List.map_cons, FieldGroups.add]
    split
    · next heq =>
      subst heq
      have hothers : keys.map (fun k' => (k', if k' = k then group k' ++ [use] else group k')) =
          keys.map fun k' => (k', group k') :=
        List.map_congr_left fun k' hk' => by
          rw [if_neg (ne_of_mem_of_not_mem hk' hk)]
      rw [if_pos List.mem_cons_self, List.map_cons, if_pos rfl, hothers]
    · next hne =>
      rw [ih hkeys]
      by_cases hmem : key ∈ keys <;> simp [hmem, hne, Ne.symm hne]

theorem nodup_eraseDups (keys : List String) : keys.eraseDups.Nodup := by
  have hkeys := Entries.nodup_keys_ofList (keys.map fun key => (key, ()))
  rw [Entries.map_fst_ofList, List.map_map] at hkeys
  simpa [Function.comp_def] using hkeys

theorem eraseDups_concat (keys : List String) (key : String) : (keys ++ [key]).eraseDups =
    if key ∈ keys then keys.eraseDups else keys.eraseDups ++ [key] := by
  rw [List.eraseDups_append, List.removeAll, List.filter_singleton]
  by_cases hmem : key ∈ keys
  · simp [hmem]
  · simp [hmem, List.eraseDups_cons]

theorem ofWalk_concat (met : List FieldUse) (use : FieldUse) :
    ofWalk (met ++ [use]) = FieldGroups.add use.node.responseKey use (ofWalk met) := by
  have hgroup (key : String) : (met ++ [use]).filter (·.node.responseKey = key) =
      if key = use.node.responseKey then met.filter (·.node.responseKey = key) ++ [use]
      else met.filter (·.node.responseKey = key) := by
    rw [List.filter_append, List.filter_singleton]
    split <;> simp_all [eq_comm]
  rw [ofWalk, ofWalk, add_map (nodup_eraseDups _), List.map_append, List.map_singleton,
    eraseDups_concat]
  simp only [List.mem_eraseDups]
  split
  · exact List.map_congr_left fun key _ => by rw [hgroup]
  · next hnew =>
    have hnone : met.filter (·.node.responseKey = use.node.responseKey) = [] := by
      simpa [List.filter_eq_nil_iff] using hnew
    rw [List.map_append, List.map_singleton, hgroup, if_pos rfl, hnone]
    refine congrArg (· ++ _) (List.map_congr_left fun key hkey => ?_)
    rw [hgroup, if_neg]
    rintro rfl
    exact hnew (List.mem_eraseDups.mp hkey)

theorem add_perm (key : String) (use : FieldUse) (groups : FieldGroups) :
    ((groups.add key use).flatMap Prod.snd).Perm (groups.flatMap Prod.snd ++ [use]) := by
  induction groups with
  | nil => rfl
  | cons group groups ih =>
    rw [FieldGroups.add]
    split
    · simpa using (List.perm_append_singleton use _).symm.append_left group.2
    · simpa using ih.append_left group.2

theorem ofWalk_perm (met : List FieldUse) : ((ofWalk met).flatMap Prod.snd).Perm met := by
  induction met using List.reverseRecOn with
  | nil => rfl
  | append_singleton met use ih =>
    rw [ofWalk_concat]
    exact (add_perm _ _ _).trans (ih.append_right _)

end FieldGroups

namespace CollectionContext

variable {ctx : CollectionContext σ}

theorem addAll_empty (met : List FieldUse) : addAll .empty met = ⟨FieldGroups.ofWalk met, []⟩ := by
  induction met using List.reverseRecOn with
  | nil => rfl
  | append_singleton met use ih =>
    rw [addAll_append, ih, FieldGroups.ofWalk_concat]
    rfl

end CollectionContext

namespace CollectionContext

variable {ctx : CollectionContext σ} {places : List (List Selection × Option FragmentVariables)}
  {walk : List Encounter}

theorem unvisited_nil (ctx : CollectionContext σ) : ctx.unvisited [] = ctx.fragments.length := by
  simp [unvisited]

theorem WalksThrough.foldlM_start (h : ctx.WalksThrough [] places walk)
    (hprompt : ctx.DefersNothing walk) {depth : Nat} (hdepth : ctx.fragments.length < depth) :
    (places.foldlM (fun s place => ctx.collectWithin depth place.1 place.2 s)
      Collecting.start).map (·.found) = some ⟨FieldGroups.ofWalk (uses walk), []⟩ := by
  obtain ⟨visited, hfound⟩ := h.foldlM_eq hprompt (ctx.unvisited_nil ▸ hdepth) .empty
    (fun _ _ _ => Iff.rfl)
  rw [Collecting.start, hfound, Option.map_some, addAll_empty]

theorem collectFields_places (depth : Nat) (selections : List Selection) :
    ctx.collectFields depth selections =
      ([(selections, none)].foldlM (fun s place => ctx.collectWithin depth place.1 place.2 s)
        Collecting.start).map (·.found) := by
  simp [collectFields]

theorem collectSubfields_places (depth : Nat) (uses : List FieldUse) :
    ctx.collectSubfields depth uses =
      ((uses.map fun use => (use.node.selections, use.fragmentVariables)).foldlM
        (fun s place => ctx.collectWithin depth place.1 place.2 s) Collecting.start).map (·.found) := by
  rw [collectSubfields, List.foldlM_map]

end CollectionContext

open CollectionContext in
/-- From some places goes one walk. Each field that it meets has the variables of the fragment in
which it is selected, and no field of the document is met twice. Where no `@defer` is active on the
walk, collecting finds no deferred fragment and, for each response key, the fields of the walk with
that key. -/
theorem collecting_groups_walk (ctx : CollectionContext σ)
    (places : List (List Selection × Option FragmentVariables)) :
    ∃ walk, ctx.WalksThrough [] places walk ∧
      (∀ other, ctx.WalksThrough [] places other → other = walk) ∧
      (∀ use ∈ uses walk, ctx.ComesFrom places walk use) ∧
      (ctx.DefersNothing walk → ∃ collected : Collected,
        (∀ depth, ctx.fragments.length < depth →
          (∀ selections, places = [(selections, none)] →
            ctx.collectFields depth selections = some collected) ∧
          ∀ uses, places = uses.map (fun use => (use.node.selections, use.fragmentVariables)) →
            ctx.collectSubfields depth uses = some collected) ∧
        collected.deferred = [] ∧
        collected.groups = ((uses walk).map (·.node.responseKey)).eraseDups.map (fun key =>
          (key, (uses walk).filter (·.node.responseKey = key))) ∧
        (collected.groups.map Prod.fst).Nodup ∧
        (collected.groups.flatMap Prod.snd).Perm (uses walk) ∧
        ((collected.groups.flatMap Prod.snd).map (·.node)).Subperm
          (places.flatMap (ownFieldsAll ·.1) ++ ctx.fragments.flatMap (ownFieldsAll ·.selections))) := by
  obtain ⟨walk, hwalk⟩ : ∃ walk, ctx.WalksThrough [] places walk := exists_walksThrough _ _
  refine ⟨walk, hwalk, hwalk.unique, hwalk.comesFrom, fun hprompt => ?_⟩
  have hperm := FieldGroups.ofWalk_perm (uses walk)
  refine ⟨⟨FieldGroups.ofWalk (uses walk), []⟩, fun depth hdepth => ⟨?_, ?_⟩, rfl, rfl, ?_, hperm, ?_⟩
  · rintro selections rfl
    rw [collectFields_places, hwalk.foldlM_start hprompt hdepth]
  · rintro uses rfl
    rw [collectSubfields_places, hwalk.foldlM_start hprompt hdepth]
  · rw [FieldGroups.ofWalk, List.map_map]
    simpa [Function.comp_def] using FieldGroups.nodup_eraseDups _
  · have hfollowed : ((names walk).flatMap ctx.fieldsIn).Subperm _ :=
      fieldsIn_subperm (hwalk.nodup_names .nil)
    exact (hperm.map _).subperm.trans (hwalk.nodes_subperm.trans (.append (.refl _) hfollowed))

/-! ## A walk through two fragments -/

/-- `Named` is `{ name ...Counted }`, and `Counted` is `($n: Int = 3) { numbers ...Named }`. -/
def sampleTour : List Fragment := [
  sampleFragment "Named" [sampleField "name" [], sampleSpread "Counted"],
  { sampleFragment "Counted" [sampleField "numbers" [], sampleSpread "Named"] with
    variableDefinitions := some (sampleText
      [⟨sampleText "n", sampleText (.named "Int"), some (sampleText (.int 3)), []⟩]) }]

/-- `{ numbers ...Named name ...Counted ...Unknown }` -/
def sampleStops : List Selection := [sampleField "numbers" [], sampleSpread "Named",
  sampleField "name" [], sampleSpread "Counted", sampleSpread "Unknown"]

/-- The use of a field inside of `Counted`. -/
def sampleCounted (name : String) : FieldUse :=
  { sampleUse name with fragmentVariables := some ⟨["n"], [("n", .int 3)]⟩ }

def sampleWalk : List Encounter := [.field (sampleUse "numbers"),
  .spread none ⟨sampleText "Named", none, []⟩, .field (sampleUse "name"),
  .spread none ⟨sampleText "Counted", none, []⟩, .field (sampleCounted "numbers"),
  .field (sampleUse "name")]

theorem sampleWalk_through :
    (sampleCollection sampleTour).WalksThrough [] [(sampleStops, none)] sampleWalk := by
  have hwalk : (sampleCollection sampleTour).WalksThrough [] [(sampleStops, none)] _ :=
    .cons (.field rfl <|
      .spread rfl (by decide) rfl
        (.field rfl <| .spread rfl (by decide) rfl
          (.field rfl <| .pass (.again (by decide)) .nil) .nil) <|
      .field rfl <| .pass (.again (by decide)) <| .pass (.unknown rfl) .nil) .nil
  exact hwalk

theorem collecting_groups_walk_sampleStops :
    (sampleCollection sampleTour).DefersNothing sampleWalk ∧
      ∃ collected, (sampleCollection sampleTour).collectFields 3 sampleStops = some collected ∧
        collected.deferred = [] ∧
        collected.groups = [("numbers", [sampleUse "numbers", sampleCounted "numbers"]),
          ("name", [sampleUse "name", sampleUse "name"])] := by
  obtain ⟨walk, -, honly, -, hcollected⟩ :=
    collecting_groups_walk (sampleCollection sampleTour) [(sampleStops, none)]
  obtain rfl := honly _ sampleWalk_through
  have hprompt : (sampleCollection sampleTour).DefersNothing sampleWalk := by
    simp only [sampleWalk, CollectionContext.DefersNothing, List.forall_mem_cons]
    exact ⟨rfl, rfl, rfl, rfl, rfl, rfl, by simp⟩
  obtain ⟨collected, hdepth, hdeferred, hgroups, -⟩ := hcollected hprompt
  exact ⟨hprompt, collected, (hdepth 3 (by decide)).1 _ rfl, hdeferred, hgroups.trans rfl⟩

end GraphQL
