import GraphQL.Proofs.Execution.Collection.Termination

/-! # What is delivered right away

The fields that are not deferred are the same when everything that is deferred is deleted, unless a
fragment is spread in a deferred one first and outside of it only later. Then it is not entered again where
it is not deferred.
-/

namespace GraphQL

variable {σ : Type}

/-! ## Marks -/

/-- A spread after which a fragment is not entered again, and whether it is inside of a deferred
fragment. -/
structure Mark where
  name : String
  later : Bool
deriving DecidableEq

/-- Whether no fragment that is spread outside of deferred ones is spread inside of one before. -/
def Mark.PromptFirst (marks : List Mark) : Prop :=
  ∀ mark ∈ marks, mark.later = false → marks.find? (·.name = mark.name) = some mark

instance (marks : List Mark) : Decidable (Mark.PromptFirst marks) := List.decidableBAll _ marks

theorem Mark.PromptFirst.mem_before {before marks after : List Mark} {name : String}
    (h : PromptFirst (before ++ marks ++ after)) (hlater : ∀ mark ∈ marks, mark.later = true)
    (hmark : ⟨name, true⟩ ∈ marks) (hafter : ⟨name, false⟩ ∈ after) : ⟨name, false⟩ ∈ before := by
  have hfirst := h ⟨name, false⟩ (List.mem_append_right _ hafter) rfl
  rw [List.append_assoc, List.find?_append, List.find?_append] at hfirst
  cases hbefore : before.find? (·.name = name) with
  | some mark =>
    rw [hbefore, Option.some_or] at hfirst
    exact Option.some.inj hfirst ▸ List.mem_of_find?_eq_some hbefore
  | none =>
    cases hmarks : marks.find? (·.name = name) with
    | some mark =>
      rw [hbefore, hmarks, Option.none_or, Option.some_or] at hfirst
      have hnow := hlater mark (List.mem_of_find?_eq_some hmarks)
      rw [Option.some.inj hfirst] at hnow
      cases hnow
    | none => simpa using List.find?_eq_none.mp hmarks _ hmark

namespace CollectionContext

variable (ctx : CollectionContext σ)

/-- Whether a fragment spreads another one, not inside of a field. -/
def SpreadsIn (name other : String) : Prop :=
  ∃ f, ctx.fragment? name = some f ∧ ∃ spread ∈ Selection.ownSpreadsAll f.selections, spread.name.item = other

section

variable (enter : Bool → List Selection → List Mark)

mutual

/-- The marks in a selection, with those that `enter` finds in fragments. `later` tells whether the selection
is deferred. -/
def marksOf (later : Bool) : Selection → List Mark
  | .field _ _ _ => []
  | .inline _ head selections =>
    if ctx.isExcluded none head.directives
      || head.typeCondition.any fun t => !ctx.schema.conditionApplies t.item ctx.object then []
    else marksOfAll (later || (ctx.deferLabel? none head.directives).isSome) selections
  | .spread _ s =>
    if ctx.isExcluded none s.directives then []
    else
      let label := ctx.deferLabel? none s.directives
      (if label.isNone then [⟨s.name.item, later⟩] else []) ++
        match ctx.fragment? s.name.item with
        | none => []
        | some f => enter (later || label.isSome) f.selections

def marksOfAll (later : Bool) : List Selection → List Mark
  | [] => []
  | selection :: rest => marksOf later selection ++ marksOfAll later rest

end

end

/-- The marks in selections, and in fragments inside one another less deep than `depth`. -/
def marksWithin : Nat → Bool → List Selection → List Mark
  | 0, _, _ => []
  | depth + 1, later, selections => ctx.marksOfAll (marksWithin depth) later selections

/-- The marks in selections. Where no fragment is inside of itself, fragments are inside of one another less
deep than there are fragments. -/
def marks : Bool → List Selection → List Mark := ctx.marksWithin (ctx.fragments.length + 2)

/-! ## Selections without what is deferred -/

section

variable (below : List Selection → List Selection)

mutual

/-- What is left of a selection without the spreads and inline fragments that are deferred. The selections
inside of fields become what `below` makes of them. -/
def prompt : Selection → List Selection
  | .field span head selections => [.field span head (below selections)]
  | .inline span head selections =>
    if (ctx.deferLabel? none head.directives).isSome then [] else [.inline span head (promptAll selections)]
  | .spread span s => if (ctx.deferLabel? none s.directives).isSome then [] else [.spread span s]

def promptAll : List Selection → List Selection
  | [] => []
  | selection :: rest => prompt selection ++ promptAll rest

end

def promptFragment (f : Fragment) : Fragment := { f with selections := ctx.promptAll below f.selections }

/-- The same context with nothing deferred in fragments. -/
def prompted : CollectionContext σ := { ctx with fragments := ctx.fragments.map (ctx.promptFragment below) }

end

end CollectionContext

/-- The same use with other selections below it. -/
def FieldUse.mapBelow (below : List Selection → List Selection) (use : FieldUse) : FieldUse :=
  { use with node := { use.node with selections := below use.node.selections } }

def FieldGroups.mapBelow (below : List Selection → List Selection) (groups : FieldGroups) : FieldGroups :=
  groups.map fun group => (group.1, group.2.map (FieldUse.mapBelow below))

theorem FieldGroups.mapBelow_add (below : List Selection → List Selection) (key : String) (use : FieldUse)
    (groups : FieldGroups) :
    FieldGroups.mapBelow below (groups.add key use) =
      (FieldGroups.mapBelow below groups).add key (use.mapBelow below) := by
  induction groups with
  | nil => rfl
  | cons group groups ih =>
    obtain ⟨k, uses⟩ := group
    simp only [FieldGroups.mapBelow, FieldGroups.add, List.map_cons] at ih ⊢
    split
    · rw [List.map_cons, List.map_append, List.map_singleton]
    · rw [List.map_cons, ih]

theorem FieldGroups.mapBelow_id (groups : FieldGroups) : FieldGroups.mapBelow id groups = groups := by
  have huse : FieldUse.mapBelow id = id := rfl
  simp [FieldGroups.mapBelow, huse]

namespace CollectionContext

variable {ctx : CollectionContext σ} {below : List Selection → List Selection} {rank : String → Nat}

/-! ## Marks in fragments -/

/-- Whether fragments spread only others of lower rank. -/
structure Layers (ctx : CollectionContext σ) (rank : String → Nat) : Prop where
  falls : ∀ name other, ctx.SpreadsIn name other → rank other < rank name
  bounded : ∀ name, rank name ≤ ctx.fragments.length

/-- Whether selections spread only fragments of rank below `k`. -/
def Below (rank : String → Nat) (k : Nat) (selections : List Selection) : Prop :=
  ∀ spread ∈ Selection.ownSpreadsAll selections, rank spread.name.item < k

theorem exists_layers (hacyclic : ∀ name, ¬ Relation.TransGen ctx.SpreadsIn name name) :
    ∃ rank, ctx.Layers rank := by
  classical
  obtain ⟨rank, hbound, hrank⟩ := exists_fragmentRank ctx.fragments hacyclic
  refine ⟨fun name => if (ctx.fragment? name).isSome then rank name + 1 else 0, ?_, fun name => ?_⟩
  · intro name other hspreads
    obtain ⟨f, hf, _⟩ := id hspreads
    have hname : (ctx.fragment? name).isSome := Option.isSome_of_eq_some hf
    rw [if_pos hname]
    split
    · next hother => exact Nat.succ_lt_succ (hrank name other hspreads (isSome_findFragment hother))
    · exact Nat.succ_pos _
  · split
    · next h => exact hbound name (isSome_findFragment h)
    · exact Nat.zero_le _

theorem marksOfAll_congr {enter enter' : Bool → List Selection → List Mark} (later : Bool)
    {selections : List Selection}
    (h : ∀ spread ∈ Selection.ownSpreadsAll selections, ∀ f, ctx.fragment? spread.name.item = some f →
      ∀ later, enter later f.selections = enter' later f.selections) :
    ctx.marksOfAll enter later selections = ctx.marksOfAll enter' later selections := by
  induction selections using Selection.induct generalizing later with
  | nil => rfl
  | field span head selections rest _ ih =>
    rw [marksOfAll, marksOfAll, ih later h]
    rfl
  | spread span spread rest ih =>
    have hfirst := h spread List.mem_cons_self
    rw [marksOfAll, marksOfAll, ih later fun s hs => h s (List.mem_cons_of_mem _ hs), marksOf, marksOf]
    cases hf : ctx.fragment? spread.name.item with
    | none => rfl
    | some f => simp only [hfirst f hf]
  | inline span head selections rest ihInner ih =>
    rw [marksOfAll, marksOfAll, ih later fun s hs => h s (List.mem_append_right _ hs), marksOf, marksOf,
      ihInner _ fun s hs => h s (List.mem_append_left _ hs)]

theorem Layers.lower (hrank : ctx.Layers rank) {name : String} {f : Fragment}
    (hf : ctx.fragment? name = some f) : Below rank (rank name) f.selections :=
  fun spread hspread => hrank.falls name _ ⟨f, hf, spread, hspread, rfl⟩

theorem marksWithin_eq (hrank : ctx.Layers rank) {k depth depth' : Nat} (later : Bool)
    {selections : List Selection} (hselections : Below rank k selections) (hdepth : k < depth)
    (hdepth' : k < depth') :
    ctx.marksWithin depth later selections = ctx.marksWithin depth' later selections := by
  induction depth generalizing depth' k later selections with
  | zero => exact absurd hdepth (Nat.not_lt_zero _)
  | succ depth ih =>
    obtain ⟨depth', rfl⟩ := Nat.exists_eq_succ_of_ne_zero (Nat.ne_zero_of_lt hdepth')
    refine marksOfAll_congr later fun spread hspread f hf later => ?_
    have hlt := hselections spread hspread
    exact ih later (hrank.lower hf) (by omega) (by omega)

theorem marks_eq (hrank : ctx.Layers rank) (later : Bool) (selections : List Selection) :
    ctx.marks later selections = ctx.marksOfAll ctx.marks later selections := by
  refine marksOfAll_congr later fun spread _ f hf later => ?_
  have hle := hrank.bounded spread.name.item
  exact marksWithin_eq hrank later (hrank.lower hf) (by omega) (by omega)

theorem later_of_mem_marksWithin (depth : Nat) {selections : List Selection} {mark : Mark}
    (h : mark ∈ ctx.marksWithin depth true selections) : mark.later = true := by
  induction depth generalizing selections with
  | zero => cases h
  | succ depth ih =>
    rw [marksWithin] at h
    induction selections using Selection.induct with
    | nil => cases h
    | field span head selections rest _ ihRest => exact ihRest h
    | spread span spread rest ihRest =>
      rw [marksOfAll, marksOf, List.mem_append] at h
      rcases h with h | h
      · split at h
        · cases h
        · rcases List.mem_append.mp h with h | h
          · split at h
            · exact List.mem_singleton.mp h ▸ rfl
            · cases h
          · split at h
            · cases h
            · exact ih h
      · exact ihRest h
    | inline span head selections rest ihInner ihRest =>
      rw [marksOfAll, marksOf, List.mem_append] at h
      rcases h with h | h
      · split at h
        · cases h
        · exact ihInner h
      · exact ihRest h

theorem later_of_mem_marks {selections : List Selection} {mark : Mark}
    (h : mark ∈ ctx.marks true selections) : mark.later = true :=
  later_of_mem_marksWithin _ h

section

variable (hrank : ctx.Layers rank) {later : Bool} {span : Span} {rest : List Selection}

include hrank

theorem marks_field (head : FieldHead) (selections : List Selection) :
    ctx.marks later (.field span head selections :: rest) = ctx.marks later rest := by
  rw [marks_eq hrank, marks_eq hrank, marksOfAll, marksOf, List.nil_append]

theorem marks_skips {s : Collecting} {selection : Selection} (h : ctx.Skips none s selection) :
    (ctx.marks later (selection :: rest) = ctx.marks later rest ∧ ctx.Skips none .start selection) ∨
      ∃ span spread, selection = .spread span spread ∧ spread.name.item ∈ s.visited ∧
        ctx.isExcluded none spread.directives = false := by
  rw [marks_eq hrank, marks_eq hrank _ rest, marksOfAll]
  cases h with
  | field h => exact .inl ⟨rfl, .field h⟩
  | excluded h => exact .inl ⟨by simp [marksOf, h], .excluded h⟩
  | otherType ht h => exact .inl ⟨by simp [marksOf, ht, h], .otherType ht h⟩
  | spread h => exact .inl ⟨by simp [marksOf, h], .spread h⟩
  | @again span spread h =>
    cases hexcluded : ctx.isExcluded none spread.directives with
    | true => exact .inl ⟨by simp [marksOf, hexcluded], .spread hexcluded⟩
    | false => exact .inr ⟨span, spread, rfl, h, hexcluded⟩

theorem marks_inline {head : InlineHead} (h : ctx.Opens none head) (selections : List Selection) :
    ctx.marks later (.inline span head selections :: rest) =
      ctx.marks (later || (ctx.deferLabel? none head.directives).isSome) selections ++ ctx.marks later rest := by
  rw [marks_eq hrank, marks_eq hrank _ selections, marks_eq hrank _ rest, marksOfAll, marksOf,
    h.not_skipped]
  rfl

theorem marks_spread {spread : Spread} (h : ctx.isExcluded none spread.directives = false) :
    ctx.marks later (.spread span spread :: rest) =
      (if (ctx.deferLabel? none spread.directives).isNone then [⟨spread.name.item, later⟩] else []) ++
        ((ctx.fragment? spread.name.item).elim [] fun f =>
          ctx.marks (later || (ctx.deferLabel? none spread.directives).isSome) f.selections) ++
        ctx.marks later rest := by
  rw [marks_eq hrank, marks_eq hrank _ rest, marksOfAll, marksOf, h]
  cases ctx.fragment? spread.name.item <;> rfl

end

/-! ## What is entered in deferred fragments -/

section

variable (hrank : ctx.Layers rank) (hvariables : ∀ f ∈ ctx.fragments, f.variableDefinitions = none)

include hrank hvariables

theorem Collects.entered {selections : List Selection} {s s' : Collecting}
    (h : ctx.Collects none selections s s') {name : String} (hname : name ∈ s'.visited) :
    name ∈ s.visited ∨ ⟨name, true⟩ ∈ ctx.marks true selections := by
  generalize hnone : (none : Option FragmentVariables) = fragmentVariables at h
  induction h with
  | nil => exact .inl hname
  | skip h _ ih =>
    subst hnone
    refine (ih hname rfl).imp_right fun hmark => ?_
    rcases marks_skips hrank h with ⟨heq, -⟩ | ⟨span, spread, rfl, -, hincluded⟩
    · exact heq.symm ▸ hmark
    · exact marks_spread hrank hincluded ▸ List.mem_append_right _ hmark
  | field h _ ih =>
    subst hnone
    rw [marks_field hrank]
    exact ih hname rfl
  | inline h _ _ _ ihInner ih | inlineDeferred h _ _ _ ihInner ih =>
    subst hnone
    rw [marks_inline hrank h, Bool.true_or]
    rcases ih hname rfl with hname | hmark
    · exact (ihInner hname rfl).imp_right (List.mem_append_left _)
    · exact .inr (List.mem_append_right _ hmark)
  | nothing h _ ih =>
    subst hnone
    rw [marks_spread hrank h.included]
    rcases ih hname rfl with hname | hmark
    · unfold entering at hname
      split at hname
      · next hlabel =>
        rcases List.mem_cons.mp hname with rfl | hname
        · exact .inr (List.mem_append_left _ (List.mem_append_left _ (by simp [hlabel])))
        · exact .inl hname
      · exact .inl hname
    · exact .inr (List.mem_append_right _ hmark)
  | spread h hlabel _ _ ihInner ih =>
    subst hnone
    have hf := h.found.symm
    rw [marks_spread hrank h.included, hlabel, fragment?, hf]
    rcases ih hname rfl with hname | hmark
    · rcases ihInner hname (variablesIn_none hvariables hf none _).symm with hname | hmark
      · rcases List.mem_cons.mp hname with rfl | hname
        · exact .inr (by simp)
        · exact .inl hname
      · exact .inr (List.mem_append_left _ (List.mem_append_right _ hmark))
    · exact .inr (List.mem_append_right _ hmark)
  | spreadDeferred h hlabel _ _ ihInner ih =>
    subst hnone
    have hf := h.found.symm
    rw [marks_spread hrank h.included, hlabel, fragment?, hf]
    rcases ih hname rfl with hname | hmark
    · exact (ihInner hname (variablesIn_none hvariables hf none _).symm).imp_right fun hmark =>
        List.mem_append_left _ (List.mem_append_right _ hmark)
    · exact .inr (List.mem_append_right _ hmark)

end

/-! ## Collecting without what is deferred -/

theorem fragment?_prompted (name : String) :
    (ctx.prompted below).fragment? name = (ctx.fragment? name).map (ctx.promptFragment below) := by
  unfold fragment?
  change ((findFragment (ctx.fragments.map (ctx.promptFragment below)) name).filter _) = _
  rw [findFragment_map (f := ctx.promptFragment below) (fun _ => rfl), Option.filter_map]
  rfl

/-- What holds of two runs, with and without what is deferred, between marks that are behind them and marks
that are ahead, in fragments that are not left yet. -/
structure Alike (ctx : CollectionContext σ) (below : List Selection → List Selection)
    (before after : List Mark) (inside : List String) (s s' : Collecting) : Prop where
  groups : s'.found.groups = FieldGroups.mapBelow below s.found.groups
  deferred : s'.found.deferred = []
  visited : s'.visited ⊆ s.visited
  ahead : ∀ name ∈ s.visited, name ∉ s'.visited → ⟨name, false⟩ ∉ after
  behind : ∀ name, ⟨name, false⟩ ∈ before → name ∈ s'.visited
  entered : ∀ name ∈ s'.visited, name ∉ inside → ∀ f, ctx.fragment? name = some f →
    ∀ other, ⟨other, false⟩ ∈ ctx.marks false f.selections → other ∈ s'.visited

namespace Alike

variable {before marks after : List Mark} {inside : List String} {s s₁ s' : Collecting} {name : String}

theorem start : ctx.Alike below [] after inside .start .start where
  groups := rfl
  deferred := rfl
  visited := List.Subset.refl _
  ahead _ h := absurd h List.not_mem_nil
  behind _ h := absurd h List.not_mem_nil
  entered _ h := absurd h List.not_mem_nil

theorem add (h : ctx.Alike below before after inside s s') (use : FieldUse) :
    ctx.Alike below before after inside { s with found := s.found.add use }
      { s' with found := s'.found.add (use.mapBelow below) } where
  groups := by
    have hkey : (use.mapBelow below).node.responseKey = use.node.responseKey := rfl
    rw [Collected.add, Collected.add, h.groups, hkey, FieldGroups.mapBelow_add]
  deferred := h.deferred
  visited := h.visited
  ahead := h.ahead
  behind := h.behind
  entered := h.entered

theorem later (h : ctx.Alike below before (marks ++ after) inside s s')
    (hfirst : Mark.PromptFirst (before ++ marks ++ after)) (hlater : ∀ mark ∈ marks, mark.later = true)
    (hgroups : s₁.found.groups = s.found.groups) (hgrows : s.visited ⊆ s₁.visited)
    (hentered : ∀ name ∈ s₁.visited, name ∈ s.visited ∨ ⟨name, true⟩ ∈ marks) :
    ctx.Alike below (before ++ marks) after inside s₁ s' where
  groups := hgroups ▸ h.groups
  deferred := h.deferred
  visited := List.Subset.trans h.visited hgrows
  ahead name hname hnew hafter := by
    rcases hentered name hname with hname | hmark
    · exact h.ahead name hname hnew (List.mem_append_right _ hafter)
    · exact hnew (h.behind name (hfirst.mem_before hlater hmark hafter))
  behind name hmark := by
    rcases List.mem_append.mp hmark with hmark | hmark
    · exact h.behind name hmark
    · exact absurd (hlater _ hmark) (by simp)
  entered := h.entered

theorem again (h : ctx.Alike below before (⟨name, false⟩ :: marks ++ after) inside s s')
    (hname : name ∈ s.visited) (hinside : name ∉ inside)
    (hmarks : marks = (ctx.fragment? name).elim [] fun f => ctx.marks false f.selections) :
    name ∈ s'.visited ∧ ctx.Alike below (before ++ ⟨name, false⟩ :: marks) after inside s s' := by
  have hvisited : name ∈ s'.visited := by
    by_contra hnew
    exact h.ahead name hname hnew List.mem_cons_self
  refine ⟨hvisited, h.groups, h.deferred, h.visited, ?_, fun other hmark => ?_, h.entered⟩
  · exact fun other hother hnew hafter => h.ahead other hother hnew (List.mem_append_right _ hafter)
  · rcases List.mem_append.mp hmark with hmark | hmark
    · exact h.behind other hmark
    · rcases List.mem_cons.mp hmark with heq | hmark
      · exact (Mark.mk.inj heq).1 ▸ hvisited
      · cases hf : ctx.fragment? name with
        | none => simp [hmarks, hf] at hmark
        | some f => exact h.entered name hvisited hinside f hf other (by simpa [hmarks, hf] using hmark)

theorem enter (h : ctx.Alike below before (⟨name, false⟩ :: after) inside s s') :
    ctx.Alike below (before ++ [⟨name, false⟩]) after (name :: inside)
      { s with visited := name :: s.visited } { s' with visited := name :: s'.visited } where
  groups := h.groups
  deferred := h.deferred
  visited := List.cons_subset_cons name h.visited
  ahead other hother hnew hafter := by
    rw [List.mem_cons, not_or] at hnew
    rw [List.mem_cons] at hother
    exact h.ahead other (hother.resolve_left hnew.1) hnew.2 (List.mem_cons_of_mem _ hafter)
  behind other hmark := by
    rcases List.mem_append.mp hmark with hmark | hmark
    · exact List.mem_cons_of_mem _ (h.behind other hmark)
    · rw [(Mark.mk.inj (List.mem_singleton.mp hmark)).1]
      exact List.mem_cons_self
  entered other hother hnew f hf third hmark := by
    rw [List.mem_cons, not_or] at hnew
    have hbefore := (List.mem_cons.mp hother).resolve_left hnew.1
    exact List.mem_cons_of_mem _ (h.entered other hbefore hnew.2 f hf third hmark)

theorem leave (h : ctx.Alike below before after (name :: inside) s s')
    (hbehind : ∀ f, ctx.fragment? name = some f → ctx.marks false f.selections ⊆ before) :
    ctx.Alike below before after inside s s' where
  groups := h.groups
  deferred := h.deferred
  visited := h.visited
  ahead := h.ahead
  behind := h.behind
  entered other hother hnew f hf third hmark := by
    by_cases heq : other = name
    · exact h.behind third (hbehind f (heq ▸ hf) hmark)
    · exact h.entered other hother (by simp [heq, hnew]) f hf third hmark

end Alike

/-- Whether a run over selections can be followed without what is deferred, from any state that is alike. -/
def Follows (ctx : CollectionContext σ) (below : List Selection → List Selection) (rank : String → Nat)
    (selections : List Selection) (s t : Collecting) : Prop :=
  ∀ before after inside s' k, Below rank k selections → (∀ name ∈ inside, k ≤ rank name) →
    Mark.PromptFirst (before ++ ctx.marks false selections ++ after) →
    ctx.Alike below before (ctx.marks false selections ++ after) inside s s' →
    ∃ t', (ctx.prompted below).Collects none (ctx.promptAll below selections) s' t' ∧
      ctx.Alike below (before ++ ctx.marks false selections) after inside t t'

/-- The same for a first selection, whose marks are `marks`. -/
def FollowsFirst (ctx : CollectionContext σ) (below : List Selection → List Selection) (rank : String → Nat)
    (selection : Selection) (rest : List Selection) (marks : List Mark) (s t : Collecting) : Prop :=
  ∀ before after inside s' k, Below rank k (selection :: rest) → (∀ name ∈ inside, k ≤ rank name) →
    Mark.PromptFirst (before ++ marks ++ after) → ctx.Alike below before (marks ++ after) inside s s' →
    ∃ t', ctx.Alike below (before ++ marks) after inside t t' ∧
      ∀ u', (ctx.prompted below).Collects none (ctx.promptAll below rest) t' u' →
        (ctx.prompted below).Collects none (ctx.promptAll below (selection :: rest)) s' u'

theorem Below.rest {k : Nat} {selection : Selection} {rest : List Selection}
    (h : Below rank k (selection :: rest)) : Below rank k rest :=
  fun spread hspread => h spread (List.mem_append_right _ hspread)

theorem Below.inner {k : Nat} {span : Span} {head : InlineHead} {selections rest : List Selection}
    (h : Below rank k (.inline span head selections :: rest)) : Below rank k selections :=
  fun spread hspread => h spread (List.mem_append_left _ hspread)

theorem Follows.cons {selection : Selection} {rest : List Selection} {marks : List Mark}
    {s s₁ t : Collecting}
    (hmarks : ctx.marks false (selection :: rest) = marks ++ ctx.marks false rest)
    (hfirst : ctx.FollowsFirst below rank selection rest marks s s₁)
    (hrest : ctx.Follows below rank rest s₁ t) : ctx.Follows below rank (selection :: rest) s t := by
  intro before after inside s' k hselections hinside hprompt halike
  rw [hmarks] at hprompt halike ⊢
  obtain ⟨s₁', halike₁, hcollects⟩ := hfirst before (ctx.marks false rest ++ after) inside s' k hselections
    hinside (by simpa only [List.append_assoc] using hprompt)
    (by simpa only [List.append_assoc] using halike)
  obtain ⟨t', hcollects', halike'⟩ := hrest (before ++ marks) after inside s₁' k hselections.rest hinside
    (by simpa only [List.append_assoc] using hprompt) halike₁
  exact ⟨t', hcollects t' hcollects', by simpa only [List.append_assoc] using halike'⟩

theorem followsFirst_later {selection : Selection} {rest : List Selection} {marks : List Mark}
    {s s₁ : Collecting} (hprompt : ctx.prompt below selection = [])
    (hlater : ∀ mark ∈ marks, mark.later = true) (hgroups : s₁.found.groups = s.found.groups)
    (hgrows : s.visited ⊆ s₁.visited)
    (hentered : ∀ name ∈ s₁.visited, name ∈ s.visited ∨ ⟨name, true⟩ ∈ marks) :
    ctx.FollowsFirst below rank selection rest marks s s₁ := by
  intro before after inside s' k _ _ hfirst halike
  refine ⟨s', halike.later hfirst hlater hgroups hgrows hentered, fun u' hu' => ?_⟩
  rwa [promptAll, hprompt, List.nil_append]

theorem prompt_spread {span : Span} {spread : Spread}
    (hlabel : ctx.deferLabel? none spread.directives = none) :
    ctx.prompt below (.spread span spread) = [.spread span spread] := by
  rw [prompt, hlabel]
  rfl

theorem prompt_inline {span : Span} {head : InlineHead} {selections : List Selection}
    (hlabel : ctx.deferLabel? none head.directives = none) :
    ctx.prompt below (.inline span head selections) =
      [.inline span head (ctx.promptAll below selections)] := by
  rw [prompt, hlabel]
  rfl

section

variable (hrank : ctx.Layers rank) {span : Span} {spread : Spread} {rest : List Selection}
  {s s₁ : Collecting}

include hrank

theorem followsFirst_again (hincluded : ctx.isExcluded none spread.directives = false)
    (hvisited : spread.name.item ∈ s.visited) :
    ∃ marks, ctx.marks false (.spread span spread :: rest) = marks ++ ctx.marks false rest ∧
      ctx.FollowsFirst below rank (.spread span spread) rest marks s s := by
  refine ⟨_, marks_spread hrank hincluded, ?_⟩
  cases hlabel : ctx.deferLabel? none spread.directives with
  | some label =>
    refine followsFirst_later (by rw [prompt, hlabel]; rfl) (fun mark hmark => ?_) rfl
      (List.Subset.refl _) fun _ => .inl
    cases hf : ctx.fragment? spread.name.item with
    | none => simp [hf] at hmark
    | some f => exact later_of_mem_marks (by simpa [hf] using hmark)
  | none =>
    intro before after inside s' k hselections hinside hfirst halike
    have hnew : spread.name.item ∉ inside := fun hmem =>
      absurd (hselections spread List.mem_cons_self) (Nat.not_lt.mpr (hinside _ hmem))
    obtain ⟨hvisited', halike'⟩ := halike.again hvisited hnew rfl
    refine ⟨s', halike', fun u' hu' => ?_⟩
    rw [promptAll, prompt_spread hlabel]
    exact .skip (.again hvisited') hu'

omit hrank in
theorem followsFirst_left {selection : Selection} (h : ctx.Skips none .start selection) :
    ctx.FollowsFirst below rank selection rest [] s s := by
  have hprompt : ctx.prompt below selection = [] ∨
      ∃ x, ctx.prompt below selection = [x] ∧ ∀ s', (ctx.prompted below).Skips none s' x := by
    cases h with
    | field h => exact .inr ⟨_, rfl, fun _ => .field h⟩
    | excluded h =>
      rw [prompt]
      split
      · exact .inl rfl
      · exact .inr ⟨_, rfl, fun _ => .excluded h⟩
    | otherType ht h =>
      rw [prompt]
      split
      · exact .inl rfl
      · exact .inr ⟨_, rfl, fun _ => .otherType ht h⟩
    | spread h =>
      rw [prompt]
      split
      · exact .inl rfl
      · exact .inr ⟨_, rfl, fun _ => .spread h⟩
    | again h => cases h
  rcases hprompt with hnone | ⟨x, hx, hskips⟩
  · exact followsFirst_later hnone (fun _ h => absurd h List.not_mem_nil) rfl (List.Subset.refl _)
      fun _ => .inl
  · intro before after inside s' k _ _ _ halike
    refine ⟨s', by simpa using halike, fun u' hu' => ?_⟩
    rw [promptAll, hx]
    exact .skip (hskips s') hu'

theorem followsFirst_skips {selection : Selection} (h : ctx.Skips none s selection) :
    ∃ marks, ctx.marks false (selection :: rest) = marks ++ ctx.marks false rest ∧
      ctx.FollowsFirst below rank selection rest marks s s := by
  rcases marks_skips hrank h with ⟨hmarks, hleft⟩ | ⟨span, spread, rfl, hvisited, hincluded⟩
  · exact ⟨[], hmarks, followsFirst_left hleft⟩
  · exact followsFirst_again hrank hincluded hvisited

omit hrank in
theorem followsFirst_field {head : FieldHead} {selections : List Selection}
    (h : ctx.isExcluded none head.directives = false) :
    ctx.FollowsFirst below rank (.field span head selections) rest [] s
      { s with found := s.found.add ⟨⟨head, span, selections⟩, none⟩ } := by
  intro before after inside s' k _ _ _ halike
  refine ⟨_, by simpa using halike.add ⟨⟨head, span, selections⟩, none⟩, fun u' hu' => ?_⟩
  exact .field h hu'

omit hrank in
theorem followsFirst_inline {head : InlineHead} {selections : List Selection} (h : ctx.Opens none head)
    (hlabel : ctx.deferLabel? none head.directives = none) (hinner : ctx.Follows below rank selections s s₁) :
    ctx.FollowsFirst below rank (.inline span head selections) rest (ctx.marks false selections) s s₁ := by
  intro before after inside s' k hselections hinside hfirst halike
  obtain ⟨s₁', hcollects, halike₁⟩ :=
    hinner before after inside s' k hselections.inner hinside hfirst halike
  refine ⟨s₁', halike₁, fun u' hu' => ?_⟩
  rw [promptAll, prompt_inline hlabel]
  exact .inline ⟨h.included, h.applies⟩ hlabel hcollects hu'

omit hrank in
theorem followsFirst_none (h : ctx.Spreads none s spread none)
    (hlabel : ctx.deferLabel? none spread.directives = none) :
    ctx.FollowsFirst below rank (.spread span spread) rest [⟨spread.name.item, false⟩] s
      { s with visited := spread.name.item :: s.visited } := by
  intro before after inside s' k _ _ _ halike
  have hf : ctx.fragment? spread.name.item = none := h.found.symm
  refine ⟨_, halike.enter.leave fun f hf' => by simp [hf] at hf', fun u' hu' => ?_⟩
  rw [promptAll, prompt_spread hlabel]
  have hspreads : (ctx.prompted below).Spreads none s' spread none :=
    ⟨h.included, fun hmem => h.first (halike.visited hmem), by
      have hf' : (ctx.prompted below).fragment? spread.name.item = none := by
        rw [fragment?_prompted, hf, Option.map_none]
      exact hf'.symm⟩
  refine .nothing hspreads ?_
  have hlabel' : (ctx.prompted below).deferLabel? none spread.directives = none := hlabel
  rw [hlabel']
  exact hu'

theorem followsFirst_spread (hvariables : ∀ f ∈ ctx.fragments, f.variableDefinitions = none) {f : Fragment}
    (h : ctx.Spreads none s spread (some f)) (hlabel : ctx.deferLabel? none spread.directives = none)
    (hinner : ctx.Follows below rank f.selections
      { s with visited := spread.name.item :: s.visited } s₁) :
    ctx.FollowsFirst below rank (.spread span spread) rest
      (⟨spread.name.item, false⟩ :: ctx.marks false f.selections) s s₁ := by
  intro before after inside s' k hselections hinside hfirst halike
  have hf : ctx.fragment? spread.name.item = some f := h.found.symm
  have hlt : rank spread.name.item < k := hselections spread List.mem_cons_self
  have hsplit : before ++ ⟨spread.name.item, false⟩ :: ctx.marks false f.selections =
      before ++ [⟨spread.name.item, false⟩] ++ ctx.marks false f.selections := by simp
  obtain ⟨s₁', hcollects, halike₁⟩ := hinner (before ++ [⟨spread.name.item, false⟩]) after
    (spread.name.item :: inside) _ (rank spread.name.item) (hrank.lower hf)
    (List.forall_mem_cons.mpr
      ⟨Nat.le_refl _, fun name hname => Nat.le_of_lt (Nat.lt_of_lt_of_le hlt (hinside name hname))⟩)
    (hsplit ▸ hfirst) halike.enter
  refine ⟨s₁', ?_, fun u' hu' => ?_⟩
  · rw [hsplit]
    refine halike₁.leave fun f' hf' => ?_
    obtain rfl := Option.some.inj (hf.symm.trans hf')
    exact List.subset_append_right _ _
  · rw [promptAll, prompt_spread hlabel]
    have hf' : (ctx.prompted below).fragment? spread.name.item = some (ctx.promptFragment below f) := by
      rw [fragment?_prompted, hf, Option.map_some]
    have hunbound : (ctx.prompted below).variablesIn none (ctx.promptFragment below f) spread = none := by
      have hmem := mem_of_findFragment (Option.filter_eq_some_iff.mp hf).1
      simp [variablesIn, promptFragment, hvariables f hmem]
    refine .spread ⟨h.included, fun hmem => h.first (halike.visited hmem), hf'.symm⟩ hlabel ?_ hu'
    rw [hunbound]
    exact hcollects

end

/-- A run is followed without what is deferred: the fields that are not deferred are the same. -/
theorem Collects.follows (hrank : ctx.Layers rank)
    (hvariables : ∀ f ∈ ctx.fragments, f.variableDefinitions = none) {selections : List Selection}
    {s t : Collecting} (h : ctx.Collects none selections s t) :
    ctx.Follows below rank selections s t := by
  generalize hnone : (none : Option FragmentVariables) = fragmentVariables at h
  induction h with
  | nil =>
    subst hnone
    intro before after inside s' k _ _ _ halike
    have hmarks : ctx.marks false [] = [] := rfl
    rw [hmarks, List.append_nil]
    exact ⟨s', .nil, halike⟩
  | skip h _ ih =>
    subst hnone
    obtain ⟨marks, hmarks, hfirst⟩ := followsFirst_skips hrank h
    exact .cons hmarks hfirst (ih rfl)
  | field h _ ih =>
    subst hnone
    exact .cons (marks_field hrank _ _) (followsFirst_field h) (ih rfl)
  | inline h hlabel _ _ ihInner ih =>
    subst hnone
    refine .cons ?_ (followsFirst_inline h hlabel (ihInner rfl)) (ih rfl)
    rw [marks_inline hrank h, hlabel]
    rfl
  | inlineDeferred h hlabel hinner _ _ ih =>
    subst hnone
    refine .cons (marks_inline hrank h _) ?_ (ih rfl)
    rw [hlabel]
    refine followsFirst_later ?_ (fun _ => later_of_mem_marks) rfl hinner.grows fun _ =>
      hinner.entered hrank hvariables
    rw [prompt, hlabel]
    rfl
  | @nothing _ _ spread _ _ _ h _ ih =>
    subst hnone
    have hf : ctx.fragment? spread.name.item = none := h.found.symm
    refine .cons (marks_spread hrank h.included) ?_ (ih rfl)
    rw [hf]
    cases hlabel : ctx.deferLabel? none spread.directives with
    | none => exact followsFirst_none h hlabel
    | some label =>
      refine followsFirst_later ?_ (fun _ h => absurd h List.not_mem_nil) rfl (List.Subset.refl _) fun _ => .inl
      rw [prompt, hlabel]
      rfl
  | @spread _ _ spread f _ _ _ _ h hlabel _ _ ihInner ih =>
    subst hnone
    have hf : ctx.fragment? spread.name.item = some f := h.found.symm
    have hinner := ihInner (variablesIn_none hvariables hf none _).symm
    refine .cons (marks_spread hrank h.included) ?_ (ih rfl)
    rw [hf, hlabel]
    exact followsFirst_spread hrank hvariables h hlabel hinner
  | @spreadDeferred _ _ spread f _ _ _ _ _ h hlabel hinner _ _ ih =>
    subst hnone
    have hf : ctx.fragment? spread.name.item = some f := h.found.symm
    rw [variablesIn_none hvariables hf none _] at hinner
    refine .cons (marks_spread hrank h.included) ?_ (ih rfl)
    rw [hf, hlabel]
    refine followsFirst_later ?_ (fun _ => later_of_mem_marks) rfl hinner.grows fun _ =>
      hinner.entered hrank hvariables
    rw [prompt, hlabel]
    rfl

/-! ## Fields that are not deferred -/

/-- Whether a selection selects a field, itself or through fragments, none of which is deferred. -/
inductive ReachesNow (ctx : CollectionContext σ) : Selection → FieldUse → Prop
  | field {span head selections} (h : ctx.isExcluded none head.directives = false) :
    ReachesNow ctx (.field span head selections) ⟨⟨head, span, selections⟩, none⟩
  | inline {span head selections x u} (h : ctx.Opens none head)
    (hlabel : ctx.deferLabel? none head.directives = none) (hx : x ∈ selections)
    (hrest : ReachesNow ctx x u) : ReachesNow ctx (.inline span head selections) u
  | spread {span} {spread : Spread} {f x u} (h : ctx.isExcluded none spread.directives = false)
    (hlabel : ctx.deferLabel? none spread.directives = none)
    (hf : ctx.fragment? spread.name.item = some f) (hx : x ∈ f.selections)
    (hrest : ReachesNow ctx x u) : ReachesNow ctx (.spread span spread) u

theorem promptAll_eq (selections : List Selection) :
    ctx.promptAll below selections = selections.flatMap (ctx.prompt below) := by
  induction selections with
  | nil => rfl
  | cons selection rest ih => rw [promptAll, ih, List.flatMap_cons]

theorem ReachesNow.prompted {x : Selection} {u : FieldUse} (h : ctx.ReachesNow x u) :
    ∃ y ∈ ctx.prompt id x, (ctx.prompted id).Reaches y u := by
  induction h with
  | field h => exact ⟨_, List.mem_singleton_self _, .field h⟩
  | @inline span head selections x u h hlabel hx _ ih =>
    obtain ⟨y, hy, hreaches⟩ := ih
    refine ⟨.inline span head (ctx.promptAll id selections), ?_, .inline ⟨h.included, h.applies⟩ ?_ hreaches⟩
    · rw [prompt_inline hlabel]
      exact List.mem_singleton_self _
    · rw [promptAll_eq]
      exact List.mem_flatMap.mpr ⟨x, hx, hy⟩
  | @spread span spread f x u h hlabel hf hx _ ih =>
    obtain ⟨y, hy, hreaches⟩ := ih
    have hf' : (ctx.prompted id).fragment? spread.name.item = some (ctx.promptFragment id f) := by
      rw [fragment?_prompted, hf, Option.map_some]
    refine ⟨.spread span spread, ?_, .spread h hf' ?_ hreaches⟩
    · rw [prompt_spread hlabel]
      exact List.mem_singleton_self _
    · rw [promptFragment, promptAll_eq]
      exact List.mem_flatMap.mpr ⟨x, hx, hy⟩

/-! ## Deleting what is deferred -/

theorem ownSpreadsAll_promptAll (selections : List Selection) :
    Selection.ownSpreadsAll (ctx.promptAll below selections) ⊆ Selection.ownSpreadsAll selections := by
  induction selections using Selection.induct with
  | nil => exact List.Subset.refl _
  | field span head selections rest _ ih => exact ih
  | spread span spread rest ih =>
    rw [promptAll, prompt]
    split
    · exact List.Subset.trans ih (List.subset_append_right _ _)
    · exact List.cons_subset_cons _ ih
  | inline span head selections rest ihInner ih =>
    rw [promptAll, prompt]
    split
    · exact List.Subset.trans ih (List.subset_append_right _ _)
    · exact List.append_subset.mpr
        ⟨List.Subset.trans ihInner (List.subset_append_left _ _),
          List.Subset.trans ih (List.subset_append_right _ _)⟩

theorem not_postponesIn (hacyclic : ∀ name, ¬ Relation.TransGen ctx.SpreadsIn name name) (name : String) :
    ¬ Relation.TransGen ctx.PostponesIn name name := by
  refine fun h => hacyclic name (Relation.TransGen.mono ?_ _ _ h)
  rintro name other ⟨f, hf, -, spread, hspread, hname, -⟩
  exact ⟨f, hf, spread, hspread, hname⟩

theorem not_spreadsIn_prompted (hacyclic : ∀ name, ¬ Relation.TransGen ctx.SpreadsIn name name)
    (name : String) : ¬ Relation.TransGen (ctx.prompted below).SpreadsIn name name := by
  refine fun h => hacyclic name (Relation.TransGen.mono ?_ _ _ h)
  rintro name other ⟨f', hf', spread, hspread, hname⟩
  rw [fragment?_prompted] at hf'
  obtain ⟨f, hf, rfl⟩ := Option.map_eq_some_iff.mp hf'
  exact ⟨f, hf, spread, ownSpreadsAll_promptAll _ hspread, hname⟩

/-- The fields that are not deferred are those that are found when everything that is deferred is deleted,
whatever becomes of the selections inside of fields then; all fields that are reached without `@defer` are
among them. This needs that no fragment is inside of itself or declares variables, and that none is spread
inside of a deferred fragment first, and outside later. -/
theorem groups_prompted (hvariables : ∀ f ∈ ctx.fragments, f.variableDefinitions = none)
    (hacyclic : ∀ name, ¬ Relation.TransGen ctx.SpreadsIn name name) {selections : List Selection}
    (hfirst : Mark.PromptFirst (ctx.marks false selections)) :
    ∃ collected, (∀ depth, (ctx.fragments.length + 1) ^ 2 ≤ depth →
        ctx.collectFields depth selections = some collected) ∧
      (∀ below, ∃ collected', (∀ depth, (ctx.fragments.length + 1) ^ 2 ≤ depth →
          (ctx.prompted below).collectFields depth (ctx.promptAll below selections) = some collected') ∧
        collected'.groups = FieldGroups.mapBelow below collected.groups) ∧
      ∀ x ∈ selections, ∀ u, ctx.ReachesNow x u →
        ∃ uses, (u.node.responseKey, uses) ∈ collected.groups ∧ u ∈ uses := by
  obtain ⟨rank, hrank⟩ := exists_layers hacyclic
  obtain ⟨s, hs⟩ := exists_collectWithin (not_postponesIn hacyclic) selections none .start
  have hcollects := enters_collectWithin _ _ _ _ _ (hs _ (Nat.le_refl _))
  have hprompted (below : List Selection → List Selection) : ∃ s',
      (ctx.prompted below).Collects none (ctx.promptAll below selections) .start s' ∧
        s'.found.groups = FieldGroups.mapBelow below s.found.groups ∧ s'.found.deferred = [] := by
    have hselections : Below rank (ctx.fragments.length + 1) selections :=
      fun spread _ => Nat.lt_succ_iff.mpr (hrank.bounded _)
    obtain ⟨s', hcollects', halike⟩ := hcollects.follows hrank hvariables [] [] [] .start _ hselections
      (fun _ h => absurd h List.not_mem_nil) (by simpa using hfirst) .start
    exact ⟨s', hcollects', halike.groups, halike.deferred⟩
  refine ⟨s.found, fun depth hdepth => ?_, fun below => ?_, fun x hx u hu => ?_⟩
  · rw [collectFields, hs depth hdepth, Option.map_some]
  · obtain ⟨s', hcollects', hgroups, -⟩ := hprompted below
    refine ⟨s'.found, fun depth hdepth => ?_, hgroups⟩
    have hlength : (ctx.prompted below).fragments.length = ctx.fragments.length := List.length_map ..
    rw [collectFields, hcollects'.collectWithin_eq (not_postponesIn (not_spreadsIn_prompted hacyclic))
      (hlength ▸ hdepth), Option.map_some]
  · obtain ⟨s', hcollects', hgroups, hdeferred⟩ := hprompted id
    obtain ⟨y, hy, hreaches⟩ := hu.prompted
    have hvariables' : ∀ f ∈ (ctx.prompted id).fragments, f.variableDefinitions = none :=
      List.forall_mem_map.mpr hvariables
    have hmem : y ∈ ctx.promptAll id selections := by
      rw [promptAll_eq]
      exact List.mem_flatMap.mpr ⟨x, hx, hy⟩
    have hhas := (hcollects'.explored hvariables').has_iff.mpr ⟨y, hmem, hreaches⟩
    cases hhas with
    | deferred hfragment => simp [hdeferred] at hfragment
    | @group _ key uses _ hgroup huse =>
      obtain rfl := ((hcollects'.grouped .empty).uses hgroup).2 u huse
      refine ⟨uses, ?_, huse⟩
      rwa [hgroups, FieldGroups.mapBelow_id] at hgroup

end CollectionContext

/-- An inline fragment with `@defer`. -/
def sampleDeferred (selections : List Selection) : Selection :=
  .inline default ⟨none, [sampleText ⟨sampleText "defer", none⟩]⟩ selections

/-- Where `Named` is `{ name }`. -/
def sampleNamed : CollectionContext Unit := sampleCollection [sampleFragment "Named" [sampleField "name" []]]

theorem sampleNamed_unbound : ∀ f ∈ sampleNamed.fragments, f.variableDefinitions = none :=
  fun _ hf => List.mem_singleton.mp hf ▸ rfl

theorem sampleNamed_acyclic (name : String) : ¬ Relation.TransGen sampleNamed.SpreadsIn name name := by
  refine acyclic_of_rank (fun _ => 0) ?_ name
  rintro name other ⟨f, hf, spread, hspread, -⟩
  obtain rfl := List.mem_singleton.mp (mem_of_findFragment (Option.filter_eq_some_iff.mp hf).1)
  cases hspread

/-- `{ ...Named ... @defer { ...Named numbers } ...Named @defer }` -/
def sampleNamedFirst : List Selection :=
  [sampleSpread "Named", sampleDeferred [sampleSpread "Named", sampleField "numbers" []], sampleLater "Named"]

theorem sampleNamedFirst_prompted :
    Mark.PromptFirst (sampleNamed.marks false sampleNamedFirst) ∧
      ∃ collected, (∀ depth, 4 ≤ depth →
          sampleNamed.collectFields depth sampleNamedFirst = some collected) ∧
        (∀ below, ∃ collected', (∀ depth, 4 ≤ depth → (sampleNamed.prompted below).collectFields depth
            (sampleNamed.promptAll below sampleNamedFirst) = some collected') ∧
          collected'.groups = FieldGroups.mapBelow below collected.groups) ∧
        ∀ x ∈ sampleNamedFirst, ∀ u, sampleNamed.ReachesNow x u →
          ∃ uses, (u.node.responseKey, uses) ∈ collected.groups ∧ u ∈ uses := by
  have hfirst : Mark.PromptFirst (sampleNamed.marks false sampleNamedFirst) := by decide +kernel
  exact ⟨hfirst, CollectionContext.groups_prompted sampleNamed_unbound sampleNamed_acyclic hfirst⟩

/-- `{ ... @defer { ...Named } ...Named }` -/
def sampleNamedLater : List Selection := [sampleDeferred [sampleSpread "Named"], sampleSpread "Named"]

/-- The name is delivered later only, although it is selected without `@defer`, too. -/
theorem sampleNamedLater_missing :
    (∀ f ∈ sampleNamed.fragments, f.variableDefinitions = none) ∧
      (∀ name, ¬ Relation.TransGen sampleNamed.SpreadsIn name name) ∧
      (sampleNamed.collectFields 9 sampleNamedLater).map (·.groups.map Prod.fst) = some [] ∧
      ((sampleNamed.prompted id).collectFields 9 (sampleNamed.promptAll id sampleNamedLater)).map
        (·.groups.map Prod.fst) = some ["name"] :=
  ⟨sampleNamed_unbound, sampleNamed_acyclic, by decide +kernel, by decide +kernel⟩

end GraphQL
