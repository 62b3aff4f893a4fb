import Mathlib.Algebra.GroupWithZero.Nat
import GraphQL.Proofs.Execution.Delivery.Jobs
import GraphQL.Proofs.Execution.Collection.Inlining

/-! # Collecting comes to an end

A fragment that is spread without `@defer` is entered once, as it is not entered again. One that is
deferred may be entered again and again, so collecting ends where no fragment defers itself, directly or
through others that it defers.
-/

namespace GraphQL

variable {σ : Type}

/-! ## Spreads that defer -/

namespace Selection

mutual

/-- The spreads in a selection that are not inside of a field. -/
def ownSpreads : Selection → List Spread
  | .field _ _ _ => []
  | .spread _ s => [s]
  | .inline _ _ selections => ownSpreadsAll selections

def ownSpreadsAll : List Selection → List Spread
  | [] => []
  | selection :: rest => selection.ownSpreads ++ ownSpreadsAll rest

end

end Selection

namespace CollectionContext

variable {ctx : CollectionContext σ}

theorem deferLabel?_none {fragmentVariables : Option FragmentVariables}
    {directives : List (Located Directive)} (h : (findDirective directives "defer").isNone) :
    ctx.deferLabel? fragmentVariables directives = none := by
  unfold deferLabel? directiveArguments?
  rw [Option.isNone_iff_eq_none.mp h]
  rfl

/-- Whether selections spread a fragment with a `@defer` that is active for some values of the variables of
the fragment around it. -/
def Postpones (ctx : CollectionContext σ) (selections : List Selection) (name : String) : Prop :=
  (ctx.fragment? name).isSome ∧ ∃ spread ∈ Selection.ownSpreadsAll selections,
    spread.name.item = name ∧ ∃ fragmentVariables,
      ctx.isExcluded fragmentVariables spread.directives = false ∧
        (ctx.deferLabel? fragmentVariables spread.directives).isSome

/-- Whether a fragment defers another one. -/
def PostponesIn (ctx : CollectionContext σ) (name other : String) : Prop :=
  ∃ f, ctx.fragment? name = some f ∧ ctx.Postpones f.selections other

theorem Postpones.mono {selections more : List Selection} {name : String}
    (h : ctx.Postpones selections name)
    (hsubset : Selection.ownSpreadsAll selections ⊆ Selection.ownSpreadsAll more) :
    ctx.Postpones more name := by
  obtain ⟨hfound, spread, hspread, h⟩ := h
  exact ⟨hfound, spread, hsubset hspread, h⟩

theorem Postpones.rest {selection : Selection} {rest : List Selection} {name : String}
    (h : ctx.Postpones rest name) : ctx.Postpones (selection :: rest) name :=
  h.mono (List.subset_append_right _ _)

theorem Postpones.inline {span : Span} {head : InlineHead} {selections rest : List Selection}
    {name : String} (h : ctx.Postpones selections name) :
    ctx.Postpones (.inline span head selections :: rest) name :=
  h.mono (List.subset_append_left _ _)

/-- Whether fragments defer only others of lower rank, which is below `bound`. -/
structure Descends (ctx : CollectionContext σ) (rank : String → Nat) (bound : Nat) : Prop where
  below : ∀ name other, ctx.PostponesIn name other → rank other < bound
  falls : ∀ name other, ctx.PostponesIn name other → rank other < rank name

/-! ## Fragments that are left -/

theorem Collects.grows {fragmentVariables : Option FragmentVariables} {selections : List Selection}
    {s s' : Collecting} (h : ctx.Collects fragmentVariables selections s s') : s.visited ⊆ s'.visited := by
  induction h with
  | nil => exact List.Subset.refl _
  | skip _ _ ih | field _ _ ih => exact ih
  | inline _ _ _ _ ihInner ih | inlineDeferred _ _ _ _ ihInner ih | spreadDeferred _ _ _ _ ihInner ih =>
    exact List.Subset.trans ihInner ih
  | nothing _ _ ih =>
    refine List.Subset.trans ?_ ih
    unfold entering
    split
    · exact List.subset_cons_self _ _
    · exact List.Subset.refl _
  | spread _ _ _ _ ihInner ih =>
    exact List.Subset.trans (List.subset_cons_self _ _) (List.Subset.trans ihInner ih)

/-- How many fragments were not entered. -/
def unvisited (ctx : CollectionContext σ) (visited : List String) : Nat :=
  ctx.fragments.countP fun f => f.name.item ∉ visited

theorem unvisited_mono {visited visited' : List String} (h : visited ⊆ visited') :
    ctx.unvisited visited' ≤ ctx.unvisited visited := by
  refine List.countP_mono_left fun f _ hf => ?_
  simp only [decide_eq_true_eq] at hf ⊢
  exact fun hmem => hf (h hmem)

theorem unvisited_cons_lt {visited : List String} {name : String} {f : Fragment}
    (hf : ctx.fragment? name = some f) (hnew : name ∉ visited) :
    ctx.unvisited (name :: visited) < ctx.unvisited visited := by
  have hfound := (Option.filter_eq_some_iff.mp hf).1
  have hname := name_of_findFragment hfound
  unfold unvisited
  rw [List.countP_eq_length_filter, List.countP_eq_length_filter]
  have hfilter : (ctx.fragments.filter fun g => g.name.item ∉ name :: visited) =
      (ctx.fragments.filter fun g => g.name.item ∉ visited).filter fun g => g.name.item ≠ name := by
    rw [List.filter_filter]
    exact List.filter_congr fun g _ => by simp
  rw [hfilter, List.length_filter_lt_length_iff_exists]
  exact ⟨f, List.mem_filter.mpr ⟨mem_of_findFragment hfound, by simpa [hname] using hnew⟩, by simp [hname]⟩

/-! ## Entering fragments deep enough -/

section

variable {rank : String → Nat} {bound : Nat}

/-- Whether entering fragments succeeds as deep as `depth` allows. A fragment that is not deferred leaves
fewer others, and a deferred one has a lower rank. -/
def Succeeds (ctx : CollectionContext σ) (rank : String → Nat) (bound : Nat) (enter : FragmentEntry)
    (depth : Nat) : Prop :=
  ∀ selections fragmentVariables s k, (∀ name, ctx.Postpones selections name → rank name < k) →
    k ≤ bound → ctx.unvisited s.visited * (bound + 1) + k < depth →
    ∃ s', enter selections fragmentVariables s = some s'

theorem exists_deferring {label : Option (Option String)} {collect : Collecting → Option Collecting}
    {s : Collecting} (h : ∀ found, ∃ s', collect ⟨s.visited, found⟩ = some s') :
    ∃ s', deferring label collect s = some s' := by
  cases label with
  | none => exact h s.found
  | some label =>
    obtain ⟨s', hs'⟩ := h .empty
    exact ⟨_, by simp only [deferring, hs', Option.bind_eq_bind, Option.bind_some]; rfl⟩

theorem exists_collectSpread (hrank : ctx.Descends rank bound) {enter : FragmentEntry} {depth k : Nat}
    (henter : ctx.Succeeds rank bound enter depth) {span : Span} {spread : Spread}
    {rest : List Selection} {s : Collecting} (fragmentVariables : Option FragmentVariables)
    (hbelow : ∀ name, ctx.Postpones (.spread span spread :: rest) name → rank name < k)
    (hk : k ≤ bound) (hdepth : ctx.unvisited s.visited * (bound + 1) + k ≤ depth) :
    ∃ s', ctx.collectSpread enter fragmentVariables spread s = some s' := by
  unfold collectSpread
  dsimp only
  split
  · exact ⟨s, rfl⟩
  · next hskip =>
    rw [Bool.or_eq_true, List.contains_iff_mem, not_or] at hskip
    split
    · exact ⟨_, rfl⟩
    · next fragment hfound =>
      split
      · exact ⟨_, rfl⟩
      · next happlies =>
        have hf : ctx.fragment? spread.name.item = some fragment := by
          simpa [fragment?, hfound, Option.filter] using happlies
        refine exists_deferring fun found => ?_
        cases hlabel : ctx.deferLabel? fragmentVariables spread.directives with
        | none =>
          -- One fragment less is left to visit.
          have hless := Nat.mul_le_mul_right (bound + 1) (unvisited_cons_lt hf hskip.2)
          rw [Nat.succ_mul] at hless
          refine henter _ _ _ bound (fun name hname => hrank.below _ _ ⟨fragment, hf, hname⟩)
            (Nat.le_refl _) ?_
          simp only [Option.isNone_none, ↓reduceIte]
          omega
        | some label =>
          -- The fragments left are the same, but the rank falls.
          have hpostpones : ctx.Postpones (.spread span spread :: rest) spread.name.item :=
            ⟨Option.isSome_of_eq_some hf, spread, List.mem_cons_self, rfl, fragmentVariables,
              by simpa using hskip.1, Option.isSome_of_eq_some hlabel⟩
          have hlower := hbelow _ hpostpones
          refine henter _ _ _ (rank spread.name.item)
            (fun name hname => hrank.falls _ _ ⟨fragment, hf, hname⟩) (by omega) ?_
          simp only [Option.isNone_some, Bool.false_eq_true, ↓reduceIte]
          omega

theorem exists_collectAll (hrank : ctx.Descends rank bound) {enter : FragmentEntry} {depth k : Nat}
    (henters : ctx.Enters enter) (henter : ctx.Succeeds rank bound enter depth) (hk : k ≤ bound)
    (selections : List Selection) (fragmentVariables : Option FragmentVariables) (s : Collecting)
    (hbelow : ∀ name, ctx.Postpones selections name → rank name < k)
    (hdepth : ctx.unvisited s.visited * (bound + 1) + k ≤ depth) :
    ∃ s', ctx.collectAll enter fragmentVariables selections s = some s' := by
  -- What is collected first only makes fewer fragments left.
  have hcons {selection : Selection} {rest : List Selection} {s s₁ : Collecting}
      (h : ctx.collectSelection enter fragmentVariables selection s = some s₁)
      (hrest : ctx.unvisited s₁.visited ≤ ctx.unvisited s.visited →
        ∃ s', ctx.collectAll enter fragmentVariables rest s₁ = some s') :
      ∃ s', ctx.collectAll enter fragmentVariables (selection :: rest) s = some s' := by
    have hone : ctx.collectAll enter fragmentVariables [selection] s = some s₁ := by
      simp [collectAll, h]
    obtain ⟨s', hs'⟩ := hrest (unvisited_mono (enters_collectAll henters _ _ _ _ hone).grows)
    exact ⟨s', by simp [collectAll, h, hs']⟩
  have hfewer {s s₁ : Collecting} (hle : ctx.unvisited s₁.visited ≤ ctx.unvisited s.visited)
      (hdepth : ctx.unvisited s.visited * (bound + 1) + k ≤ depth) :
      ctx.unvisited s₁.visited * (bound + 1) + k ≤ depth :=
    Nat.le_trans (Nat.add_le_add_right (Nat.mul_le_mul_right _ hle) k) hdepth
  induction selections using Selection.induct generalizing s with
  | nil => exact ⟨s, rfl⟩
  | field span head selections rest _ ih =>
    obtain ⟨s₁, h₁⟩ : ∃ s₁, ctx.collectSelection enter fragmentVariables (.field span head selections) s =
        some s₁ := by
      simp only [collectSelection]
      split <;> exact ⟨_, rfl⟩
    exact hcons h₁ fun hle => ih s₁ (fun name h => hbelow name h.rest) (hfewer hle hdepth)
  | spread span spread rest ih =>
    obtain ⟨s₁, h₁⟩ := exists_collectSpread hrank henter fragmentVariables hbelow hk hdepth
    exact hcons h₁ fun hle => ih s₁ (fun name h => hbelow name h.rest) (hfewer hle hdepth)
  | inline span head selections rest ihInner ih =>
    obtain ⟨s₁, h₁⟩ : ∃ s₁, ctx.collectSelection enter fragmentVariables (.inline span head selections) s =
        some s₁ := by
      simp only [collectSelection]
      split
      · exact ⟨_, rfl⟩
      · exact exists_deferring fun found =>
          ihInner ⟨s.visited, found⟩ (fun name h => hbelow name h.inline) hdepth
    exact hcons h₁ fun hle => ih s₁ (fun name h => hbelow name h.rest) (hfewer hle hdepth)

theorem succeeds_collectWithin (hrank : ctx.Descends rank bound) (depth : Nat) :
    ctx.Succeeds rank bound (ctx.collectWithin depth) depth := by
  induction depth with
  | zero => exact fun _ _ _ _ _ _ h => absurd h (Nat.not_lt_zero _)
  | succ depth ih =>
    intro selections fragmentVariables s k hbelow hk hdepth
    exact exists_collectAll hrank (enters_collectWithin depth) ih hk selections fragmentVariables s hbelow
      (Nat.lt_succ_iff.mp hdepth)

end

/-! ## Entering deeper changes nothing -/

/-- Whether one way to enter fragments gives all that another one gives. -/
def Extends (enter enter' : FragmentEntry) : Prop :=
  ∀ selections fragmentVariables s s', enter selections fragmentVariables s = some s' →
    enter' selections fragmentVariables s = some s'

theorem deferring_extends {label : Option (Option String)}
    {collect collect' : Collecting → Option Collecting} {s s' : Collecting}
    (hcollect : ∀ s s', collect s = some s' → collect' s = some s')
    (h : deferring label collect s = some s') : deferring label collect' s = some s' := by
  cases label with
  | none => exact hcollect _ _ h
  | some label =>
    obtain ⟨s₁, hs₁, rfl⟩ := deferring_some h
    simp only [deferring, hcollect _ _ hs₁, Option.bind_eq_bind, Option.bind_some]
    rfl

theorem collectSpread_extends {enter enter' : FragmentEntry} (h : Extends enter enter')
    {fragmentVariables : Option FragmentVariables} {spread : Spread} {s s' : Collecting}
    (hs : ctx.collectSpread enter fragmentVariables spread s = some s') :
    ctx.collectSpread enter' fragmentVariables spread s = some s' := by
  unfold collectSpread at hs ⊢
  dsimp only at hs ⊢
  split at hs
  · next hskip => rwa [if_pos hskip]
  · next hskip =>
    rw [if_neg hskip]
    cases hfound : findFragment ctx.fragments spread.name.item with
    | none => simpa only [hfound] using hs
    | some fragment =>
      simp only [hfound] at hs ⊢
      split at hs
      · next hother => rwa [if_pos hother]
      · next happlies =>
        rw [if_neg happlies]
        exact deferring_extends (h _ _) hs

theorem extends_collectAll {enter enter' : FragmentEntry} (h : Extends enter enter') :
    Extends (fun selections fragmentVariables => ctx.collectAll enter fragmentVariables selections)
      (fun selections fragmentVariables => ctx.collectAll enter' fragmentVariables selections) := by
  intro selections
  induction selections using Selection.induct with
  | nil => exact fun _ _ _ => id
  | field span head selections rest _ ih =>
    intro fragmentVariables s s' hs
    obtain ⟨s₁, hs₁, hs⟩ := Option.bind_eq_some_iff.mp hs
    exact Option.bind_eq_some_iff.mpr ⟨s₁, hs₁, ih _ _ _ hs⟩
  | spread span spread rest ih =>
    intro fragmentVariables s s' hs
    obtain ⟨s₁, hs₁, hs⟩ := Option.bind_eq_some_iff.mp hs
    refine Option.bind_eq_some_iff.mpr ⟨s₁, ?_, ih _ _ _ hs⟩
    exact collectSpread_extends h hs₁
  | inline span head selections rest ihInner ih =>
    intro fragmentVariables s s' hs
    obtain ⟨s₁, hs₁, hs⟩ := Option.bind_eq_some_iff.mp hs
    refine Option.bind_eq_some_iff.mpr ⟨s₁, ?_, ih _ _ _ hs⟩
    simp only [collectSelection] at hs₁ ⊢
    split at hs₁
    · next hskip => rwa [if_pos hskip]
    · next hopen =>
      rw [if_neg hopen]
      exact deferring_extends (ihInner _) hs₁

theorem collectWithin_mono {depth depth' : Nat} (h : depth ≤ depth') :
    Extends (ctx.collectWithin depth) (ctx.collectWithin depth') := by
  induction depth generalizing depth' with
  | zero =>
    intro selections fragmentVariables s s' hs
    cases hs
  | succ depth ih =>
    cases depth' with
    | zero => exact absurd h (Nat.not_succ_le_zero _)
    | succ depth' => exact extends_collectAll (ih (Nat.le_of_succ_le_succ h))

/-! ## Collecting ends -/

theorem isSome_findFragment {name : String} (h : (ctx.fragment? name).isSome) :
    (findFragment ctx.fragments name).isSome := by
  obtain ⟨f, hf⟩ := Option.isSome_iff_exists.mp h
  exact Option.isSome_of_eq_some (Option.filter_eq_some_iff.mp hf).1

theorem exists_descends (hacyclic : ∀ name, ¬ Relation.TransGen ctx.PostponesIn name name) :
    ∃ rank, ctx.Descends rank ctx.fragments.length ∧
      ∀ name, (ctx.fragment? name).isSome → rank name < ctx.fragments.length := by
  obtain ⟨rank, hbound, hrank⟩ := exists_fragmentRank ctx.fragments hacyclic
  refine ⟨rank, ⟨fun name other h => ?_, fun name other h => ?_⟩,
    fun name h => hbound name (isSome_findFragment h)⟩
  · obtain ⟨_, _, hother, _⟩ := h
    exact hbound other (isSome_findFragment hother)
  · obtain ⟨f, hf, hother, hspread⟩ := h
    exact hrank name other ⟨f, hf, hother, hspread⟩ (isSome_findFragment hother)

theorem exists_collectWithin (hacyclic : ∀ name, ¬ Relation.TransGen ctx.PostponesIn name name)
    (selections : List Selection) (fragmentVariables : Option FragmentVariables) (s : Collecting) :
    ∃ s', ∀ depth, (ctx.fragments.length + 1) ^ 2 ≤ depth →
      ctx.collectWithin depth selections fragmentVariables s = some s' := by
  obtain ⟨rank, hrank, hbound⟩ := exists_descends hacyclic
  have hleft : ctx.unvisited s.visited * (ctx.fragments.length + 1) ≤
      ctx.fragments.length * (ctx.fragments.length + 1) := Nat.mul_le_mul_right _ List.countP_le_length
  have hsquare : (ctx.fragments.length + 1) ^ 2 =
      ctx.fragments.length * (ctx.fragments.length + 1) + ctx.fragments.length + 1 := by
    rw [Nat.pow_two, Nat.succ_mul]
    rfl
  obtain ⟨s', hs'⟩ := succeeds_collectWithin hrank ((ctx.fragments.length + 1) ^ 2) selections
    fragmentVariables s ctx.fragments.length (fun name h => hbound name h.1) (Nat.le_refl _) (by omega)
  exact ⟨s', fun depth hdepth => collectWithin_mono hdepth _ _ _ _ hs'⟩

/-- Collecting ends, with the same fields however deep fragments may be entered, where no fragment defers
itself. -/
theorem collecting_ends (hacyclic : ∀ name, ¬ Relation.TransGen ctx.PostponesIn name name) :
    (∀ selections, ∃ collected, ∀ depth, (ctx.fragments.length + 1) ^ 2 ≤ depth →
      ctx.collectFields depth selections = some collected) ∧
    ∀ uses, ∃ collected, ∀ depth, (ctx.fragments.length + 1) ^ 2 ≤ depth →
      ctx.collectSubfields depth uses = some collected := by
  refine ⟨fun selections => ?_, fun uses => ?_⟩
  · obtain ⟨s, hs⟩ := exists_collectWithin hacyclic selections none .start
    exact ⟨s.found, fun depth hdepth => by rw [collectFields, hs depth hdepth, Option.map_some]⟩
  · have hfold (s : Collecting) : ∃ s', ∀ depth, (ctx.fragments.length + 1) ^ 2 ≤ depth →
        uses.foldlM (fun s use =>
          ctx.collectWithin depth use.node.selections use.fragmentVariables s) s = some s' := by
      induction uses generalizing s with
      | nil => exact ⟨s, fun _ _ => rfl⟩
      | cons use uses ih =>
        obtain ⟨s₁, hs₁⟩ := exists_collectWithin hacyclic use.node.selections use.fragmentVariables s
        obtain ⟨s', hs'⟩ := ih s₁
        refine ⟨s', fun depth hdepth => ?_⟩
        rw [List.foldlM_cons, hs₁ depth hdepth]
        exact hs' depth hdepth
    obtain ⟨s, hs⟩ := hfold .start
    exact ⟨s.found, fun depth hdepth => by rw [collectSubfields, hs depth hdepth, Option.map_some]⟩

/-! ## What is collected is collected deep enough -/

section

variable {enter : FragmentEntry} {fragmentVariables : Option FragmentVariables} {s : Collecting}

theorem collectSelection_skips {selection : Selection} (h : ctx.Skips fragmentVariables s selection) :
    ctx.collectSelection enter fragmentVariables selection s = some s := by
  cases h with
  | field h | excluded h => simp [collectSelection, h]
  | otherType ht h => simp [collectSelection, ht, h]
  | spread h | again h => simp [collectSelection, collectSpread, h]

theorem collectSelection_opens {span : Span} {head : InlineHead} {selections : List Selection}
    (h : ctx.Opens fragmentVariables head) :
    ctx.collectSelection enter fragmentVariables (.inline span head selections) s =
      deferring (ctx.deferLabel? fragmentVariables head.directives)
        (ctx.collectAll enter fragmentVariables selections) s := by
  rw [collectSelection, h.not_skipped]
  rfl

theorem collectSpread_spreads {spread : Spread} {fragment : Option Fragment}
    (h : ctx.Spreads fragmentVariables s spread fragment) :
    ctx.collectSpread enter fragmentVariables spread s =
      let label := ctx.deferLabel? fragmentVariables spread.directives
      let entered := entering label spread.name.item s
      fragment.elim (some entered) fun f =>
        deferring label (enter f.selections (ctx.variablesIn fragmentVariables f spread)) entered := by
  have hfirst : s.visited.contains spread.name.item = false := by simpa using h.first
  have hfound := h.found
  unfold collectSpread
  simp only [h.included, hfirst, Bool.or_self, Bool.false_eq_true, ↓reduceIte]
  cases hf : findFragment ctx.fragments spread.name.item with
  | none =>
    rw [hf] at hfound
    subst hfound
    rfl
  | some f =>
    rw [hf] at hfound
    cases happlies : ctx.schema.conditionApplies f.typeCondition.item ctx.object with
    | false =>
      simp only [Option.filter, happlies] at hfound
      subst hfound
      simp [happlies, entering]
    | true =>
      simp only [Option.filter, happlies] at hfound
      subst hfound
      simp [happlies, entering, variablesIn]

end

theorem collectAll_mono {depth depth' : Nat} (h : depth ≤ depth') {selections : List Selection}
    {fragmentVariables : Option FragmentVariables} {s s' : Collecting}
    (hs : ctx.collectAll (ctx.collectWithin depth) fragmentVariables selections s = some s') :
    ctx.collectAll (ctx.collectWithin depth') fragmentVariables selections s = some s' :=
  extends_collectAll (collectWithin_mono h) _ _ _ _ hs

theorem Collects.exists_depth {fragmentVariables : Option FragmentVariables} {selections : List Selection}
    {s s' : Collecting} (h : ctx.Collects fragmentVariables selections s s') :
    ∃ depth, ctx.collectAll (ctx.collectWithin depth) fragmentVariables selections s = some s' := by
  induction h with
  | nil => exact ⟨0, rfl⟩
  | skip h _ ih =>
    obtain ⟨depth, hrest⟩ := ih
    exact ⟨depth, by rw [collectAll, collectSelection_skips h, Option.bind_some, hrest]⟩
  | field h _ ih =>
    obtain ⟨depth, hrest⟩ := ih
    exact ⟨depth, by simpa [collectAll, collectSelection, h] using hrest⟩
  | inline h hlabel _ _ ihInner ih =>
    obtain ⟨depth, hinner⟩ := ihInner
    obtain ⟨depth', hrest⟩ := ih
    refine ⟨max depth depth', ?_⟩
    rw [collectAll, collectSelection_opens h, hlabel, deferring,
      collectAll_mono (Nat.le_max_left _ _) hinner, Option.bind_some,
      collectAll_mono (Nat.le_max_right _ _) hrest]
  | inlineDeferred h hlabel _ _ ihInner ih =>
    obtain ⟨depth, hinner⟩ := ihInner
    obtain ⟨depth', hrest⟩ := ih
    refine ⟨max depth depth', ?_⟩
    rw [collectAll, collectSelection_opens h, hlabel, deferring,
      collectAll_mono (Nat.le_max_left _ _) hinner]
    exact collectAll_mono (Nat.le_max_right _ _) hrest
  | nothing h _ ih =>
    obtain ⟨depth, hrest⟩ := ih
    refine ⟨depth, ?_⟩
    rw [collectAll, collectSelection, collectSpread_spreads h]
    exact hrest
  | spread h hlabel _ _ ihInner ih =>
    obtain ⟨depth, hinner⟩ := ihInner
    obtain ⟨depth', hrest⟩ := ih
    refine ⟨max (depth + 1) depth', ?_⟩
    rw [collectAll, collectSelection, collectSpread_spreads h, hlabel]
    have hentered := collectWithin_mono (Nat.le_max_left (depth + 1) depth') _ _ _ _ hinner
    simp only [Option.elim_some, deferring, hentered, Option.bind_some]
    exact collectAll_mono (Nat.le_max_right _ _) hrest
  | spreadDeferred h hlabel _ _ ihInner ih =>
    obtain ⟨depth, hinner⟩ := ihInner
    obtain ⟨depth', hrest⟩ := ih
    refine ⟨max (depth + 1) depth', ?_⟩
    rw [collectAll, collectSelection, collectSpread_spreads h, hlabel]
    have hentered := collectWithin_mono (Nat.le_max_left (depth + 1) depth') _ _ _ _ hinner
    simp only [Option.elim_some, entering, Option.isNone_some, Bool.false_eq_true, ↓reduceIte, deferring,
      hentered]
    exact collectAll_mono (Nat.le_max_right _ _) hrest

theorem Collects.collectWithin_eq (hacyclic : ∀ name, ¬ Relation.TransGen ctx.PostponesIn name name)
    {fragmentVariables : Option FragmentVariables} {selections : List Selection} {s s' : Collecting}
    (h : ctx.Collects fragmentVariables selections s s') {depth : Nat}
    (hdepth : (ctx.fragments.length + 1) ^ 2 ≤ depth) :
    ctx.collectWithin depth selections fragmentVariables s = some s' := by
  obtain ⟨depth', hs'⟩ := h.exists_depth
  obtain ⟨t, ht⟩ := exists_collectWithin hacyclic selections fragmentVariables s
  have hdeep : ctx.collectWithin (depth' + 1) selections fragmentVariables s = some s' := hs'
  have hdeeper := collectWithin_mono (Nat.le_max_right depth (depth' + 1)) _ _ _ _ hdeep
  rw [ht _ (Nat.le_trans hdepth (Nat.le_max_left _ _))] at hdeeper
  rw [ht depth hdepth, hdeeper]

end CollectionContext

/-- The spread of a fragment with `@defer`. -/
def sampleLater (name : String) : Selection :=
  .spread default ⟨sampleText name, none, [sampleText ⟨sampleText "defer", none⟩]⟩

/-- `Named` is `{ name ...Named ...Counted @defer }`, and `Counted` is `{ numbers ...Named }`. -/
def sampleLoop : List Fragment := [
  sampleFragment "Named" [sampleField "name" [], sampleSpread "Named", sampleLater "Counted"],
  sampleFragment "Counted" [sampleField "numbers" [], sampleSpread "Named"]]

def sampleCollection (fragments : List Fragment) : CollectionContext Unit :=
  ⟨sampleSchema, fragments, [], sampleType⟩

theorem sampleLoop_ends :
    (∀ name, ¬ Relation.TransGen (sampleCollection sampleLoop).PostponesIn name name) ∧
      (∃ collected, ∀ depth, 9 ≤ depth →
        (sampleCollection sampleLoop).collectFields depth [sampleSpread "Named"] = some collected) ∧
      ∃ collected, ∀ depth, 9 ≤ depth →
        (sampleCollection sampleLoop).collectSubfields depth [sampleUse "name"] = some collected := by
  have hacyclic : ∀ name, ¬ Relation.TransGen (sampleCollection sampleLoop).PostponesIn name name := by
    refine acyclic_of_rank (fun name => if name = "Named" then 1 else 0) ?_
    rintro name other ⟨f, hf, -, spread, hspread, rfl, fragmentVariables, -, hlabel⟩
    have hlater : (findDirective spread.directives "defer").isSome := by
      by_contra hprompt
      simp [CollectionContext.deferLabel?_none (by simpa using hprompt)] at hlabel
    have hfound := (Option.filter_eq_some_iff.mp hf).1
    obtain rfl := name_of_findFragment hfound
    rcases List.mem_pair.mp (mem_of_findFragment hfound) with rfl | rfl
    · rcases List.mem_pair.mp hspread with rfl | rfl
      · cases hlater
      · decide
    · obtain rfl := List.mem_singleton.mp hspread
      cases hlater
  obtain ⟨hfields, hsubfields⟩ := CollectionContext.collecting_ends hacyclic
  exact ⟨hacyclic, hfields _, hsubfields _⟩

/-- `Endless` is `{ ...Endless @defer name }`. -/
def sampleEndless : Fragment := sampleFragment "Endless" [sampleLater "Endless", sampleField "name" []]

theorem sampleEndless_collectWithin (depth : Nat) (rest : List Selection) (found : Collected) :
    (sampleCollection [sampleEndless]).collectWithin depth (sampleLater "Endless" :: rest) none
      ⟨[], found⟩ = none := by
  induction depth generalizing rest found with
  | zero => rfl
  | succ depth ih =>
    let enter := (sampleCollection [sampleEndless]).collectWithin depth
    have hagain : (sampleCollection [sampleEndless]).collectSelection enter none (sampleLater "Endless")
        ⟨[], found⟩ =
          CollectionContext.deferring (some none) (enter sampleEndless.selections none) ⟨[], found⟩ := rfl
    have hnone : enter sampleEndless.selections none ⟨[], .empty⟩ = none := ih _ _
    rw [CollectionContext.collectWithin, CollectionContext.collectAll, hagain,
      CollectionContext.deferring, hnone]
    rfl

/-- Nothing is found in `{ ...Endless @defer }`, and collecting its fields never ends. -/
theorem sampleEndless_never :
    validate (sampleSchema : Schema Unit) 9
        [.operation { sampleOperation with selections := [sampleLater "Endless"] },
          .fragment sampleEndless] = some [] ∧
      ∀ depth, (sampleCollection [sampleEndless]).collectFields depth [sampleLater "Endless"] = none := by
  refine ⟨by decide +kernel, fun depth => ?_⟩
  rw [CollectionContext.collectFields, Collecting.start, sampleEndless_collectWithin, Option.map_none]

end GraphQL
