import Mathlib.Data.Finset.Card
import GraphQL.Proofs.Execution.Collection.Reach

/-! # Fragments in place of their spreads

A fragment can be written where it is spread, as an inline fragment, and so can the fragments that are
spread inside of it, as long as none is spread inside of itself. Then nothing is spread any more.
-/

namespace GraphQL

/-! ## Inlined documents -/

namespace Selection

mutual

/-- The names of the fragments that are spread in a selection, at any depth. -/
def spreads : Selection → List String
  | field _ _ selections => spreadsAll selections
  | inline _ _ selections => spreadsAll selections
  | spread _ s => [s.name.item]

def spreadsAll : List Selection → List String
  | [] => []
  | selection :: rest => selection.spreads ++ spreadsAll rest

end

section

variable (fragments : List Fragment) (enter : List Selection → List Selection)

mutual

/-- The selection with an inline fragment for each spread, which holds what `enter` makes of the
selections of the fragment. -/
def spliced : Selection → Selection
  | field span head selections => field span head (splicedAll selections)
  | inline span head selections => inline span head (splicedAll selections)
  | spread span s =>
    match findFragment fragments s.name.item with
    | none => spread span s
    | some f => inline span ⟨some f.typeCondition, s.directives⟩ (enter f.selections)

def splicedAll : List Selection → List Selection
  | [] => []
  | selection :: rest => spliced selection :: splicedAll rest

end

end

/-- The selections with inline fragments for all spreads, at any depth, and inside of one another down
to the given depth. -/
def inlinedAll (fragments : List Fragment) : Nat → List Selection → List Selection
  | 0, selections => selections
  | depth + 1, selections => splicedAll fragments (inlinedAll fragments depth) selections

end Selection

def Operation.inlined (fragments : List Fragment) (depth : Nat) (o : Operation) : Operation :=
  { o with selections := Selection.inlinedAll fragments depth o.selections }

def Fragment.inlined (fragments : List Fragment) (depth : Nat) (f : Fragment) : Fragment :=
  { f with selections := Selection.inlinedAll fragments depth f.selections }

namespace Document

variable (d : Document)

/-- The same document with inline fragments for all spreads, in operations and in fragments. Where none
is inside of itself, fragments are inside of one another less deep than there are fragments. -/
def inlined : Document := d.map fun
  | .operation o => .operation (o.inlined d.fragments d.fragments.length)
  | .fragment f => .fragment (f.inlined d.fragments d.fragments.length)

/-- The names of all fragments that are spread. -/
def spreads : List String :=
  d.operations.flatMap (Selection.spreadsAll ·.selections) ++
    d.fragments.flatMap (Selection.spreadsAll ·.selections)

/-- Whether a fragment spreads another one. -/
def Spreads (name other : String) : Prop :=
  ∃ f, findFragment d.fragments name = some f ∧ other ∈ Selection.spreadsAll f.selections

/-- Whether all fragments that are spread are known, none is inside of itself, and none declares
variables. -/
structure Inlinable : Prop where
  known : ∀ name ∈ d.spreads, (findFragment d.fragments name).isSome
  acyclic : ∀ name, ¬ Relation.TransGen d.Spreads name name
  unbound : ∀ f ∈ d.fragments, f.variableDefinitions = none

end Document

/-- Writing inline fragments for spreads is a change of operations and fragments. -/
def inlining (fragments : List Fragment) (depth : Nat) : Rewriting where
  operation := Operation.inlined fragments depth
  fragment := Fragment.inlined fragments depth
  kind _ := rfl
  name _ := rfl
  declares _ := rfl

/-! ## Selections that can be inlined -/

/-- Whether selections delay nothing, and spread only fragments of lower rank. -/
structure Ranked (fragments : List Fragment) (rank : String → Nat) (k : Nat)
    (selections : List Selection) : Prop where
  plain : Selection.plainAll selections = selections
  below : ∀ name ∈ Selection.spreadsAll selections,
    (findFragment fragments name).isSome ∧ rank name < k

/-- Whether fragments declare no variables, delay nothing and spread only fragments of lower rank. -/
structure Layered (fragments : List Fragment) (rank : String → Nat) : Prop where
  ranked : ∀ name f, findFragment fragments name = some f → Ranked fragments rank (rank name) f.selections
  unbound : ∀ f ∈ fragments, f.variableDefinitions = none

namespace Ranked

variable {fragments : List Fragment} {rank : String → Nat} {k : Nat} {span : Span}
  {selections rest : List Selection}

theorem nil : Ranked fragments rank k [] := ⟨rfl, by simp [Selection.spreadsAll]⟩

theorem mono {k' : Nat} (h : Ranked fragments rank k selections) (hk : k ≤ k') :
    Ranked fragments rank k' selections :=
  ⟨h.plain, fun name hname => ⟨(h.below name hname).1, Nat.lt_of_lt_of_le (h.below name hname).2 hk⟩⟩

theorem field_iff {head : FieldHead} : Ranked fragments rank k (.field span head selections :: rest) ↔
    plainDirectives head.directives = head.directives ∧ Ranked fragments rank k selections ∧
      Ranked fragments rank k rest := by
  constructor
  · rintro ⟨hplain, hbelow⟩
    obtain ⟨hfield, hrest⟩ := List.cons.inj hplain
    obtain ⟨-, hhead, hselections⟩ := Selection.field.inj hfield
    obtain ⟨hbelow, hbelowRest⟩ := List.forall_mem_append.mp hbelow
    exact ⟨congrArg FieldHead.directives hhead, ⟨hselections, hbelow⟩, hrest, hbelowRest⟩
  · rintro ⟨hhead, hselections, hrest⟩
    refine ⟨?_, List.forall_mem_append.mpr ⟨hselections.below, hrest.below⟩⟩
    simp only [Selection.plainAll, Selection.plain, FieldHead.plain, hhead, hselections.plain,
      hrest.plain]

theorem inline_iff {head : InlineHead} :
    Ranked fragments rank k (.inline span head selections :: rest) ↔
      plainDirectives head.directives = head.directives ∧ Ranked fragments rank k selections ∧
        Ranked fragments rank k rest := by
  constructor
  · rintro ⟨hplain, hbelow⟩
    obtain ⟨hinline, hrest⟩ := List.cons.inj hplain
    obtain ⟨-, hhead, hselections⟩ := Selection.inline.inj hinline
    obtain ⟨hbelow, hbelowRest⟩ := List.forall_mem_append.mp hbelow
    exact ⟨congrArg InlineHead.directives hhead, ⟨hselections, hbelow⟩, hrest, hbelowRest⟩
  · rintro ⟨hhead, hselections, hrest⟩
    refine ⟨?_, List.forall_mem_append.mpr ⟨hselections.below, hrest.below⟩⟩
    simp only [Selection.plainAll, Selection.plain, InlineHead.plain, hhead, hselections.plain,
      hrest.plain]

theorem spread {s : Spread} (h : Ranked fragments rank k (.spread span s :: rest)) :
    plainDirectives s.directives = s.directives ∧
      (∃ f, findFragment fragments s.name.item = some f) ∧ rank s.name.item < k ∧
      Ranked fragments rank k rest := by
  obtain ⟨hplain, hbelow⟩ := h
  obtain ⟨hspread, hrest⟩ := List.cons.inj hplain
  obtain ⟨-, hs⟩ := Selection.spread.inj hspread
  obtain ⟨hbelow, hbelowRest⟩ := List.forall_mem_append.mp hbelow
  obtain ⟨hknown, hrank⟩ := hbelow _ (List.mem_singleton_self _)
  exact ⟨congrArg Spread.directives hs, Option.isSome_iff_exists.mp hknown, hrank, hrest, hbelowRest⟩

theorem spreads_eq_nil (h : Ranked fragments rank 0 selections) :
    Selection.spreadsAll selections = [] :=
  List.eq_nil_iff_forall_not_mem.mpr fun name hname => Nat.not_lt_zero _ (h.below name hname).2

end Ranked

/-! ## Ranks of fragments -/

theorem name_of_findFragment {fragments : List Fragment} {name : String} {f : Fragment}
    (h : findFragment fragments name = some f) : f.name.item = name := by
  simpa using List.find?_some h

theorem mem_names_of_findFragment {fragments : List Fragment} {name : String}
    (h : (findFragment fragments name).isSome) : name ∈ fragments.map (·.name.item) := by
  obtain ⟨f, hf⟩ := Option.isSome_iff_exists.mp h
  exact List.mem_map.mpr ⟨f, mem_of_findFragment hf, name_of_findFragment hf⟩

theorem acyclic_of_rank {α : Type} {R : α → α → Prop} (rank : α → Nat)
    (h : ∀ a b, R a b → rank b < rank a) (a : α) : ¬ Relation.TransGen R a a := by
  have hrank {a b : α} (hinside : Relation.TransGen R a b) : rank b < rank a := by
    induction hinside with
    | single hab => exact h _ _ hab
    | tail _ hab ih => exact Nat.lt_trans (h _ _ hab) ih
  exact fun hinside => Nat.lt_irrefl _ (hrank hinside)

/-- What is related to nothing that comes back to it is ranked by how much comes after it. -/
theorem exists_rank {α : Type} (names : List α) {R : α → α → Prop}
    (hacyclic : ∀ a, ¬ Relation.TransGen R a a) : ∃ rank : α → Nat,
    (∀ a ∈ names, rank a < names.length) ∧ ∀ a b, R a b → b ∈ names → rank b < rank a := by
  classical
  let inside (a : α) := names.toFinset.filter (Relation.TransGen R a)
  refine ⟨fun a => (inside a).card, fun a ha => ?_, fun a b hab hb => ?_⟩
  · have hinside : inside a ⊂ names.toFinset :=
      Finset.filter_ssubset.mpr ⟨a, List.mem_toFinset.mpr ha, hacyclic a⟩
    exact Nat.lt_of_lt_of_le (Finset.card_lt_card hinside) names.toFinset_card_le
  · have hsubset : inside b ⊆ inside a :=
      Finset.monotone_filter_right names.toFinset fun _ _ => .head hab
    refine Finset.card_lt_card ((Finset.ssubset_iff_of_subset hsubset).mpr ⟨b, ?_, ?_⟩)
    · exact Finset.mem_filter.mpr ⟨List.mem_toFinset.mpr hb, .single hab⟩
    · exact fun hinside => hacyclic b (Finset.mem_filter.mp hinside).2

theorem exists_fragmentRank (fragments : List Fragment) {R : String → String → Prop}
    (hacyclic : ∀ name, ¬ Relation.TransGen R name name) : ∃ rank : String → Nat,
    (∀ name, (findFragment fragments name).isSome → rank name < fragments.length) ∧
    ∀ name other, R name other → (findFragment fragments other).isSome → rank other < rank name := by
  obtain ⟨rank, hbound, hrank⟩ := exists_rank (fragments.map (·.name.item)) hacyclic
  rw [List.length_map] at hbound
  exact ⟨rank, fun name hname => hbound name (mem_names_of_findFragment hname),
    fun name other h hother => hrank name other h (mem_names_of_findFragment hother)⟩

namespace Document

variable {d : Document}

theorem Inlinable.layered (h : d.Inlinable) (hplain : d.plain = d) : ∃ rank,
    Layered d.fragments rank ∧
      ∀ o ∈ d.operations, Ranked d.fragments rank d.fragments.length o.selections := by
  obtain ⟨rank, hbound, hrank⟩ := exists_fragmentRank d.fragments h.acyclic
  have hplainly : d.rewrite plainly = d := hplain
  refine ⟨rank, ⟨fun name f hf => ⟨?_, fun other hother => ?_⟩, h.unbound⟩, fun o ho => ⟨?_, ?_⟩⟩
  · have hfragments := (d.fragments_rewrite plainly).symm.trans (congrArg fragments hplainly)
    have hplainFragment := List.map_inj_left.mp (hfragments.trans (List.map_id _).symm)
    exact congrArg Fragment.selections (hplainFragment f (mem_of_findFragment hf))
  · have hknown := h.known other <| List.mem_append_right _ <|
      List.mem_flatMap.mpr ⟨f, mem_of_findFragment hf, hother⟩
    exact ⟨hknown, hrank name other ⟨f, hf, hother⟩ hknown⟩
  · have hoperations := (d.operations_rewrite plainly).symm.trans (congrArg operations hplainly)
    have hplainOperation := List.map_inj_left.mp (hoperations.trans (List.map_id _).symm)
    exact congrArg Operation.selections (hplainOperation o ho)
  · intro name hname
    have hknown := h.known name <| List.mem_append_left _ <| List.mem_flatMap.mpr ⟨o, ho, hname⟩
    exact ⟨hknown, hbound name hknown⟩

end Document

/-! ## Selections with fragments inlined -/

section

variable {fragments : List Fragment} {rank : String → Nat} {k : Nat} {selections : List Selection}
  {enter enter' : List Selection → List Selection}

theorem splicedAll_congr (h : Ranked fragments rank k selections)
    (henter : ∀ name f, findFragment fragments name = some f → rank name < k →
      enter f.selections = enter' f.selections) :
    Selection.splicedAll fragments enter selections = Selection.splicedAll fragments enter' selections := by
  induction selections using Selection.induct with
  | nil => rfl
  | field span head selections rest ih ihRest =>
    obtain ⟨-, hselections, hrest⟩ := Ranked.field_iff.mp h
    simp only [Selection.splicedAll, Selection.spliced, ih hselections, ihRest hrest]
  | inline span head selections rest ih ihRest =>
    obtain ⟨-, hselections, hrest⟩ := Ranked.inline_iff.mp h
    simp only [Selection.splicedAll, Selection.spliced, ih hselections, ihRest hrest]
  | spread span s rest ihRest =>
    obtain ⟨-, ⟨f, hf⟩, hrank, hrest⟩ := h.spread
    simp only [Selection.splicedAll, Selection.spliced, hf, henter _ f hf hrank, ihRest hrest]

theorem splicedAll_of_spreads (h : Selection.spreadsAll selections = []) :
    Selection.splicedAll fragments enter selections = selections := by
  induction selections using Selection.induct with
  | nil => rfl
  | field span head selections rest ih ihRest | inline span head selections rest ih ihRest =>
    obtain ⟨hselections, hrest⟩ := List.append_eq_nil_iff.mp h
    simp only [Selection.splicedAll, Selection.spliced, ih hselections, ihRest hrest]
  | spread => cases h

theorem ranked_splicedAll (h : Ranked fragments rank k selections)
    (henter : ∀ name f, findFragment fragments name = some f → rank name < k →
      Ranked fragments rank 0 (enter f.selections)) :
    Ranked fragments rank 0 (Selection.splicedAll fragments enter selections) := by
  induction selections using Selection.induct with
  | nil => exact .nil
  | field span head selections rest ih ihRest =>
    obtain ⟨hhead, hselections, hrest⟩ := Ranked.field_iff.mp h
    exact Ranked.field_iff.mpr ⟨hhead, ih hselections, ihRest hrest⟩
  | inline span head selections rest ih ihRest =>
    obtain ⟨hhead, hselections, hrest⟩ := Ranked.inline_iff.mp h
    exact Ranked.inline_iff.mpr ⟨hhead, ih hselections, ihRest hrest⟩
  | spread span s rest ihRest =>
    obtain ⟨hs, ⟨f, hf⟩, hrank, hrest⟩ := h.spread
    simp only [Selection.splicedAll, Selection.spliced, hf]
    exact Ranked.inline_iff.mpr ⟨hs, henter _ f hf hrank, ihRest hrest⟩

end

namespace Layered

variable {fragments : List Fragment} {rank : String → Nat} (h : Layered fragments rank)
  {k depth depth' : Nat} {selections : List Selection}

include h

/-- How deep fragments are inlined makes no difference beyond their ranks. -/
theorem inlinedAll_eq (hselections : Ranked fragments rank k selections) (hdepth : k ≤ depth)
    (hdepth' : k ≤ depth') :
    Selection.inlinedAll fragments depth selections =
      Selection.inlinedAll fragments depth' selections := by
  induction depth generalizing k depth' selections with
  | zero =>
    obtain rfl := Nat.le_zero.mp hdepth
    cases depth' with
    | zero => rfl
    | succ => exact (splicedAll_of_spreads hselections.spreads_eq_nil).symm
  | succ depth ih =>
    cases depth' with
    | zero =>
      obtain rfl := Nat.le_zero.mp hdepth'
      exact splicedAll_of_spreads hselections.spreads_eq_nil
    | succ depth' =>
      exact splicedAll_congr hselections fun name f hf hrank =>
        ih (h.ranked name f hf) (by omega) (by omega)

theorem ranked_inlinedAll (hselections : Ranked fragments rank k selections) (hdepth : k ≤ depth) :
    Ranked fragments rank 0 (Selection.inlinedAll fragments depth selections) := by
  induction depth generalizing k selections with
  | zero =>
    obtain rfl := Nat.le_zero.mp hdepth
    exact hselections
  | succ depth ih =>
    exact ranked_splicedAll hselections fun name f hf hrank => ih (h.ranked name f hf) (by omega)

theorem inlinedAll_spread {span : Span} {s : Spread} {rest : List Selection} {f : Fragment}
    (hf : findFragment fragments s.name.item = some f) (hrank : rank s.name.item < depth) :
    Selection.inlinedAll fragments depth (.spread span s :: rest) =
      .inline span ⟨some f.typeCondition, s.directives⟩
        (Selection.inlinedAll fragments depth f.selections) ::
        Selection.inlinedAll fragments depth rest := by
  cases depth with
  | zero => cases hrank
  | succ depth =>
    have heq := h.inlinedAll_eq (h.ranked _ f hf) (Nat.le_of_lt hrank) (Nat.le_of_lt_succ hrank)
    simp only [heq]
    simp only [Selection.inlinedAll, Selection.splicedAll, Selection.spliced, hf]

end Layered

namespace Selection

variable (fragments : List Fragment) (depth : Nat) (span : Span) (selections rest : List Selection)

theorem inlinedAll_nil : inlinedAll fragments depth [] = [] := by cases depth <;> rfl

theorem inlinedAll_field (head : FieldHead) :
    inlinedAll fragments depth (field span head selections :: rest) =
      field span head (inlinedAll fragments depth selections) :: inlinedAll fragments depth rest := by
  cases depth <;> rfl

theorem inlinedAll_inline (head : InlineHead) :
    inlinedAll fragments depth (inline span head selections :: rest) =
      inline span head (inlinedAll fragments depth selections) :: inlinedAll fragments depth rest := by
  cases depth <;> rfl

end Selection

end GraphQL
