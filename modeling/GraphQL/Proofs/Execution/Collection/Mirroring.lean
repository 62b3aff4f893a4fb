import Mathlib.Data.List.Forall2
import GraphQL.Proofs.Execution.Collection.Inlining

/-! # Collecting with and without fragments

What is collected where fragments are inlined has the same keys in the same order, and the same first
use of each. As a fragment is not spread again on the same object, but an inline fragment is followed
each time, other uses may come again.
-/

namespace GraphQL

variable {σ α β : Type}

/-! ## Lists with members that come again -/

/-- Whether a list is another one with members put in that came before. -/
inductive Echoes : List α → List α → Prop
  | nil : Echoes [] []
  | new {l l'} (h : Echoes l l') (x : α) : Echoes (l ++ [x]) (l' ++ [x])
  | again {l l' x} (h : Echoes l l') (hx : x ∈ l) : Echoes l (l' ++ [x])

namespace Echoes

variable {l l' : List α}

theorem mem_iff (h : Echoes l l') {x : α} : x ∈ l' ↔ x ∈ l := by
  induction h with
  | nil => exact Iff.rfl
  | new _ y ih => rw [List.mem_append, List.mem_append, ih]
  | @again l l' y _ hy ih =>
    rw [List.mem_append, List.mem_singleton, ih]
    exact ⟨fun hx => hx.elim id fun heq => heq ▸ hy, .inl⟩

theorem map (h : Echoes l l') (f : α → β) : Echoes (l.map f) (l'.map f) := by
  induction h with
  | nil => exact .nil
  | new _ x ih =>
    rw [List.map_append, List.map_append]
    exact .new ih (f x)
  | again _ hx ih =>
    rw [List.map_append]
    exact .again ih (List.mem_map_of_mem hx)

theorem head? (h : Echoes l l') : l'.head? = l.head? := by
  induction h with
  | nil => rfl
  | new h x ih => rw [List.head?_append, List.head?_append, ih]
  | @again l l' x h hx ih =>
    cases l with
    | nil => cases hx
    | cons y l => rw [List.head?_append, ih, List.head?_cons, Option.some_or]

theorem eraseDups [BEq α] [LawfulBEq α] (h : Echoes l l') : l'.eraseDups = l.eraseDups := by
  have hremove {l l' : List α} (h : Echoes l l') (x : α) : [x].removeAll l' = [x].removeAll l := by
    simp only [List.removeAll, List.filter_cons, List.filter_nil, List.elem_eq_mem, h.mem_iff]
  induction h with
  | nil => rfl
  | new h x ih => rw [List.eraseDups_append, List.eraseDups_append, ih, hremove h]
  | @again l l' x h hx ih =>
    have hnone : [x].removeAll l = [] := by simp [List.removeAll, hx]
    rw [List.eraseDups_append, ih, hremove h, hnone, List.eraseDups_nil, List.append_nil]

end Echoes

/-! ## Collecting what is inlined -/

theorem findDirective_of_plain {directives : List (Located Directive)}
    (h : plainDirectives directives = directives) {name : String}
    (hname : name = "defer" ∨ name = "stream") : findDirective directives name = none := by
  rw [findDirective, List.find?_eq_none]
  intro d hd
  rw [← h] at hd
  have hkept := (List.mem_filter.mp hd).2
  simp only [Directive.isDelaying] at hkept
  rcases hname with rfl | rfl <;> simp_all

namespace CollectionContext

variable (ctx : CollectionContext σ)

theorem deferLabel?_of_plain {fragmentVariables : Option FragmentVariables}
    {directives : List (Located Directive)} (h : plainDirectives directives = directives) :
    ctx.deferLabel? fragmentVariables directives = none := by
  rw [deferLabel?, directiveArguments?, findDirective_of_plain h (.inl rfl)]
  rfl

mutual

/-- The uses of fields that a selection without spreads selects, in order. -/
def selected : Selection → List FieldUse
  | .field span head selections =>
    if ctx.isExcluded none head.directives then [] else [⟨⟨head, span, selections⟩, none⟩]
  | .inline _ head selections =>
    if ctx.isExcluded none head.directives
      || head.typeCondition.any fun t => !ctx.schema.conditionApplies t.item ctx.object then []
    else selectedAll selections
  | .spread _ _ => []

def selectedAll : List Selection → List FieldUse
  | [] => []
  | selection :: rest => selected selection ++ selectedAll rest

end

theorem isExcluded_within (inner : List Fragment) (fragmentVariables : Option FragmentVariables)
    (directives : List (Located Directive)) :
    ({ ctx with fragments := inner } : CollectionContext σ).isExcluded fragmentVariables directives =
      ctx.isExcluded fragmentVariables directives := rfl

theorem collectAll_selected {fragments inner : List Fragment} {rank : String → Nat}
    {enter : FragmentEntry} {selections : List Selection}
    (h : Ranked fragments rank 0 selections) (s : Collecting) :
    ({ ctx with fragments := inner } : CollectionContext σ).collectAll enter none selections s =
      some { s with found := (ctx.selectedAll selections).foldl Collected.add s.found } := by
  induction selections using Selection.induct generalizing s with
  | nil => rfl
  | field span head selections rest ih ihRest =>
    obtain ⟨-, -, hrest⟩ := Ranked.field_iff.mp h
    simp only [collectAll, collectSelection, selectedAll, selected, isExcluded_within]
    by_cases hexcluded : ctx.isExcluded none head.directives = true <;>
      simp [hexcluded, ihRest hrest]
  | inline span head selections rest ih ihRest =>
    obtain ⟨hhead, hselections, hrest⟩ := Ranked.inline_iff.mp h
    simp only [collectAll, collectSelection, selectedAll, selected, isExcluded_within,
      deferLabel?_of_plain _ hhead, deferring, ih hselections]
    by_cases hskipped : (ctx.isExcluded none head.directives
        || head.typeCondition.any fun t => !ctx.schema.conditionApplies t.item ctx.object) = true <;>
      simp [hskipped, ihRest hrest]
  | spread span spread => cases h.spreads_eq_nil

end CollectionContext

/-! ## What is found, and what is found again -/

/-- The same use of a field, with fragments in place of their spreads inside of it. -/
def FieldUse.inlined (fragments : List Fragment) (depth : Nat) (use : FieldUse) : FieldUse :=
  { use with node := { use.node with
    selections := Selection.inlinedAll fragments depth use.node.selections } }

/-- Whether groups have the same keys, and the uses on the right are those on the left as `f` makes
them, some of them again. -/
def FieldGroups.Mirrors (f : FieldUse → FieldUse) (groups groups' : FieldGroups) : Prop :=
  List.Forall₂ (fun group group' => group.1 = group'.1 ∧ Echoes (group.2.map f) group'.2) groups groups'

structure Collected.Mirrors (f : FieldUse → FieldUse) (c c' : Collected) : Prop where
  groups : FieldGroups.Mirrors f c.groups c'.groups
  deferred : c.deferred = []
  deferred' : c'.deferred = []

namespace FieldGroups.Mirrors

variable {f : FieldUse → FieldUse} {groups groups' : FieldGroups} {key : String}

theorem add (h : FieldGroups.Mirrors f groups groups') (u : FieldUse) :
    FieldGroups.Mirrors f (groups.add key u) (groups'.add key (f u)) := by
  induction h with
  | nil => exact .cons ⟨rfl, .new .nil _⟩ .nil
  | @cons group group' groups groups' hgroup hrest ih =>
    obtain ⟨k, uses⟩ := group
    obtain ⟨k', uses'⟩ := group'
    obtain ⟨rfl, huses⟩ := hgroup
    unfold FieldGroups.add
    split
    · refine .cons ⟨rfl, ?_⟩ hrest
      rw [List.map_append]
      exact .new huses (f u)
    · exact .cons ⟨rfl, huses⟩ ih

theorem again (h : FieldGroups.Mirrors f groups groups') (hnodup : (groups'.map Prod.fst).Nodup)
    {x : FieldUse} {uses : List FieldUse} (hgroup : (key, uses) ∈ groups') (hx : x ∈ uses) :
    FieldGroups.Mirrors f groups (groups'.add key x) := by
  induction h with
  | nil => cases hgroup
  | @cons first group' groups groups' hfirst hrest ih =>
    obtain ⟨k, others⟩ := group'
    obtain ⟨hkey, hothers⟩ := hfirst
    rw [List.map_cons, List.nodup_cons] at hnodup
    unfold FieldGroups.add
    split
    · next heq =>
      subst heq
      rcases List.mem_cons.mp hgroup with heq | hgroup
      · obtain ⟨-, rfl⟩ := Prod.mk.inj heq
        exact .cons ⟨hkey, .again hothers (hothers.mem_iff.mp hx)⟩ hrest
      · exact absurd (List.mem_map_of_mem hgroup) hnodup.1
    · next hne =>
      rcases List.mem_cons.mp hgroup with heq | hgroup
      · exact absurd (Prod.mk.inj heq).1.symm hne
      · exact .cons ⟨hkey, hothers⟩ (ih hnodup.2 hgroup)

end FieldGroups.Mirrors

theorem Collected.Mirrors.again {f : FieldUse → FieldUse} {c c' : Collected} (h : c.Mirrors f c')
    (hgrouped : c'.Grouped) {x : FieldUse} (hx : c'.Has x) : c.Mirrors f (c'.add x) := by
  refine ⟨?_, h.deferred, h.deferred'⟩
  cases hx with
  | group hgroup huse =>
    obtain rfl := (hgrouped.uses hgroup).2 x huse
    exact h.groups.again hgrouped.keys hgroup huse
  | deferred hfragment => simp [h.deferred'] at hfragment

theorem has_addAll {c : Collected} {uses : List FieldUse} {u : FieldUse} :
    (uses.foldl Collected.add c).Has u ↔ c.Has u ∨ u ∈ uses := by
  induction uses generalizing c with
  | nil => simp
  | cons use uses ih =>
    rw [List.foldl_cons, ih, Collected.has_add, List.mem_cons, or_comm (a := u = use), or_assoc]

/-- Whether a use is not inside of a fragment with variables, is delayed by nothing, and can be
inlined. -/
structure FieldUse.Inlinable (fragments : List Fragment) (rank : String → Nat) (depth : Nat)
    (use : FieldUse) : Prop where
  unbound : use.fragmentVariables = none
  plain : plainDirectives use.node.directives = use.node.directives
  ranked : Ranked fragments rank depth use.node.selections

/-- Whether the same was found in selections as where they are inlined. Of the fragments below a rank,
those that are not entered again have been found as a whole. -/
structure Collecting.Mirrors (ctx : CollectionContext σ) (rank : String → Nat) (depth k : Nat)
    (s : Collecting) (c : Collected) : Prop where
  found : s.found.Mirrors (FieldUse.inlined ctx.fragments depth) c
  grouped : c.Grouped
  inlinable : ∀ use, s.found.Has use → use.Inlinable ctx.fragments rank depth
  covered : ∀ name ∈ s.visited, rank name < k → ∀ fragment, ctx.fragment? name = some fragment →
    ∀ use ∈ ctx.selectedAll (Selection.inlinedAll ctx.fragments depth fragment.selections), c.Has use

namespace Collecting.Mirrors

variable {ctx : CollectionContext σ} {rank : String → Nat} {depth k : Nat} {s : Collecting}
  {c : Collected}

theorem add (h : s.Mirrors ctx rank depth k c) {use : FieldUse}
    (huse : use.Inlinable ctx.fragments rank depth) :
    Collecting.Mirrors ctx rank depth k { s with found := s.found.add use }
      (c.add (use.inlined ctx.fragments depth)) where
  found := ⟨h.found.groups.add use, h.found.deferred, h.found.deferred'⟩
  grouped := h.grouped.add _
  inlinable u hu := (Collected.has_add.mp hu).elim (fun heq => heq ▸ huse) (h.inlinable u)
  covered name hname hrank fragment hfragment u hu :=
    Collected.has_add.mpr (.inr (h.covered name hname hrank fragment hfragment u hu))

theorem again (h : s.Mirrors ctx rank depth k c) {uses : List FieldUse} (huses : ∀ u ∈ uses, c.Has u) :
    s.Mirrors ctx rank depth k (uses.foldl Collected.add c) := by
  induction uses generalizing c with
  | nil => exact h
  | cons use uses ih =>
    obtain ⟨huse, huses⟩ := List.forall_mem_cons.mp huses
    have hkeeps {u : FieldUse} (hu : c.Has u) : (c.add use).Has u := Collected.has_add.mpr (.inr hu)
    refine ih ⟨h.found.again h.grouped huse, h.grouped.add use, h.inlinable, ?_⟩ fun u hu => hkeeps (huses u hu)
    exact fun name hname hrank fragment hfragment u hu =>
      hkeeps (h.covered name hname hrank fragment hfragment u hu)

/-- A fragment that is entered is not found as a whole, but of lower rank there is none. -/
theorem visiting (h : s.Mirrors ctx rank depth k c) {name : String} (hrank : rank name < k) :
    Collecting.Mirrors ctx rank depth (rank name) { s with visited := name :: s.visited } c where
  found := h.found
  grouped := h.grouped
  inlinable := h.inlinable
  covered other hother hbelow := by
    rcases List.mem_cons.mp hother with rfl | hother
    · exact absurd hbelow (Nat.lt_irrefl _)
    · exact h.covered other hother (Nat.lt_trans hbelow hrank)

theorem empty : Collecting.start.Mirrors ctx rank depth k .empty where
  found := ⟨.nil, rfl, rfl⟩
  grouped := .empty
  inlinable _ hu := (Collected.not_has_empty hu).elim
  covered _ hname := nomatch hname

end Collecting.Mirrors

namespace CollectionContext

variable {ctx : CollectionContext σ} {rank : String → Nat} {depth : Nat}
  (hfragments : Layered ctx.fragments rank)

/-- Whether collecting leads from one state to another while the given uses are found where fragments are
inlined. It enters no fragments but those below a rank. -/
structure Tracks (ctx : CollectionContext σ) (rank : String → Nat) (depth k : Nat)
    (uses : List FieldUse) (s s' : Collecting) (c : Collected) : Prop where
  mirrors : s'.Mirrors ctx rank depth k (uses.foldl Collected.add c)
  visited : ∀ name ∈ s'.visited, name ∈ s.visited ∨ rank name < k

theorem Tracks.trans {k : Nat} {uses uses' : List FieldUse} {s s₁ s' : Collecting} {c : Collected}
    (h : ctx.Tracks rank depth k uses s s₁ c)
    (h' : ctx.Tracks rank depth k uses' s₁ s' (uses.foldl Collected.add c)) :
    ctx.Tracks rank depth k (uses ++ uses') s s' c := by
  refine ⟨by rw [List.foldl_append]; exact h'.mirrors, fun name hname => ?_⟩
  exact (h'.visited name hname).elim (h.visited name) .inr

theorem Tracks.nothing {k : Nat} {s : Collecting} {c : Collected} (h : s.Mirrors ctx rank depth k c) :
    ctx.Tracks rank depth k [] s s c := ⟨h, fun _ => .inl⟩

/-- Collects what is below a use of a field. -/
def collectBelow (ctx : CollectionContext σ) (d : Nat) (s : Collecting) (use : FieldUse) :
    Option Collecting := ctx.collectWithin d use.node.selections use.fragmentVariables s

theorem collectSubfields_eq (d : Nat) (uses : List FieldUse) :
    ctx.collectSubfields d uses = (uses.foldlM (ctx.collectBelow d) .start).map (·.found) := rfl

/-- Whether entering fragments below a rank finds the same as where they are inlined. -/
def EntersBelow (ctx : CollectionContext σ) (rank : String → Nat) (depth k : Nat)
    (enter : FragmentEntry) : Prop :=
  ∀ name fragment s c, findFragment ctx.fragments name = some fragment → rank name < k →
    s.Mirrors ctx rank depth (rank name) c → ∃ s', enter fragment.selections none s = some s' ∧
      ctx.Tracks rank depth (rank name)
        (ctx.selectedAll (Selection.inlinedAll ctx.fragments depth fragment.selections)) s s' c

theorem tracks_cons {enter : FragmentEntry} {k : Nat} {selection : Selection} {rest : List Selection}
    {uses uses' : List FieldUse} {s : Collecting} {c : Collected}
    (h : ∃ s₁, ctx.collectSelection enter none selection s = some s₁ ∧
      ctx.Tracks rank depth k uses s s₁ c)
    (hrest : ∀ {s : Collecting} {c : Collected}, s.Mirrors ctx rank depth k c →
      ∃ s', ctx.collectAll enter none rest s = some s' ∧ ctx.Tracks rank depth k uses' s s' c) :
    ∃ s', ctx.collectAll enter none (selection :: rest) s = some s' ∧
      ctx.Tracks rank depth k (uses ++ uses') s s' c := by
  obtain ⟨s₁, hfirst, htracks⟩ := h
  obtain ⟨s', hs', htracks'⟩ := hrest htracks.mirrors
  exact ⟨s', by rw [collectAll, hfirst]; exact hs', htracks.trans htracks'⟩

include hfragments

theorem tracks_collectSpread {enter : FragmentEntry} {k : Nat}
    (henter : ctx.EntersBelow rank depth k enter) {span : Span} {spread : Spread} {fragment : Fragment}
    (hplain : plainDirectives spread.directives = spread.directives)
    (hfound : findFragment ctx.fragments spread.name.item = some fragment)
    (hrank : rank spread.name.item < k) {s : Collecting} {c : Collected}
    (hs : s.Mirrors ctx rank depth k c) :
    ∃ s', ctx.collectSpread enter none spread s = some s' ∧
      ctx.Tracks rank depth k (ctx.selected (.inline span ⟨some fragment.typeCondition, spread.directives⟩
        (Selection.inlinedAll ctx.fragments depth fragment.selections))) s s' c := by
  unfold collectSpread selected
  simp only [deferLabel?_of_plain _ hplain, Option.isNone_none, if_true, hfound, Option.any_some]
  by_cases hexcluded : ctx.isExcluded none spread.directives = true
  · simp only [hexcluded, Bool.true_or, if_true]
    exact ⟨s, rfl, .nothing hs⟩
  simp only [hexcluded, Bool.false_or, List.contains_iff_mem]
  by_cases happlies : ctx.schema.conditionApplies fragment.typeCondition.item ctx.object = true
  · simp only [happlies, Bool.not_true, Bool.false_eq_true, if_false]
    have hfragment : ctx.fragment? spread.name.item = some fragment := by
      rw [fragment?, hfound, Option.filter_some, happlies]
      rfl
    by_cases hvisited : spread.name.item ∈ s.visited
    · simp only [hvisited, if_true]
      exact ⟨s, rfl, hs.again (hs.covered _ hvisited hrank fragment hfragment), fun _ => .inl⟩
    · -- The fragment is found as a whole while it is entered, as nothing inside of it is of its rank.
      have hunbound := hfragments.unbound fragment (mem_of_findFragment hfound)
      simp only [hvisited, if_false, hunbound, Option.map_none, deferring]
      obtain ⟨s', hs', htracks⟩ := henter _ fragment _ c hfound hrank (hs.visiting hrank)
      refine ⟨s', hs', ⟨htracks.mirrors.found, htracks.mirrors.grouped, htracks.mirrors.inlinable, ?_⟩, ?_⟩
      · intro name hname hbelow other hother u hu
        rcases htracks.visited name hname with hold | hlower
        · rcases List.mem_cons.mp hold with rfl | hold
          · obtain rfl := Option.some.inj (hfragment.symm.trans hother)
            exact has_addAll.mpr (.inr hu)
          · exact has_addAll.mpr (.inl (hs.covered name hold hbelow other hother u hu))
        · exact htracks.mirrors.covered name hname hlower other hother u hu
      · intro name hname
        rcases htracks.visited name hname with hold | hlower
        · rcases List.mem_cons.mp hold with rfl | hold
          · exact .inr hrank
          · exact .inl hold
        · exact .inr (Nat.lt_trans hlower hrank)
  · have hnone : ctx.fragment? spread.name.item = none := by
      rw [fragment?, hfound, Option.filter_some, if_neg happlies]
    simp only [happlies, Bool.not_false, if_true]
    split
    · exact ⟨s, rfl, .nothing hs⟩
    · refine ⟨_, rfl, ⟨hs.found, hs.grouped, hs.inlinable, fun name hname hbelow other hother => ?_⟩, ?_⟩
      · rcases List.mem_cons.mp hname with rfl | hold
        · rw [hnone] at hother
          cases hother
        · exact hs.covered name hold hbelow other hother
      · intro name hname
        rcases List.mem_cons.mp hname with rfl | hold
        · exact .inr hrank
        · exact .inl hold

theorem tracks_collectAll {enter : FragmentEntry} {k : Nat} (hk : k ≤ depth)
    (henter : ctx.EntersBelow rank depth k enter) {selections : List Selection}
    (h : Ranked ctx.fragments rank k selections) {s : Collecting}
    {c : Collected} (hs : s.Mirrors ctx rank depth k c) :
    ∃ s', ctx.collectAll enter none selections s = some s' ∧ ctx.Tracks rank depth k
      (ctx.selectedAll (Selection.inlinedAll ctx.fragments depth selections)) s s' c := by
  induction selections using Selection.induct generalizing s c with
  | nil =>
    rw [Selection.inlinedAll_nil]
    exact ⟨s, rfl, .nothing hs⟩
  | field span head selections rest ih ihRest =>
    obtain ⟨hhead, hselections, hrest⟩ := Ranked.field_iff.mp h
    rw [Selection.inlinedAll_field]
    refine tracks_cons ?_ fun hs => ihRest hrest hs
    unfold collectSelection selected
    split
    · exact ⟨s, rfl, .nothing hs⟩
    · exact ⟨_, rfl, hs.add ⟨rfl, hhead, hselections.mono hk⟩, fun _ => .inl⟩
  | inline span head selections rest ih ihRest =>
    obtain ⟨hhead, hselections, hrest⟩ := Ranked.inline_iff.mp h
    rw [Selection.inlinedAll_inline]
    refine tracks_cons ?_ fun hs => ihRest hrest hs
    unfold collectSelection selected
    split
    · exact ⟨s, rfl, .nothing hs⟩
    · rw [deferLabel?_of_plain _ hhead]
      exact ih hselections hs
  | spread span spread rest ihRest =>
    obtain ⟨hplain, ⟨fragment, hfound⟩, hrank, hrest⟩ := h.spread
    rw [hfragments.inlinedAll_spread hfound (by omega)]
    refine tracks_cons ?_ fun hs => ihRest hrest hs
    unfold collectSelection
    exact tracks_collectSpread hfragments henter hplain hfound hrank hs

theorem tracks_collectWithin {d k : Nat} (hk : k ≤ depth) (hd : k < d) {selections : List Selection}
    (h : Ranked ctx.fragments rank k selections) {s : Collecting} {c : Collected}
    (hs : s.Mirrors ctx rank depth k c) :
    ∃ s', ctx.collectWithin d selections none s = some s' ∧ ctx.Tracks rank depth k
      (ctx.selectedAll (Selection.inlinedAll ctx.fragments depth selections)) s s' c := by
  induction d generalizing k selections s c with
  | zero => cases hd
  | succ d ih =>
    refine tracks_collectAll hfragments hk ?_ h hs
    intro name fragment s c hfound hrank hs
    exact ih (by omega) (by omega) (hfragments.ranked name fragment hfound) hs

theorem collectWithin_inlined {d k : Nat} (hk : k ≤ depth) (hd : 0 < d) {selections : List Selection}
    (h : Ranked ctx.fragments rank k selections) (inner : List Fragment) (s : Collecting) :
    ({ ctx with fragments := inner } : CollectionContext σ).collectWithin d
      (Selection.inlinedAll ctx.fragments depth selections) none s =
      some { s with found := (ctx.selectedAll
        (Selection.inlinedAll ctx.fragments depth selections)).foldl Collected.add s.found } := by
  cases d with
  | zero => cases hd
  | succ d =>
    rw [collectWithin]
    exact collectAll_selected ctx (hfragments.ranked_inlinedAll h hk) s

theorem mirrors_collectFields {d : Nat} (hd : depth < d) {selections : List Selection}
    (h : Ranked ctx.fragments rank depth selections) (inner : List Fragment) :
    ∃ c c', ctx.collectFields d selections = some c ∧
      ({ ctx with fragments := inner } : CollectionContext σ).collectFields d
        (Selection.inlinedAll ctx.fragments depth selections) = some c' ∧
      c.Mirrors (FieldUse.inlined ctx.fragments depth) c' ∧
      ∀ use, c.Has use → use.Inlinable ctx.fragments rank depth := by
  obtain ⟨s, hs, htracks⟩ := tracks_collectWithin hfragments (Nat.le_refl _) hd h .empty
  refine ⟨s.found, _, by rw [collectFields, hs]; rfl, ?_, htracks.mirrors.found, htracks.mirrors.inlinable⟩
  rw [collectFields, collectWithin_inlined hfragments (Nat.le_refl _) (by omega) h]
  rfl

omit hfragments in
theorem foldlM_collectBelow {d : Nat} {uses : List FieldUse} {use : FieldUse} {s s' : Collecting}
    (h : uses.foldlM (ctx.collectBelow d) .start = some s) (hlast : ctx.collectBelow d s use = some s') :
    (uses ++ [use]).foldlM (ctx.collectBelow d) .start = some s' := by
  rw [List.foldlM_append, h]
  change ctx.collectBelow d s use >>= pure = some s'
  rw [hlast]
  rfl

theorem collectBelow_inlined {d : Nat} (hd : 0 < d) {use : FieldUse}
    (h : use.Inlinable ctx.fragments rank depth) (inner : List Fragment) (c : Collected) :
    ({ ctx with fragments := inner } : CollectionContext σ).collectBelow d ⟨[], c⟩
      (use.inlined ctx.fragments depth) = some ⟨[], (ctx.selectedAll
        (use.inlined ctx.fragments depth).node.selections).foldl Collected.add c⟩ := by
  have hwithin := collectWithin_inlined hfragments (Nat.le_refl _) hd h.ranked inner ⟨[], c⟩
  simp only [collectBelow, FieldUse.inlined, h.unbound, hwithin]

theorem mirrors_collectBelow {d : Nat} (hd : depth < d) {uses uses' : List FieldUse}
    (h : Echoes (uses.map (FieldUse.inlined ctx.fragments depth)) uses')
    (huses : ∀ use ∈ uses, use.Inlinable ctx.fragments rank depth) (inner : List Fragment) :
    ∃ s c', uses.foldlM (ctx.collectBelow d) .start = some s ∧
      uses'.foldlM (({ ctx with fragments := inner } : CollectionContext σ).collectBelow d) .start =
        some ⟨[], c'⟩ ∧
      s.Mirrors ctx rank depth depth c' ∧
      ∀ use ∈ uses', ∀ u ∈ ctx.selectedAll use.node.selections, c'.Has u := by
  have hpos := Nat.zero_lt_of_lt hd
  generalize huses' : uses.map (FieldUse.inlined ctx.fragments depth) = inlined at h
  induction h generalizing uses with
  | nil =>
    obtain rfl := List.map_eq_nil_iff.mp huses'
    exact ⟨.start, .empty, rfl, rfl, .empty, by simp⟩
  | @new l l' h x ih =>
    obtain ⟨before, last, rfl, rfl, hlast⟩ := List.map_eq_append_iff.mp huses'
    obtain ⟨use, rfl, rfl⟩ := List.map_eq_singleton_iff.mp hlast
    obtain ⟨hbefore, huse⟩ := List.forall_mem_append.mp huses
    have huse := huse use (List.mem_singleton_self use)
    obtain ⟨s, c', hs, hs', hmirrors, hfound⟩ := ih hbefore rfl
    obtain ⟨s₁, hs₁, htracks⟩ := tracks_collectWithin hfragments (Nat.le_refl _) hd huse.ranked hmirrors
    have hbelow : ctx.collectBelow d s use = some s₁ := by rw [collectBelow, huse.unbound, hs₁]
    refine ⟨s₁, _, foldlM_collectBelow hs hbelow,
      foldlM_collectBelow hs' (collectBelow_inlined hfragments hpos huse inner c'), htracks.mirrors, ?_⟩
    refine List.forall_mem_append.mpr ⟨fun x hx u hu => has_addAll.mpr (.inl (hfound x hx u hu)), ?_⟩
    rw [List.forall_mem_singleton]
    exact fun u hu => has_addAll.mpr (.inr hu)
  | @again l l' x h hx ih =>
    subst huses'
    obtain ⟨use, huse, rfl⟩ := List.mem_map.mp hx
    obtain ⟨s, c', hs, hs', hmirrors, hfound⟩ := ih huses rfl
    have hagain := hfound _ (h.mem_iff.mpr hx)
    refine ⟨s, _, hs, foldlM_collectBelow hs'
      (collectBelow_inlined hfragments hpos (huses use huse) inner c'), hmirrors.again hagain, ?_⟩
    refine List.forall_mem_append.mpr ⟨fun x hx u hu => has_addAll.mpr (.inl (hfound x hx u hu)), ?_⟩
    rw [List.forall_mem_singleton]
    exact fun u hu => has_addAll.mpr (.inl (hagain u hu))

theorem mirrors_collectSubfields {d : Nat} (hd : depth < d) {uses uses' : List FieldUse}
    (h : Echoes (uses.map (FieldUse.inlined ctx.fragments depth)) uses')
    (huses : ∀ use ∈ uses, use.Inlinable ctx.fragments rank depth) (inner : List Fragment) :
    ∃ c c', ctx.collectSubfields d uses = some c ∧
      ({ ctx with fragments := inner } : CollectionContext σ).collectSubfields d uses' = some c' ∧
      c.Mirrors (FieldUse.inlined ctx.fragments depth) c' ∧
      ∀ use, c.Has use → use.Inlinable ctx.fragments rank depth := by
  obtain ⟨s, c', hs, hs', hmirrors, -⟩ := mirrors_collectBelow hfragments hd h huses inner
  refine ⟨s.found, c', ?_, ?_, hmirrors.found, hmirrors.inlinable⟩
  · rw [collectSubfields_eq, hs]
    rfl
  · rw [collectSubfields_eq, hs']
    rfl

end CollectionContext

end GraphQL
