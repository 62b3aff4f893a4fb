import GraphQL.Proofs.Execution.Collection.Basic
import GraphQL.Proofs.Value.Merging
import GraphQL.Proofs.Validation.Walk

/-! # The labels of a document

`@defer` and `@stream` occur in a document in some order. Validation comes by all of them in that
order, and finds just those whose label is no string literal or was given to an earlier one.
-/

namespace GraphQL

variable {σ : Type}

/-! ## Occurrences -/

/-- What directives stand on. -/
inductive Bearer where
  | operation (o : Operation)
  | fragment (f : Fragment)
  | selection (s : Selection)

/-- A `@defer` or `@stream` where it is written. -/
structure Occurrence where
  bearer : Bearer
  directive : Located Directive

namespace Directive

def isIncremental (d : Directive) : Bool := d.name.item = "defer" || d.name.item = "stream"

/-- The literal that is given for the label. -/
def label? (d : Directive) : Option Literal := (d.arguments.bind (·.get? "label")).map (·.item)

/-- The label, if it is given as a string literal. -/
def labelText? (d : Directive) : Option String :=
  match d.label? with
  | some (.string s) => some s
  | _ => none

/-- Whether no label is given, or one that is a string literal. -/
def HasStaticLabel (d : Directive) : Prop := ∀ l ∈ d.label?, ∃ s, l = .string s

end Directive

def occurrencesOn (bearer : Bearer) (directives : List (Located Directive)) : List Occurrence :=
  (directives.filter (·.item.isIncremental)).map (⟨bearer, ·⟩)

mutual

def Selection.occurrences : Selection → List Occurrence
  | .field span head selections =>
    occurrencesOn (.selection (.field span head selections)) head.directives
      ++ selectionOccurrences selections
  | .spread span spread => occurrencesOn (.selection (.spread span spread)) spread.directives
  | .inline span head selections =>
    occurrencesOn (.selection (.inline span head selections)) head.directives
      ++ selectionOccurrences selections

def selectionOccurrences : List Selection → List Occurrence
  | [] => []
  | s :: rest => s.occurrences ++ selectionOccurrences rest

end

def Definition.occurrences : Definition → List Occurrence
  | .operation o => occurrencesOn (.operation o) o.directives ++ selectionOccurrences o.selections
  | .fragment f => occurrencesOn (.fragment f) f.directives ++ selectionOccurrences f.selections

/-- All occurrences of `@defer` and `@stream`, in the order in which they are written, but for
those on definitions of variables. -/
def Document.occurrences (d : Document) : List Occurrence := d.flatMap Definition.occurrences

/-! ## What is wrong with labels -/

/-- Whether an error is about a label. -/
def RuleError.isOfLabel (e : RuleError) : Bool :=
  match e.problem with
  | .repeatedLabel | .labelNotStatic _ => true
  | _ => false

/-- What is wrong with the label of a directive, after the `earlier` ones: it is no string literal,
or one that an earlier directive has. -/
def labelError? (earlier : List (Located Directive)) (d : Located Directive) : Option RuleError :=
  match d.item.label? with
  | none => none
  | some (.string s) => (earlier.find? fun e => e.item.labelText? = some s).map fun first =>
    ⟨.repeatedLabel, [first.start, d.start]⟩
  | some _ => some ⟨.labelNotStatic d.item.name.item, [d.start]⟩

/-- The errors about the labels of directives that come after the `earlier` ones. -/
def labelErrors (earlier : List (Located Directive)) : List (Located Directive) → List RuleError
  | [] => []
  | d :: rest => (labelError? earlier d).toList ++ labelErrors (earlier ++ [d]) rest

theorem labelError?_of_labelErrors {earlier ds : List (Located Directive)}
    (h : labelErrors earlier ds = []) {i : Nat} {d : Located Directive} (hd : ds[i]? = some d) :
    labelError? (earlier ++ ds.take i) d = none := by
  induction ds generalizing earlier i with
  | nil => simp at hd
  | cons first ds ih =>
    obtain ⟨hfirst, hrest⟩ := List.append_eq_nil_iff.mp h
    cases i with
    | zero =>
      obtain rfl : first = d := by simpa using hd
      simpa using hfirst
    | succ i =>
      have hd := ih hrest (by simpa using hd)
      simpa using hd

theorem hasStaticLabel_of_labelError? {earlier : List (Located Directive)} {d : Located Directive}
    (h : labelError? earlier d = none) : d.item.HasStaticLabel := by
  intro l hl
  rw [Option.mem_def] at hl
  unfold labelError? at h
  rw [hl] at h
  cases l with
  | string s => exact ⟨s, rfl⟩
  | _ => cases h

theorem label?_of_labelText? {d : Directive} {s : String} (h : d.labelText? = some s) :
    d.label? = some (.string s) := by
  unfold Directive.labelText? at h
  split at h
  · next hs =>
    obtain rfl := Option.some.inj h
    exact hs
  · cases h

theorem eq_of_labelErrors {ds : List (Located Directive)} (h : labelErrors [] ds = []) {s : String}
    {i j : Nat} {d e : Located Directive} (hi : ds[i]? = some d) (hj : ds[j]? = some e)
    (hd : d.item.labelText? = some s) (he : e.item.labelText? = some s) : i = j := by
  have hfirst {i j : Nat} {d e : Located Directive} (hi : ds[i]? = some d) (hj : ds[j]? = some e)
      (hd : d.item.labelText? = some s) (he : e.item.labelText? = some s) : ¬ i < j := by
    intro hlt
    have herror := labelError?_of_labelErrors h hj
    unfold labelError? at herror
    rw [label?_of_labelText? he, List.nil_append] at herror
    have hnone := List.find?_eq_none.mp (Option.map_eq_none_iff.mp herror) d
      (List.mem_of_getElem? (by rwa [List.getElem?_take_of_lt hlt]))
    simp [hd] at hnone
  have hij := hfirst hi hj hd he
  have hji := hfirst hj hi he hd
  omega

/-! ## The walk -/

/-- The directive that an event enters, if it is a `@defer` or `@stream`. -/
def VisitEvent.directive? (event : VisitEvent) : Option (Located Directive) :=
  match event with
  | ⟨true, .directive d⟩ => if d.item.isIncremental then some d else none
  | _ => none

section

variable {directives : List (Located Directive)}

theorem filterMap_directiveVisits (bearer : Bearer) :
    (directiveVisits directives).filterMap VisitEvent.directive? =
      (occurrencesOn bearer directives).map (·.directive) := by
  unfold directiveVisits occurrencesOn
  induction directives with
  | nil => rfl
  | cons d directives ih =>
    rw [List.flatMap_cons, List.filterMap_append, ih, List.filter_cons]
    cases hd : d.item.isIncremental <;> simp [around, VisitEvent.directive?, hd]

theorem filterMap_around {part : Visited} {inside : List VisitEvent}
    (hpart : VisitEvent.directive? ⟨true, part⟩ = none) :
    (around part inside).filterMap VisitEvent.directive? =
      inside.filterMap VisitEvent.directive? := by
  have hleft : VisitEvent.directive? ⟨false, part⟩ = none := rfl
  unfold around
  rw [List.filterMap_append, List.filterMap_cons_none hpart, List.filterMap_cons_none hleft,
    List.filterMap_nil, List.append_nil]

theorem filterMap_selectionVisits (selections : List Selection) :
    (selectionVisits selections).filterMap VisitEvent.directive? =
      (selectionOccurrences selections).map (·.directive) := by
  induction selections using Selection.induct with
  | nil => rfl
  | field span head selections rest ihInner ih =>
    rw [selectionVisits, Selection.visits, List.filterMap_append, filterMap_around rfl,
      List.filterMap_append, ihInner, ih, selectionOccurrences, Selection.occurrences,
      List.map_append, List.map_append, filterMap_directiveVisits]
  | spread span spread rest ih =>
    rw [selectionVisits, Selection.visits, List.filterMap_append, filterMap_around rfl, ih,
      selectionOccurrences, Selection.occurrences, List.map_append, filterMap_directiveVisits]
  | inline span head selections rest ihInner ih =>
    rw [selectionVisits, Selection.visits, List.filterMap_append, filterMap_around rfl,
      List.filterMap_append, ihInner, ih, selectionOccurrences, Selection.occurrences,
      List.map_append, List.map_append, filterMap_directiveVisits]

theorem filterMap_visits (d : Document) :
    d.visits.filterMap VisitEvent.directive? = d.occurrences.map (·.directive) := by
  have hdefinition (definition : Definition) :
      definition.visits.filterMap VisitEvent.directive? =
        definition.occurrences.map (·.directive) := by
    cases definition with
    | operation o =>
      rw [Definition.visits, filterMap_around rfl, List.filterMap_append,
        filterMap_selectionVisits, Definition.occurrences, List.map_append,
        filterMap_directiveVisits]
    | fragment f =>
      rw [Definition.visits, filterMap_around rfl, List.filterMap_append,
        filterMap_selectionVisits, Definition.occurrences, List.map_append,
        filterMap_directiveVisits]
  unfold Document.visits Document.occurrences
  rw [filterMap_around rfl]
  induction d with
  | nil => rfl
  | cons definition rest ih =>
    rw [List.flatMap_cons, List.flatMap_cons, List.filterMap_append, List.map_append, ih,
      hdefinition]

end

/-! ## The rule -/

namespace Rule

variable {ctx : Context σ} {memory memory' : Memory} {event : VisitEvent} {found : List RuleError}

/-- Whether a memory tells where each label was seen first. -/
def Memory.Knows (memory : Memory) (earlier : List (Located Directive)) : Prop :=
  ∀ s, memory.seen.get? s =
    (earlier.find? fun d => d.item.labelText? = some s).map (·.start)

theorem Memory.Knows.add {earlier : List (Located Directive)} {d : Located Directive}
    (h : memory.Knows earlier) (hd : d.item.labelText? = none) : memory.Knows (earlier ++ [d]) := by
  intro s
  rw [h s, List.find?_append]
  simp [hd]

theorem Memory.Knows.insert {earlier : List (Located Directive)} {d : Located Directive}
    {s : String}
    (h : memory.Knows earlier) (hs : memory.seen.get? s = none) (hd : d.item.labelText? = some s) :
    Memory.Knows { memory with seen := memory.seen.insert s d.start } (earlier ++ [d]) := by
  intro other
  rw [Entries.get?_insert, List.find?_append]
  split
  · next heq =>
    subst heq
    have hnone := Option.map_eq_none_iff.mp ((h other).symm.trans hs)
    simp [hnone, hd]
  · next hne =>
    rw [h other]
    simp [hd, Ne.symm hne]

theorem Memory.Knows.again {earlier : List (Located Directive)} {d : Located Directive} {s : String}
    (h : memory.Knows earlier) {first : Position} (hs : memory.seen.get? s = some first)
    (hd : d.item.labelText? = some s) : memory.Knows (earlier ++ [d]) := by
  intro other
  rw [h other, List.find?_append]
  by_cases heq : s = other
  · subst heq
    obtain ⟨e, he, -⟩ := Option.map_eq_some_iff.mp ((h s).symm.trans hs)
    simp [he]
  · simp [hd, heq]

theorem seeOnce_spec {earlier : List (Located Directive)} (h : memory.Knows earlier)
    {d : Located Directive} {s : String} (hd : d.item.labelText? = some s) :
    (seeOnce memory s d.start .repeatedLabel).2 =
        ((earlier.find? fun e => e.item.labelText? = some s).map fun first =>
          (⟨.repeatedLabel, [first.start, d.start]⟩ : RuleError)).toList ∧
      (seeOnce memory s d.start .repeatedLabel).1.Knows (earlier ++ [d]) := by
  have hseen := h s
  unfold seeOnce
  cases hfirst : earlier.find? fun e => e.item.labelText? = some s with
  | none =>
    rw [hfirst, Option.map_none] at hseen
    rw [hseen]
    exact ⟨rfl, h.insert hseen hd⟩
  | some first =>
    rw [hfirst, Option.map_some] at hseen
    rw [hseen]
    exact ⟨rfl, h.again hseen hd⟩

/-- The rule finds what is wrong with the label of a directive, and remembers the label. -/
theorem checkLabel_spec {earlier : List (Located Directive)} (h : memory.Knows earlier)
    {d : Located Directive} (hd : d.item.isIncremental) :
    (checkLabel memory d).2 = (labelError? earlier d).toList ∧
      (checkLabel memory d).1.Knows (earlier ++ [d]) := by
  have hname : (d.item.name.item != "defer" && d.item.name.item != "stream") = false := by
    simpa [Directive.isIncremental, or_iff_not_imp_left] using hd
  have hlabel : d.item.label? = (d.item.arguments.bind (·.get? "label")).map (·.item) := rfl
  simp only [checkLabel, hname, Bool.false_eq_true, if_false]
  unfold labelError?
  cases hgiven : d.item.arguments.bind (·.get? "label") with
  | none =>
    rw [hgiven, Option.map_none] at hlabel
    rw [hlabel]
    exact ⟨rfl, h.add (by simp [Directive.labelText?, hlabel])⟩
  | some label =>
    rw [hgiven, Option.map_some] at hlabel
    rw [hlabel]
    dsimp only
    cases hitem : label.item with
    | string s =>
      have htext : d.item.labelText? = some s := by simp [Directive.labelText?, hlabel, hitem]
      exact seeOnce_spec h htext
    | _ => exact ⟨rfl, h.add (by simp [Directive.labelText?, hlabel, hitem])⟩

theorem checkLabel_other {d : Located Directive} (hd : d.item.isIncremental = false) :
    checkLabel memory d = (memory, []) := by
  have hname : (d.item.name.item != "defer" && d.item.name.item != "stream") = true := by
    simpa [Directive.isIncremental] using hd
  simp only [checkLabel, hname, if_true]

theorem isOfLabel_of_labelError? {earlier : List (Located Directive)} {d : Located Directive}
    {e : RuleError} (h : e ∈ labelError? earlier d) : e.isOfLabel := by
  unfold labelError? at h
  split at h
  · cases h
  · obtain ⟨_, -, rfl⟩ := Option.map_eq_some_iff.mp h
    rfl
  · obtain rfl := Option.some.inj h
    rfl

theorem follow_uniqueLabels {earlier : List (Located Directive)} (h : memory.Knows earlier)
    (hfollow : uniqueLabels.follow ctx memory event = some (memory', found)) :
    match event.directive? with
    | some d => found = (labelError? earlier d).toList ∧ memory'.Knows (earlier ++ [d])
    | none => found = [] ∧ memory'.Knows earlier := by
  obtain ⟨enters, part⟩ := event
  cases enters with
  | false =>
    cases hfollow
    exact ⟨rfl, h⟩
  | true =>
    cases part with
    | directive d =>
      have hchecked : checkLabel memory d = (memory', found) := Option.some.inj hfollow
      unfold VisitEvent.directive?
      dsimp only
      cases hd : d.item.isIncremental with
      | true =>
        obtain ⟨hfound, hknows⟩ := checkLabel_spec h hd
        rw [hchecked] at hfound hknows
        exact ⟨hfound, hknows⟩
      | false =>
        rw [checkLabel_other hd] at hchecked
        cases hchecked
        exact ⟨rfl, h⟩
    | _ =>
      cases hfollow
      exact ⟨rfl, h⟩

theorem isOfLabel_checkSubscription {o : Operation} (h : checkSubscription ctx o = some found) :
    found.filter (·.isOfLabel) = [] := by
  unfold checkSubscription at h
  split at h
  · obtain ⟨collected, -, h⟩ := Option.bind_eq_some_iff.mp h
    obtain rfl := Option.some.inj h
    unfold rootFieldErrors
    rw [List.filter_append, List.append_eq_nil_iff, List.filter_map, List.map_eq_nil_iff]
    constructor
    · split <;> rfl
    · exact List.filter_eq_nil_iff.mpr fun _ _ => Bool.false_ne_true
  · cases h
    rfl

theorem isOfLabel_follow {rule : Rule} (hrule : rule ≠ uniqueLabels)
    (hfollow : rule.follow ctx memory event = some (memory', found)) :
    found.filter (·.isOfLabel) = [] := by
  obtain ⟨enters, part⟩ := event
  cases enters with
  | false =>
    cases hfollow
    rfl
  | true =>
    cases rule with
    | knownFragmentNames =>
      cases part with
      | spread span spread =>
        simp only [follow, enter, if_true] at hfollow
        split at hfollow <;> cases hfollow <;> rfl
      | _ =>
        cases hfollow
        rfl
    | loneAnonymousOperation =>
      cases part with
      | operation o =>
        simp only [follow, enter, if_true] at hfollow
        split at hfollow <;> cases hfollow <;> rfl
      | _ =>
        cases hfollow
        rfl
    | singleFieldSubscriptions =>
      cases part with
      | operation o =>
        obtain ⟨errors, hchecked, heq⟩ := Option.map_eq_some_iff.mp hfollow
        cases heq
        exact isOfLabel_checkSubscription hchecked
      | _ =>
        cases hfollow
        rfl
    | uniqueLabels => exact (hrule rfl).elim
    | uniqueOperationNames =>
      cases part with
      | operation o =>
        simp only [follow, enter, if_true] at hfollow
        split at hfollow
        · unfold seeOnce at hfollow
          split at hfollow <;> cases hfollow <;> rfl
        · cases hfollow
          rfl
      | _ =>
        cases hfollow
        rfl

end Rule

namespace RuleSet

variable {ctx : Rule.Context σ} {rules next : RuleSet} {event : VisitEvent}
  {errors : List RuleError}

theorem filter_follow_others (hrules : Rule.uniqueLabels ∉ rules.map Prod.fst)
    (h : rules.follow ctx event = some (next, errors)) : errors.filter (·.isOfLabel) = [] := by
  induction rules generalizing next errors with
  | nil =>
    cases h
    rfl
  | cons entry rules ih =>
    obtain ⟨⟨memory, first⟩, hfirst, h⟩ := Option.bind_eq_some_iff.mp h
    obtain ⟨⟨rest, others⟩, hrest, h⟩ := Option.bind_eq_some_iff.mp h
    cases h
    rw [List.map_cons, List.mem_cons, not_or] at hrules
    rw [List.filter_append, Rule.isOfLabel_follow (Ne.symm hrules.1) hfirst, ih hrules.2 hrest]
    rfl

theorem filter_follow (hrules : (rules.map Prod.fst).Nodup) {memory : Rule.Memory}
    (hmemory : (Rule.uniqueLabels, memory) ∈ rules)
    (h : rules.follow ctx event = some (next, errors)) :
    ∃ memory' found, Rule.uniqueLabels.follow ctx memory event = some (memory', found) ∧
      (Rule.uniqueLabels, memory') ∈ next ∧
      errors.filter (·.isOfLabel) = found.filter (·.isOfLabel) := by
  induction rules generalizing next errors with
  | nil => cases hmemory
  | cons entry rules ih =>
    obtain ⟨⟨memory', first⟩, hfirst, h⟩ := Option.bind_eq_some_iff.mp h
    obtain ⟨⟨rest, others⟩, hrest, h⟩ := Option.bind_eq_some_iff.mp h
    cases h
    rw [List.map_cons, List.nodup_cons] at hrules
    rcases List.mem_cons.mp hmemory with rfl | hmemory
    · refine ⟨memory', first, hfirst, List.mem_cons_self, ?_⟩
      rw [List.filter_append, filter_follow_others hrules.1 hrest, List.append_nil]
    · have hother : entry.1 ≠ Rule.uniqueLabels := by
        rintro heq
        exact hrules.1 (heq ▸ List.mem_map_of_mem (f := Prod.fst) hmemory)
      obtain ⟨memory'', found, hfollow, hnext, herrors⟩ := ih hrules.2 hmemory hrest
      refine ⟨memory'', found, hfollow, List.mem_cons_of_mem _ hnext, ?_⟩
      rw [List.filter_append, Rule.isOfLabel_follow hother hfirst, herrors]
      rfl

theorem filter_walk {events : List VisitEvent} (hrules : (rules.map Prod.fst).Nodup)
    {memory : Rule.Memory} (hmemory : (Rule.uniqueLabels, memory) ∈ rules)
    {earlier : List (Located Directive)} (hknows : memory.Knows earlier)
    (h : rules.walk ctx events = some errors) :
    errors.filter (·.isOfLabel) = labelErrors earlier (events.filterMap VisitEvent.directive?) := by
  induction events generalizing rules memory earlier errors with
  | nil =>
    cases h
    rfl
  | cons event events ih =>
    obtain ⟨⟨next, first⟩, hfollow, h⟩ := Option.bind_eq_some_iff.mp h
    obtain ⟨others, hothers, h⟩ := Option.bind_eq_some_iff.mp h
    cases h
    obtain ⟨memory', found, hrule, hnext, hfirst⟩ := filter_follow hrules hmemory hfollow
    have hrules' : (next.map Prod.fst).Nodup := follow_rules hfollow ▸ hrules
    have hspec := Rule.follow_uniqueLabels hknows hrule
    rw [List.filter_append, hfirst, List.filterMap_cons]
    cases hd : event.directive? with
    | none =>
      rw [hd] at hspec
      rw [hspec.1, ih hrules' hnext hspec.2 hothers]
      rfl
    | some d =>
      rw [hd] at hspec
      have hall : found.filter (·.isOfLabel) = found := by
        rw [hspec.1, List.filter_eq_self]
        exact fun e he => Rule.isOfLabel_of_labelError? (Option.mem_toList.mp he)
      rw [hall, hspec.1, ih hrules' hnext hspec.2 hothers]
      rfl

end RuleSet

/-- The errors that a document has about labels are just those of its occurrences of `@defer` and
`@stream`. -/
theorem labelErrors_of_validate {schema : Schema σ} {depth : Nat} {d : Document}
    {errors : List RuleError} (h : validate schema depth d = some errors) :
    (errors.filter (·.isOfLabel)).Perm (labelErrors [] (d.occurrences.map (·.directive))) := by
  obtain ⟨found, hwalk, hfound⟩ := exists_walk_of_validate h
  have hrules : ((RuleSet.ofRules Rule.all).map Prod.fst).Nodup := by decide
  have hmemory : (Rule.uniqueLabels, Rule.Memory.blank) ∈ RuleSet.ofRules Rule.all :=
    List.mem_map_of_mem (by decide)
  have hknows : Rule.Memory.blank.Knows [] := fun _ => rfl
  rw [← filterMap_visits, ← RuleSet.filter_walk hrules hmemory hknows hwalk]
  exact hfound.filter _

theorem hasStaticLabel_of_validate {schema : Schema σ} {depth : Nat} {d : Document}
    (h : validate schema depth d = some []) {o : Occurrence} (ho : o ∈ d.occurrences) :
    o.directive.item.HasStaticLabel := by
  have herrors := List.nil_perm.mp (labelErrors_of_validate h)
  obtain ⟨i, hi⟩ := List.mem_iff_getElem?.mp ho
  refine hasStaticLabel_of_labelError? (labelError?_of_labelErrors herrors (i := i) ?_)
  rw [List.getElem?_map, hi]
  rfl

theorem eq_of_validate {schema : Schema σ} {depth : Nat} {d : Document}
    (h : validate schema depth d = some []) {i j : Nat} {o o' : Occurrence}
    (hi : d.occurrences[i]? = some o) (hj : d.occurrences[j]? = some o') {s : String}
    (ho : o.directive.item.labelText? = some s) (ho' : o'.directive.item.labelText? = some s) :
    i = j := by
  have herrors := List.nil_perm.mp (labelErrors_of_validate h)
  refine eq_of_labelErrors herrors ?_ ?_ ho ho'
  · rw [List.getElem?_map, hi]
    rfl
  · rw [List.getElem?_map, hj]
    rfl

end GraphQL
