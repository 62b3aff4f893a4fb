import Mathlib.Data.Prod.Lex
import Mathlib.Data.String.Basic
import Mathlib.Data.List.Lex
import GraphQL.Proofs.Validation.Walk
import GraphQL.Proofs.Execution.Collection.Termination
import GraphQL.Proofs.Validation.Subscriptions

/-! # One walk for all rules

A rule sees the same events, and remembers the same, whether it follows a walk by itself or others
follow along. What rules find together is what each of them finds alone, and since no two errors
compare as equal, sorting leaves no trace of the order in which they were found.
-/

namespace GraphQL

variable {σ : Type}

/-! ## One rule -/

namespace Rule

/-- What a rule finds that follows a walk by itself. -/
def walk (ctx : Context σ) (rule : Rule) : Memory → List VisitEvent → Option (List RuleError)
  | _, [] => some []
  | memory, event :: events => do
    let (memory, errors) ← rule.follow ctx memory event
    return errors ++ (← rule.walk ctx memory events)

/-- What a rule finds in a document by itself, in the order in which it is found. -/
def findings (schema : Schema σ) (depth : Nat) (d : Document) (rule : Rule) :
    Option (List RuleError) :=
  rule.walk ⟨schema, d.fragments, depth⟩ .blank d.visits

theorem walk_cons_eq_some {ctx : Context σ} {rule : Rule} {memory : Memory} {event : VisitEvent}
    {events : List VisitEvent} {found : List RuleError} :
    rule.walk ctx memory (event :: events) = some found ↔
      ∃ memory' first later, rule.follow ctx memory event = some (memory', first) ∧
        rule.walk ctx memory' events = some later ∧ first ++ later = found := by
  constructor
  · intro h
    obtain ⟨⟨memory', first⟩, hfirst, h⟩ := Option.bind_eq_some_iff.mp h
    obtain ⟨later, hlater, h⟩ := Option.bind_eq_some_iff.mp h
    exact ⟨memory', first, later, hfirst, hlater, Option.some.inj h⟩
  · rintro ⟨memory', first, later, hfirst, hlater, rfl⟩
    refine Option.bind_eq_some_iff.mpr ⟨(memory', first), hfirst, ?_⟩
    exact Option.bind_eq_some_iff.mpr ⟨later, hlater, rfl⟩

/-! ### Deeper collection -/

variable {ctx : Context σ} {more : Nat}

theorem checkSubscription_mono (h : ctx.depth ≤ more) {o : Operation} {errors : List RuleError}
    (ho : checkSubscription ctx o = some errors) :
    checkSubscription { ctx with depth := more } o = some errors := by
  unfold checkSubscription at ho ⊢
  split at ho
  case h_1 object hkind hroot =>
    obtain ⟨collected, hcollected, hfound⟩ := Option.bind_eq_some_iff.mp ho
    obtain ⟨s, hs, rfl⟩ := Option.map_eq_some_iff.mp hcollected
    rw [hkind, hroot]
    refine Option.bind_eq_some_iff.mpr ⟨s.found, ?_, hfound⟩
    exact Option.map_eq_some_iff.mpr
      ⟨s, CollectionContext.collectWithin_mono h _ _ _ _ hs, rfl⟩
  case h_2 => exact ho

theorem enter_mono (h : ctx.depth ≤ more) {rule : Rule} {memory : Memory} {part : Visited}
    {next : Memory × List RuleError} (henter : rule.enter ctx memory part = some next) :
    rule.enter { ctx with depth := more } memory part = some next := by
  cases rule with
  | singleFieldSubscriptions =>
    cases part with
    | operation o =>
      obtain ⟨errors, herrors, rfl⟩ := Option.map_eq_some_iff.mp henter
      exact Option.map_eq_some_iff.mpr ⟨errors, checkSubscription_mono h herrors, rfl⟩
    | _ => exact henter
  | _ => cases part <;> exact henter

theorem walk_mono (h : ctx.depth ≤ more) {rule : Rule} {memory : Memory}
    {events : List VisitEvent} {found : List RuleError}
    (hwalk : rule.walk ctx memory events = some found) :
    rule.walk { ctx with depth := more } memory events = some found := by
  induction events generalizing memory found with
  | nil => exact hwalk
  | cons event events ih =>
    obtain ⟨memory', first, later, hfirst, hlater, rfl⟩ := walk_cons_eq_some.mp hwalk
    refine walk_cons_eq_some.mpr ⟨memory', first, later, ?_, ih hlater, rfl⟩
    unfold follow at hfirst ⊢
    split
    case isTrue henters =>
      rw [if_pos henters] at hfirst
      exact enter_mono h hfirst
    case isFalse hleaves => rwa [if_neg hleaves] at hfirst

theorem findings_mono {schema : Schema σ} {depth more : Nat} (h : depth ≤ more) {d : Document}
    {rule : Rule} {found : List RuleError} (hfound : rule.findings schema depth d = some found) :
    rule.findings schema more d = some found := by
  let ctx : Context σ := ⟨schema, d.fragments, depth⟩
  have hdepth : ctx.depth ≤ more := h
  exact walk_mono hdepth hfound

end Rule

/-! ## Several rules -/

namespace RuleSet

variable {ctx : Rule.Context σ} {rules : RuleSet} {rule : Rule} {memory : Rule.Memory}

theorem follow_cons_eq_some {event : VisitEvent} {next : RuleSet} {errors : List RuleError} :
    RuleSet.follow ctx event ((rule, memory) :: rules) = some (next, errors) ↔
      ∃ memory' own rest others, rule.follow ctx memory event = some (memory', own) ∧
        rules.follow ctx event = some (rest, others) ∧
        next = (rule, memory') :: rest ∧ errors = own ++ others := by
  constructor
  · intro h
    obtain ⟨⟨memory', own⟩, hown, h⟩ := Option.bind_eq_some_iff.mp h
    obtain ⟨⟨rest, others⟩, hothers, h⟩ := Option.bind_eq_some_iff.mp h
    cases h
    exact ⟨memory', own, rest, others, hown, hothers, rfl, rfl⟩
  · rintro ⟨memory', own, rest, others, hown, hothers, rfl, rfl⟩
    refine Option.bind_eq_some_iff.mpr ⟨(memory', own), hown, ?_⟩
    exact Option.bind_eq_some_iff.mpr ⟨(rest, others), hothers, rfl⟩

theorem walk_cons_eq_some {event : VisitEvent} {events : List VisitEvent}
    {found : List RuleError} :
    rules.walk ctx (event :: events) = some found ↔
      ∃ next first later, rules.follow ctx event = some (next, first) ∧
        next.walk ctx events = some later ∧ first ++ later = found := by
  constructor
  · intro h
    obtain ⟨⟨next, first⟩, hfirst, h⟩ := Option.bind_eq_some_iff.mp h
    obtain ⟨later, hlater, h⟩ := Option.bind_eq_some_iff.mp h
    exact ⟨next, first, later, hfirst, hlater, Option.some.inj h⟩
  · rintro ⟨next, first, later, hfirst, hlater, rfl⟩
    refine Option.bind_eq_some_iff.mpr ⟨(next, first), hfirst, ?_⟩
    exact Option.bind_eq_some_iff.mpr ⟨later, hlater, rfl⟩

theorem walk_nil_rules (events : List VisitEvent) : RuleSet.walk ctx events [] = some [] := by
  induction events with
  | nil => rfl
  | cons event events ih => exact walk_cons_eq_some.mpr ⟨[], [], [], rfl, ih, rfl⟩

theorem perm_append_append {α : Type} (a b c d : List α) :
    (a ++ b ++ (c ++ d)).Perm (a ++ c ++ (b ++ d)) := by
  rw [List.append_assoc, List.append_assoc]
  refine List.Perm.append_left a ?_
  rw [← List.append_assoc, ← List.append_assoc]
  exact List.Perm.append_right d List.perm_append_comm

/-- One more rule on a walk finds what it finds alone, and the others find what they found. -/
theorem walk_cons (events : List VisitEvent) {errors : List RuleError} :
    (∃ found, RuleSet.walk ctx events ((rule, memory) :: rules) = some found ∧
        found.Perm errors) ↔
      ∃ own others, rule.walk ctx memory events = some own ∧ rules.walk ctx events = some others ∧
        (own ++ others).Perm errors := by
  induction events generalizing memory rules errors with
  | nil => simp [RuleSet.walk, Rule.walk]
  | cons event events ih =>
    constructor
    · rintro ⟨found, hfound, herrors⟩
      obtain ⟨next, first, later, hfirst, hlater, rfl⟩ := walk_cons_eq_some.mp hfound
      obtain ⟨memory', own, rest, others, hown, hothers, rfl, rfl⟩ :=
        follow_cons_eq_some.mp hfirst
      obtain ⟨ownLater, othersLater, hownLater, hothersLater, hperm⟩ :=
        ih.mp ⟨later, hlater, .rfl⟩
      refine ⟨own ++ ownLater, others ++ othersLater,
        Rule.walk_cons_eq_some.mpr ⟨_, _, _, hown, hownLater, rfl⟩,
        walk_cons_eq_some.mpr ⟨_, _, _, hothers, hothersLater, rfl⟩, ?_⟩
      exact (perm_append_append _ _ _ _).trans ((hperm.append_left _).trans herrors)
    · rintro ⟨own, others, hown, hothers, herrors⟩
      obtain ⟨memory', own, ownLater, hfirst, hownLater, rfl⟩ := Rule.walk_cons_eq_some.mp hown
      obtain ⟨rest, others, othersLater, hrest, hothersLater, rfl⟩ :=
        walk_cons_eq_some.mp hothers
      obtain ⟨later, hlater, hperm⟩ := ih.mpr ⟨ownLater, othersLater, hownLater, hothersLater, .rfl⟩
      refine ⟨own ++ others ++ later, walk_cons_eq_some.mpr ⟨_, _, _,
        follow_cons_eq_some.mpr ⟨memory', own, rest, others, hfirst, hrest, rfl, rfl⟩,
        hlater, rfl⟩, ?_⟩
      exact (hperm.append_left _).trans ((perm_append_append _ _ _ _).trans herrors)

theorem walk_ofRules (events : List VisitEvent) (rules : List Rule) {errors : List RuleError} :
    (∃ found, (RuleSet.ofRules rules).walk ctx events = some found ∧ found.Perm errors) ↔
      (∀ rule ∈ rules, (rule.walk ctx .blank events).isSome) ∧
        (rules.flatMap fun rule => (rule.walk ctx .blank events).getD []).Perm errors := by
  induction rules generalizing errors with
  | nil => simp [RuleSet.ofRules, walk_nil_rules]
  | cons rule rules ih =>
    rw [RuleSet.ofRules, List.map_cons, walk_cons, List.forall_mem_cons, List.flatMap_cons]
    constructor
    · rintro ⟨own, others, hown, hothers, herrors⟩
      obtain ⟨hall, hperm⟩ := ih.mp ⟨others, hothers, .rfl⟩
      rw [hown]
      exact ⟨⟨rfl, hall⟩, (hperm.append_left own).trans herrors⟩
    · rintro ⟨⟨hown, hall⟩, herrors⟩
      obtain ⟨own, hown⟩ := Option.isSome_iff_exists.mp hown
      obtain ⟨others, hothers, hperm⟩ := ih.mpr ⟨hall, .rfl⟩
      rw [hown] at herrors
      exact ⟨own, others, hown, hothers, (hperm.append_left own).trans herrors⟩

end RuleSet

/-! ## Messages -/

namespace RuleProblem

/-- How the message of a problem begins. -/
def opening : RuleProblem → List Char
  | unknownFragment _ => ['U', 'n', 'k']
  | anonymousNotAlone => ['T', 'h', 'i']
  | severalRootFields none => ['A', 'n', 'o']
  | severalRootFields (some _) => ['S', 'u', 'b']
  | introspectionRootField none => ['A', 'n', 'o']
  | introspectionRootField (some _) => ['S', 'u', 'b']
  | repeatedLabel => ['D', 'e', 'f']
  | labelNotStatic _ => ['A', 'r', 'g']
  | repeatedOperation _ => ['T', 'h', 'e']

theorem take_append {text : String} (h : 3 ≤ text.toList.length) (rest : String) :
    (text ++ rest).toList.take 3 = text.toList.take 3 := by
  rw [String.toList_append, List.take_append_of_le_length h]

theorem take_append_append {text : String} (h : 3 ≤ text.toList.length) (name rest : String) :
    (text ++ name ++ rest).toList.take 3 = text.toList.take 3 := by
  rw [String.append_assoc, take_append h]

theorem take_title (name rest : String) :
    (subscriptionTitle (some name) ++ rest).toList.take 3 = ['S', 'u', 'b'] := by
  unfold subscriptionTitle
  rw [String.append_assoc]
  exact (take_append_append (by decide) _ _).trans (by decide)

theorem take_message (p : RuleProblem) : p.message.toList.take 3 = p.opening := by
  rcases p with name | _ | (_ | name) | (_ | name) | _ | name | name
  · exact (take_append_append (by decide) name _).trans rfl
  · decide
  · exact (take_append (by decide) _).trans (by decide)
  · exact take_title name _
  · exact (take_append (by decide) _).trans (by decide)
  · exact take_title name _
  · decide
  · exact (take_append_append (by decide) name _).trans rfl
  · exact (take_append_append (by decide) name _).trans rfl

theorem severalRootFields_ne (o o' : Option String) :
    (severalRootFields o).message ≠ (introspectionRootField o').message := by
  intro h
  have ending (text rest : String) (hrest : 17 < rest.toList.length) :
      (text ++ rest).toList.reverse[17]? = rest.toList.reverse[17]? := by
    rw [String.toList_append, List.reverse_append, List.getElem?_append_left (by simpa using hrest)]
  have hseveral := ending (subscriptionTitle o) " must select only one top level field." (by decide)
  have hintrospection := ending (subscriptionTitle o')
    " must not select an introspection top level field." (by decide)
  have heq := hseveral.symm.trans ((congrArg (·.toList.reverse[17]?) h).trans hintrospection)
  exact absurd heq (by decide)

theorem name_of_append_append {text rest name name' : String}
    (h : text ++ name ++ rest = text ++ name' ++ rest) : name = name' :=
  (String.append_right_inj _).mp ((String.append_left_inj _).mp h)

theorem message_injective : Function.Injective message := by
  intro p q h
  have hopening : p.opening = q.opening := by rw [← take_message, ← take_message, h]
  rcases p with name | _ | (_ | name) | (_ | name) | _ | name | name <;>
    rcases q with name' | _ | (_ | name') | (_ | name') | _ | name' | name' <;>
    try (simp [opening] at hopening; done)
  -- What is left are the pairs that begin alike.
  · rw [name_of_append_append h]
  · rfl
  · rfl
  · exact absurd h (severalRootFields_ne _ _)
  · rw [name_of_append_append ((String.append_left_inj _).mp h)]
  · exact absurd h (severalRootFields_ne _ _)
  · exact absurd h.symm (severalRootFields_ne _ _)
  · rfl
  · exact absurd h.symm (severalRootFields_ne _ _)
  · rw [name_of_append_append ((String.append_left_inj _).mp h)]
  · rfl
  · rw [name_of_append_append h]
  · rw [name_of_append_append h]

end RuleProblem

/-! ## Sorting -/

/-- A position as a triple that is compared from the left. -/
def Position.rank (p : Position) : Nat ×ₗ Nat ×ₗ Nat := toLex (p.index, toLex (p.line, p.column))

theorem Position.rank_injective : Function.Injective Position.rank := by
  rintro ⟨i, l, c⟩ ⟨i', l', c'⟩ h
  simp only [rank, toLex_inj, Prod.mk.injEq] at h
  obtain ⟨rfl, rfl, rfl⟩ := h
  rfl

theorem Position.before_iff (p q : Position) : p.before q ↔ p.rank < q.rank := by
  simp [before, rank, Prod.Lex.toLex_lt_toLex]

theorem positionsBefore_iff (ps qs : List Position) :
    positionsBefore ps qs ↔ ps.map Position.rank < qs.map Position.rank := by
  induction ps generalizing qs with
  | nil => cases qs <;> simp [positionsBefore]
  | cons p ps ih =>
    cases qs with
    | nil => simp [positionsBefore]
    | cons q qs =>
      simp [positionsBefore, Position.before_iff, ih, List.cons_lt_cons_iff,
        Position.rank_injective.eq_iff]

namespace RuleError

/-- An error as what it is sorted by. -/
def rank (e : RuleError) : List (Nat ×ₗ Nat ×ₗ Nat) ×ₗ String :=
  toLex (e.locations.map Position.rank, e.message)

theorem rank_injective : Function.Injective rank := by
  rintro ⟨p, ps⟩ ⟨q, qs⟩ h
  simp only [rank, toLex_inj, Prod.mk.injEq] at h
  obtain rfl := RuleProblem.message_injective h.2
  rw [List.map_injective_iff.mpr Position.rank_injective h.1]

theorem le_iff (a b : RuleError) : a.le b ↔ a.rank ≤ b.rank := by
  simp [le, rank, Prod.Lex.toLex_le_toLex, positionsBefore_iff,
    (List.map_injective_iff.mpr Position.rank_injective).eq_iff]

theorem sorted_perm (errors : List RuleError) : (sorted errors).Perm errors :=
  List.mergeSort_perm _ _

theorem sorted_pairwise (errors : List RuleError) : (sorted errors).Pairwise fun a b => a.le b := by
  refine List.pairwise_mergeSort (fun a b c hab hbc => ?_) (fun a b => ?_) errors
  · rw [le_iff] at hab hbc ⊢
    exact hab.trans hbc
  · rw [Bool.or_eq_true, le_iff, le_iff]
    exact le_total _ _

/-- No two errors compare as equal, so sorting leaves nothing of the order they were found in. -/
theorem sorted_eq {errors errors' : List RuleError} (h : errors.Perm errors')
    (hsorted : errors'.Pairwise fun a b => a.le b) : sorted errors = errors' := by
  refine List.Perm.eq_of_pairwise (fun a b _ _ hab hba => ?_) (sorted_pairwise errors) hsorted
    ((sorted_perm errors).trans h)
  rw [le_iff] at hab hba
  exact rank_injective (le_antisymm hab hba)

theorem sorted_eq_of_perm {errors errors' : List RuleError} (h : errors.Perm errors') :
    sorted errors = sorted errors' :=
  sorted_eq (h.trans (sorted_perm errors').symm) (sorted_pairwise errors')

end RuleError

/-! ## Validation -/

variable {schema : Schema σ} {depth : Nat} {d : Document} {rules : List Rule}
  {errors : List RuleError}

theorem validateBy_eq_some_iff : validateBy rules schema depth d = some errors ↔
    (∀ rule ∈ rules, (rule.findings schema depth d).isSome) ∧
      errors = RuleError.sorted
        (rules.flatMap fun rule => (rule.findings schema depth d).getD []) := by
  constructor
  · intro h
    obtain ⟨found, hfound, rfl⟩ := Option.map_eq_some_iff.mp h
    obtain ⟨hall, hperm⟩ := (RuleSet.walk_ofRules _ _).mp ⟨found, hfound, .rfl⟩
    exact ⟨hall, (RuleError.sorted_eq_of_perm hperm).symm⟩
  · rintro ⟨hall, rfl⟩
    obtain ⟨found, hfound, hperm⟩ := (RuleSet.walk_ofRules _ _).mpr ⟨hall, .rfl⟩
    exact Option.map_eq_some_iff.mpr ⟨found, hfound, RuleError.sorted_eq_of_perm hperm⟩

theorem validateBy_perm {rules' : List Rule} (h : rules.Perm rules') :
    validateBy rules schema depth d = validateBy rules' schema depth d := by
  refine Option.ext fun errors => ?_
  rw [validateBy_eq_some_iff, validateBy_eq_some_iff,
    RuleError.sorted_eq_of_perm (h.flatMap_right _)]
  exact and_congr_left' ⟨fun hall rule hrule => hall rule (h.mem_iff.mpr hrule),
    fun hall rule hrule => hall rule (h.mem_iff.mp hrule)⟩

theorem Rule.mem_all (rule : Rule) : rule ∈ Rule.all := by
  cases rule <;> decide

theorem validate_eq_some_iff : validate schema depth d = some errors ↔
    ∃ found : Rule → List RuleError, (∀ rule, rule.findings schema depth d = some (found rule)) ∧
      errors = RuleError.sorted (Rule.all.flatMap found) := by
  rw [validate, validateBy_eq_some_iff]
  constructor
  · rintro ⟨hall, rfl⟩
    refine ⟨fun rule => (rule.findings schema depth d).getD [], fun rule => ?_, rfl⟩
    obtain ⟨found, hfound⟩ := Option.isSome_iff_exists.mp (hall rule rule.mem_all)
    simp only [hfound, Option.getD_some]
  · rintro ⟨found, hfound, rfl⟩
    refine ⟨fun rule _ => by rw [hfound]; rfl, ?_⟩
    simp only [hfound, Option.getD_some]

/-- The rules of a document may be run together or each by itself, in any order: they come to an end
in the same cases, and what they find together is what each of them finds, sorted, with nothing
lost, repeated or changed. Where they come to an end, entering fragments more deeply finds the
same. -/
theorem rules_share_walk (schema : Schema σ) (depth : Nat) (d : Document) :
    (∀ rules : List Rule, rules.Perm Rule.all →
      validateBy rules schema depth d = validate schema depth d) ∧
    ((validate schema depth d).isSome ↔ ∀ rule : Rule, (rule.findings schema depth d).isSome) ∧
    ∀ errors, validate schema depth d = some errors →
      (∃ found : Rule → List RuleError,
        (∀ rule, rule.findings schema depth d = some (found rule)) ∧
        errors = RuleError.sorted (Rule.all.flatMap found) ∧
        errors.Perm (Rule.all.flatMap found)) ∧
      errors.Pairwise (fun a b => a.le b) ∧
      ∀ more, depth ≤ more → validate schema more d = some errors := by
  refine ⟨fun rules h => validateBy_perm h, ⟨fun h rule => ?_, fun h => ?_⟩, fun errors h => ?_⟩
  · obtain ⟨errors, herrors⟩ := Option.isSome_iff_exists.mp h
    exact (validateBy_eq_some_iff.mp herrors).1 rule rule.mem_all
  · exact Option.isSome_iff_exists.mpr ⟨_, validateBy_eq_some_iff.mpr ⟨fun rule _ => h rule, rfl⟩⟩
  · obtain ⟨found, hfound, rfl⟩ := validate_eq_some_iff.mp h
    refine ⟨⟨found, hfound, rfl, RuleError.sorted_perm _⟩, RuleError.sorted_pairwise _,
      fun more hmore => ?_⟩
    exact validate_eq_some_iff.mpr
      ⟨found, fun rule => Rule.findings_mono hmore (hfound rule), rfl⟩

/-- A column of the first line. -/
def sampleColumn (n : Nat) : Position := ⟨n, 0, n⟩

/-- Two anonymous subscriptions, one with an unknown fragment and two root fields, the other with two
parts of one label. -/
def sampleTangled : Document :=
  let spot (n : Nat) : Span := ⟨sampleColumn n, sampleColumn (n + 1)⟩
  let part (n : Nat) : Selection := .inline (spot n)
    ⟨none, [⟨⟨.nowhere "defer", some (.nowhere [sampleArgument "label" (.string "x")])⟩, spot n⟩]⟩
    [sampleMessage "message"]
  [.operation { sampleSubscription [
      .field (spot 10) ⟨none, ⟨"message", spot 10⟩, none, []⟩ [],
      .spread (spot 20) ⟨⟨"Missing", spot 23⟩, none, []⟩,
      .field (spot 40) ⟨none, ⟨"other", spot 40⟩, none, []⟩ []] with span := spot 0 },
    .operation { sampleSubscription [part 70, part 90] with span := spot 60 }]

/-- What is found in the document, in order. On the walk the unknown fragment is found after the root
fields, whose error comes later in the document. -/
def sampleFindings : List RuleError := [
  ⟨.anonymousNotAlone, [sampleColumn 0]⟩,
  ⟨.unknownFragment "Missing", [sampleColumn 23]⟩,
  ⟨.severalRootFields none, [sampleColumn 40]⟩,
  ⟨.anonymousNotAlone, [sampleColumn 60]⟩,
  ⟨.repeatedLabel, [sampleColumn 70, sampleColumn 90]⟩]

theorem sampleTangled_share_walk :
    validate (sampleFeeds : Schema Unit) 9 sampleTangled = some sampleFindings ∧
      validateBy Rule.all.reverse (sampleFeeds : Schema Unit) 9 sampleTangled =
        some sampleFindings ∧
      (∃ found : Rule → List RuleError,
        (∀ rule, rule.findings (sampleFeeds : Schema Unit) 9 sampleTangled = some (found rule)) ∧
        sampleFindings.Perm (Rule.all.flatMap found)) ∧
      validate (sampleFeeds : Schema Unit) 10 sampleTangled = some sampleFindings := by
  have hvalidate : validate (sampleFeeds : Schema Unit) 9 sampleTangled = some sampleFindings := by
    have hwalk : ((RuleSet.ofRules Rule.all).walk
        ⟨(sampleFeeds : Schema Unit), sampleTangled.fragments, 9⟩ sampleTangled.visits).any
          fun found => found.isPerm sampleFindings := by decide +kernel
    obtain ⟨found, hfound, hperm⟩ := (Option.any_eq_true _ _).mp hwalk
    refine Option.map_eq_some_iff.mpr ⟨found, hfound, ?_⟩
    exact RuleError.sorted_eq (List.isPerm_iff.mp hperm) (by decide +kernel)
  obtain ⟨horder, -, hrules⟩ := rules_share_walk (sampleFeeds : Schema Unit) 9 sampleTangled
  obtain ⟨⟨found, hfound, -, hperm⟩, -, hmore⟩ := hrules sampleFindings hvalidate
  exact ⟨hvalidate, (horder _ (List.reverse_perm _)).trans hvalidate, ⟨found, hfound, hperm⟩,
    hmore 10 (by decide)⟩

end GraphQL
