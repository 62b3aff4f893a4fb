import GraphQL.Validation.RuleSet

/-! # How rules follow a walk

All rules see each event, and each keeps to itself what it remembers. Where nothing is found at all,
no rule finds anything at any event.
-/

namespace GraphQL

variable {σ : Type}

namespace RuleSet

variable {ctx : Rule.Context σ} {rules : RuleSet}

theorem follow_rules {event : VisitEvent} {next : RuleSet} {errors : List RuleError}
    (h : rules.follow ctx event = some (next, errors)) :
    next.map Prod.fst = rules.map Prod.fst := by
  induction rules generalizing next errors with
  | nil =>
    obtain ⟨rfl, -⟩ := Prod.mk.inj (Option.some.inj h)
    rfl
  | cons entry rules ih =>
    obtain ⟨⟨memory, first⟩, -, h⟩ := Option.bind_eq_some_iff.mp h
    obtain ⟨⟨rest, others⟩, hrest, h⟩ := Option.bind_eq_some_iff.mp h
    obtain ⟨rfl, -⟩ := Prod.mk.inj (Option.some.inj h)
    rw [List.map_cons, List.map_cons, ih hrest]

theorem follow_nil {event : VisitEvent} {next : RuleSet}
    (h : rules.follow ctx event = some (next, [])) {rule : Rule}
    (hrule : rule ∈ rules.map Prod.fst) :
    ∃ memory memory', rule.follow ctx memory event = some (memory', []) := by
  induction rules generalizing next with
  | nil => cases hrule
  | cons entry rules ih =>
    obtain ⟨⟨memory, first⟩, hfirst, h⟩ := Option.bind_eq_some_iff.mp h
    obtain ⟨⟨rest, others⟩, hrest, h⟩ := Option.bind_eq_some_iff.mp h
    obtain ⟨-, hnone⟩ := Prod.mk.inj (Option.some.inj h)
    obtain ⟨rfl, rfl⟩ := List.append_eq_nil_iff.mp hnone
    rcases List.mem_cons.mp hrule with rfl | hrule
    · exact ⟨entry.2, memory, hfirst⟩
    · exact ih hrest hrule

theorem walk_nil {events : List VisitEvent} (h : rules.walk ctx events = some [])
    {event : VisitEvent} (hevent : event ∈ events) {rule : Rule}
    (hrule : rule ∈ rules.map Prod.fst) :
    ∃ memory memory', rule.follow ctx memory event = some (memory', []) := by
  induction events generalizing rules with
  | nil => cases hevent
  | cons first events ih =>
    obtain ⟨⟨next, errors⟩, hfollow, h⟩ := Option.bind_eq_some_iff.mp h
    obtain ⟨others, hothers, h⟩ := Option.bind_eq_some_iff.mp h
    obtain ⟨rfl, rfl⟩ := List.append_eq_nil_iff.mp (Option.some.inj h)
    rcases List.mem_cons.mp hevent with rfl | hevent
    · exact follow_nil hfollow hrule
    · exact ih hothers hevent (follow_rules hfollow ▸ hrule)

end RuleSet

theorem exists_walk_of_validate {schema : Schema σ} {depth : Nat} {d : Document}
    {errors : List RuleError} (h : validate schema depth d = some errors) :
    ∃ found, (RuleSet.ofRules Rule.all).walk ⟨schema, d.fragments, depth⟩ d.visits = some found ∧
      errors.Perm found := by
  obtain ⟨found, hwalk, rfl⟩ := Option.map_eq_some_iff.mp h
  exact ⟨found, hwalk, List.mergeSort_perm found _⟩

theorem walk_of_validate {schema : Schema σ} {depth : Nat} {d : Document}
    (h : validate schema depth d = some []) :
    (RuleSet.ofRules Rule.all).walk ⟨schema, d.fragments, depth⟩ d.visits = some [] := by
  obtain ⟨found, hwalk, hfound⟩ := exists_walk_of_validate h
  rwa [List.nil_perm.mp hfound] at hwalk

end GraphQL
