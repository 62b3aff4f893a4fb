import GraphQL.Validation.Rule

/-! # Validation

Several rules follow one walk over the document. Every event goes to all of them in turn.
-/

namespace GraphQL

/-- Rules on their way along a walk, with what they remember. -/
abbrev RuleSet := List (Rule × Rule.Memory)

namespace RuleSet

def ofRules (rules : List Rule) : RuleSet := rules.map fun rule => (rule, .blank)

variable {σ : Type} (ctx : Rule.Context σ)

/-- Shows an event to one rule after the other. -/
def follow (event : VisitEvent) : RuleSet → Option (RuleSet × List RuleError)
  | [] => some ([], [])
  | (rule, memory) :: rest => do
    let (memory, errors) ← rule.follow ctx memory event
    let (rest, others) ← follow event rest
    return ((rule, memory) :: rest, errors ++ others)

/-- Shows all events to the rules, and gathers what they find on the way. -/
def walk : List VisitEvent → RuleSet → Option (List RuleError)
  | [], _ => some []
  | event :: events, rules => do
    let (rules, errors) ← rules.follow ctx event
    return errors ++ (← walk events rules)

end RuleSet

/-- What some rules find in a document, in order. -/
def validateBy {σ : Type} (rules : List Rule) (schema : Schema σ) (depth : Nat) (d : Document) :
    Option (List RuleError) :=
  (RuleSet.walk ⟨schema, d.fragments, depth⟩ d.visits (.ofRules rules)).map RuleError.sorted

/-- What all rules find in a document, in order. -/
def validate {σ : Type} (schema : Schema σ) (depth : Nat) (d : Document) :
    Option (List RuleError) :=
  validateBy Rule.all schema depth d

end GraphQL
