import GraphQL.Execution.Collection
import GraphQL.Validation.Error
import GraphQL.Validation.Visit

/-! # Validation rules

The rules that the executor relies on. A rule follows a walk and remembers what it needs. A rule
may fail to come to an end, where the fields of a subscription cannot be collected.
-/

namespace GraphQL

inductive Rule where
  | knownFragmentNames
  | loneAnonymousOperation
  | singleFieldSubscriptions
  | uniqueLabels
  | uniqueOperationNames
deriving DecidableEq, Repr, Inhabited

namespace Rule

/-- All rules, in order. -/
def all : List Rule :=
  [knownFragmentNames, loneAnonymousOperation, singleFieldSubscriptions, uniqueLabels,
    uniqueOperationNames]

def name : Rule → String
  | knownFragmentNames => "known_fragment_names"
  | loneAnonymousOperation => "lone_anonymous_operation"
  | singleFieldSubscriptions => "single_field_subscriptions"
  | uniqueLabels => "unique_defer_stream_labels"
  | uniqueOperationNames => "unique_operation_names"

def ofName? (s : String) : Option Rule := all.find? (·.name = s)

/-- What a rule remembers: how many operations there are, once it knows, and where it first saw the
labels or names that have to be unique. -/
structure Memory where
  operationCount : Option Nat
  seen : Entries Position

def Memory.blank : Memory := ⟨none, []⟩

/-- What rules look at besides the walk. -/
structure Context (σ : Type) where
  schema : Schema σ
  fragments : List Fragment
  /-- How deep fragments are entered when fields are collected. -/
  depth : Nat

variable {σ : Type} (ctx : Context σ)

/-- A name is seen at `p`; if it was seen before, that is a problem. -/
def seeOnce (memory : Memory) (name : String) (p : Position) (problem : RuleProblem) :
    Memory × List RuleError :=
  match memory.seen.get? name with
  | some first => (memory, [⟨problem, [first, p]⟩])
  | none => ({ memory with seen := memory.seen.insert name p }, [])

/-- The label of a `@defer` or `@stream`. -/
def checkLabel (memory : Memory) (d : Located Directive) : Memory × List RuleError :=
  let name := d.item.name.item
  if name != "defer" && name != "stream" then (memory, [])
  else match d.item.arguments.bind (·.get? "label") with
    | none => (memory, [])
    | some label =>
      match label.item with
      | .string s => seeOnce memory s d.start .repeatedLabel
      | _ => (memory, [⟨.labelNotStatic name, [d.start]⟩])

/-- The places of the uses of a field. -/
def places (uses : List FieldUse) : List Position := uses.map (·.node.span.start)

/-- What is wrong with the root fields of a subscription. -/
def rootFieldErrors (name : Option String) (groups : FieldGroups) : List RuleError :=
  (if 1 < groups.length then
    [⟨.severalRootFields name, (groups.drop 1).flatMap fun (_, uses) => places uses⟩] else [])
  ++ (groups.filter fun (_, uses) =>
      uses.head?.any fun use => use.node.name.item.startsWith "__").map fun (_, uses) =>
    ⟨.introspectionRootField name, places uses⟩

/-- Variables have no values yet, so directives that need one count as absent. -/
def checkSubscription (o : Operation) : Option (List RuleError) :=
  match o.kind, ctx.schema.root? .subscription with
  | .subscription, some object => do
    let collection : CollectionContext σ := ⟨ctx.schema, ctx.fragments, [], object⟩
    let collected ← collection.collectFields ctx.depth o.selections
    return rootFieldErrors o.name? collected.groups
  | _, _ => some []

/-- What a rule says when a part of the document is entered. -/
def enter (memory : Memory) : Rule → Visited → Option (Memory × List RuleError)
  | knownFragmentNames, .spread _ spread =>
    if (findFragment ctx.fragments spread.name.item).isSome then some (memory, [])
    else some (memory, [⟨.unknownFragment spread.name.item, [spread.name.start]⟩])
  | loneAnonymousOperation, .document d =>
    some ({ memory with operationCount := some d.operations.length }, [])
  | loneAnonymousOperation, .operation o =>
    if memory.operationCount.any (1 < ·) && o.name.isNone then
      some (memory, [⟨.anonymousNotAlone, [o.span.start]⟩])
    else some (memory, [])
  | singleFieldSubscriptions, .operation o =>
    (checkSubscription ctx o).map fun errors => (memory, errors)
  | uniqueLabels, .directive d => some (checkLabel memory d)
  | uniqueOperationNames, .operation o =>
    match o.name with
    | some name => some (seeOnce memory name.item o.span.start (.repeatedOperation name.item))
    | none => some (memory, [])
  | _, _ => some (memory, [])

/-- One step of a rule along a walk. -/
def follow (rule : Rule) (memory : Memory) (event : VisitEvent) :
    Option (Memory × List RuleError) :=
  if event.enters then rule.enter ctx memory event.part else some (memory, [])

end Rule

end GraphQL
