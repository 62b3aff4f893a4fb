import GraphQL.Coercion.Arguments
import GraphQL.Execution.Collected

/-! # Field collection

Selections are flattened into the fields of one object. Fields and fragments that `@skip` or
`@include` leaves out are dropped, and so are fragments that are unknown or on another type. A
fragment that is spread without `@defer` is not spread again. Spreads with `@defer` may come back
to themselves for ever, so fragments are entered only down to a given depth.
-/

namespace GraphQL

/-- What field collection depends on. -/
structure CollectionContext (σ : Type) where
  schema : Schema σ
  fragments : List Fragment
  variableValues : Object
  object : ObjectType σ

/-- The fields found so far, and the fragments that are not to be entered again. -/
structure Collecting where
  visited : List String
  found : Collected

def Collecting.start : Collecting := ⟨[], .empty⟩

/-- What deals with the selections of a fragment; nothing if it does not come to an end. -/
abbrev FragmentEntry :=
  List Selection → Option FragmentVariables → Collecting → Option Collecting

namespace CollectionContext

variable {σ : Type} (ctx : CollectionContext σ)

def scope (fragmentVariables : Option FragmentVariables) : Scope := ⟨ctx.variableValues, fragmentVariables⟩

/-- The arguments of the directive called `name`, if it is there and they are valid. -/
def directiveArguments? (fragmentVariables : Option FragmentVariables) (directives : List (Located Directive))
    (name : String) : Option Object := do
  let node ← findDirective directives name
  let definition ← ctx.schema.directive? name
  (ctx.schema.coerceDirective (ctx.scope fragmentVariables) definition node).toOption

def isExcluded (fragmentVariables : Option FragmentVariables) (directives : List (Located Directive)) :
    Bool :=
  let condition (name : String) : Option Bool := do
    let args ← ctx.directiveArguments? fragmentVariables directives name
    (← args.get? "if").boolean?
  condition "skip" == some true || condition "include" == some false

/-- The label of an active `@defer`, which need not have one. -/
def deferLabel? (fragmentVariables : Option FragmentVariables) (directives : List (Located Directive)) :
    Option (Option String) := do
  let args ← ctx.directiveArguments? fragmentVariables directives "defer"
  if (args.get? "if").bind Value.boolean? == some false then none
  else return (args.get? "label").bind Value.string?

/-- Collects by `collect` what is delivered with the other fields, or later if `label` is that of
an active `@defer`. -/
def deferring (label : Option (Option String)) (collect : Collecting → Option Collecting)
    (s : Collecting) : Option Collecting :=
  match label with
  | none => collect s
  | some label => do
    let inner ← collect { s with found := .empty }
    return { inner with found := s.found.defer label inner.found }

/-- Collects the fields of a spread, entering its fragment by `enter`. -/
def collectSpread (enter : FragmentEntry) (fragmentVariables : Option FragmentVariables) (spread : Spread)
    (s : Collecting) : Option Collecting :=
  let name := spread.name.item
  if ctx.isExcluded fragmentVariables spread.directives || s.visited.contains name then some s
  else
    let label := ctx.deferLabel? fragmentVariables spread.directives
    let s := if label.isNone then { s with visited := name :: s.visited } else s
    match findFragment ctx.fragments name with
    | none => some s
    | some fragment =>
      if !ctx.schema.conditionApplies fragment.typeCondition.item ctx.object then some s
      else
        let inner := fragment.variableDefinitions.map fun definitions =>
          ctx.schema.coerceFragmentVariables (ctx.scope fragmentVariables) definitions.item
            spread.arguments
        deferring label (enter fragment.selections inner) s

mutual

def collectSelection (enter : FragmentEntry) (fragmentVariables : Option FragmentVariables) :
    Selection → Collecting → Option Collecting
  | .field span head selections, s =>
    if ctx.isExcluded fragmentVariables head.directives then some s
    else some { s with found := s.found.add ⟨⟨head, span, selections⟩, fragmentVariables⟩ }
  | .inline _ head selections, s =>
    if ctx.isExcluded fragmentVariables head.directives
      || head.typeCondition.any fun t => !ctx.schema.conditionApplies t.item ctx.object then some s
    else
      deferring (ctx.deferLabel? fragmentVariables head.directives)
        (collectAll enter fragmentVariables selections) s
  | .spread _ spread, s => ctx.collectSpread enter fragmentVariables spread s

def collectAll (enter : FragmentEntry) (fragmentVariables : Option FragmentVariables) :
    List Selection → Collecting → Option Collecting
  | [], s => some s
  | selection :: rest, s => (collectSelection enter fragmentVariables selection s).bind
      (collectAll enter fragmentVariables rest)

end

/-- Collects selections, entering fragments inside one another less than `depth` times. -/
def collectWithin : Nat → FragmentEntry
  | 0, _, _, _ => none
  | depth + 1, selections, fragmentVariables, s => ctx.collectAll (collectWithin depth) fragmentVariables selections s

/-- The fields selected on an object. -/
def collectFields (depth : Nat) (selections : List Selection) : Option Collected :=
  (ctx.collectWithin depth selections none .start).map (·.found)

/-- The fields selected below all uses of one response key, merged. -/
def collectSubfields (depth : Nat) (uses : List FieldUse) : Option Collected :=
  (uses.foldlM (fun s use => ctx.collectWithin depth use.node.selections use.fragmentVariables s)
    Collecting.start).map (·.found)

end CollectionContext

end GraphQL
