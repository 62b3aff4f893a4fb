import GraphQL.Outline.Values
import GraphQL.Validation.Visit

/-! # Outlines of walks

Every event of a walk is shown with what it enters or leaves, its name and its span.
-/

namespace GraphQL

open Outline

def Visited.kindText : Visited → String
  | .document _ => "document"
  | .operation _ => "operation_definition"
  | .fragment _ => "fragment_definition"
  | .directive _ => "directive"
  | .field _ _ => "field"
  | .spread _ _ => "fragment_spread"
  | .inline _ _ => "inline_fragment"

/-- Documents go by how many definitions they have, fields by their response key, and inline
fragments by their type condition. -/
def Visited.name? : Visited → Option String
  | .document d => some (toString d.length)
  | .operation o => o.name?
  | .fragment f => some f.name.item
  | .directive d => some d.item.name.item
  | .field _ head => some head.responseKey
  | .spread _ used => some used.name.item
  | .inline _ head => head.typeCondition.map (·.item)

def Visited.span? : Visited → Option Span
  | .document _ => none
  | .operation o => some o.span
  | .fragment f => some f.span
  | .directive d => some d.span
  | .field span _ => some span
  | .spread span _ => some span
  | .inline span _ => some span

instance : Outlined VisitEvent where
  outline e := .array
    [outline ((if e.enters then "enter_" else "exit_") ++ e.part.kindText), outline e.part.name?,
      outline e.part.span?]

end GraphQL
