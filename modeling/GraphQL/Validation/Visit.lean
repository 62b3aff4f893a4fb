import GraphQL.Document.Basic

/-! # Walking a document

A walk enters and leaves every definition, its directives and selections, in the order in which
they are written. The directives of variables are not visited.
-/

namespace GraphQL

/-- A part of a document that a walk comes by. -/
inductive Visited where
  | document (d : Document)
  | operation (o : Operation)
  | fragment (f : Fragment)
  | directive (d : Located Directive)
  | field (span : Span) (head : FieldHead)
  | spread (span : Span) (spread : Spread)
  | inline (span : Span) (head : InlineHead)

structure VisitEvent where
  /-- Whether the part is entered, or left. -/
  enters : Bool
  part : Visited

/-- Enters a part, walks what it holds, and leaves it. -/
def around (part : Visited) (inside : List VisitEvent) : List VisitEvent :=
  ⟨true, part⟩ :: inside ++ [⟨false, part⟩]

def directiveVisits (directives : List (Located Directive)) : List VisitEvent :=
  directives.flatMap fun d => around (.directive d) []

mutual

def Selection.visits : Selection → List VisitEvent
  | .field span head selections =>
    around (.field span head) (directiveVisits head.directives ++ selectionVisits selections)
  | .spread span spread => around (.spread span spread) (directiveVisits spread.directives)
  | .inline span head selections =>
    around (.inline span head) (directiveVisits head.directives ++ selectionVisits selections)

def selectionVisits : List Selection → List VisitEvent
  | [] => []
  | s :: rest => s.visits ++ selectionVisits rest

end

def Definition.visits : Definition → List VisitEvent
  | .operation o =>
    around (.operation o) (directiveVisits o.directives ++ selectionVisits o.selections)
  | .fragment f =>
    around (.fragment f) (directiveVisits f.directives ++ selectionVisits f.selections)

/-- The whole walk. -/
def Document.visits (d : Document) : List VisitEvent :=
  around (.document d) (d.flatMap Definition.visits)

end GraphQL
