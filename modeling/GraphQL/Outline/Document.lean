import GraphQL.Outline.Values
import GraphQL.Document.Basic

/-! # Outlines of documents -/

namespace GraphQL

open Outline

/-- A list that may be missing, with its span. -/
def spannedOutline {α : Type} (item : α → Json) (l : Option (Located (List α))) : Json :=
  outline (l.map fun l => Json.object [member "span" l.span, member "items" (l.item.map item)])

def argumentsOutline : Option Arguments → Json :=
  spannedOutline fun a => .array [outline a.name, outline a.value]

def Directive.outline (d : Located Directive) : Json :=
  .object
    [member "span" d.span, member "name" d.item.name,
      member "arguments" (argumentsOutline d.item.arguments)]

def directivesOutline (ds : List (Located Directive)) : Json :=
  if ds.isEmpty then .null else .array (ds.map Directive.outline)

def VariableDefinition.outline (d : VariableDefinition) : Json :=
  .object
    [member "name" d.name, member "type" d.type.item.text, member "type_span" d.type.span,
      member "default" d.default, member "directives" (directivesOutline d.directives)]

namespace Selection

mutual

def outline : Selection → Json
  | .field span head selections => .object
      [member "kind" "field", member "span" span, member "alias" head.aliasName,
        member "name" head.name, member "arguments" (argumentsOutline head.arguments),
        member "directives" (directivesOutline head.directives),
        member "selections" (if selections.isEmpty then none else some (outlines selections))]
  | .spread span fragment => .object
      [member "kind" "spread", member "span" span, member "name" fragment.name,
        member "arguments" (argumentsOutline fragment.arguments),
        member "directives" (directivesOutline fragment.directives)]
  | .inline span head selections => .object
      [member "kind" "inline", member "span" span, member "on" head.typeCondition,
        member "directives" (directivesOutline head.directives),
        member "selections" (outlines selections)]

def outlines : List Selection → List Json
  | [] => []
  | s :: rest => s.outline :: outlines rest

end

end Selection

/-- What operations and fragments have in common. -/
def bodyMembers (span : Span) (declared : Option VariableDefinitions)
    (directives : List (Located Directive)) (selections : List Selection) :
    List (String × Json) :=
  [member "span" span, member "variables" (spannedOutline VariableDefinition.outline declared),
    member "directives" (directivesOutline directives),
    member "selections" (Selection.outlines selections)]

instance : Outlined Definition where
  outline
    | .operation o => .object
        ([member "kind" "operation", member "type" o.kind.text, member "name" o.name]
          ++ bodyMembers o.span o.variableDefinitions o.directives o.selections)
    | .fragment f => .object
        ([member "kind" "fragment", member "name" f.name, member "on" f.typeCondition]
          ++ bodyMembers f.span f.variableDefinitions f.directives f.selections)

end GraphQL
