import GraphQL.Outline.Basic
import GraphQL.Document.Literal

/-! # Outlines of values and literals

Every scalar is an object whose only key names its kind. Numbers are texts, so that none loses
digits. Items and fields of literals come with their spans.
-/

namespace GraphQL

open Outline

def Scalar.outline (s : Scalar) : Json :=
  match s with
  | .int _ => only "int" s.text
  | .float _ => only "float" s.text
  | .string text => only "str" text
  | .boolean b => only "bool" b

namespace Value

mutual

def outline : Value → Json
  | .null => .null
  | .scalar s => s.outline
  | .list items => only "list" (itemOutlines items)
  | .object fields => only "obj" (fieldOutlines fields)

def itemOutlines : List Value → List Json
  | [] => []
  | v :: rest => v.outline :: itemOutlines rest

def fieldOutlines : List (String × Value) → List (String × Json)
  | [] => []
  | (key, v) :: rest => (key, v.outline) :: fieldOutlines rest

end

instance : Outlined Value := ⟨outline⟩

end Value

/-- The offset, the line and the column, all counted from zero. -/
def Position.outlineText (p : Position) : String :=
  toString p.index ++ ":" ++ toString p.line ++ ":" ++ toString p.column

instance : Outlined Position := ⟨fun p => .string p.outlineText⟩

instance : Outlined Span :=
  ⟨fun s => .string (s.start.outlineText ++ "-" ++ s.stop.outlineText)⟩

/-- A name comes before its span. -/
instance : Outlined (Located String) := ⟨fun n => outline (n.item, n.span)⟩

namespace Literal

mutual

def outline (l : Literal) : Json :=
  match l with
  | .null => .null
  | .int n => only "int" (Literal.int n).text
  | .float x => only "float" (Literal.float x).text
  | .string s => only "str" s
  | .boolean b => only "bool" b
  | .enum name => only "enum" name
  | .variable name => only "var" name
  | .list items => only "list" (itemOutlines items)
  | .object fields => only "obj" (fieldOutlines fields)

def itemOutlines : List (Located Literal) → List Json
  | [] => []
  | ⟨l, span⟩ :: rest => .array [Outlined.outline span, l.outline] :: itemOutlines rest

def fieldOutlines : List (Located String × Located Literal) → List Json
  | [] => []
  | (key, ⟨l, span⟩) :: rest =>
    .array [Outlined.outline key.item, Outlined.outline key.span,
      .array [Outlined.outline span, l.outline]] :: fieldOutlines rest

end

instance : Outlined Literal := ⟨outline⟩

/-- A literal comes after its span. -/
instance : Outlined (Located Literal) := ⟨fun l => Outlined.outline (l.span, l.item)⟩

end Literal

end GraphQL
