import GraphQL.Diagnostic.Notation
import GraphQL.Document.TypeRef
import GraphQL.Document.Literal
import GraphQL.Execution.Error
import GraphQL.Host.Abort
import GraphQL.Host.Value

/-! # Values in diagnostic notation -/

namespace GraphQL

open Diagnostic

def Scalar.diagnostic : Scalar → String
  | .int n => application "Int" (toString n.toInt)
  | .float x => application "Float" (Decimal.Layout.debug.text x)
  | .string s => application "String" (Text.shown s)
  | .boolean b => application "Boolean" (boolText b)

/-- An object whose values are described already. -/
def objectDiagnostic (fields : List (String × String)) : String :=
  record "Object" [("key_value_list", mapping fields)]

namespace Value

mutual

def diagnostic : Value → String
  | .null => "Null"
  | .scalar s => application "Scalar" s.diagnostic
  | .list items => application "List" (Diagnostic.list (itemDiagnostics items))
  | .object fields => application "Object" (objectDiagnostic (fieldDiagnostics fields))

def itemDiagnostics : List Value → List String
  | [] => []
  | v :: rest => v.diagnostic :: itemDiagnostics rest

def fieldDiagnostics : List (String × Value) → List (String × String)
  | [] => []
  | (key, v) :: rest => (key, v.diagnostic) :: fieldDiagnostics rest

end

end Value

def Object.diagnostic (o : Object) : String := objectDiagnostic (Value.fieldDiagnostics o)

namespace HostValue

mutual

def diagnostic : HostValue → String
  | .null => "Null"
  | .data v => application "Value" v.diagnostic
  | .list items => application "List" (Diagnostic.list (itemDiagnostics items))
  | .stream _ _ => "Stream(..)"
  | .opaqueObject _ => "Owned(..)"
  | .tagged type v =>
    record "WithType" [("value", v.diagnostic), ("type_name", Text.shown type)]

def itemDiagnostics : List HostValue → List String
  | [] => []
  | v :: rest => v.diagnostic :: itemDiagnostics rest

end

end HostValue

def Position.diagnostic (p : Position) : String :=
  record "SourcePosition"
    [("index", toString p.index), ("line", toString p.line), ("col", toString p.column)]

def Span.diagnostic (s : Span) : String :=
  record "Span" [("start", s.start.diagnostic), ("end", s.stop.diagnostic)]

/-- A located item that is described already. -/
def locatedDiagnostic (item : String) (span : Span) : String :=
  record "Spanning" [("item", item), ("span", span.diagnostic)]

namespace Literal

mutual

def diagnostic : Literal → String
  | .null => "Null"
  | .int n => application "Int" (toString n.toInt)
  | .float x => application "Float" (Decimal.Layout.debug.text x)
  | .string s => application "String" (Text.shown s)
  | .boolean b => application "Boolean" (boolText b)
  | .enum name => application "Enum" (Text.shown name)
  | .variable name => application "Variable" (Text.shown name)
  | .list items => application "List" (Diagnostic.list (itemDiagnostics items))
  | .object fields => application "Object" (Diagnostic.list (fieldDiagnostics fields))

def itemDiagnostics : List (Located Literal) → List String
  | [] => []
  | ⟨l, span⟩ :: rest => locatedDiagnostic l.diagnostic span :: itemDiagnostics rest

def fieldDiagnostics : List (Located String × Located Literal) → List String
  | [] => []
  | (key, ⟨l, span⟩) :: rest =>
    ("(" ++ locatedDiagnostic (Text.shown key.item) key.span ++ ", "
      ++ locatedDiagnostic l.diagnostic span ++ ")") :: fieldDiagnostics rest

end

end Literal

def TypeRef.diagnostic : TypeRef → String
  | .named n => application "Named" (Text.shown n)
  | .list t => application "List" t.diagnostic
  | .nonNullNamed n => application "NonNullNamed" (Text.shown n)
  | .nonNullList t => application "NonNullList" t.diagnostic

def Segment.diagnostic : Segment → String
  | .key name => application "Key" (Text.shown name)
  | .index n => application "Index" (toString n)

def Path.diagnostic (p : Path) : String := Diagnostic.list (p.segments.map Segment.diagnostic)

def Signal.diagnostic (s : Signal) : String :=
  record "AbortSignal" [("aborted", boolText s.isAborted)]

def Controller.diagnostic (c : Controller) : String :=
  record "AbortController" [("signal", c.signal.diagnostic)]

def FieldError.diagnostic (e : FieldError) : String :=
  record "FieldError" [("message", Text.shown e.message), ("extensions", e.extensions.diagnostic)]

def ExecutionError.diagnostic (e : ExecutionError) : String :=
  record "ExecutionError"
    [("locations", Diagnostic.list (e.locations.map Position.diagnostic)),
      ("path", e.path.diagnostic), ("error", e.error.diagnostic)]

end GraphQL
