import GraphQL.Diagnostic.Values
import GraphQL.Schema.Build

/-! # Schemas in diagnostic notation

Lazy parts are shown as such, since showing them does not read them.
-/

namespace GraphQL

open Diagnostic

variable {σ : Type}

def Component.diagnostic {α : Type} (describe : α → String) (c : Component α) : String :=
  application "Thunk" (if c.isLazy then "<lazy>" else describe c.value)

def Deprecation.diagnostic : Deprecation → String
  | .current => "Current"
  | .deprecated reason => application "Deprecated" (Text.shownOptional reason)

def Default.diagnostic : Default → String
  | .value v => application "Value" v.diagnostic
  | .literal l => application "Literal" l.diagnostic

def InputDefinition.diagnostic (d : InputDefinition) : String :=
  record "Argument"
    [("name", Text.shown d.name), ("description", Text.shownOptional d.description),
      ("arg_type", d.type.diagnostic),
      ("default_value", optional (d.default.map Default.diagnostic)),
      ("deprecation_status", d.deprecation.diagnostic)]

def inputDiagnostics (ds : List InputDefinition) : String :=
  Diagnostic.list (ds.map InputDefinition.diagnostic)

def FieldDefinition.diagnostic (f : FieldDefinition σ) : String :=
  openRecord "Field"
    [("name", Text.shown f.name), ("field_type", f.type.diagnostic),
      ("arguments", inputDiagnostics f.arguments)]

def fieldsDiagnostic (fields : Component (List (FieldDefinition σ))) : String :=
  fields.diagnostic fun fs => Diagnostic.list (fs.map FieldDefinition.diagnostic)

def EnumValue.diagnostic (v : EnumValue) : String :=
  record "EnumValue"
    [("name", Text.shown v.name), ("description", Text.shownOptional v.description),
      ("value", v.value.diagnostic), ("deprecation_status", v.deprecation.diagnostic)]

def TypeDefinition.diagnostic : TypeDefinition σ → String
  | .scalar t => openRecord "ScalarMeta"
      [("name", Text.shown t.name), ("description", Text.shownOptional t.description)]
  | .object t => openRecord "ObjectMeta"
      [("name", Text.shown t.name), ("description", Text.shownOptional t.description),
        ("fields", fieldsDiagnostic t.fields), ("interface_names", t.interfaces.diagnostic names)]
  | .interface t => openRecord "InterfaceMeta"
      [("name", Text.shown t.name), ("fields", fieldsDiagnostic t.fields)]
  | .union t => openRecord "UnionMeta"
      [("name", Text.shown t.name), ("of_type_names", t.members.diagnostic names)]
  | .enum t => record "EnumMeta"
      [("name", Text.shown t.name), ("description", Text.shownOptional t.description),
        ("values", t.values.diagnostic fun vs => Diagnostic.list (vs.map EnumValue.diagnostic))]
  | .inputObject t => record "InputObjectMeta"
      [("name", Text.shown t.name), ("description", Text.shownOptional t.description),
        ("input_fields", t.fields.diagnostic inputDiagnostics),
        ("is_one_of", boolText t.isOneOf)]

def Schema.diagnostic (s : Schema σ) : String :=
  openRecord "SchemaType"
    [("query_type_name", Text.shown s.queryType),
      ("mutation_type_name", Text.shownOptional s.mutationType),
      ("subscription_type_name", Text.shownOptional s.subscriptionType),
      ("types", names (s.types.map (·.name)))]

end GraphQL
