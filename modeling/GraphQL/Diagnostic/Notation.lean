import GraphQL.Value.Text
import GraphQL.Text.Escaped

/-! # Diagnostic notation

One-line descriptions of the parts of the library: records with named fields, applications of a name,
lists and maps.
-/

namespace GraphQL.Diagnostic

def fieldTexts (fields : List (String × String)) : List String :=
  fields.map fun (name, text) => name ++ ": " ++ text

/-- A record with all its fields. -/
def record (name : String) (fields : List (String × String)) : String :=
  name ++ " \x7b " ++ ", ".intercalate (fieldTexts fields) ++ " \x7d"

/-- A record with fields that are not shown. -/
def openRecord (name : String) (fields : List (String × String)) : String :=
  name ++ " \x7b " ++ ", ".intercalate (fieldTexts fields ++ [".."]) ++ " \x7d"

def application (name : String) (argument : String) : String := name ++ "(" ++ argument ++ ")"

def list (items : List String) : String := bracketedText items

/-- A map with text keys. -/
def mapping (entries : List (String × String)) : String :=
  "\x7b" ++ ", ".intercalate (entries.map fun (key, text) => Text.shown key ++ ": " ++ text)
    ++ "\x7d"

/-- Something that may be missing. -/
def optional (text : Option String) : String :=
  match text with
  | some text => application "Some" text
  | none => "None"

def names (ns : List String) : String := list (ns.map Text.shown)

end GraphQL.Diagnostic
