import GraphQL.Document.TypeRef
import GraphQL.Document.Literal

/-! # Executable documents

Operations and fragments as they are written. Lists of directives and selections that are not
written are empty; argument and variable lists also have a span, so those not written are absent.
-/

namespace GraphQL

structure Argument where
  name : Located String
  value : Located Literal
deriving Inhabited

/-- An argument list, which is never empty. -/
abbrev Arguments := Located (List Argument)

/-- The value of the first argument called `name`. -/
def Arguments.get? (args : Arguments) (name : String) : Option (Located Literal) :=
  (args.item.find? (·.name.item = name)).map (·.value)

structure Directive where
  name : Located String
  arguments : Option Arguments
deriving Inhabited

/-- The first directive called `name`. -/
def findDirective (directives : List (Located Directive)) (name : String) :
    Option (Located Directive) :=
  directives.find? (·.item.name.item = name)

/-- The name of a variable and its span start at the dollar sign and end with the name. -/
structure VariableDefinition where
  name : Located String
  type : Located TypeRef
  default : Option (Located Literal)
  directives : List (Located Directive)
deriving Inhabited

abbrev VariableDefinitions := Located (List VariableDefinition)

/-- What stands before the selections of a field. -/
structure FieldHead where
  aliasName : Option (Located String)
  name : Located String
  arguments : Option Arguments
  directives : List (Located Directive)
deriving Inhabited

/-- The key of the field in the response. -/
def FieldHead.responseKey (f : FieldHead) : String := (f.aliasName.getD f.name).item

/-- The use of a named fragment. The arguments bind the variables that the fragment declares. -/
structure Spread where
  name : Located String
  arguments : Option Arguments
  directives : List (Located Directive)
deriving Inhabited

/-- What stands before the selections of an inline fragment. -/
structure InlineHead where
  typeCondition : Option (Located String)
  directives : List (Located Directive)
deriving Inhabited

inductive Selection where
  | field (span : Span) (head : FieldHead) (selections : List Selection)
  | spread (span : Span) (spread : Spread)
  | inline (span : Span) (head : InlineHead) (selections : List Selection)
deriving Inhabited

/-- A field with where it was written. -/
structure FieldNode extends FieldHead where
  span : Span
  selections : List Selection
deriving Inhabited

inductive OperationKind where
  | query
  | mutation
  | subscription
deriving DecidableEq, Repr, Inhabited

def OperationKind.text : OperationKind → String
  | .query => "query"
  | .mutation => "mutation"
  | .subscription => "subscription"

structure Operation where
  span : Span
  kind : OperationKind
  name : Option (Located String)
  variableDefinitions : Option VariableDefinitions
  directives : List (Located Directive)
  selections : List Selection
deriving Inhabited

/-- The variables an operation declares. -/
def Operation.variableList (o : Operation) : List VariableDefinition :=
  (o.variableDefinitions.map (·.item)).getD []

def Operation.name? (o : Operation) : Option String := o.name.map (·.item)

structure Fragment where
  span : Span
  name : Located String
  variableDefinitions : Option VariableDefinitions
  typeCondition : Located String
  directives : List (Located Directive)
  selections : List Selection
deriving Inhabited

inductive Definition where
  | operation (operation : Operation)
  | fragment (fragment : Fragment)
deriving Inhabited

abbrev Document := List Definition

namespace Document

def operations (d : Document) : List Operation :=
  d.filterMap fun
    | .operation o => some o
    | .fragment _ => none

def fragments (d : Document) : List Fragment :=
  d.filterMap fun
    | .fragment f => some f
    | .operation _ => none

end Document

/-- The fragment called `name`; of several, the last one. -/
def findFragment (fragments : List Fragment) (name : String) : Option Fragment :=
  fragments.reverse.find? (·.name.item = name)

end GraphQL
