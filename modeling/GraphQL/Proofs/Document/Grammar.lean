import GraphQL.Document.Reader

/-! # The grammar of documents

A rule derives trees from lists of tokens. The trees have no places: what was read is compared
with them once its spans are forgotten.
-/

namespace GraphQL

/-! ## Trees without their places -/

mutual

/-- The literal as if it were made and not read. -/
def Literal.bare : Literal → Literal
  | .list items => .list (bareItems items)
  | .object fields => .object (bareFields fields)
  | l => l

def Literal.bareItems : List (Located Literal) → List (Located Literal)
  | [] => []
  | ⟨l, _⟩ :: rest => .nowhere l.bare :: bareItems rest

def Literal.bareFields :
    List (Located String × Located Literal) → List (Located String × Located Literal)
  | [] => []
  | (k, ⟨l, _⟩) :: rest => (.nowhere k.item, .nowhere l.bare) :: bareFields rest

end

theorem Literal.bareItems_eq (items : List (Located Literal)) :
    Literal.bareItems items = (items.map (·.item.bare)).map Located.nowhere := by
  induction items with
  | nil => rfl
  | cons l rest ih => simp [Literal.bareItems, ih]

theorem Literal.bareFields_eq (fields : List (Located String × Located Literal)) :
    Literal.bareFields fields = (fields.map fun f => (f.1.item, f.2.item.bare)).map
      fun (k, v) => (.nowhere k, .nowhere v) := by
  induction fields with
  | nil => rfl
  | cons f rest ih => simp [Literal.bareFields, ih]

theorem Literal.bare_list (items : List (Located Literal)) :
    (Literal.list items).bare = .listOf (items.map (·.item.bare)) := by
  rw [Literal.bare, Literal.bareItems_eq, Literal.listOf]

theorem Literal.bare_object (fields : List (Located String × Located Literal)) :
    (Literal.object fields).bare = .objectOf (fields.map fun f => (f.1.item, f.2.item.bare)) := by
  rw [Literal.bare, Literal.bareFields_eq, Literal.objectOf]

def Argument.bare (a : Argument) : Argument := ⟨.nowhere a.name.item, .nowhere a.value.item.bare⟩

def Arguments.bare (args : Arguments) : Arguments := .nowhere (args.item.map Argument.bare)

def Directive.bare (d : Directive) : Directive :=
  ⟨.nowhere d.name.item, d.arguments.map Arguments.bare⟩

def bareDirectives (directives : List (Located Directive)) : List (Located Directive) :=
  directives.map fun d => .nowhere d.item.bare

def VariableDefinition.bare (v : VariableDefinition) : VariableDefinition :=
  ⟨.nowhere v.name.item, .nowhere v.type.item, v.default.map fun l => .nowhere l.item.bare,
    bareDirectives v.directives⟩

def VariableDefinitions.bare (vs : VariableDefinitions) : VariableDefinitions :=
  .nowhere (vs.item.map VariableDefinition.bare)

def FieldHead.bare (f : FieldHead) : FieldHead :=
  ⟨f.aliasName.map fun n => .nowhere n.item, .nowhere f.name.item,
    f.arguments.map Arguments.bare, bareDirectives f.directives⟩

def Spread.bare (s : Spread) : Spread :=
  ⟨.nowhere s.name.item, s.arguments.map Arguments.bare, bareDirectives s.directives⟩

def InlineHead.bare (f : InlineHead) : InlineHead :=
  ⟨f.typeCondition.map fun n => .nowhere n.item, bareDirectives f.directives⟩

mutual

def Selection.bare : Selection → Selection
  | .field _ head selections => .field .nowhere head.bare (bareAll selections)
  | .spread _ s => .spread .nowhere s.bare
  | .inline _ head selections => .inline .nowhere head.bare (bareAll selections)

def Selection.bareAll : List Selection → List Selection
  | [] => []
  | s :: rest => s.bare :: bareAll rest

end

theorem Selection.bareAll_eq (selections : List Selection) :
    Selection.bareAll selections = selections.map Selection.bare := by
  induction selections with
  | nil => rfl
  | cons s rest ih => rw [Selection.bareAll, ih, List.map_cons]

def Operation.bare (o : Operation) : Operation :=
  ⟨.nowhere, o.kind, o.name.map fun n => .nowhere n.item,
    o.variableDefinitions.map VariableDefinitions.bare, bareDirectives o.directives,
    o.selections.map Selection.bare⟩

def Fragment.bare (f : Fragment) : Fragment :=
  ⟨.nowhere, .nowhere f.name.item, f.variableDefinitions.map VariableDefinitions.bare,
    .nowhere f.typeCondition.item, bareDirectives f.directives, f.selections.map Selection.bare⟩

def Definition.bare : Definition → Definition
  | .operation o => .operation o.bare
  | .fragment f => .fragment f.bare

/-- The document with its spans forgotten. -/
def Document.bare (d : Document) : Document := d.map Definition.bare

/-! ## Rules -/

/-- Which trees are derived from which tokens. -/
abbrev Production (α : Type) := List Token → α → Prop

namespace Grammar

variable {α : Type}

/-- Any number of trees, one after the other. -/
inductive Many (rule : Production α) : Production (List α) where
  | nil : Many rule [] []
  | cons {first others : List Token} {tree : α} {trees : List α} :
    rule first tree → Many rule others trees → Many rule (first ++ others) (tree :: trees)

/-- At least one tree. -/
inductive Several (rule : Production α) : Production (List α) where
  | cons {first others : List Token} {tree : α} {trees : List α} :
    rule first tree → Many rule others trees → Several rule (first ++ others) (tree :: trees)

theorem Several.many {rule : Production α} {tokens : List Token} {trees : List α}
    (h : Several rule tokens trees) : Many rule tokens trees := by
  cases h with
  | cons hfirst hothers => exact .cons hfirst hothers

inductive Optionally (rule : Production α) : Production (Option α) where
  | none : Optionally rule [] none
  | some {tokens : List Token} {tree : α} : rule tokens tree → Optionally rule tokens (some tree)

inductive Enclosed (opening closing : Punctuator) (rule : Production α) : Production α where
  | intro {inside : List Token} {tree : α} : rule inside tree →
    Enclosed opening closing rule (.punctuator opening :: (inside ++ [.punctuator closing])) tree

inductive Name : Production String where
  | intro {name : String} : Name [.name name] name

/-- A name, a colon, and what stands under the name. -/
inductive Keyed (rule : Production α) : Production (String × α) where
  | intro {name : String} {tokens : List Token} {tree : α} : rule tokens tree →
    Keyed rule (.name name :: .punctuator .colon :: tokens) (name, tree)

/-- A name, or brackets around a type. Each may have an exclamation mark, but only one. -/
inductive TypeRef : Production TypeRef where
  | named {name : String} : TypeRef [.name name] (.named name)
  | nonNullNamed {name : String} :
    TypeRef [.name name, .punctuator .bang] (.nonNullNamed name)
  | list {tokens : List Token} {item : GraphQL.TypeRef} :
    Enclosed .bracketOpen .bracketClose TypeRef tokens item → TypeRef tokens (.list item)
  | nonNullList {tokens : List Token} {item : GraphQL.TypeRef} :
    Enclosed .bracketOpen .bracketClose TypeRef tokens item →
      TypeRef (tokens ++ [.punctuator .bang]) (.nonNullList item)

/-- The number that the digits denote, which may start with a minus sign. -/
def wholeValue (digits : String) : Int :=
  match digits.toList with
  | '-' :: rest => -(Decimal.digitsValue rest : Int)
  | digits => Decimal.digitsValue digits

/-- Literals. Where `const` is set they hold no variables. Integers have 64 bits. -/
inductive Literal (const : Bool) : Production Literal where
  | null : Literal const [.name "null"] .null
  | true : Literal const [.name "true"] (.boolean true)
  | false : Literal const [.name "false"] (.boolean false)
  | enum {name : String} : name ≠ "null" → name ≠ "true" → name ≠ "false" →
    Literal const [.name name] (.enum name)
  | int {digits : String} {n : Int64} : n.toInt = wholeValue digits →
    Literal const [.int digits] (.int n)
  | float {digits : String} : Literal const [.float digits]
    (.float (Decimal.Written.ofText digits.toList).1.nearest)
  | quoted {raw : String} : Literal const [.quoted raw]
    (.string (String.ofList (Lexeme.unescape raw.toList)))
  | block {raw : String} : Literal const [.block raw]
    (.string (String.ofList (Lexeme.dedent raw.toList)))
  | variable {name : String} : const = .false →
    Literal const [.punctuator .dollar, .name name] (.variable name)
  | list {tokens : List Token} {items : List GraphQL.Literal} :
    Enclosed .bracketOpen .bracketClose (Many (Literal const)) tokens items →
      Literal const tokens (.listOf items)
  | object {tokens : List Token} {fields : List (String × GraphQL.Literal)} :
    Enclosed .braceOpen .braceClose (Many (Keyed (Literal const))) tokens fields →
      Literal const tokens (.objectOf fields)

inductive Argument : Production Argument where
  | intro {tokens : List Token} {name : String} {value : GraphQL.Literal} :
    Keyed (Literal false) tokens (name, value) → Argument tokens ⟨.nowhere name, .nowhere value⟩

/-- Arguments in parentheses, or none. -/
abbrev Arguments : Production (Option (List GraphQL.Argument)) :=
  Optionally (Enclosed .parenOpen .parenClose (Several Argument))

inductive Directive : Production Directive where
  | intro {name : String} {arguments : List Token} {args : Option (List GraphQL.Argument)} :
    Arguments arguments args →
      Directive (.punctuator .at :: .name name :: arguments) ⟨.nowhere name, args.map .nowhere⟩

abbrev Directives : Production (List GraphQL.Directive) := Many Directive

/-- An equals sign and a literal without variables. -/
inductive Default : Production GraphQL.Literal where
  | intro {tokens : List Token} {value : GraphQL.Literal} : Literal true tokens value →
    Default (.punctuator .equals :: tokens) value

inductive VariableDefinition : Production VariableDefinition where
  | intro {name : String} {type default directives : List Token} {declared : GraphQL.TypeRef}
    {value : Option GraphQL.Literal} {ds : List GraphQL.Directive} :
    TypeRef type declared → Optionally Default default value → Directives directives ds →
      VariableDefinition
        (.punctuator .dollar :: .name name :: .punctuator .colon ::
          (type ++ (default ++ directives)))
        ⟨.nowhere name, .nowhere declared, value.map .nowhere, ds.map .nowhere⟩

/-- Variable definitions in parentheses, or none. -/
abbrev VariableDefinitions : Production (Option (List GraphQL.VariableDefinition)) :=
  Optionally (Enclosed .parenOpen .parenClose (Several VariableDefinition))

/-- The name before the colon in front of a field. -/
inductive Alias : Production String where
  | intro {name : String} : Alias [.name name, .punctuator .colon] name

inductive TypeCondition : Production String where
  | intro {name : String} : TypeCondition [.name "on", .name name] name

inductive Selection : Production Selection where
  | field {name : String} {before arguments directives inside : List Token}
    {aliasName : Option String} {args : Option (List GraphQL.Argument)}
    {ds : List GraphQL.Directive} {selections : Option (List GraphQL.Selection)} :
    Optionally Alias before aliasName → Arguments arguments args → Directives directives ds →
      Optionally (Enclosed .braceOpen .braceClose (Several Selection)) inside selections →
      Selection (before ++ .name name :: (arguments ++ (directives ++ inside)))
        (.field .nowhere ⟨aliasName.map .nowhere, .nowhere name, args.map .nowhere, ds.map .nowhere⟩
          (selections.getD []))
  | spread {name : String} {arguments directives : List Token}
    {args : Option (List GraphQL.Argument)} {ds : List GraphQL.Directive} :
    name ≠ "on" → Arguments arguments args → Directives directives ds →
      Selection (.punctuator .ellipsis :: .name name :: (arguments ++ directives))
        (.spread .nowhere ⟨.nowhere name, args.map .nowhere, ds.map .nowhere⟩)
  | inline {condition directives inside : List Token} {type : Option String}
    {ds : List GraphQL.Directive} {selections : List GraphQL.Selection} :
    Optionally TypeCondition condition type → Directives directives ds →
      Enclosed .braceOpen .braceClose (Several Selection) inside selections →
      Selection (.punctuator .ellipsis :: (condition ++ (directives ++ inside)))
        (.inline .nowhere ⟨type.map .nowhere, ds.map .nowhere⟩ selections)

/-- Selections in braces, of which there is at least one. -/
abbrev SelectionSet : Production (List GraphQL.Selection) :=
  Enclosed .braceOpen .braceClose (Several Selection)

inductive Definition : Production Definition where
  | shorthand {tokens : List Token} {selections : List GraphQL.Selection} :
    SelectionSet tokens selections →
      Definition tokens (.operation ⟨.nowhere, .query, none, none, [], selections⟩)
  | operation {kind : OperationKind} {called parameters directives inside : List Token}
    {name : Option String} {declared : Option (List GraphQL.VariableDefinition)}
    {ds : List GraphQL.Directive} {selections : List GraphQL.Selection} :
    Optionally Name called name → VariableDefinitions parameters declared →
      Directives directives ds → SelectionSet inside selections →
      Definition (.name kind.text :: (called ++ (parameters ++ (directives ++ inside))))
        (.operation ⟨.nowhere, kind, name.map .nowhere, declared.map .nowhere, ds.map .nowhere,
          selections⟩)
  | fragment {name condition : String} {parameters directives inside : List Token}
    {declared : Option (List GraphQL.VariableDefinition)} {ds : List GraphQL.Directive}
    {selections : List GraphQL.Selection} :
    name ≠ "on" → VariableDefinitions parameters declared → Directives directives ds →
      SelectionSet inside selections →
      Definition (.name "fragment" :: .name name ::
          (parameters ++ .name "on" :: .name condition :: (directives ++ inside)))
        (.fragment ⟨.nowhere, .nowhere name, declared.map .nowhere, .nowhere condition,
          ds.map .nowhere, selections⟩)

/-- One or more operations and fragments. -/
abbrev Document : Production Document := Several Definition

end Grammar

end GraphQL
