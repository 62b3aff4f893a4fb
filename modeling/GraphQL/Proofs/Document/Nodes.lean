import GraphQL.Proofs.Document.Soundness

/-! # The nodes of a document

Everything in a document that has a span, as a tree in source order. Some tokens bear a forest when
each of its nodes was read from tokens of its own, one node behind the other, and the parts of a
node are borne by the tokens of the node. Then no span leaves the one around it and no two siblings
overlap.
-/

namespace GraphQL

/-- What may have a span. The literals of defaults hold no variables. -/
inductive Phrase where
  | name (name : String)
  | variable (name : String)
  | literal (const : Bool) (literal : Literal)
  | type (type : TypeRef)
  | arguments (arguments : List Argument)
  | variables (definitions : List VariableDefinition)
  | directive (directive : Directive)
  | selection (selection : Selection)
  | definition (definition : Definition)

/-- The grammar derives the phrase, without its places, from these tokens. -/
def Phrase.Derives : Phrase → List Token → Prop
  | .name n, tokens => Grammar.Name tokens n
  | .variable n, tokens => tokens = [.punctuator .dollar, .name n]
  | .literal const l, tokens => Grammar.Literal const tokens l.bare
  | .type t, tokens => Grammar.TypeRef tokens t
  | .arguments args, tokens => Grammar.Arguments tokens (some (args.map Argument.bare))
  | .variables vs, tokens =>
    Grammar.VariableDefinitions tokens (some (vs.map VariableDefinition.bare))
  | .directive d, tokens => Grammar.Directive tokens d.bare
  | .selection s, tokens => Grammar.Selection tokens s.bare
  | .definition d, tokens => Grammar.Definition tokens d.bare

/-- A phrase with its span and the nodes directly below it. -/
structure Node where
  phrase : Phrase
  span : Span
  parts : List Node

/-! ## Nodes -/

def nameNode (name : Located String) : Node := ⟨.name name.item, name.span, []⟩

mutual

/-- The items of a list; the keys of an object and what stands under them. -/
def Literal.parts (const : Bool) : Literal → List Node
  | .list items => itemParts const items
  | .object fields => fieldParts const fields
  | _ => []

def Literal.itemParts (const : Bool) : List (Located Literal) → List Node
  | [] => []
  | ⟨l, span⟩ :: rest => ⟨.literal const l, span, l.parts const⟩ :: itemParts const rest

def Literal.fieldParts (const : Bool) : List (Located String × Located Literal) → List Node
  | [] => []
  | (key, ⟨l, span⟩) :: rest =>
    nameNode key :: ⟨.literal const l, span, l.parts const⟩ :: fieldParts const rest

end

def literalNode (const : Bool) (l : Located Literal) : Node :=
  ⟨.literal const l.item, l.span, l.item.parts const⟩

def Argument.parts (a : Argument) : List Node := [nameNode a.name, literalNode false a.value]

def argumentsNode (args : Arguments) : Node :=
  ⟨.arguments args.item, args.span, args.item.flatMap Argument.parts⟩

def Directive.parts (d : Directive) : List Node :=
  nameNode d.name :: (d.arguments.map argumentsNode).toList

def directiveNode (d : Located Directive) : Node := ⟨.directive d.item, d.span, d.item.parts⟩

def VariableDefinition.parts (v : VariableDefinition) : List Node :=
  ⟨.variable v.name.item, v.name.span, []⟩ :: ⟨.type v.type.item, v.type.span, []⟩ ::
    ((v.default.map (literalNode true)).toList ++ v.directives.map directiveNode)

def variablesNode (vs : VariableDefinitions) : Node :=
  ⟨.variables vs.item, vs.span, vs.item.flatMap VariableDefinition.parts⟩

/-- What may stand behind a name: arguments and directives. -/
def tailParts (args : Option Arguments) (directives : List (Located Directive)) : List Node :=
  (args.map argumentsNode).toList ++ directives.map directiveNode

def FieldHead.parts (f : FieldHead) : List Node :=
  (f.aliasName.map nameNode).toList ++ nameNode f.name :: tailParts f.arguments f.directives

def InlineHead.parts (f : InlineHead) : List Node :=
  (f.typeCondition.map nameNode).toList ++ f.directives.map directiveNode

mutual

def Selection.node : Selection → Node
  | .field span head selections =>
    ⟨.selection (.field span head selections), span, head.parts ++ nodes selections⟩
  | .spread span s =>
    ⟨.selection (.spread span s), span, nameNode s.name :: tailParts s.arguments s.directives⟩
  | .inline span head selections =>
    ⟨.selection (.inline span head selections), span, head.parts ++ nodes selections⟩

def Selection.nodes : List Selection → List Node
  | [] => []
  | s :: rest => s.node :: nodes rest

end

/-- What may stand behind the name of a definition. -/
def bodyParts (vs : Option VariableDefinitions) (condition : Option (Located String))
    (directives : List (Located Directive)) (selections : List Selection) : List Node :=
  (vs.map variablesNode).toList ++ ((condition.map nameNode).toList ++
    (directives.map directiveNode ++ Selection.nodes selections))

def Definition.span : Definition → Span
  | .operation o => o.span
  | .fragment f => f.span

def Definition.parts : Definition → List Node
  | .operation o => (o.name.map nameNode).toList ++
    bodyParts o.variableDefinitions none o.directives o.selections
  | .fragment f => nameNode f.name ::
    bodyParts f.variableDefinitions (some f.typeCondition) f.directives f.selections

def Definition.node (d : Definition) : Node := ⟨.definition d, d.span, d.parts⟩

/-- The nodes of the operations and fragments, in source order. -/
def Document.nodes (d : Document) : List Node := d.map Definition.node

mutual

/-- The node and all nodes below it. -/
def Node.all : Node → List Node
  | ⟨phrase, span, parts⟩ => ⟨phrase, span, parts⟩ :: allOf parts

def Node.allOf : List Node → List Node
  | [] => []
  | node :: rest => node.all ++ allOf rest

end

theorem Literal.itemParts_eq (const : Bool) (items : List (Located Literal)) :
    itemParts const items = items.flatMap fun l => [literalNode const l] := by
  induction items with
  | nil => rfl
  | cons l rest ih => rw [itemParts, ih]; rfl

theorem Literal.fieldParts_eq (const : Bool) (fields : List (Located String × Located Literal)) :
    fieldParts const fields = fields.flatMap fun f => [nameNode f.1, literalNode const f.2] := by
  induction fields with
  | nil => rfl
  | cons f rest ih => rw [fieldParts, ih]; rfl

theorem Selection.nodes_eq (selections : List Selection) :
    nodes selections = selections.flatMap fun s => [s.node] := by
  induction selections with
  | nil => rfl
  | cons s rest ih => rw [nodes, ih]; rfl

theorem Node.mem_allOf {node : Node} {nodes : List Node} (h : node ∈ nodes) :
    node ∈ allOf nodes := by
  induction nodes with
  | nil => cases h
  | cons other rest ih =>
    rw [allOf, List.mem_append]
    obtain rfl | h := List.mem_cons.mp h
    · left
      cases node
      rw [all]
      exact List.mem_cons_self
    · exact .inr (ih h)

/-! ## Spans of tokens -/

/-- Where these tokens end, or `p` if there are none. -/
def stopAfter (p : Position) (tokens : List (Located Token)) : Position :=
  (tokens.getLast?.map Located.stop).getD p

/-- The span goes from where the first of these tokens starts to where the last one ends. -/
def Spans (tokens : List (Located Token)) (span : Span) : Prop :=
  ∃ first, tokens.head? = some first ∧ span = ⟨first.start, stopAfter first.stop tokens⟩

variable {tokens used later : List (Located Token)} {t : Located Token} {span : Span} {p : Position}

theorem stopAfter_append (p : Position) (used later : List (Located Token)) :
    stopAfter p (used ++ later) = stopAfter (stopAfter p used) later := by
  unfold stopAfter
  rw [List.getLast?_append]
  cases later.getLast? <;> rfl

theorem stopAfter_cons (p : Position) (t : Located Token) (later : List (Located Token)) :
    stopAfter p (t :: later) = stopAfter t.stop later :=
  stopAfter_append p [t] later

theorem spans_cons : Spans (t :: later) ⟨t.start, stopAfter t.stop later⟩ :=
  ⟨t, rfl, by rw [stopAfter_cons]⟩

theorem Spans.stop (h : Spans tokens span) (p : Position) : stopAfter p tokens = span.stop := by
  obtain ⟨first, hfirst, rfl⟩ := h
  obtain ⟨later, rfl⟩ := List.head?_eq_some_iff.mp hfirst
  rw [stopAfter_cons, stopAfter_cons]

theorem Spans.append (h : Spans used span) (later : List (Located Token)) :
    Spans (used ++ later) ⟨span.start, stopAfter span.stop later⟩ := by
  obtain ⟨first, hfirst, rfl⟩ := h
  exact ⟨first, by rw [List.head?_append, hfirst]; rfl, by rw [stopAfter_append]⟩

theorem Spans.upTo {last : Span} (h : Spans used span) (hlast : Spans later last) :
    Spans (used ++ later) ⟨span.start, last.stop⟩ := by
  rw [← hlast.stop]
  exact h.append later

theorem Spans.length_pos (h : Spans tokens span) : 0 < tokens.length := by
  obtain ⟨first, hfirst, -⟩ := h
  obtain ⟨later, rfl⟩ := List.head?_eq_some_iff.mp hfirst
  exact Nat.succ_pos _

theorem Spans.unique {other : Span} (h : Spans tokens span) (h' : Spans tokens other) :
    other = span := by
  obtain ⟨first, hfirst, rfl⟩ := h
  obtain ⟨first', hfirst', rfl⟩ := h'
  rw [hfirst] at hfirst'
  cases hfirst'
  rfl

theorem Spans.exists_mem (h : Spans tokens span) :
    ∃ first ∈ tokens, ∃ last ∈ tokens, span = ⟨first.start, last.stop⟩ := by
  obtain ⟨first, hfirst, rfl⟩ := h
  obtain ⟨later, rfl⟩ := List.head?_eq_some_iff.mp hfirst
  refine ⟨first, List.mem_cons_self, (first :: later).getLast (by simp), List.getLast_mem _, ?_⟩
  rw [stopAfter, List.getLast?_eq_getLast_of_ne_nil]
  rfl

/-! ## The nodes that tokens bear -/

/-- The phrase was read from just these tokens, and its span is theirs. -/
structure Phrase.ReadFrom (phrase : Phrase) (tokens : List (Located Token)) (span : Span) : Prop where
  spans : Spans tokens span
  derives : phrase.Derives (tokens.map (·.item))
  /-- How a literal was read, on which its inner spans depend as well. -/
  reading : ∀ const l, phrase = .literal const l → ∃ depth rest, Ended (tokens ++ rest) ∧
    Read.literalWithin const depth (tokens ++ rest) = .ok (⟨l, span⟩, rest)

/-- The nodes were read from these tokens, one behind the other. Other tokens may stand between
them. -/
inductive Bears : List (Located Token) → List Node → Prop
  | nil {tokens : List (Located Token)} : Bears tokens []
  | skip {t : Located Token} {tokens : List (Located Token)} {nodes : List Node}
      (h : Bears tokens nodes) : Bears (t :: tokens) nodes
  | node {used later : List (Located Token)} {phrase : Phrase} {span : Span}
      {parts nodes : List Node} (h : phrase.ReadFrom used span) (hparts : Bears used parts)
      (hlater : Bears later nodes) : Bears (used ++ later) (⟨phrase, span, parts⟩ :: nodes)

variable {nodes others parts : List Node} {phrase : Phrase}

theorem Bears.skips (h : Bears later nodes) (used : List (Located Token)) :
    Bears (used ++ later) nodes := by
  induction used with
  | nil => exact h
  | cons t used ih => exact .skip ih

theorem Bears.append (h : Bears used nodes) (h' : Bears later others) :
    Bears (used ++ later) (nodes ++ others) := by
  induction h with
  | nil => exact h'.skips _
  | skip _ ih => exact .skip ih
  | node hnode hparts _ _ ih =>
    rw [List.append_assoc]
    exact .node hnode hparts ih

theorem Bears.before (h : Bears used nodes) (later : List (Located Token)) :
    Bears (used ++ later) nodes := by
  have := h.append (@Bears.nil later)
  rwa [List.append_nil] at this

theorem Phrase.ReadFrom.bears (h : phrase.ReadFrom tokens span) (hparts : Bears tokens parts) :
    Bears tokens [⟨phrase, span, parts⟩] := by
  have := Bears.node h hparts (@Bears.nil [])
  rwa [List.append_nil] at this

theorem Bears.exists_tokens (h : Bears tokens nodes) : ∀ node ∈ Node.allOf nodes,
    ∃ used, used <:+: tokens ∧ node.phrase.ReadFrom used node.span ∧ Bears used node.parts := by
  -- Induction on what the tokens bear: the tokens of a node below another one are among the
  -- other's.
  induction h with
  | nil =>
    rw [Node.allOf]
    simp
  | skip _ ih =>
    intro node hnode
    obtain ⟨used, hused, h⟩ := ih node hnode
    exact ⟨used, hused.trans (List.suffix_cons _ _).isInfix, h⟩
  | @node used later _ _ _ _ hnode hparts _ ihparts ih =>
    rw [Node.allOf, Node.all]
    intro node hmem
    obtain rfl | hmem | hmem : _ ∨ node ∈ Node.allOf _ ∨ _ := by
      simpa [or_assoc] using hmem
    · exact ⟨used, (List.prefix_append _ _).isInfix, hnode, hparts⟩
    · obtain ⟨within, hwithin, h⟩ := ihparts node hmem
      exact ⟨within, hwithin.trans (List.prefix_append _ _).isInfix, h⟩
    · obtain ⟨within, hwithin, h⟩ := ih node hmem
      exact ⟨within, hwithin.trans (List.suffix_append _ _).isInfix, h⟩

theorem Bears.exists_mem (h : Bears tokens nodes) {node : Node} (hnode : node ∈ nodes) :
    ∃ first ∈ tokens, ∃ last ∈ tokens, node.span = ⟨first.start, last.stop⟩ := by
  obtain ⟨used, hused, hread, -⟩ := h.exists_tokens node (Node.mem_allOf hnode)
  obtain ⟨first, hfirst, last, hlast, hspan⟩ := hread.spans.exists_mem
  exact ⟨first, hused.subset hfirst, last, hused.subset hlast, hspan⟩

/-! ## Order -/

/-- The tokens stand one behind the other. -/
structure Successive (tokens : List (Located Token)) : Prop where
  apart : tokens.Pairwise fun s t => s.stop.index ≤ t.start.index
  forward : ∀ t ∈ tokens, t.start.index ≤ t.stop.index

/-- Whether the second span lies in the first one. -/
structure Span.Encloses (around inside : Span) : Prop where
  start : around.start.index ≤ inside.start.index
  stop : inside.stop.index ≤ around.stop.index

theorem Successive.cons (h : Successive tokens) (hforward : t.start.index ≤ t.stop.index)
    (hapart : ∀ s ∈ tokens, t.stop.index ≤ s.start.index) : Successive (t :: tokens) :=
  ⟨List.pairwise_cons.mpr ⟨hapart, h.apart⟩, List.forall_mem_cons.mpr ⟨hforward, h.forward⟩⟩

theorem Successive.of_part (h : Successive tokens) (hused : used <:+: tokens) : Successive used :=
  ⟨h.apart.sublist hused.sublist, fun t ht => h.forward t (hused.subset ht)⟩

theorem Successive.within (h : Successive tokens) (hspan : Spans tokens span) (ht : t ∈ tokens) :
    span.Encloses t.span := by
  obtain ⟨first, hfirst, rfl⟩ := hspan
  obtain ⟨later, rfl⟩ := List.head?_eq_some_iff.mp hfirst
  have forward := h.forward
  constructor
  · obtain rfl | ht := List.mem_cons.mp ht
    · exact Nat.le_refl _
    · exact Nat.le_trans (forward first List.mem_cons_self) (List.rel_of_pairwise_cons h.apart ht)
  · obtain ⟨body, last, hsplit⟩ := List.eq_nil_or_concat' (first :: later) |>.resolve_left (by simp)
    rw [hsplit] at ht h ⊢
    rw [stopAfter_append]
    obtain ht | ht := List.mem_append.mp ht
    · have apart := (List.pairwise_append.mp h.apart).2.2 t ht last List.mem_cons_self
      exact Nat.le_trans apart (h.forward last (by simp))
    · obtain rfl := List.mem_singleton.mp ht
      exact Nat.le_refl _

theorem Bears.encloses (h : Bears tokens nodes) (ordered : Successive tokens)
    (hspan : Spans tokens span) {node : Node} (hnode : node ∈ nodes) :
    span.Encloses node.span := by
  obtain ⟨first, hfirst, last, hlast, heq⟩ := h.exists_mem hnode
  rw [heq]
  exact ⟨(ordered.within hspan hfirst).start, (ordered.within hspan hlast).stop⟩

theorem Bears.pairwise (h : Bears tokens nodes) (ordered : Successive tokens) :
    nodes.Pairwise fun a b => a.span.stop.index ≤ b.span.start.index := by
  -- Induction on what the tokens bear: later nodes have later tokens.
  induction h with
  | nil => exact .nil
  | skip _ ih => exact ih (ordered.of_part (List.suffix_cons _ _).isInfix)
  | node hnode _ hlater _ ih =>
    refine List.pairwise_cons.mpr
      ⟨fun node hmem => ?_, ih (ordered.of_part (List.suffix_append _ _).isInfix)⟩
    obtain ⟨_, -, last, hlast, heq⟩ := hnode.spans.exists_mem
    obtain ⟨first, hfirst, _, -, heq'⟩ := hlater.exists_mem hmem
    rw [heq, heq']
    exact (List.pairwise_append.mp ordered.apart).2.2 last hlast first hfirst

end GraphQL
