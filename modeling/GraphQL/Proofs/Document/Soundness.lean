import GraphQL.Proofs.Document.Readers

/-! # What readers read

When a reader gives an item, its rule derives the item from the tokens taken. Nothing is ever read
past the end of the file, and no fuel runs out.
-/

namespace GraphQL

namespace Read

open Grammar

variable {α β : Type} {start : Token → Prop} {size : Nat} {opening closing : Punctuator}

/-! ## Literals -/

theorem int64?_eq (digits : String) : int64? digits =
    if Decimal.isInt64 (wholeValue digits) then some (Int64.ofInt (wholeValue digits)) else none :=
  rfl

theorem toInt_of_int64? {digits : String} {n : Int64} (h : int64? digits = some n) :
    n.toInt = wholeValue digits := by
  rw [int64?_eq] at h
  split at h
  case isTrue hn =>
    obtain rfl := Option.some.inj h
    simp only [Decimal.isInt64, Bool.and_eq_true, decide_eq_true_eq] at hn
    have below := hn.2
    simp only [Int64.toInt_maxValue] at below
    exact Int64.toInt_ofInt_of_le hn.1 (by omega)
  case isFalse => cases h

theorem nameLiteral_derived (const : Bool) (name : String) :
    Grammar.Literal const [.name name] (nameLiteral name).bare := by
  unfold nameLiteral
  split
  · subst name; exact .true
  split
  · subst name; exact .false
  split
  · subst name; exact .null
  · exact .enum ‹_› ‹_› ‹_›

theorem scalarLiteral_derived (const : Bool) {t : Token} {l : Literal}
    (h : scalarLiteral? t = some (.ok l)) : Grammar.Literal const [t] l.bare := by
  unfold scalarLiteral? at h
  split at h
  case h_1 digits =>
    split at h
    case h_1 n hn =>
      cases h
      exact .int (toInt_of_int64? hn)
    case h_2 => cases h
  case h_2 => cases h; exact .float
  case h_3 => cases h; exact .quoted
  case h_4 => cases h; exact .block
  case h_5 => cases h

theorem scalarLiteral_ne_astray {t : Token} {e : ParseError}
    (h : scalarLiteral? t = some (.error e)) : e ≠ .astray := by
  cases t with
  | int digits =>
    simp only [scalarLiteral?] at h
    split at h
    · cases h
    · cases h
      exact ParseError.noConfusion
  | _ => cases h

theorem enclosed_ne_nil {rule : Production β} {used : List Token} {b : β}
    (h : Enclosed opening closing rule used b) : used ≠ [] := by
  cases h
  simp

theorem literal_ne_nil {const : Bool} {used : List Token} {l : Literal}
    (h : Grammar.Literal const used l) : used ≠ [] := by
  cases h <;> first | exact enclosed_ne_nil ‹_› | simp

theorem keyed_ne_nil {rule : Production β} {used : List Token} {b : String × β}
    (h : Keyed rule used b) : used ≠ [] := by
  cases h
  simp

theorem literalWithin_reads (const : Bool) (depth : Nat) :
    (∀ {start}, Reads start depth (literalWithin const depth) fun used l =>
      Grammar.Literal const used l.item.bare) ∧
    ∀ {start}, Reads start depth (objectFieldWithin const depth) fun used f =>
      Keyed (Grammar.Literal const) used (f.1.item, f.2.item.bare) := by
  -- Induction on the depth: a bracket is taken before each deeper literal.
  induction depth with
  | zero => exact ⟨Reads.zero, Reads.zero⟩
  | succ depth ih =>
    constructor <;> intro start
    · unfold literalWithin
      apply Reads.peek
      intro t _
      split
      case h_1 =>
        -- `[`: a list.
        apply Reads.bind (bracketed_reads (·.item.bare) (Grammar.Literal const) ih.1
          (fun _ _ => literal_ne_nil) (by omega))
        intro items used hitems
        apply Reads.pure
        rw [List.append_nil, Located.map, Literal.bare_list]
        exact .list hitems
      case h_2 =>
        -- `{`: an object.
        apply Reads.bind (bracketed_reads (fun f => (f.1.item, f.2.item.bare))
          (Keyed (Grammar.Literal const)) ih.2 (fun _ _ => keyed_ne_nil) (by omega))
        intro fields used hfields
        apply Reads.pure
        rw [List.append_nil, Located.map, Literal.bare_object]
        exact .object hfields
      case h_3 ht =>
        -- `$`: a variable, if variables may stand here.
        split
        case isTrue => exact unexpected_reads
        case isFalse hconst =>
          apply next_reads.bind
          rintro dollar _ ⟨rfl, hd⟩
          apply expectName_reads.bind
          rintro name _ ⟨rfl, -⟩
          apply Reads.pure
          rw [hd, ht]
          exact .variable (by simpa using hconst)
      case h_4 name ht =>
        -- A name stands for null, a boolean or an enum value.
        apply next_reads.bind
        rintro a _ ⟨rfl, ha⟩
        apply Reads.pure
        rw [ha, ht]
        exact nameLiteral_derived const name
      case h_5 =>
        -- A number or a string, or nothing that starts a literal.
        split
        case h_1 => exact unexpected_reads
        case h_2 result hresult =>
          apply next_reads.bind
          rintro a _ ⟨rfl, ha⟩
          split
          · apply Reads.pure
            rw [ha]
            exact scalarLiteral_derived const hresult
          · apply Reads.throw
            exact scalarLiteral_ne_astray hresult
    · unfold objectFieldWithin
      apply expectName_reads.bind
      rintro key _ ⟨rfl, -⟩
      apply expect_reads.bind
      rintro _ _ rfl
      apply Reads.bind (ih.1.mono (by simp))
      intro value used hvalue
      apply Reads.pure
      rw [List.append_nil]
      exact .intro hvalue

theorem literal_reads {const : Bool} : Reads start size (literal const) fun used l =>
    Grammar.Literal const used l.item.bare := by
  unfold literal
  apply Reads.remaining
  intro n
  exact (literalWithin_reads const _).1.mono (by omega)

/-! ## Types, arguments and directives -/

theorem marked_reads {t : Located TypeRef} {used : List Token}
    (bare : Grammar.TypeRef used t.item)
    (bang : Grammar.TypeRef (used ++ [.punctuator .bang]) t.item.nonNull) :
    Reads start size (marked t) fun later t' => Grammar.TypeRef (used ++ later) t'.item := by
  unfold marked
  apply Reads.peek
  intro next _
  split
  case isTrue ht =>
    apply next_reads.bind
    rintro mark _ ⟨rfl, hm⟩
    apply Reads.pure
    rw [hm, ht, List.append_nil]
    exact bang
  case isFalse =>
    apply Reads.pure
    rw [List.append_nil]
    exact bare

theorem typeRefWithin_reads (depth : Nat) {start : Token → Prop} :
    Reads start depth (typeRefWithin depth) fun used t => Grammar.TypeRef used t.item := by
  -- Induction on the depth: a bracket is taken before each deeper type.
  induction depth generalizing start with
  | zero => exact Reads.zero
  | succ depth ih =>
    unfold typeRefWithin
    apply skip_reads.bind
    rintro (_ | opening) used hused
    · obtain rfl : used = [] := by simpa using hused
      apply expectName_reads.bind
      rintro name _ ⟨rfl, -⟩
      exact marked_reads .named .nonNullNamed
    · obtain rfl : used = [.punctuator .bracketOpen] := by simpa using hused
      apply Reads.bind (ih.mono (by simp))
      intro item used hitem
      apply expect_reads.bind
      rintro closing _ rfl
      simp only [← List.append_assoc]
      exact marked_reads (.list (.intro hitem)) (.nonNullList (.intro hitem))

theorem typeRef_reads : Reads start size typeRef fun used t => Grammar.TypeRef used t.item := by
  unfold typeRef
  apply Reads.remaining
  intro n
  exact (typeRefWithin_reads _).mono (by omega)

theorem argument_reads : Reads start size argument fun used a => Grammar.Argument used a.bare := by
  unfold argument
  apply expectName_reads.bind
  rintro name _ ⟨rfl, -⟩
  apply expect_reads.bind
  rintro _ _ rfl
  apply literal_reads.bind
  intro value used hvalue
  apply Reads.pure
  rw [List.append_nil]
  exact .intro (.intro hvalue)

theorem argument_ne_nil {used : List Token} {a : Argument} (h : Grammar.Argument used a) :
    used ≠ [] := by
  cases h
  exact keyed_ne_nil ‹_›

/-- The trees of an argument list, without its places. -/
def argumentTrees (args : Option Arguments) : Option (List Argument) :=
  args.map fun as => as.item.map Argument.bare

theorem arguments_bare (args : Option Arguments) :
    args.map Arguments.bare = (argumentTrees args).map .nowhere := by
  cases args <;> rfl

theorem arguments_reads : Reads start size arguments fun used args =>
    Grammar.Arguments used (argumentTrees args) := by
  unfold arguments
  apply Reads.peek
  intro t _
  split
  case isTrue =>
    apply Reads.remaining
    intro n
    apply Reads.bind ((bracketedNonempty_reads Argument.bare Grammar.Argument argument_reads
      (fun _ _ => argument_ne_nil) (Nat.le_refl n)).mono (by omega))
    intro args used hargs
    apply Reads.pure
    rw [List.append_nil]
    exact .some hargs
  case isFalse => exact Reads.pure .none

theorem directive_reads : Reads start size directive fun used d =>
    Grammar.Directive used d.item.bare := by
  unfold directive
  apply expect_reads.bind
  rintro _ _ rfl
  apply expectName_reads.bind
  rintro name _ ⟨rfl, -⟩
  apply arguments_reads.bind
  intro args used hargs
  apply Reads.pure
  rw [List.append_nil]
  rw [Directive.bare, arguments_bare]
  exact .intro hargs

theorem directives_bare (ds : List (Located Directive)) :
    bareDirectives ds = (ds.map (·.item.bare)).map .nowhere := by
  rw [bareDirectives, List.map_map]
  rfl

theorem directive_ne_nil {used : List Token} {d : Directive} (h : Grammar.Directive used d) :
    used ≠ [] := by
  cases h
  simp

theorem directivesWithin_reads (limit : Nat) {start : Token → Prop} :
    Reads start limit (directivesWithin limit) fun used ds =>
      Grammar.Directives used (ds.map (·.item.bare)) := by
  induction limit generalizing start with
  | zero => exact Reads.zero
  | succ limit ih =>
    unfold directivesWithin
    apply Reads.peek
    intro t _
    split
    case isTrue =>
      apply directive_reads.bind
      intro first used hfirst
      have : 1 ≤ used.length := List.length_pos_iff.mpr (directive_ne_nil hfirst)
      apply Reads.bind (ih.mono (by omega))
      intro others later hothers
      apply Reads.pure
      rw [List.append_nil]
      exact .cons hfirst hothers
    case isFalse => exact Reads.pure .nil

theorem directives_reads : Reads start size directives fun used ds =>
    Grammar.Directives used (ds.map (·.item.bare)) := by
  unfold directives
  apply Reads.remaining
  exact fun n => directivesWithin_reads n

/-! ## Variable definitions -/

theorem default_bare (default : Option (Located Literal)) :
    (default.map fun l => Located.nowhere l.item.bare) =
      (default.map (·.item.bare)).map .nowhere := by
  cases default <;> rfl

theorem defaultValue_reads : Reads start size defaultValue fun used l =>
    Optionally Grammar.Default used (l.map (·.item.bare)) := by
  unfold defaultValue
  apply skip_reads.bind
  rintro (_ | _) used hused
  · obtain rfl : used = [] := by simpa using hused
    exact Reads.pure .none
  · obtain rfl : used = [.punctuator .equals] := by simpa using hused
    apply literal_reads.bind
    intro value used hvalue
    apply Reads.pure
    rw [List.append_nil]
    exact .some (.intro hvalue)

theorem variableDefinition_reads : Reads start size variableDefinition fun used v =>
    Grammar.VariableDefinition used v.bare := by
  unfold variableDefinition
  apply expect_reads.bind
  rintro dollar _ rfl
  apply expectName_reads.bind
  rintro name _ ⟨rfl, -⟩
  apply expect_reads.bind
  rintro _ _ rfl
  apply typeRef_reads.bind
  intro type used htype
  apply defaultValue_reads.bind
  intro default used' hdefault
  apply directives_reads.bind
  intro ds used'' hds
  apply Reads.pure
  rw [List.append_nil]
  rw [VariableDefinition.bare, directives_bare, default_bare]
  have derived := @Grammar.VariableDefinition.intro name.item _ _ _ _ _ _ htype hdefault hds
  exact derived

theorem variableDefinition_ne_nil {used : List Token} {v : VariableDefinition}
    (h : Grammar.VariableDefinition used v) : used ≠ [] := by
  cases h
  simp

/-- The trees of a list of variable definitions, without its places. -/
def variableTrees (vs : Option VariableDefinitions) : Option (List VariableDefinition) :=
  vs.map fun vs => vs.item.map VariableDefinition.bare

theorem variableDefinitions_reads : Reads start size variableDefinitions fun used vs =>
    Grammar.VariableDefinitions used (variableTrees vs) := by
  unfold variableDefinitions
  apply Reads.peek
  intro t _
  split
  case isTrue =>
    apply Reads.remaining
    intro n
    apply Reads.bind ((bracketedNonempty_reads VariableDefinition.bare Grammar.VariableDefinition
      variableDefinition_reads (fun _ _ => variableDefinition_ne_nil) (Nat.le_refl n)).mono
      (by omega))
    intro vs used hvs
    apply Reads.pure
    rw [List.append_nil]
    exact .some hvs
  case isFalse => exact Reads.pure .none

theorem variables_bare (vs : Option VariableDefinitions) :
    vs.map VariableDefinitions.bare = (variableTrees vs).map .nowhere := by
  cases vs <;> rfl

/-! ## Selections -/

theorem fieldName_reads : Reads start size fieldName fun used names =>
    ∃ before, used = before ++ [.name names.2.item] ∧
      Optionally Alias before (names.1.map (·.item)) := by
  unfold fieldName
  apply expectName_reads.bind
  rintro first _ ⟨rfl, -⟩
  apply skip_reads.bind
  rintro (_ | _) used hused
  · obtain rfl : used = [] := by simpa using hused
    apply Reads.pure
    exact ⟨[], rfl, .none⟩
  · obtain rfl : used = [.punctuator .colon] := by simpa using hused
    apply expectName_reads.bind
    rintro name _ ⟨rfl, -⟩
    apply Reads.pure
    exact ⟨[.name first.item, .punctuator .colon], rfl, .some .intro⟩

theorem selection_ne_nil {used : List Token} {s : Selection} (h : Grammar.Selection used s) :
    used ≠ [] := by
  cases h <;> simp

theorem name_bare (name : Option (Located String)) :
    (name.map fun n => Located.nowhere n.item) = (name.map (·.item)).map .nowhere := by
  cases name <;> rfl

theorem bare_spread (span : Span) (spread : Spread) :
    (Selection.spread span spread).bare = .spread .nowhere ⟨.nowhere spread.name.item,
      (argumentTrees spread.arguments).map .nowhere,
      (spread.directives.map (·.item.bare)).map .nowhere⟩ := by
  rw [Selection.bare, Spread.bare, arguments_bare, directives_bare]

theorem bare_inline (span : Span) (head : InlineHead) (selections : List Selection) :
    (Selection.inline span head selections).bare = .inline .nowhere
      ⟨(head.typeCondition.map (·.item)).map .nowhere,
        (head.directives.map (·.item.bare)).map .nowhere⟩
      (selections.map Selection.bare) := by
  rw [Selection.bare, Selection.bareAll_eq, InlineHead.bare, directives_bare, name_bare]

theorem bare_field (span : Span) (head : FieldHead) (selections : List Selection) :
    (Selection.field span head selections).bare = .field .nowhere
      ⟨(head.aliasName.map (·.item)).map .nowhere, .nowhere head.name.item,
        (argumentTrees head.arguments).map .nowhere,
        (head.directives.map (·.item.bare)).map .nowhere⟩
      (selections.map Selection.bare) := by
  rw [Selection.bare, Selection.bareAll_eq, FieldHead.bare, arguments_bare, directives_bare,
    name_bare]

theorem inline_derived {condition used later : List Token} {head : InlineHead}
    {selections : List Selection} (span : Span)
    (hcondition : Optionally TypeCondition condition (head.typeCondition.map (·.item)))
    (hds : Grammar.Directives used (head.directives.map (·.item.bare)))
    (hselections : SelectionSet later (selections.map Selection.bare)) :
    Grammar.Selection (.punctuator .ellipsis :: (condition ++ (used ++ later)))
      (Selection.inline span head selections).bare := by
  rw [bare_inline]
  exact .inline hcondition hds hselections

theorem field_derived {before arguments directives inside : List Token} {head : FieldHead}
    {selections : List Selection} {trees : Option (List Selection)} (span : Span)
    (hbefore : Optionally Alias before (head.aliasName.map (·.item)))
    (hargs : Grammar.Arguments arguments (argumentTrees head.arguments))
    (hds : Grammar.Directives directives (head.directives.map (·.item.bare)))
    (hinside : Optionally SelectionSet inside trees)
    (htrees : trees.getD [] = selections.map Selection.bare) :
    Grammar.Selection
      (before ++ .name head.name.item :: (arguments ++ (directives ++ inside)))
      (Selection.field span head selections).bare := by
  rw [bare_field, ← htrees]
  exact .field hbefore hargs hds hinside

theorem selectionWithin_reads (depth : Nat) :
    (∀ {start}, Reads start depth (selectionWithin depth) fun used s =>
      Grammar.Selection used s.bare) ∧
    ∀ {start}, Reads start depth (selectionSetWithin depth) fun used ss =>
      SelectionSet used (ss.item.map Selection.bare) := by
  -- Induction on the depth: a brace is taken before each deeper selection.
  induction depth with
  | zero => exact ⟨Reads.zero, Reads.zero⟩
  | succ depth ih =>
    constructor <;> intro start
    · unfold selectionWithin
      apply Reads.peek
      intro t _
      split
      case isTrue ht =>
        apply next_reads.bind
        rintro ellipsis _ ⟨rfl, he⟩
        rw [he, ht]
        apply Reads.peek
        intro t _
        split
        case h_1 hon =>
          -- `... on`, and a type: an inline fragment with a type condition.
          apply next_reads.bind
          rintro on _ ⟨rfl, hon'⟩
          rw [hon', hon]
          apply expectName_reads.bind
          rintro condition _ ⟨rfl, -⟩
          apply directives_reads.bind
          intro ds used hds
          apply Reads.bind (ih.2.mono (by simp; omega))
          intro selections later hselections
          apply Reads.pure
          rw [List.append_nil]
          have derived (span : Span) := @inline_derived _ _ _ ⟨some condition, ds⟩ _ span
            (.some .intro) hds hselections
          exact derived _
        case h_2 n not_on hn =>
          -- `...`, and another name: a spread.
          apply expectName_reads.bind
          rintro name _ ⟨rfl, hname⟩
          obtain rfl : name.item = n := by simpa [hn] using hname
          apply arguments_reads.bind
          intro args used hargs
          apply directives_reads.bind
          intro ds later hds
          apply Reads.pure
          rw [List.append_nil, bare_spread]
          have derived := Grammar.Selection.spread not_on hargs hds
          exact derived
        case h_3 =>
          -- `... {`: an inline fragment without anything before its selections.
          apply Reads.bind (ih.2.mono (by simp))
          intro selections later hselections
          apply Reads.pure
          rw [List.append_nil]
          exact @inline_derived [] [] _ ⟨none, []⟩ _ _ .none .nil hselections
        case h_4 =>
          -- `... @`: an inline fragment with directives only.
          apply directives_reads.bind
          intro ds used hds
          apply Reads.bind (ih.2.mono (by simp))
          intro selections later hselections
          apply Reads.pure
          rw [List.append_nil]
          exact @inline_derived [] _ _ ⟨none, ds⟩ _ _ .none hds hselections
        case h_5 => exact unexpected_reads
      case isFalse =>
        -- Without `...`, a field.
        apply fieldName_reads.bind
        rintro ⟨aliasName, name⟩ _ ⟨before, rfl, hbefore⟩
        apply arguments_reads.bind
        intro args used hargs
        apply directives_reads.bind
        intro ds later hds
        apply Reads.peek
        intro t _
        split
        case isTrue =>
          apply Reads.bind (ih.2.mono (by simp; omega))
          intro selections inside hselections
          apply Reads.pure
          rw [List.append_nil, List.append_assoc]
          have derived (span : Span) := @field_derived _ _ _ _ ⟨aliasName, name, args, ds⟩ _ _ span
            hbefore hargs hds (.some hselections) rfl
          exact derived _
        case isFalse =>
          apply Reads.pure
          rw [List.append_assoc]
          have derived (span : Span) := @field_derived _ _ _ _ ⟨aliasName, name, args, ds⟩ [] _ span
            hbefore hargs hds .none rfl
          exact derived _
    · unfold selectionSetWithin
      exact bracketedNonempty_reads _ _ ih.1 (fun _ _ => selection_ne_nil) (by omega)

theorem selectionSet_reads : Reads start size selectionSet fun used ss =>
    SelectionSet used (ss.item.map Selection.bare) := by
  unfold selectionSet
  apply Reads.remaining
  intro n
  exact (selectionWithin_reads _).2.mono (by omega)

/-! ## Definitions -/

theorem operationKind?_eq_some {keyword : String} {kind : OperationKind}
    (h : operationKind? keyword = some kind) : keyword = kind.text := by
  unfold operationKind? at h
  split at h
  · cases h; assumption
  split at h
  · cases h; assumption
  split at h
  · cases h; assumption
  · cases h

theorem operationName_reads : Reads start size operationName fun used name =>
    Optionally Name used (name.map (·.item)) := by
  unfold operationName
  apply Reads.peek
  intro t _
  split
  · apply expectName_reads.bind
    rintro name _ ⟨rfl, -⟩
    exact Reads.pure (.some .intro)
  · exact Reads.pure .none

theorem operation_reads {kind : OperationKind} :
    Reads (· = .name kind.text) size (operation kind) fun used o =>
      Grammar.Definition used (Definition.operation o).bare := by
  unfold operation
  apply next_reads.bind
  rintro keyword _ ⟨rfl, hk⟩
  rw [hk]
  apply operationName_reads.bind
  intro name called hname
  apply variableDefinitions_reads.bind
  intro vs parameters hvs
  apply directives_reads.bind
  intro ds used hds
  apply selectionSet_reads.bind
  intro selections inside hselections
  apply Reads.pure
  rw [List.append_nil, Definition.bare, Operation.bare, name_bare, variables_bare, directives_bare]
  have derived := @Grammar.Definition.operation kind _ _ _ _ _ _ _ _ hname hvs hds hselections
  exact derived

theorem fragmentName_reads : Reads start size fragmentName fun used name =>
    used = [.name name.item] ∧ name.item ≠ "on" := by
  unfold fragmentName
  apply expectName_reads.bind
  rintro name _ ⟨rfl, -⟩
  split
  case isTrue =>
    apply Reads.throw
    simp [Located.map]
  case isFalse hne => exact Reads.pure ⟨rfl, hne⟩

theorem fragment_reads : Reads start size fragment fun used f =>
    Grammar.Definition used (Definition.fragment f).bare := by
  unfold fragment
  apply expectKeyword_reads.bind
  rintro keyword _ rfl
  apply fragmentName_reads.bind
  rintro name _ ⟨rfl, hne⟩
  apply variableDefinitions_reads.bind
  intro vs parameters hvs
  apply expectKeyword_reads.bind
  rintro on _ rfl
  apply expectName_reads.bind
  rintro condition _ ⟨rfl, -⟩
  apply directives_reads.bind
  intro ds used hds
  apply selectionSet_reads.bind
  intro selections inside hselections
  apply Reads.pure
  rw [List.append_nil, Definition.bare, Fragment.bare, variables_bare, directives_bare]
  have derived := @Grammar.Definition.fragment _ condition.item _ _ _ _ _ _ hne hvs hds hselections
  exact derived

theorem definition_reads : Reads start size definition fun used d =>
    Grammar.Definition used d.bare := by
  unfold definition
  apply Reads.peek
  intro t _
  split
  case h_1 =>
    -- `{`: a query written as its selections only.
    apply selectionSet_reads.bind
    intro selections used hselections
    apply Reads.pure
    rw [List.append_nil]
    exact .shorthand hselections
  case h_2 name hn =>
    split
    case h_1 kind hkind =>
      -- The keyword of an operation.
      rw [hn, operationKind?_eq_some hkind]
      apply Reads.bind (operation_reads)
      intro o used ho
      apply Reads.pure
      rwa [List.append_nil]
    case h_2 =>
      split
      case isTrue =>
        -- The keyword of a fragment.
        apply fragment_reads.bind
        intro f used hf
        apply Reads.pure
        rwa [List.append_nil]
      case isFalse => exact unexpected_reads
  case h_3 => exact unexpected_reads

theorem definition_ne_nil {used : List Token} {d : Definition} (h : Grammar.Definition used d) :
    used ≠ [] := by
  cases h <;> first | exact enclosed_ne_nil ‹_› | simp

theorem definitionsWithin_reads (limit : Nat) {start : Token → Prop} :
    Reads start limit (definitionsWithin limit) fun used d => Grammar.Document used d.bare := by
  induction limit generalizing start with
  | zero => exact Reads.zero
  | succ limit ih =>
    unfold definitionsWithin
    apply definition_reads.bind
    intro first used hfirst
    have : 1 ≤ used.length := List.length_pos_iff.mpr (definition_ne_nil hfirst)
    apply Reads.peek
    intro t _
    split
    case isTrue =>
      apply Reads.pure
      exact .cons hfirst .nil
    case isFalse =>
      apply Reads.bind (ih.mono (by omega))
      intro others later hothers
      apply Reads.pure
      rw [List.append_nil]
      exact .cons hfirst hothers.many

theorem definitionsWithin_finished {limit : Nat} {tokens rest : List (Located Token)} {d : Document}
    (h : definitionsWithin limit tokens = .ok (d, rest)) :
    ∃ t later, rest = t :: later ∧ t.item = .endOfFile := by
  induction limit generalizing tokens d with
  | zero => cases h
  | succ limit ih =>
    unfold definitionsWithin at h
    obtain ⟨first, mid, -, h⟩ := bind_ok h
    obtain ⟨t, mid', hpeek, h⟩ := bind_ok h
    cases mid with
    | nil => cases hpeek
    | cons t' later =>
      obtain ⟨rfl, rfl⟩ : t' = t ∧ t' :: later = mid' := by simpa [peek] using hpeek
      split at h
      case isTrue ht =>
        cases h
        exact ⟨t', later, rfl, ht⟩
      case isFalse =>
        obtain ⟨others, mid, hothers, h⟩ := bind_ok h
        cases h
        exact ih hothers

theorem document_finished {tokens rest : List (Located Token)} {d : Document} (ended : Ended rest)
    (h : document tokens = .ok (d, rest)) : ∃ t, rest = [t] := by
  obtain ⟨limit, mid, -, h⟩ := bind_ok h
  obtain ⟨t, later, rfl, ht⟩ := definitionsWithin_finished h
  cases ended with
  | last => exact ⟨t, rfl⟩
  | cons hne => exact absurd ht hne

theorem document_reads : Reads start size document fun used d => Grammar.Document used d.bare := by
  unfold document
  apply Reads.remaining
  exact fun n => definitionsWithin_reads n

end Read

end GraphQL
