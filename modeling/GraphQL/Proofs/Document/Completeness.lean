import GraphQL.Proofs.Document.Soundness

/-! # What readers accept

Where a rule derives a tree from the next tokens, its reader takes just these and gives the tree,
if what follows cannot belong to it.
-/

namespace GraphQL.Read

open Grammar

variable {β : Type} {size : Nat} {tokens : List Token} {t next : Token}

/-! ## Literals -/

theorem int64?_of_toInt {digits : String} {n : Int64} (h : n.toInt = wholeValue digits) :
    int64? digits = some n := by
  have fits : Decimal.isInt64 (wholeValue digits) := by
    have lower := Int64.minValue_le_toInt n
    have upper := Int64.toInt_le n
    simp only [Decimal.isInt64, Bool.and_eq_true, decide_eq_true_eq]
    rw [← h]
    simp only [Int64.toInt_minValue, Int64.toInt_maxValue] at *
    omega
  rw [int64?_eq, if_pos fits, ← h, Int64.ofInt_toInt]

theorem literal_starts {const : Bool} : Starts (Grammar.Literal const) fun t =>
    any t ∧ t ≠ .punctuator .bracketClose ∧ t ≠ .endOfFile := by
  rintro tokens l h
  cases h with
  | list h => cases h; exact ⟨_, _, rfl, by simp [any]⟩
  | object h => cases h; exact ⟨_, _, rfl, by simp [any]⟩
  | _ => exact ⟨_, _, rfl, by simp [any]⟩

theorem keyed_starts {rule : Production β} : Starts (Keyed rule) fun t =>
    any t ∧ t ≠ .punctuator .braceClose ∧ t ≠ .endOfFile := by
  rintro tokens b h
  cases h
  exact ⟨_, _, rfl, by simp [any]⟩

theorem name_takes {const : Bool} {depth : Nat} {name : String} :
    Takes size (literalWithin const (depth + 1)) [.name name] next
      (·.item.bare = (nameLiteral name).bare) := by
  unfold literalWithin
  apply Takes.peek_cons
  intro x hx
  rw [hx]
  apply next_takes.last
  exact fun _ _ => rfl

theorem scalar_takes {const : Bool} {depth : Nat} {l : Literal}
    (h : scalarLiteral? t = some (.ok l)) :
    Takes size (literalWithin const (depth + 1)) [t] next (·.item = l) := by
  unfold literalWithin
  apply Takes.peek_cons
  intro x hx
  rw [hx]
  cases t with
  | name => cases h
  | punctuator => cases h
  | endOfFile => cases h
  | _ =>
    simp only [h]
    apply next_takes.last
    exact fun _ _ => rfl

theorem literalWithin_takes (const : Bool) (depth : Nat) :
    (∀ tokens l next, Grammar.Literal const tokens l →
      Takes depth (literalWithin const depth) tokens next (·.item.bare = l)) ∧
    ∀ tokens f next, Keyed (Grammar.Literal const) tokens f →
      Takes depth (objectFieldWithin const depth) tokens next
        fun x => (x.1.item, x.2.item.bare) = f := by
  -- Induction on the depth: a bracket is taken before each deeper literal.
  induction depth with
  | zero => exact ⟨fun _ _ _ _ => Takes.zero, fun _ _ _ _ => Takes.zero⟩
  | succ depth ih =>
    constructor
    · intro tokens l next h
      cases h with
      | null => exact name_takes
      | true => exact name_takes
      | false => exact name_takes
      | @enum name hnull htrue hfalse =>
        have named : nameLiteral name = .enum name := by
          rw [nameLiteral, if_neg htrue, if_neg hfalse, if_neg hnull]
        apply name_takes.imp
        intro a ha
        rw [ha, named]
        rfl
      | @int digits n hn =>
        have scalar : scalarLiteral? (.int digits) = some (.ok (.int n)) := by
          rw [scalarLiteral?, int64?_of_toInt hn]
        apply (scalar_takes scalar).imp
        intro a ha
        rw [ha]
        rfl
      | float => exact (scalar_takes rfl).imp fun a ha => by rw [ha]; rfl
      | quoted => exact (scalar_takes rfl).imp fun a ha => by rw [ha]; rfl
      | block => exact (scalar_takes rfl).imp fun a ha => by rw [ha]; rfl
      | «variable» hconst =>
        unfold literalWithin
        apply Takes.peek_cons
        intro x hx
        rw [hx]
        subst hconst
        apply next_takes.cons
        intro dollar _
        apply expectName_takes.last
        rintro name rfl
        rfl
      | list h =>
        obtain ⟨h⟩ := h
        unfold literalWithin
        apply Takes.peek_cons
        intro x hx
        rw [hx]
        apply (bracketed_takes (·.item.bare) (fun tokens l next h _ => ih.1 tokens l next h)
          literal_starts trivial (by omega) (.intro h)).last
        rintro items rfl
        exact Literal.bare_list items.item
      | object h =>
        obtain ⟨h⟩ := h
        unfold literalWithin
        apply Takes.peek_cons
        intro x hx
        rw [hx]
        apply (bracketed_takes (fun x => (x.1.item, x.2.item.bare))
          (fun tokens f next h _ => ih.2 tokens f next h) keyed_starts trivial (by omega)
          (.intro h)).last
        rintro fields rfl
        exact Literal.bare_object fields.item
    · intro tokens f next h
      obtain ⟨h⟩ := h
      unfold objectFieldWithin
      apply expectName_takes.cons
      rintro key rfl
      apply expect_takes.cons
      rintro colon -
      apply ((ih.1 _ _ _ h).mono (by omega)).last
      rintro value rfl
      rfl

theorem literal_takes {const : Bool} {l : Literal} (h : Grammar.Literal const tokens l) :
    Takes size (literal const) tokens next (·.item.bare = l) := by
  unfold literal
  apply Takes.remaining
  exact fun n => ((literalWithin_takes const _).1 _ _ _ h).mono (by omega)

/-! ## Types, arguments and directives -/

theorem marked_takes {type : Located TypeRef} :
    Takes size (marked type) [.punctuator .bang] next (·.item = type.item.nonNull) := by
  unfold marked
  apply Takes.peek_cons
  intro x hx
  rw [if_pos hx]
  apply next_takes.last
  exact fun _ _ => rfl

theorem marked_takes_none {type : Located TypeRef} (h : next ≠ .punctuator .bang) :
    Takes size (marked type) [] next (·.item = type.item) := by
  unfold marked
  apply Takes.peek
  intro x hx
  rw [List.headD_nil] at hx
  rw [hx, if_neg h]
  exact Takes.pure rfl

theorem typeRefWithin_takes (depth : Nat) {type : TypeRef} (h : Grammar.TypeRef tokens type)
    (hn : next ≠ .punctuator .bang) :
    Takes depth (typeRefWithin depth) tokens next (·.item = type) := by
  -- Induction on the depth: a bracket is taken before each deeper type.
  induction depth generalizing tokens type next with
  | zero => exact Takes.zero
  | succ depth ih =>
    unfold typeRefWithin
    cases h with
    | named =>
      apply (skip_takes_none (by simp) (by simp)).none
      rintro _ rfl
      apply expectName_takes.cons
      rintro name rfl
      exact marked_takes_none hn
    | nonNullNamed =>
      apply (skip_takes_none (by simp) (by simp)).none
      rintro _ rfl
      apply expectName_takes.cons
      rintro name rfl
      exact marked_takes
    | list h =>
      obtain ⟨h⟩ := h
      apply skip_takes.cons
      intro opening hopening
      obtain ⟨x, rfl⟩ := Option.isSome_iff_exists.mp hopening
      apply Takes.bind (ih h (by simp))
      rintro item rfl
      apply expect_takes.cons
      rintro closing -
      exact marked_takes_none hn
    | nonNullList h =>
      obtain ⟨h⟩ := h
      rw [List.cons_append, List.append_assoc]
      apply skip_takes.cons
      intro opening hopening
      obtain ⟨x, rfl⟩ := Option.isSome_iff_exists.mp hopening
      apply Takes.bind (ih h (by simp))
      rintro item rfl
      apply expect_takes.cons
      rintro closing -
      exact marked_takes

theorem typeRef_takes {type : TypeRef} (h : Grammar.TypeRef tokens type)
    (hn : next ≠ .punctuator .bang) : Takes size typeRef tokens next (·.item = type) := by
  unfold typeRef
  apply Takes.remaining
  exact fun n => (typeRefWithin_takes (n + 1) h hn).mono (by omega)

theorem argument_takes {a : Argument} (h : Grammar.Argument tokens a) :
    Takes size argument tokens next (·.bare = a) := by
  obtain ⟨⟨h⟩⟩ := h
  unfold argument
  apply expectName_takes.cons
  rintro name rfl
  apply expect_takes.cons
  rintro colon -
  apply (literal_takes h).last
  rintro value rfl
  rfl

theorem argument_starts : Starts Grammar.Argument fun t =>
    any t ∧ t ≠ .punctuator .parenClose ∧ t ≠ .endOfFile := by
  rintro tokens a h
  obtain ⟨⟨h⟩⟩ := h
  exact ⟨_, _, rfl, by simp [any]⟩

theorem arguments_takes {args : Option (List Argument)} (h : Grammar.Arguments tokens args)
    (hn : next ≠ .punctuator .parenOpen) :
    Takes size arguments tokens next (argumentTrees · = args) := by
  unfold arguments
  cases h with
  | none =>
    apply Takes.peek
    intro x hx
    rw [List.headD_nil] at hx
    rw [hx, if_neg hn]
    exact Takes.pure rfl
  | some h =>
    obtain ⟨h⟩ := h
    apply Takes.peek_cons
    intro x hx
    rw [if_pos hx]
    apply Takes.remaining
    intro n
    apply ((bracketedNonempty_takes Argument.bare (fun tokens a next h _ => argument_takes h)
      argument_starts trivial (Nat.le_refl n) (.intro h)).mono (by omega)).last
    rintro args rfl
    rfl

theorem directive_takes {d : Directive} (h : Grammar.Directive tokens d)
    (hn : next ≠ .punctuator .parenOpen) :
    Takes size directive tokens next (·.item.bare = d) := by
  obtain ⟨h⟩ := h
  unfold directive
  apply expect_takes.cons
  rintro start -
  apply expectName_takes.cons
  rintro name rfl
  apply (arguments_takes h hn).last
  rintro args rfl
  rw [Directive.bare, arguments_bare]

theorem directive_starts : Starts Grammar.Directive (· = .punctuator .at) := by
  rintro tokens d h
  obtain ⟨h⟩ := h
  exact ⟨_, _, rfl, rfl⟩

theorem directivesWithin_takes (limit : Nat) {ds : List Directive}
    (h : Grammar.Directives tokens ds) (hat : next ≠ .punctuator .at)
    (hn : next ≠ .punctuator .parenOpen) :
    Takes limit (directivesWithin limit) tokens next (·.map (·.item.bare) = ds) := by
  induction limit generalizing tokens ds with
  | zero => exact Takes.zero
  | succ limit ih =>
    unfold directivesWithin
    cases h with
    | nil =>
      apply Takes.peek
      intro x hx
      rw [List.headD_nil] at hx
      rw [hx, if_neg hat]
      exact Takes.pure rfl
    | @cons first others d ds hfirst hothers =>
      apply Takes.peek
      intro x hx
      have hx : x.item = .punctuator .at := hx.trans (directive_starts.headD hfirst)
      rw [if_pos hx]
      have hnext : others.headD next ≠ .punctuator .parenOpen := by
        cases hothers with
        | nil => exact hn
        | cons hsecond _ => rw [directive_starts.headD hsecond]; simp
      apply Takes.bind (directive_takes hfirst hnext)
      rintro d rfl
      have taken : 1 ≤ first.length := by
        obtain ⟨t, later, rfl, -⟩ := directive_starts _ _ hfirst
        simp
      apply ((ih hothers).mono (by omega)).last
      rintro ds rfl
      rfl

theorem directives_takes {ds : List Directive} (h : Grammar.Directives tokens ds)
    (hat : next ≠ .punctuator .at) (hn : next ≠ .punctuator .parenOpen) :
    Takes size directives tokens next (·.map (·.item.bare) = ds) := by
  unfold directives
  apply Takes.remaining
  exact fun n => directivesWithin_takes n h hat hn

/-! ## What may come next -/

theorem headD_append (first later : List Token) (next : Token) :
    (first ++ later).headD next = first.headD (later.headD next) := by
  cases first <;> rfl

section

variable {rule : Production β} {opening closing : Punctuator} {p : Token → Prop}

theorem enclosed_next {b : β} (h : Enclosed opening closing rule tokens b)
    (ho : p (.punctuator opening)) : p (tokens.headD next) := by
  obtain ⟨h⟩ := h
  exact ho

theorem optionally_next {b : Option β} (h : Optionally (Enclosed opening closing rule) tokens b)
    (ho : p (.punctuator opening)) (hn : p next) : p (tokens.headD next) := by
  cases h with
  | none => exact hn
  | some h => exact enclosed_next h ho

theorem directives_next {ds : List Directive} (h : Grammar.Directives tokens ds)
    (hat : p (.punctuator .at)) (hn : p next) : p (tokens.headD next) := by
  cases h with
  | nil => exact hn
  | cons hfirst _ =>
    rw [directive_starts.headD hfirst]
    exact hat

theorem default_next {l : Option Literal} (h : Optionally Grammar.Default tokens l)
    (he : p (.punctuator .equals)) (hn : p next) : p (tokens.headD next) := by
  cases h with
  | none => exact hn
  | some h =>
    obtain ⟨h⟩ := h
    exact he

end

/-! ## Variable definitions -/

theorem defaultValue_takes {l : Option Literal} (h : Optionally Grammar.Default tokens l)
    (hn : next ≠ .punctuator .equals) (hend : next ≠ .endOfFile) :
    Takes size defaultValue tokens next (·.map (·.item.bare) = l) := by
  unfold defaultValue
  cases h with
  | none =>
    apply (skip_takes_none hn hend).none
    rintro _ rfl
    exact Takes.pure rfl
  | some h =>
    obtain ⟨h⟩ := h
    apply skip_takes.cons
    intro equals hequals
    obtain ⟨x, rfl⟩ := Option.isSome_iff_exists.mp hequals
    apply (literal_takes h).last
    rintro value rfl
    rfl

/-- What follows a variable definition: the next one, or the end of the list. -/
def AfterVariable (t : Token) : Prop := t = .punctuator .dollar ∨ t = .punctuator .parenClose

theorem variableDefinition_takes {v : VariableDefinition}
    (h : Grammar.VariableDefinition tokens v) (hn : AfterVariable next) :
    Takes size variableDefinition tokens next (·.bare = v) := by
  obtain ⟨htype, hdefault, hds⟩ := h
  obtain ⟨hbang, hequals, hat, hparen, hend⟩ : next ≠ .punctuator .bang ∧
      next ≠ .punctuator .equals ∧ next ≠ .punctuator .at ∧ next ≠ .punctuator .parenOpen ∧
      next ≠ .endOfFile := by
    obtain rfl | rfl := hn <;> simp
  unfold variableDefinition
  apply expect_takes.cons
  rintro dollar -
  apply expectName_takes.cons
  rintro name rfl
  apply expect_takes.cons
  rintro colon -
  apply Takes.bind (typeRef_takes htype ?_)
  · rintro type rfl
    apply Takes.bind (defaultValue_takes hdefault ?_ ?_)
    · rintro default rfl
      apply (directives_takes hds hat hparen).last
      rintro ds rfl
      rw [VariableDefinition.bare, directives_bare, default_bare]
    · exact directives_next (p := (· ≠ .punctuator .equals)) hds (by simp) hequals
    · exact directives_next (p := (· ≠ .endOfFile)) hds (by simp) hend
  · rw [headD_append]
    apply default_next (p := (· ≠ .punctuator .bang)) hdefault (by simp)
    exact directives_next (p := (· ≠ .punctuator .bang)) hds (by simp) hbang

theorem variableDefinition_starts : Starts Grammar.VariableDefinition fun t =>
    AfterVariable t ∧ t ≠ .punctuator .parenClose ∧ t ≠ .endOfFile := by
  rintro tokens v h
  obtain ⟨htype, hdefault, hds⟩ := h
  exact ⟨_, _, rfl, .inl rfl, by simp⟩

theorem variableDefinitions_takes {vs : Option (List VariableDefinition)}
    (h : Grammar.VariableDefinitions tokens vs) (hn : next ≠ .punctuator .parenOpen) :
    Takes size variableDefinitions tokens next (variableTrees · = vs) := by
  unfold variableDefinitions
  cases h with
  | none =>
    apply Takes.peek
    intro x hx
    rw [List.headD_nil] at hx
    rw [hx, if_neg hn]
    exact Takes.pure rfl
  | some h =>
    obtain ⟨h⟩ := h
    apply Takes.peek_cons
    intro x hx
    rw [if_pos hx]
    apply Takes.remaining
    intro n
    apply ((bracketedNonempty_takes VariableDefinition.bare
      (fun tokens v next h hn => variableDefinition_takes h hn) variableDefinition_starts (.inr rfl)
      (Nat.le_refl n) (.intro h)).mono (by omega)).last
    rintro vs rfl
    rfl

/-! ## Selections -/

theorem fieldName_takes {aliasName : Option String} {name : String}
    (h : Optionally Alias tokens aliasName) (hn : next ≠ .punctuator .colon)
    (hend : next ≠ .endOfFile) :
    Takes size fieldName (tokens ++ [.name name]) next
      fun names => names.1.map (·.item) = aliasName ∧ names.2.item = name := by
  unfold fieldName
  cases h with
  | none =>
    apply expectName_takes.cons
    rintro first rfl
    apply (skip_takes_none hn hend).none
    rintro _ rfl
    exact Takes.pure ⟨rfl, rfl⟩
  | some h =>
    obtain ⟨⟩ := h
    apply expectName_takes.cons
    rintro first rfl
    apply skip_takes.cons
    intro colon hcolon
    obtain ⟨x, rfl⟩ := Option.isSome_iff_exists.mp hcolon
    apply expectName_takes.last
    rintro name rfl
    exact ⟨rfl, rfl⟩

/-- What follows a selection: the next one, or the end of the set. -/
def AfterSelection (t : Token) : Prop :=
  t = .punctuator .ellipsis ∨ t = .punctuator .braceClose ∨ ∃ name, t = .name name

theorem selection_starts : Starts Grammar.Selection fun t =>
    AfterSelection t ∧ t ≠ .punctuator .braceClose ∧ t ≠ .endOfFile := by
  rintro tokens s h
  cases h with
  | field h =>
    cases h with
    | none => exact ⟨_, _, rfl, .inr (.inr ⟨_, rfl⟩), by simp⟩
    | some h => obtain ⟨⟩ := h; exact ⟨_, _, rfl, .inr (.inr ⟨_, rfl⟩), by simp⟩
  | spread => exact ⟨_, _, rfl, .inl rfl, by simp⟩
  | inline => exact ⟨_, _, rfl, .inl rfl, by simp⟩

theorem afterSelection_ne (h : AfterSelection next) : next ≠ .punctuator .colon ∧
    next ≠ .punctuator .parenOpen ∧ next ≠ .punctuator .at ∧ next ≠ .punctuator .braceOpen ∧
    next ≠ .endOfFile := by
  obtain rfl | rfl | ⟨name, rfl⟩ := h <;> simp

theorem spread_takes {depth : Nat} {name : String} {arguments directives : List Token}
    {args : Option (List Argument)} {ds : List Directive} (hname : name ≠ "on")
    (hargs : Grammar.Arguments arguments args) (hds : Grammar.Directives directives ds)
    (hn : AfterSelection next) :
    Takes size (selectionWithin (depth + 1))
      (.punctuator .ellipsis :: .name name :: (arguments ++ directives)) next
      (·.bare = .spread .nowhere ⟨.nowhere name, args.map .nowhere, ds.map .nowhere⟩) := by
  obtain ⟨-, hparen, hat, -, -⟩ := afterSelection_ne hn
  unfold selectionWithin
  apply Takes.peek_cons
  intro x hx
  rw [if_pos hx]
  apply next_takes.cons
  intro ellipsis _
  apply Takes.peek_cons
  intro x hx
  rw [hx]
  split
  case h_1 hon => exact absurd (Token.name.inj hon) hname
  case h_2 =>
    apply expectName_takes.cons
    rintro name rfl
    apply Takes.bind (arguments_takes hargs ?_)
    · rintro args rfl
      apply (directives_takes hds hat hparen).last
      rintro ds rfl
      rw [bare_spread]
    · exact directives_next (p := (· ≠ .punctuator .parenOpen)) hds (by simp) hparen
  case h_3 h => cases h
  case h_4 h => cases h
  case h_5 other _ _ => exact absurd rfl (other name)

section

variable {depth : Nat} (hset : ∀ tokens ss next, SelectionSet tokens ss →
  Takes depth (selectionSetWithin depth) tokens next (·.item.map Selection.bare = ss))

include hset

theorem inline_takes {condition directives inside : List Token} {type : Option String}
    {ds : List Directive} {selections : List Selection}
    (hcondition : Optionally TypeCondition condition type)
    (hds : Grammar.Directives directives ds) (hinside : SelectionSet inside selections) :
    Takes (depth + 1) (selectionWithin (depth + 1))
      (.punctuator .ellipsis :: (condition ++ (directives ++ inside))) next
      (·.bare = .inline .nowhere ⟨type.map .nowhere, ds.map .nowhere⟩ selections) := by
  have hset' {size : Nat} (le : size ≤ depth) := (hset _ _ next hinside).mono le
  have hat : inside.headD next ≠ .punctuator .at :=
    enclosed_next (p := (· ≠ .punctuator .at)) hinside (by simp)
  have hparen : inside.headD next ≠ .punctuator .parenOpen :=
    enclosed_next (p := (· ≠ .punctuator .parenOpen)) hinside (by simp)
  unfold selectionWithin
  apply Takes.peek_cons
  intro x hx
  rw [if_pos hx]
  apply next_takes.cons
  intro ellipsis _
  cases hcondition with
  | some h =>
    obtain ⟨⟩ := h
    apply Takes.peek_cons
    intro x hx
    rw [hx]
    apply next_takes.cons
    intro on _
    apply expectName_takes.cons
    rintro name rfl
    apply Takes.bind (directives_takes hds hat hparen)
    rintro ds rfl
    apply (hset' (by omega)).last
    rintro selections rfl
    rw [bare_inline]
    rfl
  | none =>
    rw [List.nil_append]
    cases hds with
    | nil =>
      obtain ⟨h⟩ := hinside
      apply Takes.peek_cons
      intro x hx
      rw [hx]
      apply (hset' (by omega)).last
      rintro selections rfl
      rw [bare_inline]
      rfl
    | cons hfirst hothers =>
      apply Takes.peek
      intro x hx
      rw [List.append_assoc, directive_starts.headD hfirst] at hx
      rw [hx]
      apply Takes.bind (directives_takes (.cons hfirst hothers) hat hparen)
      intro ds hds
      apply (hset' (by omega)).last
      rintro selections rfl
      rw [bare_inline, hds]
      rfl

theorem field_takes {before arguments directives inside : List Token} {aliasName : Option String}
    {name : String} {args : Option (List Argument)} {ds : List Directive}
    {selections : Option (List Selection)}
    (hbefore : Optionally Alias before aliasName) (hargs : Grammar.Arguments arguments args)
    (hds : Grammar.Directives directives ds) (hinside : Optionally SelectionSet inside selections)
    (hn : AfterSelection next) :
    Takes (depth + 1) (selectionWithin (depth + 1))
      (before ++ .name name :: (arguments ++ (directives ++ inside))) next
      (·.bare = .field .nowhere
        ⟨aliasName.map .nowhere, .nowhere name, args.map .nowhere, ds.map .nowhere⟩
        (selections.getD [])) := by
  obtain ⟨hcolon, hparen, hat, hbrace, hend⟩ := afterSelection_ne hn
  have hfirst : (before ++ .name name :: (arguments ++ (directives ++ inside))).headD next ≠
      .punctuator .ellipsis := by
    cases hbefore with
    | none => simp
    | some h => obtain ⟨⟩ := h; simp
  -- what follows the name of the field, and what follows its arguments
  have hinside' {p : Token → Prop} (hp : p (.punctuator .braceOpen)) (hn : p next) :
      p (inside.headD next) := optionally_next hinside hp hn
  have hds' {p : Token → Prop} (hp : p (.punctuator .braceOpen)) (hp' : p (.punctuator .at))
      (hn : p next) : p ((directives ++ inside).headD next) := by
    rw [headD_append]
    exact directives_next hds hp' (hinside' hp hn)
  have hargs' {p : Token → Prop} (hp : p (.punctuator .braceOpen)) (hp' : p (.punctuator .at))
      (hp'' : p (.punctuator .parenOpen)) (hn : p next) :
      p ((arguments ++ (directives ++ inside)).headD next) := by
    rw [headD_append]
    exact optionally_next hargs hp'' (hds' hp hp' hn)
  unfold selectionWithin
  apply Takes.peek
  intro x hx
  rw [hx, if_neg hfirst, List.append_cons]
  apply Takes.bind (fieldName_takes hbefore
    (hargs' (p := (· ≠ .punctuator .colon)) (by simp) (by simp) (by simp) hcolon)
    (hargs' (p := (· ≠ .endOfFile)) (by simp) (by simp) (by simp) hend))
  rintro ⟨alias', name⟩ ⟨rfl, rfl⟩
  apply Takes.bind (arguments_takes hargs
    (hds' (p := (· ≠ .punctuator .parenOpen)) (by simp) (by simp) hparen))
  rintro args rfl
  apply Takes.bind (directives_takes hds
    (hinside' (p := (· ≠ .punctuator .at)) (by simp) hat)
    (hinside' (p := (· ≠ .punctuator .parenOpen)) (by simp) hparen))
  rintro ds rfl
  apply Takes.peek
  intro x hx
  cases hinside with
  | none =>
    rw [List.headD_nil] at hx
    rw [hx, if_neg hbrace]
    apply Takes.pure
    rw [bare_field]
    rfl
  | some h =>
    have hx : x.item = .punctuator .braceOpen :=
      hx.trans (enclosed_next (p := (· = .punctuator .braceOpen)) h rfl)
    rw [if_pos hx]
    apply ((hset _ _ next h).mono (by simp; omega)).last
    rintro selections rfl
    rw [bare_field]
    rfl

end

theorem selectionWithin_takes (depth : Nat) :
    (∀ tokens s next, Grammar.Selection tokens s → AfterSelection next →
      Takes depth (selectionWithin depth) tokens next (·.bare = s)) ∧
    ∀ tokens ss next, SelectionSet tokens ss →
      Takes depth (selectionSetWithin depth) tokens next (·.item.map Selection.bare = ss) := by
  -- Induction on the depth: a brace is taken before each deeper selection.
  induction depth with
  | zero => exact ⟨fun _ _ _ _ _ => Takes.zero, fun _ _ _ _ => Takes.zero⟩
  | succ depth ih =>
    constructor
    · intro tokens s next h hn
      cases h with
      | spread hname hargs hds => exact spread_takes hname hargs hds hn
      | inline hcondition hds hinside => exact inline_takes ih.2 hcondition hds hinside
      | field hbefore hargs hds hinside => exact field_takes ih.2 hbefore hargs hds hinside hn
    · intro tokens ss next h
      obtain ⟨h⟩ := h
      unfold selectionSetWithin
      exact bracketedNonempty_takes Selection.bare ih.1 selection_starts (.inr (.inl rfl))
        (by omega) (.intro h)

theorem selectionSet_takes {selections : List Selection} (h : SelectionSet tokens selections) :
    Takes size selectionSet tokens next (·.item.map Selection.bare = selections) := by
  unfold selectionSet
  apply Takes.remaining
  exact fun n => ((selectionWithin_takes _).2 _ _ _ h).mono (by omega)

/-! ## Definitions -/

theorem operationName_takes {name : Option String} (h : Optionally Name tokens name)
    (hn : ∀ n, next ≠ .name n) : Takes size operationName tokens next (·.map (·.item) = name) := by
  unfold operationName
  cases h with
  | none =>
    apply Takes.peek
    intro x hx
    rw [List.headD_nil] at hx
    split
    case h_1 n h => exact absurd (hx.symm.trans h) (hn n)
    case h_2 => exact Takes.pure rfl
  | some h =>
    obtain ⟨⟩ := h
    apply Takes.peek_cons
    intro x hx
    rw [hx]
    apply expectName_takes.last
    rintro name rfl
    rfl

theorem operationKind?_text (kind : OperationKind) : operationKind? kind.text = some kind := by
  cases kind <;> rfl

theorem declared_next {vs : Option (List VariableDefinition)} {ds : List Directive}
    {selections : List Selection} {parameters directives inside : List Token} {p : Token → Prop}
    (hvs : Grammar.VariableDefinitions parameters vs) (hds : Grammar.Directives directives ds)
    (hinside : SelectionSet inside selections) (hparen : p (.punctuator .parenOpen))
    (hat : p (.punctuator .at)) (hbrace : p (.punctuator .braceOpen)) :
    p ((parameters ++ (directives ++ inside)).headD next) := by
  rw [headD_append, headD_append]
  exact optionally_next hvs hparen (directives_next hds hat (enclosed_next hinside hbrace))

theorem operation_takes {kind : OperationKind} {called parameters directives inside : List Token}
    {name : Option String} {vs : Option (List VariableDefinition)} {ds : List Directive}
    {selections : List Selection} (hname : Optionally Name called name)
    (hvs : Grammar.VariableDefinitions parameters vs) (hds : Grammar.Directives directives ds)
    (hinside : SelectionSet inside selections) :
    Takes size (operation kind)
      (.name kind.text :: (called ++ (parameters ++ (directives ++ inside)))) next
      (·.bare = ⟨.nowhere, kind, name.map .nowhere, vs.map .nowhere, ds.map .nowhere,
        selections⟩) := by
  unfold operation
  apply next_takes.cons
  intro keyword _
  apply Takes.bind (operationName_takes hname fun n =>
    declared_next (p := (· ≠ .name n)) hvs hds hinside (by simp) (by simp) (by simp))
  rintro name rfl
  apply Takes.bind (variableDefinitions_takes hvs ?_)
  · rintro vs rfl
    apply Takes.bind (directives_takes hds
      (enclosed_next (p := (· ≠ .punctuator .at)) hinside (by simp))
      (enclosed_next (p := (· ≠ .punctuator .parenOpen)) hinside (by simp)))
    rintro ds rfl
    apply (selectionSet_takes hinside).last
    rintro selections rfl
    rw [Operation.bare, name_bare, variables_bare, directives_bare]
  · rw [headD_append]
    apply directives_next (p := (· ≠ .punctuator .parenOpen)) hds (by simp)
    exact enclosed_next (p := (· ≠ .punctuator .parenOpen)) hinside (by simp)

theorem fragmentName_takes {name : String} (h : name ≠ "on") :
    Takes size fragmentName [.name name] next (·.item = name) := by
  unfold fragmentName
  apply expectName_takes.cons
  rintro name rfl
  rw [if_neg h]
  exact Takes.pure rfl

theorem fragment_takes {name condition : String} {parameters directives inside : List Token}
    {vs : Option (List VariableDefinition)} {ds : List Directive} {selections : List Selection}
    (hname : name ≠ "on") (hvs : Grammar.VariableDefinitions parameters vs)
    (hds : Grammar.Directives directives ds) (hinside : SelectionSet inside selections) :
    Takes size fragment (.name "fragment" :: .name name ::
        (parameters ++ .name "on" :: .name condition :: (directives ++ inside))) next
      (·.bare = ⟨.nowhere, .nowhere name, vs.map .nowhere, .nowhere condition, ds.map .nowhere,
        selections⟩) := by
  unfold fragment
  apply expectKeyword_takes.cons
  rintro keyword -
  apply (fragmentName_takes hname).cons
  rintro name rfl
  apply Takes.bind (variableDefinitions_takes hvs (by simp))
  rintro vs rfl
  apply expectKeyword_takes.cons
  rintro on -
  apply expectName_takes.cons
  rintro condition rfl
  apply Takes.bind (directives_takes hds
    (enclosed_next (p := (· ≠ .punctuator .at)) hinside (by simp))
    (enclosed_next (p := (· ≠ .punctuator .parenOpen)) hinside (by simp)))
  rintro ds rfl
  apply (selectionSet_takes hinside).last
  rintro selections rfl
  rw [Fragment.bare, variables_bare, directives_bare]

theorem definition_takes {d : Definition} (h : Grammar.Definition tokens d) :
    Takes size definition tokens next (·.bare = d) := by
  unfold definition
  cases h with
  | shorthand hinside =>
    apply Takes.peek
    intro x hx
    have hx : x.item = .punctuator .braceOpen :=
      hx.trans (enclosed_next (p := (· = .punctuator .braceOpen)) hinside rfl)
    rw [hx]
    apply (selectionSet_takes hinside).last
    rintro selections rfl
    rfl
  | @operation kind _ _ _ _ _ _ _ _ hname hvs hds hinside =>
    apply Takes.peek_cons
    intro x hx
    rw [hx]
    simp only [operationKind?_text]
    apply (operation_takes hname hvs hds hinside).last
    rintro o ho
    rw [Definition.bare, ho]
  | fragment hname hvs hds hinside =>
    apply Takes.peek_cons
    intro x hx
    rw [hx]
    apply (fragment_takes hname hvs hds hinside).last
    rintro f hf
    rw [Definition.bare, hf]

theorem definition_starts : Starts Grammar.Definition (· ≠ .endOfFile) := by
  rintro tokens d h
  cases h with
  | shorthand h => cases h; exact ⟨_, _, rfl, by simp⟩
  | operation => exact ⟨_, _, rfl, by simp⟩
  | fragment => exact ⟨_, _, rfl, by simp⟩

theorem definitionsWithin_takes (limit : Nat) {d : Document} (h : Grammar.Document tokens d) :
    Takes limit (definitionsWithin limit) tokens .endOfFile (·.bare = d) := by
  induction limit generalizing tokens d with
  | zero => exact Takes.zero
  | succ limit ih =>
    obtain ⟨hfirst, hothers⟩ := h
    unfold definitionsWithin
    apply Takes.bind (definition_takes hfirst)
    rintro first rfl
    cases hothers with
    | nil =>
      apply Takes.peek
      intro x hx
      rw [List.headD_nil] at hx
      rw [if_pos hx]
      exact Takes.pure rfl
    | cons hsecond hothers =>
      apply Takes.peek
      intro x hx
      have hx : x.item ≠ .endOfFile := hx ▸ definition_starts.headD hsecond
      rw [if_neg hx]
      apply ((ih (.cons hsecond hothers)).mono ?_).last
      · rintro others hothers
        rw [Document.bare, List.map_cons, ← Document.bare, hothers]
      · obtain ⟨t, later, rfl, -⟩ := definition_starts _ _ hfirst
        simp

theorem document_takes {d : Document} (h : Grammar.Document tokens d) :
    Takes size document tokens .endOfFile (·.bare = d) := by
  unfold document
  apply Takes.remaining
  exact fun n => definitionsWithin_takes n h

end GraphQL.Read
