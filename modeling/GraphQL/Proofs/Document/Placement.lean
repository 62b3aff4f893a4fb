import GraphQL.Proofs.Document.Nodes

/-! # Where readers place what they read

The spans of what a reader gives are those of the tokens it has taken, down to the last name. An error
is reported at one of the tokens that it was given.
-/

namespace GraphQL.Read

variable {α β : Type} {good : Located Token → Prop} {size : Nat}

/-- At most `size` good tokens, of which the last one is the end of the file. -/
structure Supply (good : Located Token → Prop) (size : Nat) (tokens : List (Located Token)) :
    Prop where
  ended : Ended tokens
  size : tokens.length ≤ size
  good : ∀ t ∈ tokens, good t

/-- The error is reported over a good token or where it starts. -/
def Blames (good : Located Token → Prop) (e : Located ParseError) : Prop :=
  ∃ t, good t ∧ e.span.start = t.start ∧ (e.span.stop = t.start ∨ e.span.stop = t.stop)

/-- Of a supply the reader takes the tokens that `post` says, or it blames one of its tokens. That it
may go astray is excluded elsewhere. -/
structure Places (good : Located Token → Prop) (size : Nat) (read : Read α)
    (post : List (Located Token) → α → Prop) : Prop where
  ok {tokens rest : List (Located Token)} {a : α} : Supply good size tokens →
    read tokens = .ok (a, rest) → ∃ used, tokens = used ++ rest ∧ Ended rest ∧ post used a
  error {tokens : List (Located Token)} {e : Located ParseError} : Supply good size tokens →
    read tokens = .error e → e.item = .astray ∨ Blames good e

section

variable {read : Read α} {post weaker : List (Located Token) → α → Prop}
  {goal : List (Located Token) → β → Prop}

theorem Supply.later {used rest : List (Located Token)} (h : Supply good size (used ++ rest))
    (ended : Ended rest) : Supply good (size - used.length) rest where
  ended := ended
  size := by
    have := h.size
    rw [List.length_append] at this
    omega
  good t ht := h.good t (List.mem_append_right used ht)

theorem Supply.exists_cons {tokens : List (Located Token)} (h : Supply good size tokens) :
    ∃ t later, tokens = t :: later ∧ good t := by
  obtain ⟨t, later, rfl⟩ := List.exists_cons_of_ne_nil h.ended.ne_nil
  exact ⟨t, later, rfl, h.good t List.mem_cons_self⟩

theorem Places.mono {larger : Nat} (h : Places good larger read post) (le : size ≤ larger) :
    Places good size read post where
  ok supply := h.ok ⟨supply.ended, by have := supply.size; omega, supply.good⟩
  error supply := h.error ⟨supply.ended, by have := supply.size; omega, supply.good⟩

theorem Places.imp (h : Places good size read post) (imp : ∀ used a, post used a → weaker used a) :
    Places good size read weaker := by
  refine ⟨fun supply run => ?_, h.error⟩
  obtain ⟨used, hused, ended, hp⟩ := h.ok supply run
  exact ⟨used, hused, ended, imp _ _ hp⟩

theorem Places.pure {a : α} (h : post [] a) : Places good size (pure a) post := by
  constructor
  · rintro tokens rest _ supply ⟨⟩
    exact ⟨[], rfl, supply.ended, h⟩
  · rintro tokens e - ⟨⟩

theorem Places.astray : Places good size astray post := by
  constructor
  · rintro tokens rest a - ⟨⟩
  · rintro tokens e - ⟨⟩
    exact .inl rfl

theorem Places.throw {e : Located ParseError} (h : Blames good e) :
    Places good size (throw e : Read α) post := by
  constructor
  · rintro tokens rest a - ⟨⟩
  · rintro tokens e' - ⟨⟩
    exact .inr h

theorem Places.bind {f : α → Read β} (h : Places good size read post)
    (k : ∀ a used, post used a →
      Places good (size - used.length) (f a) fun later => goal (used ++ later)) :
    Places good size (read >>= f) goal := by
  constructor
  · intro tokens rest b supply run
    obtain ⟨a, mid, hread, hf⟩ := bind_ok run
    obtain ⟨used, rfl, ended, hp⟩ := h.ok supply hread
    obtain ⟨later, rfl, ended', hg⟩ := (k a used hp).ok (supply.later ended) hf
    exact ⟨used ++ later, (List.append_assoc _ _ _).symm, ended', hg⟩
  · intro tokens e supply run
    obtain hread | ⟨a, mid, hread, hf⟩ := bind_error run
    · exact h.error supply hread
    · obtain ⟨used, rfl, ended, hp⟩ := h.ok supply hread
      exact (k a used hp).error (supply.later ended) hf

theorem Places.peek {f : Located Token → Read β}
    (k : ∀ t, good t → Places good size (f t) goal) : Places good size (peek >>= f) goal := by
  constructor
  · intro tokens rest b supply run
    obtain ⟨t, later, rfl, ht⟩ := supply.exists_cons
    exact (k t ht).ok supply run
  · intro tokens e supply run
    obtain ⟨t, later, rfl, ht⟩ := supply.exists_cons
    exact (k t ht).error supply run

theorem Places.remaining {f : Nat → Read β} (k : ∀ n, Places good n (f n) goal) :
    Places good size (remaining >>= f) goal :=
  ⟨fun supply run => (k _).ok ⟨supply.ended, Nat.le_refl _, supply.good⟩ run,
    fun supply run => (k _).error ⟨supply.ended, Nat.le_refl _, supply.good⟩ run⟩

/-- The rule derives what was read from the tokens taken, as is known of the reader already. -/
theorem Places.derived (h : Places good size read post) {rule : List Token → α → Prop}
    (reads : Reads any size read rule) : Places good size read fun used a =>
      post used a ∧ rule (used.map (·.item)) a ∧
        ∃ rest, Ended (used ++ rest) ∧ read (used ++ rest) = .ok (a, rest) := by
  refine ⟨fun supply run => ?_, h.error⟩
  obtain ⟨used, rfl, ended, hp⟩ := h.ok supply run
  obtain ⟨used', heq, -, hrule⟩ := reads.ok supply.ended supply.size (fun _ _ => trivial) run
  obtain rfl := List.append_cancel_right heq
  exact ⟨used, rfl, ended, hp, hrule, _, supply.ended, run⟩

/-! ## Tokens -/

theorem next_places : Places good size next fun used t => used = [t] ∧ good t := by
  constructor
  · intro tokens rest a supply run
    obtain ⟨t, later, rfl, ht⟩ := supply.exists_cons
    by_cases hend : t.item = .endOfFile
    · simp [next, hend] at run
    · simp only [next, hend, if_false, Except.ok.injEq, Prod.mk.injEq] at run
      obtain ⟨rfl, rfl⟩ := run
      have ended := supply.ended
      cases ended with
      | last h => exact absurd h hend
      | cons _ ended => exact ⟨[t], rfl, ended, rfl, ht⟩
  · intro tokens e supply run
    obtain ⟨t, later, rfl, ht⟩ := supply.exists_cons
    by_cases hend : t.item = .endOfFile
    · simp only [next, hend, if_true, Except.error.injEq] at run
      subst run
      exact .inr ⟨t, ht, rfl, .inr rfl⟩
    · simp [next, hend] at run

theorem unexpected_places : Places good size (unexpected : Read α) post := by
  unfold unexpected
  apply next_places.bind
  rintro t used ⟨-, ht⟩
  exact Places.throw ⟨t, ht, rfl, .inr rfl⟩

theorem expect_places {t : Token} :
    Places good size (expect t) fun used x => used = [x] ∧ x.item = t := by
  have taken : Places good size (expect t) fun used x => used = [x] := by
    unfold expect
    apply Places.peek
    intro _ _
    split
    · exact next_places.imp fun _ _ h => h.1
    · exact unexpected_places
  apply (taken.derived expect_reads).imp
  rintro used x ⟨rfl, h, -⟩
  exact ⟨rfl, (List.cons.inj h).1⟩

theorem skip_places {t : Token} : Places good size (skip t) fun used taken => used = taken.toList := by
  unfold skip
  apply Places.peek
  intro x hx
  split
  · apply next_places.bind
    rintro y used ⟨rfl, -⟩
    exact Places.pure rfl
  split
  · exact Places.throw ⟨x, hx, rfl, .inl rfl⟩
  · exact Places.pure rfl

theorem expectName_places : Places good size expectName fun used name =>
    used = [name.map .name] ∧ good (name.map .name) := by
  have taken : Places good size expectName fun used name =>
      ∃ t, used = [t] ∧ name.span = t.span ∧ good t := by
    unfold expectName
    apply Places.peek
    intro _ _
    split
    · apply next_places.bind
      rintro t used ⟨rfl, ht⟩
      exact Places.pure ⟨t, rfl, rfl, ht⟩
    · exact unexpected_places
  apply (taken.derived expectName_reads).imp
  rintro used ⟨n, span⟩ ⟨⟨⟨item, _⟩, rfl, rfl, ht⟩, ⟨h, -⟩, -⟩
  obtain rfl : item = .name n := (List.cons.inj h).1
  exact ⟨rfl, ht⟩

theorem expectKeyword_places {keyword : String} :
    Places good size (expectKeyword keyword) fun used t => used = [t] := by
  unfold expectKeyword
  apply Places.peek
  intro _ _
  split
  · exact next_places.imp fun _ _ h => h.1
  · exact unexpected_places

theorem name_bears (name : Located String) : Bears [name.map .name] [nameNode name] :=
  Phrase.ReadFrom.bears ⟨⟨_, rfl, rfl⟩, .intro, nofun⟩ .nil

/-! ## Lists -/

variable {item : Read α} {parts : α → List Node} {opening closing : Token} {limit : Nat}

theorem upTo_places (hitem : Places good size item fun used a => Bears used (parts a)) :
    Places good size (upTo closing item limit) fun used p =>
      ∃ inside, used = inside ++ [p.2] ∧ Bears inside (p.1.flatMap parts) := by
  induction limit generalizing size with
  | zero => exact Places.astray
  | succ limit ih =>
    unfold upTo
    apply skip_places.bind
    rintro (_ | stop) _ rfl
    · apply hitem.bind
      intro first used hfirst
      apply Places.bind (ih (hitem.mono (by omega)))
      rintro ⟨others, stop⟩ _ ⟨inside, rfl, hothers⟩
      apply Places.pure
      exact ⟨used ++ inside, by simp, hfirst.append hothers⟩
    · exact Places.pure ⟨[], rfl, .nil⟩

theorem spans_brackets (start stop : Located Token) (inside : List (Located Token)) :
    Spans (start :: (inside ++ [stop])) ⟨start.start, stop.stop⟩ :=
  ⟨start, rfl, by rw [stopAfter_cons, stopAfter_append]; rfl⟩

theorem bracketed_places (hitem : Places good size item fun used a => Bears used (parts a)) :
    Places good (size + 1) (bracketed limit opening closing item) fun used items =>
      Spans used items.span ∧ Bears used (items.item.flatMap parts) := by
  unfold bracketed
  apply expect_places.bind
  rintro start _ ⟨rfl, -⟩
  apply Places.bind (upTo_places hitem)
  rintro ⟨items, stop⟩ _ ⟨inside, rfl, hitems⟩
  apply Places.pure
  rw [List.append_nil]
  exact ⟨spans_brackets start stop inside, .skip (hitems.before _)⟩

theorem bracketedNonempty_places
    (hitem : Places good size item fun used a => Bears used (parts a)) :
    Places good (size + 1) (bracketedNonempty limit opening closing item) fun used items =>
      Spans used items.span ∧ Bears used (items.item.flatMap parts) := by
  unfold bracketedNonempty
  apply expect_places.bind
  rintro start _ ⟨rfl, -⟩
  apply Places.bind (hitem.mono (by simp))
  intro first used hfirst
  apply Places.bind (upTo_places (hitem.mono (by simp)))
  rintro ⟨others, stop⟩ _ ⟨inside, rfl, hothers⟩
  apply Places.pure
  have brackets : [start] ++ (used ++ (inside ++ [stop] ++ [])) =
      start :: (used ++ inside ++ [stop]) := by
    simp
  rw [brackets]
  exact ⟨spans_brackets start stop _, .skip ((hfirst.append hothers).before _)⟩

end

/-! ## Literals and types -/

theorem nameLiteral_parts (const : Bool) (name : String) : (nameLiteral name).parts const = [] := by
  unfold nameLiteral
  split
  · rfl
  split
  · rfl
  split <;> rfl

theorem scalarLiteral_parts {const : Bool} {t : Token} {l : Literal}
    (h : scalarLiteral? t = some (.ok l)) : l.parts const = [] := by
  cases t with
  | int digits =>
    rw [scalarLiteral?] at h
    split at h <;> cases h
    rfl
  | _ => cases h <;> rfl

theorem Places.literal {const : Bool} {depth : Nat}
    (h : Places good depth (literalWithin const depth) fun used l =>
      Spans used l.span ∧ Bears used (l.item.parts const)) :
    Places good depth (literalWithin const depth) fun used l =>
      Spans used l.span ∧ Bears used [literalNode const l] := by
  apply (h.derived (literalWithin_reads const depth).1).imp
  rintro used ⟨l, span⟩ ⟨⟨hspans, hparts⟩, hderives, rest, ended, run⟩
  refine ⟨hspans, Phrase.ReadFrom.bears ⟨hspans, hderives, ?_⟩ hparts⟩
  rintro _ _ ⟨⟩
  exact ⟨depth, rest, ended, run⟩

theorem literalWithin_places (const : Bool) (depth : Nat) :
    (Places good depth (literalWithin const depth) fun used l =>
      Spans used l.span ∧ Bears used [literalNode const l]) ∧
    Places good depth (objectFieldWithin const depth) fun used f =>
      Bears used [nameNode f.1, literalNode const f.2] := by
  -- Induction on the depth, as literals are read.
  induction depth with
  | zero => exact ⟨Places.astray, Places.astray⟩
  | succ depth ih =>
    obtain ⟨hliteral, hfield⟩ := ih
    constructor
    · apply Places.literal
      unfold literalWithin
      apply Places.peek
      intro t _
      split
      · -- `[`: a list.
        apply Places.bind (bracketed_places (hliteral.imp fun _ _ h => h.2))
        rintro items used ⟨hspans, hitems⟩
        apply Places.pure
        rw [List.append_nil, Located.map, Literal.parts, Literal.itemParts_eq]
        exact ⟨hspans, hitems⟩
      · -- `{`: an object.
        apply Places.bind (bracketed_places hfield)
        rintro fields used ⟨hspans, hfields⟩
        apply Places.pure
        rw [List.append_nil, Located.map, Literal.parts, Literal.fieldParts_eq]
        exact ⟨hspans, hfields⟩
      · -- `$`: a variable, if variables may stand here.
        split
        · exact unexpected_places
        · apply next_places.bind
          rintro dollar _ ⟨rfl, -⟩
          apply expectName_places.bind
          rintro name _ ⟨rfl, -⟩
          exact Places.pure ⟨spans_cons, .nil⟩
      · -- A name.
        apply next_places.bind
        rintro t _ ⟨rfl, -⟩
        apply Places.pure
        rw [Located.map, nameLiteral_parts]
        exact ⟨spans_cons, .nil⟩
      · -- A number or a string, or nothing that starts a literal.
        split
        · exact unexpected_places
        next result hresult =>
          apply next_places.bind
          rintro t _ ⟨rfl, ht⟩
          split
          · apply Places.pure
            rw [Located.map, scalarLiteral_parts hresult]
            exact ⟨spans_cons, .nil⟩
          · exact Places.throw ⟨t, ht, rfl, .inr rfl⟩
    · unfold objectFieldWithin
      apply expectName_places.bind
      rintro key _ ⟨rfl, -⟩
      apply expect_places.bind
      rintro colon _ ⟨rfl, -⟩
      apply Places.bind (hliteral.mono (by simp))
      rintro value used ⟨-, hvalue⟩
      apply Places.pure
      rw [List.append_nil]
      exact (name_bears key).append (.skip hvalue)

theorem literal_places {const : Bool} : Places good size (literal const) fun used l =>
    Spans used l.span ∧ Bears used [literalNode const l] := by
  unfold literal
  apply Places.remaining
  intro n
  exact (literalWithin_places const _).1.mono (by omega)

theorem marked_places {type : Located TypeRef} {before : List (Located Token)}
    (h : Spans before type.span) :
    Places good size (marked type) fun used t => Spans (before ++ used) t.span := by
  unfold marked
  apply Places.peek
  intro t _
  split
  · apply next_places.bind
    rintro bang _ ⟨rfl, -⟩
    exact Places.pure (h.append [bang])
  · apply Places.pure
    rwa [List.append_nil]

theorem typeRefWithin_places (depth : Nat) :
    Places good size (typeRefWithin depth) fun used t => Spans used t.span := by
  induction depth generalizing size with
  | zero => exact Places.astray
  | succ depth ih =>
    unfold typeRefWithin
    apply skip_places.bind
    rintro (_ | opening) _ rfl
    · apply expectName_places.bind
      rintro name _ ⟨rfl, -⟩
      exact marked_places spans_cons
    · apply ih.bind
      intro item used _
      apply expect_places.bind
      rintro closing _ ⟨rfl, -⟩
      apply (marked_places (spans_brackets opening closing used)).imp
      intro later t ht
      simpa using ht

theorem typeRef_places : Places good size typeRef fun used t =>
    Spans used t.span ∧ Bears used [⟨.type t.item, t.span, []⟩] := by
  have placed : Places good size typeRef fun used t => Spans used t.span := by
    unfold typeRef
    apply Places.remaining
    exact fun n => typeRefWithin_places (n + 1)
  apply (placed.derived typeRef_reads).imp
  rintro used t ⟨hspans, hderives, -⟩
  exact ⟨hspans, Phrase.ReadFrom.bears ⟨hspans, hderives, nofun⟩ .nil⟩

/-! ## Arguments and directives -/

theorem argument_places : Places good size argument fun used a => Bears used a.parts := by
  unfold argument
  apply expectName_places.bind
  rintro name _ ⟨rfl, -⟩
  apply expect_places.bind
  rintro colon _ ⟨rfl, -⟩
  apply literal_places.bind
  rintro value used ⟨-, hvalue⟩
  apply Places.pure
  rw [List.append_nil]
  exact (name_bears name).append (.skip hvalue)

theorem enclosed_places {item : Read α} {parts : α → List Node}
    (hitem : ∀ n, Places good n item fun used a => Bears used (parts a)) :
    Places good size (do
      let t ← peek
      if t.item = .punctuator .parenOpen then
        return some (← bracketedNonempty (← Read.remaining) (.punctuator .parenOpen)
          (.punctuator .parenClose) item)
      else return none) fun used list =>
        list.elim (used = []) fun l => Spans used l.span ∧ Bears used (l.item.flatMap parts) := by
  apply Places.peek
  intro t _
  split
  · apply Places.remaining
    intro n
    apply Places.bind ((bracketedNonempty_places (hitem n)).mono (by omega))
    intro l used hl
    apply Places.pure
    rwa [List.append_nil]
  · exact Places.pure rfl

theorem arguments_places : Places good size arguments fun used args =>
    Bears used (args.map argumentsNode).toList ∧
      ∀ p, stopAfter p used = (args.map Located.stop).getD p := by
  have listed : Places good size arguments fun used args => args.elim (used = []) fun l =>
      Spans used l.span ∧ Bears used (l.item.flatMap Argument.parts) :=
    enclosed_places fun _ => argument_places
  apply (listed.derived arguments_reads).imp
  rintro used (_ | args) ⟨h, hderives, -⟩
  · obtain rfl : used = [] := h
    exact ⟨.nil, fun _ => rfl⟩
  · obtain ⟨hspans, hparts⟩ := h
    exact ⟨Phrase.ReadFrom.bears ⟨hspans, hderives, nofun⟩ hparts, hspans.stop⟩

theorem directive_places : Places good size directive fun used d =>
    Spans used d.span ∧ Bears used [directiveNode d] := by
  have placed : Places good size directive fun used d =>
      Spans used d.span ∧ Bears used d.item.parts := by
    unfold directive
    apply expect_places.bind
    rintro start _ ⟨rfl, -⟩
    apply expectName_places.bind
    rintro name _ ⟨rfl, -⟩
    apply arguments_places.bind
    rintro args used ⟨hargs, hstop⟩
    apply Places.pure
    rw [List.append_nil, ← hstop]
    have hspans := (@spans_cons [name.map .name] start).append used
    exact ⟨hspans, .skip ((name_bears name).append hargs)⟩
  apply (placed.derived directive_reads).imp
  rintro used d ⟨⟨hspans, hparts⟩, hderives, -⟩
  exact ⟨hspans, Phrase.ReadFrom.bears ⟨hspans, hderives, nofun⟩ hparts⟩

theorem directivesWithin_places (limit : Nat) :
    Places good size (directivesWithin limit) fun used ds =>
      Bears used (ds.map directiveNode) ∧
        ∀ p, stopAfter p used = (ds.getLast?.map Located.stop).getD p := by
  induction limit generalizing size with
  | zero => exact Places.astray
  | succ limit ih =>
    unfold directivesWithin
    apply Places.peek
    intro t _
    split
    · apply directive_places.bind
      rintro first used ⟨hspans, hfirst⟩
      apply ih.bind
      rintro others later ⟨hothers, hstop⟩
      apply Places.pure
      rw [List.append_nil]
      refine ⟨hfirst.append hothers, fun p => ?_⟩
      rw [stopAfter_append, hspans.stop, hstop, List.getLast?_cons]
      cases others.getLast? <;> rfl
    · exact Places.pure ⟨.nil, fun _ => rfl⟩

theorem directives_places : Places good size directives fun used ds =>
    Bears used (ds.map directiveNode) ∧
      ∀ p, stopAfter p used = (ds.getLast?.map Located.stop).getD p := by
  unfold directives
  apply Places.remaining
  exact fun n => directivesWithin_places n

theorem stopOf_eq (name : Located String) (args : Option Arguments)
    (ds : List (Located Directive)) : stopOf name args ds =
      (ds.getLast?.map Located.stop).getD ((args.map Located.stop).getD name.stop) := by
  unfold stopOf
  cases ds.getLast? <;> rfl

/-! ## Variable definitions -/

theorem defaultValue_places : Places good size defaultValue fun used l =>
    Bears used (l.map (literalNode true)).toList := by
  unfold defaultValue
  apply skip_places.bind
  rintro (_ | equals) _ rfl
  · exact Places.pure .nil
  · apply literal_places.bind
    rintro l used ⟨-, hl⟩
    apply Places.pure
    rw [List.append_nil]
    exact .skip hl

theorem variableDefinition_places :
    Places good size variableDefinition fun used v => Bears used v.parts := by
  unfold variableDefinition
  apply expect_places.bind
  rintro dollar _ ⟨rfl, hdollar⟩
  apply expectName_places.bind
  rintro name _ ⟨rfl, -⟩
  apply expect_places.bind
  rintro colon _ ⟨rfl, -⟩
  apply typeRef_places.bind
  rintro type used ⟨-, htype⟩
  apply defaultValue_places.bind
  intro default used' hdefault
  apply directives_places.bind
  rintro ds used'' ⟨hds, -⟩
  apply Places.pure
  have hname : Bears [dollar, name.map .name]
      [⟨.variable name.item, ⟨dollar.start, name.stop⟩, []⟩] :=
    Phrase.ReadFrom.bears ⟨spans_cons, by simp [Phrase.Derives, hdollar, Located.map], nofun⟩ .nil
  rw [List.append_nil]
  exact hname.append (.skip (htype.append (hdefault.append hds)))

theorem variableDefinitions_places : Places good size variableDefinitions fun used vs =>
    Bears used (vs.map variablesNode).toList := by
  have listed : Places good size variableDefinitions fun used vs => vs.elim (used = []) fun l =>
      Spans used l.span ∧ Bears used (l.item.flatMap VariableDefinition.parts) :=
    enclosed_places fun _ => variableDefinition_places
  apply (listed.derived variableDefinitions_reads).imp
  rintro used (_ | vs) ⟨h, hderives, -⟩
  · exact .nil
  · obtain ⟨hspans, hparts⟩ := h
    exact Phrase.ReadFrom.bears ⟨hspans, hderives, nofun⟩ hparts

/-! ## Selections -/

theorem fieldName_places : Places good size fieldName fun used names =>
    Spans used ⟨(names.1.getD names.2).start, names.2.stop⟩ ∧
      Bears used ((names.1.map nameNode).toList ++ [nameNode names.2]) := by
  unfold fieldName
  apply expectName_places.bind
  rintro first _ ⟨rfl, -⟩
  apply skip_places.bind
  rintro (_ | colon) _ rfl
  · exact Places.pure ⟨spans_cons, name_bears first⟩
  · apply expectName_places.bind
    rintro name _ ⟨rfl, -⟩
    exact Places.pure ⟨spans_cons, (name_bears first).append (.skip (name_bears name))⟩

theorem tail_placed {name : Located String} {args : Option Arguments}
    {ds : List (Located Directive)} {used later : List (Located Token)}
    (hargs : Bears used (args.map argumentsNode).toList ∧
      ∀ p, stopAfter p used = (args.map Located.stop).getD p)
    (hds : Bears later (ds.map directiveNode) ∧
      ∀ p, stopAfter p later = (ds.getLast?.map Located.stop).getD p) :
    Bears (used ++ later) (tailParts args ds) ∧
      stopAfter name.stop (used ++ later) = stopOf name args ds := by
  refine ⟨hargs.1.append hds.1, ?_⟩
  rw [stopAfter_append, hargs.2, hds.2, stopOf_eq]

theorem Places.selection {depth : Nat} (h : Places good depth (selectionWithin depth) fun used s =>
      Spans used s.node.span ∧ Bears used s.node.parts) :
    Places good depth (selectionWithin depth) fun used s => Bears used [s.node] := by
  apply (h.derived (selectionWithin_reads depth).1).imp
  rintro used (_ | _ | _) ⟨⟨hspans, hparts⟩, hderives, -⟩ <;>
    exact Phrase.ReadFrom.bears ⟨hspans, hderives, nofun⟩ hparts

theorem selectionWithin_places (depth : Nat) :
    (Places good depth (selectionWithin depth) fun used s => Bears used [s.node]) ∧
    Places good depth (selectionSetWithin depth) fun used ss =>
      Spans used ss.span ∧ Bears used (Selection.nodes ss.item) := by
  -- Induction on the depth, as selections are read.
  induction depth with
  | zero => exact ⟨Places.astray, Places.astray⟩
  | succ depth ih =>
    obtain ⟨hselection, hset⟩ := ih
    constructor
    · apply Places.selection
      unfold selectionWithin
      apply Places.peek
      intro t _
      split
      · apply next_places.bind
        rintro ellipsis _ ⟨rfl, -⟩
        apply Places.peek
        intro t _
        split
        · -- `... on`, and a type: an inline fragment with a type condition.
          apply next_places.bind
          rintro on _ ⟨rfl, -⟩
          apply expectName_places.bind
          rintro condition _ ⟨rfl, -⟩
          apply directives_places.bind
          rintro ds used ⟨hds, -⟩
          apply Places.bind (hset.mono (by simp; omega))
          rintro selections inside ⟨hspans, hinside⟩
          apply Places.pure
          rw [List.append_nil]
          have around := (@spans_cons (on :: condition.map .name :: used) ellipsis).upTo hspans
          exact ⟨around, .skip (.skip (((name_bears condition).append hds).append hinside))⟩
        · -- `...`, and another name: a spread.
          apply expectName_places.bind
          rintro name _ ⟨rfl, -⟩
          apply arguments_places.bind
          intro args used hargs
          apply directives_places.bind
          intro ds later hds
          apply Places.pure
          obtain ⟨htail, hstop⟩ := @tail_placed name _ _ _ _ hargs hds
          rw [List.append_nil, ← hstop]
          have around := (@spans_cons [name.map .name] ellipsis).append (used ++ later)
          exact ⟨around, .skip ((name_bears name).append htail)⟩
        · -- `... {`: an inline fragment without anything before its selections.
          apply Places.bind (hset.mono (by simp))
          rintro selections inside ⟨hspans, hinside⟩
          apply Places.pure
          rw [List.append_nil]
          have around := (@spans_cons [] ellipsis).upTo hspans
          exact ⟨around, .skip hinside⟩
        · -- `... @`: an inline fragment with directives only.
          apply directives_places.bind
          rintro ds used ⟨hds, -⟩
          apply Places.bind (hset.mono (by simp))
          rintro selections inside ⟨hspans, hinside⟩
          apply Places.pure
          rw [List.append_nil]
          have around := (@spans_cons used ellipsis).upTo hspans
          exact ⟨around, .skip (hds.append hinside)⟩
        · exact unexpected_places
      · -- Without `...`, a field.
        apply fieldName_places.bind
        rintro ⟨aliasName, name⟩ before ⟨hbefore, hnames⟩
        have taken := hbefore.length_pos
        apply arguments_places.bind
        intro args used hargs
        apply directives_places.bind
        intro ds later hds
        obtain ⟨htail, hstop⟩ := @tail_placed name _ _ _ _ hargs hds
        have around := hbefore.append (used ++ later)
        have hhead : Bears (before ++ (used ++ later))
            (FieldHead.mk aliasName name args ds).parts := by
          have := hnames.append htail
          rwa [List.append_assoc] at this
        apply Places.peek
        intro t _
        split
        · apply Places.bind (hset.mono (by omega))
          rintro selections inside ⟨hspans, hinside⟩
          apply Places.pure
          rw [List.append_nil, ← List.append_assoc used, ← List.append_assoc]
          exact ⟨around.upTo hspans, hhead.append hinside⟩
        · apply Places.pure
          rw [← List.append_assoc used, ← List.append_assoc, ← hstop]
          exact ⟨by rwa [List.append_nil], hhead.append .nil⟩
    · unfold selectionSetWithin
      apply (bracketedNonempty_places hselection).imp
      intro used ss h
      rwa [Selection.nodes_eq]

theorem selectionSet_places : Places good size selectionSet fun used ss =>
    Spans used ss.span ∧ Bears used (Selection.nodes ss.item) := by
  unfold selectionSet
  apply Places.remaining
  intro n
  exact (selectionWithin_places _).2.mono (by omega)

/-! ## Definitions -/

theorem operationName_places : Places good size operationName fun used name =>
    Bears used (name.map nameNode).toList := by
  unfold operationName
  apply Places.peek
  intro t _
  split
  · apply expectName_places.bind
    rintro name _ ⟨rfl, -⟩
    exact Places.pure (name_bears name)
  · exact Places.pure .nil

theorem operation_places {kind : OperationKind} : Places good size (operation kind) fun used o =>
    Spans used o.span ∧ Bears used (Definition.operation o).parts := by
  unfold operation
  apply next_places.bind
  rintro keyword _ ⟨rfl, -⟩
  apply operationName_places.bind
  intro name called hname
  apply variableDefinitions_places.bind
  intro vs parameters hvs
  apply directives_places.bind
  rintro ds used ⟨hds, -⟩
  apply selectionSet_places.bind
  rintro selections inside ⟨hspans, hinside⟩
  apply Places.pure
  rw [List.append_nil]
  have around := (@spans_cons (called ++ (parameters ++ used)) keyword).upTo hspans
  simp only [List.cons_append, List.append_assoc] at around
  exact ⟨around, .skip (hname.append (hvs.append (hds.append hinside)))⟩

theorem fragmentName_places : Places good size fragmentName fun used name =>
    used = [name.map .name] := by
  unfold fragmentName
  apply expectName_places.bind
  rintro name _ ⟨rfl, hname⟩
  split
  · exact Places.throw ⟨_, hname, rfl, .inr rfl⟩
  · exact Places.pure rfl

theorem fragment_places : Places good size fragment fun used f =>
    Spans used f.span ∧ Bears used (Definition.fragment f).parts := by
  unfold fragment
  apply expectKeyword_places.bind
  rintro keyword _ rfl
  apply fragmentName_places.bind
  rintro name _ rfl
  apply variableDefinitions_places.bind
  intro vs parameters hvs
  apply expectKeyword_places.bind
  rintro on _ rfl
  apply expectName_places.bind
  rintro condition _ ⟨rfl, -⟩
  apply directives_places.bind
  rintro ds used ⟨hds, -⟩
  apply selectionSet_places.bind
  rintro selections inside ⟨hspans, hinside⟩
  apply Places.pure
  rw [List.append_nil]
  have around := (@spans_cons (name.map .name :: (parameters ++ on :: condition.map .name :: used))
    keyword).upTo hspans
  simp only [List.cons_append, List.append_assoc] at around
  have behind := (name_bears condition).append (hds.append hinside)
  exact ⟨around, .skip ((name_bears name).append (hvs.append (.skip behind)))⟩

theorem definition_places : Places good size definition fun used d => Bears used [d.node] := by
  have placed : Places good size definition fun used d =>
      Spans used d.span ∧ Bears used d.parts := by
    unfold definition
    apply Places.peek
    intro t _
    split
    · apply selectionSet_places.bind
      intro selections used hselections
      apply Places.pure
      rwa [List.append_nil]
    · split
      · apply operation_places.bind
        intro o used ho
        apply Places.pure
        rwa [List.append_nil]
      split
      · apply fragment_places.bind
        intro f used hf
        apply Places.pure
        rwa [List.append_nil]
      · exact unexpected_places
    · exact unexpected_places
  apply (placed.derived definition_reads).imp
  rintro used d ⟨⟨hspans, hparts⟩, hderives, -⟩
  exact Phrase.ReadFrom.bears ⟨hspans, hderives, nofun⟩ hparts

theorem definitionsWithin_places (limit : Nat) :
    Places good size (definitionsWithin limit) fun used d => Bears used (Document.nodes d) := by
  induction limit generalizing size with
  | zero => exact Places.astray
  | succ limit ih =>
    unfold definitionsWithin
    apply definition_places.bind
    intro first used hfirst
    apply Places.peek
    intro t _
    split
    · apply Places.pure
      rwa [List.append_nil]
    · apply ih.bind
      intro others later hothers
      apply Places.pure
      rw [List.append_nil]
      exact hfirst.append hothers

theorem document_places : Places good size document fun used d => Bears used (Document.nodes d) := by
  unfold document
  apply Places.remaining
  exact fun n => definitionsWithin_places n

end GraphQL.Read
