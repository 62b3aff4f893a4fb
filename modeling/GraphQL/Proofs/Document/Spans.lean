import GraphQL.Proofs.Lexeme.Excerpts
import GraphQL.Proofs.Document.Placement

/-! # Spans

Readers look at what tokens are and never at where they are, so the literals and types of an excerpt
are those of the source, moved. With the places of tokens this settles what the spans of a document
are, and where errors are reported.
-/

namespace GraphQL

/-! ## Moved literals -/

mutual

/-- The same literal elsewhere. -/
def Literal.moved (move : Position → Position) : Literal → Literal
  | .list items => .list (movedItems move items)
  | .object fields => .object (movedFields move fields)
  | l => l

def Literal.movedItems (move : Position → Position) : List (Located Literal) → List (Located Literal)
  | [] => []
  | ⟨l, span⟩ :: rest => ⟨l.moved move, move span.start, move span.stop⟩ :: movedItems move rest

def Literal.movedFields (move : Position → Position) :
    List (Located String × Located Literal) → List (Located String × Located Literal)
  | [] => []
  | (key, ⟨l, span⟩) :: rest =>
    (key.moved move, ⟨l.moved move, move span.start, move span.stop⟩) :: movedFields move rest

end

/-- A literal elsewhere, with all spans inside of it. -/
def Literal.movedAt (move : Position → Position) (l : Located Literal) : Located Literal :=
  ⟨l.item.moved move, move l.start, move l.stop⟩

variable {move : Position → Position}

theorem Literal.movedItems_eq (items : List (Located Literal)) :
    movedItems move items = items.map (movedAt move) := by
  induction items with
  | nil => rfl
  | cons l rest ih => rw [movedItems, ih]; rfl

theorem Literal.movedFields_eq (fields : List (Located String × Located Literal)) :
    movedFields move fields = fields.map (Prod.map (Located.moved move) (movedAt move)) := by
  induction fields with
  | nil => rfl
  | cons f rest ih => rw [movedFields, ih]; rfl

mutual

theorem Literal.moved_id (l : Literal) : l.moved id = l := by
  cases l with
  | list items => rw [moved, movedItems_id items]
  | object fields => rw [moved, movedFields_id fields]
  | _ => rfl

theorem Literal.movedItems_id (items : List (Located Literal)) : movedItems id items = items := by
  cases items with
  | nil => rfl
  | cons l rest =>
    obtain ⟨l, span⟩ := l
    rw [movedItems, moved_id l, movedItems_id rest]
    rfl

theorem Literal.movedFields_id (fields : List (Located String × Located Literal)) :
    movedFields id fields = fields := by
  cases fields with
  | nil => rfl
  | cons f rest =>
    obtain ⟨key, l, span⟩ := f
    rw [movedFields, moved_id l, movedFields_id rest]
    rfl

end

namespace Read

/-! ## Moved tokens -/

variable {α β : Type} {view : α → α} {goal : β → β} {read read' : Read α}

/-- The tokens that the first reader takes, and these are some, the second one takes as well when they
were moved and whatever follows them. It gives the same, moved. -/
structure Carries (move : Position → Position) (view : α → α) (read read' : Read α) : Prop where
  ok {tokens rest : List (Located Token)} {a : α} : read tokens = .ok (a, rest) →
    ∃ t used, tokens = t :: (used ++ rest) ∧
      ∀ later, read' ((t :: used).map (Located.moved move) ++ later) = .ok (view a, later)

theorem Carries.bind {f f' : α → Read β} (h : Carries move view read read')
    (k : ∀ a, Carries move goal (f a) (f' (view a))) :
    Carries move goal (read >>= f) (read' >>= f') := by
  constructor
  intro tokens rest b run
  obtain ⟨a, mid, hread, hf⟩ := bind_ok run
  obtain ⟨t, used, rfl, hread'⟩ := h.ok hread
  obtain ⟨t', used', rfl, hf'⟩ := (k a).ok hf
  refine ⟨t, used ++ t' :: used', by simp, fun later => ?_⟩
  rw [← List.cons_append, List.map_append, List.append_assoc, bind_eq (hread' _)]
  exact hf' later

theorem Carries.last {f f' : α → β} (h : Carries move view read read')
    (k : ∀ a, f' (view a) = goal (f a)) :
    Carries move goal (read >>= fun a => pure (f a)) (read' >>= fun a => pure (f' a)) := by
  constructor
  intro tokens rest b run
  obtain ⟨a, mid, hread, ⟨⟩⟩ := bind_ok run
  obtain ⟨t, used, rfl, hread'⟩ := h.ok hread
  refine ⟨t, used, rfl, fun later => ?_⟩
  rw [bind_eq (hread' _), ← k]
  rfl

theorem Carries.peek {f f' : Located Token → Read α}
    (k : ∀ t, Carries move view (f t) (f' (t.moved move))) :
    Carries move view (peek >>= f) (peek >>= f') := by
  constructor
  intro tokens rest a run
  cases tokens with
  | nil => cases run
  | cons t tokens =>
    obtain ⟨_, used, ⟨⟩, h⟩ := (k t).ok run
    exact ⟨t, used, rfl, h⟩

theorem Carries.throw {e : Located ParseError} : Carries move view (throw e) read' :=
  ⟨fun run => nomatch run⟩

theorem Carries.unexpected : Carries move view unexpected read' := by
  constructor
  intro tokens rest a run
  obtain ⟨t, mid, -, ⟨⟩⟩ := bind_ok run

theorem next_carries : Carries move (Located.moved move) next next := by
  constructor
  intro tokens rest a run
  cases tokens with
  | nil => cases run
  | cons t tokens =>
    unfold next at run
    dsimp only at run
    split at run
    · cases run
    next ht =>
      cases run
      exact ⟨_, [], rfl, fun later => if_neg ht⟩

theorem expect_carries {t : Token} : Carries move (Located.moved move) (expect t) (expect t) := by
  unfold expect
  apply Carries.peek
  intro x
  have same : (x.moved move).item = x.item := rfl
  rw [same]
  split
  · exact next_carries
  · exact Carries.unexpected

theorem expectName_carries : Carries move (Located.moved move) expectName expectName := by
  unfold expectName
  apply Carries.peek
  rintro ⟨_ | _, _⟩
  case name n => exact next_carries.last fun _ => rfl
  all_goals exact Carries.unexpected

/-! ## Lists -/

/-- A list in brackets elsewhere, with its items. -/
def movedList (move : Position → Position) (view : α → α) (l : Located (List α)) :
    Located (List α) :=
  ⟨l.item.map view, move l.start, move l.stop⟩

theorem skip_eq {expected : Token} {t : Located Token} (ht : t.item ≠ .endOfFile)
    (tokens : List (Located Token)) : skip expected (t :: tokens) =
      if t.item = expected then .ok (some t, tokens) else .ok (none, t :: tokens) := by
  have hnext : next (t :: tokens) = .ok (t, tokens) := if_neg ht
  have hpeek : Read.peek (t :: tokens) = .ok (t, t :: tokens) := rfl
  unfold skip
  rw [bind_eq hpeek]
  split
  · rw [bind_eq hnext]
    rfl
  · rfl

theorem ne_endOfFile_of_skip {expected : Token} {t : Located Token}
    {tokens rest : List (Located Token)} {taken : Option (Located Token)}
    (h : skip expected (t :: tokens) = .ok (taken, rest)) : t.item ≠ .endOfFile := by
  have hpeek : Read.peek (t :: tokens) = .ok (t, t :: tokens) := rfl
  intro ht
  unfold skip at h
  rw [bind_eq hpeek] at h
  split at h
  · obtain ⟨_, _, hnext, -⟩ := bind_ok h
    rw [next, if_pos ht] at hnext
    cases hnext
  · cases h

theorem Carries.skip {expected : Token} {k k' : Option (Located Token) → Read α}
    (taken : ∀ t, ∃ a, k (some t) = Pure.pure a ∧ k' (some (t.moved move)) = Pure.pure (view a))
    (kept : Carries move view (k none) (k' none)) :
    Carries move view (Read.skip expected >>= k) (Read.skip expected >>= k') := by
  constructor
  intro tokens rest a run
  obtain ⟨_, mid, hskip, hk⟩ := bind_ok run
  cases tokens with
  | nil => cases hskip
  | cons t tokens =>
    have ht := ne_endOfFile_of_skip hskip
    have hmoved (later : List (Located Token)) :=
      @skip_eq expected (t.moved move) ht later
    rw [skip_eq ht] at hskip
    split at hskip
    next hexpected =>
      cases hskip
      obtain ⟨b, hb, hb'⟩ := taken t
      rw [hb] at hk
      cases hk
      refine ⟨t, [], rfl, fun later => ?_⟩
      have hskip' := (hmoved later).trans (if_pos hexpected)
      exact (bind_eq hskip').trans (congrFun hb' _)
    next hexpected =>
      cases hskip
      obtain ⟨_, used, ⟨⟩, hk'⟩ := kept.ok hk
      refine ⟨t, used, rfl, fun later => ?_⟩
      have hskip' := (hmoved (used.map (Located.moved move) ++ later)).trans (if_neg hexpected)
      exact (bind_eq hskip').trans (hk' later)

variable {item item' : Read α} {opening closing : Token} {limit limit' : Nat}

theorem upTo_carries (hitem : Carries move view item item') (le : limit ≤ limit') :
    Carries move (Prod.map (List.map view) (Located.moved move)) (upTo closing item limit)
      (upTo closing item' limit') := by
  induction limit generalizing limit' with
  | zero => exact .throw
  | succ limit ih =>
    obtain ⟨limit', rfl⟩ := Nat.exists_eq_succ_of_ne_zero (Nat.ne_zero_of_lt le)
    unfold upTo
    apply Carries.skip
    · exact fun t => ⟨([], t), rfl, rfl⟩
    · apply hitem.bind
      intro first
      exact (ih (Nat.le_of_succ_le_succ le)).last fun _ => rfl

theorem bracketed_carries (hitem : Carries move view item item') (le : limit ≤ limit') :
    Carries move (movedList move view) (bracketed limit opening closing item)
      (bracketed limit' opening closing item') := by
  unfold bracketed
  apply expect_carries.bind
  intro start
  exact (upTo_carries hitem le).last fun _ => rfl

/-! ## Literals -/

theorem nameLiteral_moved (name : String) : (nameLiteral name).moved move = nameLiteral name := by
  unfold nameLiteral
  split
  · rfl
  split
  · rfl
  split <;> rfl

theorem scalarLiteral_moved {t : Token} {l : Literal} (h : scalarLiteral? t = some (.ok l)) :
    l.moved move = l := by
  cases t with
  | int digits =>
    rw [scalarLiteral?] at h
    split at h <;> cases h
    rfl
  | _ => cases h <;> rfl

theorem literalWithin_carries {const const' : Bool} (hconst : const' → const) {depth depth' : Nat}
    (le : depth ≤ depth') :
    Carries move (Literal.movedAt move) (literalWithin const depth) (literalWithin const' depth') ∧
    Carries move (Prod.map (Located.moved move) (Literal.movedAt move))
      (objectFieldWithin const depth) (objectFieldWithin const' depth') := by
  -- Induction on the depth, as literals are read. What is read where variables are refused is
  -- also read where they are not.
  induction depth generalizing depth' with
  | zero => exact ⟨.throw, .throw⟩
  | succ depth ih =>
    obtain ⟨depth', rfl⟩ := Nat.exists_eq_succ_of_ne_zero (Nat.ne_zero_of_lt le)
    obtain ⟨hliteral, hfield⟩ := ih (Nat.le_of_succ_le_succ le)
    constructor
    · unfold literalWithin
      apply Carries.peek
      intro t
      have same : (t.moved move).item = t.item := rfl
      rw [same]
      split
      · -- `[`: a list.
        apply (bracketed_carries hliteral le).last
        intro items
        have hitems : Literal.moved move (.list items.item) =
            .list (items.item.map (Literal.movedAt move)) := by
          rw [Literal.moved, Literal.movedItems_eq]
        exact congrArg (Located.mk · _) hitems.symm
      · -- `{`: an object.
        apply (bracketed_carries hfield le).last
        intro fields
        have hfields : Literal.moved move (.object fields.item) = .object
            (fields.item.map (Prod.map (Located.moved move) (Literal.movedAt move))) := by
          rw [Literal.moved, Literal.movedFields_eq]
        exact congrArg (Located.mk · _) hfields.symm
      · -- `$`: a variable; where variables may stand, they still may.
        split
        · exact Carries.unexpected
        next hvariable =>
          rw [if_neg fun h => hvariable (hconst h)]
          apply next_carries.bind
          intro dollar
          exact expectName_carries.last fun _ => rfl
      next name _ =>
        apply next_carries.last
        exact fun _ => congrArg (Located.mk · _) (nameLiteral_moved name).symm
      · -- A number or a string, or nothing that starts a literal.
        split
        · exact Carries.unexpected
        next result hresult =>
          rcases result with e | l
          · exact next_carries.bind fun _ => Carries.throw
          · apply next_carries.last
            exact fun _ => congrArg (Located.mk · _) (scalarLiteral_moved hresult).symm
    · unfold objectFieldWithin
      apply expectName_carries.bind
      intro key
      apply expect_carries.bind
      intro colon
      exact hliteral.last fun _ => rfl

/-! ## Excerpts -/

theorem map_moved_id (tokens : List (Located Token)) : tokens.map (Located.moved id) = tokens :=
  List.map_id tokens

theorem map_item_moved (tokens : List (Located Token)) :
    (tokens.map (Located.moved move)).map (·.item) = tokens.map (·.item) := by
  rw [List.map_map]
  rfl

/-- The tokens of a literal, moved and behind them the end of the file, are read as the same literal,
moved. Both readers are carried to one that may go as deep as either. -/
theorem literal_carried {const const' : Bool} (hconst : const' → const) {depth : Nat}
    {tokens rest : List (Located Token)} {stop : Located Token} {l : Located Literal}
    (ended : Ended (tokens.map (Located.moved move) ++ rest))
    (run : literalWithin const depth (tokens.map (Located.moved move) ++ rest) = .ok (l, rest))
    (hstop : stop.item = .endOfFile) (ended' : Ended (tokens ++ [stop])) :
    ∃ l', literal const' (tokens ++ [stop]) = .ok (l', [stop]) ∧ Literal.movedAt move l' = l := by
  let limit := depth + (tokens.map (Located.moved move) ++ rest).length +
    (2 * (tokens ++ [stop]).length + 1)
  have carried {c : Bool} {n : Nat} (hc : const' → c) (le : n ≤ limit) (f : Position → Position) :=
    (@literalWithin_carries f _ _ hc _ _ le).1
  have deep : literalWithin const' limit (tokens.map (Located.moved move) ++ rest) =
      .ok (l, rest) := by
    obtain ⟨t, used, heq, h⟩ := (carried hconst (by omega) id).ok run
    have same := List.append_cancel_right (heq.trans (List.cons_append).symm)
    have deep := h rest
    rwa [← same, map_moved_id, Literal.movedAt, Literal.moved_id] at deep
  have derived : Grammar.Literal const' (tokens.map (·.item)) l.item.bare := by
    have reads : Reads any limit (literalWithin const' limit) _ := (literalWithin_reads const' limit).1
    obtain ⟨used, heq, -, derived⟩ := reads.ok ended (by omega) (fun _ _ => trivial) deep
    rwa [← List.append_cancel_right heq, map_item_moved] at derived
  have takes : Takes (tokens ++ [stop]).length (literal const') _ .endOfFile _ :=
    literal_takes derived
  obtain ⟨l', run', -⟩ := takes tokens stop [] rfl hstop ended' (Nat.le_refl _)
  refine ⟨l', run', ?_⟩
  obtain ⟨t, used, heq, h⟩ := (carried id (by omega) move).ok run'
  have same := List.append_cancel_right (heq.trans (List.cons_append).symm)
  have deep' := h rest
  rw [← same, deep] at deep'
  exact (Prod.mk.inj (Except.ok.inj deep')).1.symm

theorem typeRef_carried {tokens : List (Located Token)} {stop : Located Token} {type : TypeRef}
    {span : Span} (derived : Grammar.TypeRef (tokens.map (·.item)) type)
    (hspan : Spans (tokens.map (Located.moved move)) span) (hstop : stop.item = .endOfFile)
    (ended : Ended (tokens ++ [stop])) :
    ∃ t, typeRef (tokens ++ [stop]) = .ok (t, [stop]) ∧ t.moved move = ⟨type, span⟩ := by
  have takes : Takes (tokens ++ [stop]).length typeRef _ .endOfFile _ :=
    typeRef_takes derived (by simp)
  obtain ⟨t, run, rfl⟩ := takes tokens stop [] rfl hstop ended (Nat.le_refl _)
  have supply : Supply (fun _ => True) _ (tokens ++ [stop]) :=
    ⟨ended, Nat.le_refl _, fun _ _ => trivial⟩
  obtain ⟨used, heq, -, hused, -⟩ := typeRef_places.ok supply run
  obtain rfl := List.append_cancel_right heq
  rw [hused.moved.unique hspan]
  exact ⟨t, run, rfl⟩

end Read

/-- Read for itself from this text, the phrase is the same as where it stood, but for its places. -/
def Phrase.Reread (span : Span) (text : String) : Phrase → Prop
  | .literal const l => ∀ const' : Bool, (const' → const) → ∃ read stop,
    Read.run text (Read.literal const') = .ok (read, [stop]) ∧ stop.item = .endOfFile ∧
      Literal.movedAt span.start.behind read = ⟨l, span⟩
  | .type t => ∃ read stop, Read.run text Read.typeRef = .ok (read, [stop]) ∧
    stop.item = .endOfFile ∧ read.moved span.start.behind = ⟨t, span⟩
  | _ => True

/-- What holds of the node of a document that was read from a source. -/
structure Node.Placed (source : String) (node : Node) : Prop where
  /-- The span goes from the first to the last of the tokens that the node is derived from. -/
  tokens : ∃ used, used <:+: (Lexeme.read source).tokens ∧
    node.phrase.Derives (used.map (·.item)) ∧ Spans used node.span
  start : node.span.start.In source.toList
  stop : node.span.stop.In source.toList
  encloses : ∀ part ∈ node.parts, node.span.Encloses part.span
  apart : node.parts.Pairwise fun a b => a.span.stop.index ≤ b.span.start.index
  reread : node.phrase.Reread node.span (excerpt source node.span)

theorem Read.run_eq {α : Type} {text : String} {tokens : List (Located Token)}
    (h : Lexeme.read text = ⟨tokens, none⟩) (read : Read α) : Read.run text read = read tokens := by
  unfold Read.run
  rw [h]
  rfl

theorem Phrase.ReadFrom.reread {source : String} {before used later : List (Located Token)}
    {phrase : Phrase} {span : Span} (h : phrase.ReadFrom used span)
    (hread : (Lexeme.read source).failure = none)
    (hsplit : (Lexeme.read source).tokens = before ++ (used ++ later))
    (hbefore : ∀ t ∈ before, t.item ≠ .endOfFile) (hused : ∀ t ∈ used, t.item ≠ .endOfFile) :
    phrase.Reread span (excerpt source span) := by
  obtain ⟨tokens, stop, hexcerpt, hstop, rfl⟩ :=
    Lexeme.excerpt_read hread hsplit hbefore hused h.spans
  have ended : Ended (tokens ++ [stop]) := by
    have := Lexeme.ended_read (congrArg Lexeme.Reading.failure hexcerpt)
    rwa [hexcerpt] at this
  cases phrase with
  | literal const l =>
    intro const' hconst
    obtain ⟨depth, rest, ended', run⟩ := h.reading const l rfl
    obtain ⟨read, run', hmoved⟩ := Read.literal_carried hconst ended' run hstop ended
    exact ⟨read, stop, (Read.run_eq hexcerpt _).trans run', hstop, hmoved⟩
  | type t =>
    have derived : Grammar.TypeRef _ t := h.derives
    rw [Read.map_item_moved] at derived
    obtain ⟨read, run, hmoved⟩ := Read.typeRef_carried derived h.spans hstop ended
    exact ⟨read, stop, (Read.run_eq hexcerpt _).trans run, hstop, hmoved⟩
  | _ => trivial

theorem Bears.placed {source : String} {body : List (Located Token)} {stop : Located Token}
    {nodes : List Node} (h : Bears body nodes)
    (hread : Lexeme.read source = ⟨body ++ [stop], none⟩)
    (hbody : ∀ t ∈ body, t.item ≠ .endOfFile) : ∀ node ∈ Node.allOf nodes, node.Placed source := by
  intro node hnode
  obtain ⟨used, hused, hfrom, hparts⟩ := h.exists_tokens node hnode
  have hfailure := congrArg Lexeme.Reading.failure hread
  have htokens := congrArg Lexeme.Reading.tokens hread
  obtain ⟨-, ordered, placed⟩ := Lexeme.tokens_placed hfailure
  rw [htokens] at ordered placed
  have hamong := hused.trans (List.prefix_append body [stop]).isInfix
  have successive := ordered.of_part hamong
  obtain ⟨first, hfirst, last, hlast, hspan⟩ := hfrom.spans.exists_mem
  obtain ⟨before, later, rfl⟩ := hused
  have hsplit : (Lexeme.read source).tokens = before ++ (used ++ (later ++ [stop])) := by
    rw [htokens, List.append_assoc, List.append_assoc]
  simp only [List.mem_append] at hbody
  exact {
    tokens := ⟨used, htokens ▸ hamong, hfrom.derives, hfrom.spans⟩
    start := by
      rw [hspan]
      exact (placed first (hamong.subset hfirst)).1
    stop := by
      rw [hspan]
      exact (placed last (hamong.subset hlast)).2
    encloses := fun _ hpart => hparts.encloses successive hfrom.spans hpart
    apart := hparts.pairwise successive
    reread := hfrom.reread hfailure hsplit (fun t ht => hbody t (.inl (.inl ht)))
      fun t ht => hbody t (.inl (.inr ht)) }

/-- Where a document is read, the span of each of its nodes goes from the first to the last of the
node's tokens. So the spans of its parts lie in it, one behind the other, and a literal or type that
is cut out and read for itself is the same, moved. Where none is read, the error is reported in the
source. -/
theorem document_spans (source : String) :
    (∀ d, Document.read source = .ok d →
      d.nodes.Pairwise (fun a b => a.span.stop.index ≤ b.span.start.index) ∧
        ∀ node ∈ Node.allOf d.nodes, node.Placed source) ∧
    ∀ e, Document.read source = .error e → e.start.In source.toList ∧ e.stop.In source.toList ∧
      e.start.index ≤ e.stop.index := by
  cases hread : (Lexeme.read source).failure with
  | some e =>
    have refused : Document.read source = .error (e.map .lexical) := by
      unfold Document.read Read.run
      simp only [hread]
      rfl
    rw [refused]
    refine ⟨nofun, ?_⟩
    rintro _ ⟨⟩
    exact Lexeme.failure_placed hread
  | none =>
    obtain ⟨body, stop, htokens, -, hbody, -, hrest, -, hastray⟩ := readDocument_exactly hread
    obtain ⟨-, ordered, placed⟩ := Lexeme.tokens_placed hread
    have supply : Read.Supply (· ∈ body ++ [stop]) _ (body ++ [stop]) :=
      ⟨htokens ▸ Lexeme.ended_read hread, Nat.le_refl _, fun _ ht => ht⟩
    have hsource : Lexeme.read source = ⟨body ++ [stop], none⟩ := by rw [← htokens, ← hread]
    unfold Document.read
    rw [Read.run_eq hsource]
    rw [htokens] at ordered placed
    constructor
    · intro d hd
      obtain ⟨⟨d, rest⟩, hdocument, rfl⟩ := map_eq_ok hd
      obtain ⟨used, heq, -, bears⟩ := Read.document_places.ok supply hdocument
      rw [hrest d rest hdocument] at heq
      obtain rfl := List.append_cancel_right heq
      have ordered := ordered.of_part (List.prefix_append body [stop]).isInfix
      exact ⟨bears.pairwise ordered, bears.placed hsource hbody⟩
    · intro e he
      obtain hgone | ⟨t, ht, hstart, hstop⟩ := Read.document_places.error supply (map_eq_error he)
      · exact absurd hgone (hastray e (map_eq_error he))
      · have forward := ordered.forward t ht
        obtain ⟨hin, hin'⟩ := placed t ht
        unfold Located.start Located.stop
        rw [hstart]
        refine ⟨hin, ?_⟩
        rcases hstop with hstop | hstop <;> rw [hstop]
        · exact ⟨hin, Nat.le_refl _⟩
        · exact ⟨hin', forward⟩

/-- A query with a default, an alias and a directive. -/
def sampleSpanned : String := "query ($v: [T!] = [1]) \x7b a: b(c: \x7bd: $v\x7d) @e \x7d"

/-- A query that ends inside of an argument. -/
def sampleUnclosed : String := "\x7b a(b: [1 "

theorem sampleSpanned_placed :
    (∃ d, Document.read sampleSpanned = .ok d ∧
      ((Node.allOf d.nodes).map fun node => (node.span.start.index, node.span.stop.index)) =
        [(0, 46), (6, 22), (7, 9), (11, 15), (18, 21), (19, 20), (25, 44), (25, 26), (28, 29),
          (29, 41), (30, 31), (33, 40), (34, 35), (37, 39), (42, 44), (43, 44)] ∧
      ∀ node ∈ Node.allOf d.nodes, node.Placed sampleSpanned) ∧
    ∃ e, Document.read sampleUnclosed = .error e ∧ e.start.In sampleUnclosed.toList ∧
      e.stop.In sampleUnclosed.toList := by
  have spans : ((Document.read sampleSpanned).toOption.map fun d =>
      (Node.allOf d.nodes).map fun node => (node.span.start.index, node.span.stop.index)) =
        some [(0, 46), (6, 22), (7, 9), (11, 15), (18, 21), (19, 20), (25, 44), (25, 26), (28, 29),
          (29, 41), (30, 31), (33, 40), (34, 35), (37, 39), (42, 44), (43, 44)] := by
    decide +kernel
  have refused : (Document.read sampleUnclosed).toOption.isNone := by decide +kernel
  obtain ⟨d, hd, hspans⟩ := Option.map_eq_some_iff.mp spans
  have hd := toOption_eq_some hd
  refine ⟨⟨d, hd, hspans, ((document_spans sampleSpanned).1 d hd).2⟩, ?_⟩
  cases he : Document.read sampleUnclosed with
  | ok d =>
    rw [he] at refused
    cases refused
  | error e =>
    obtain ⟨hstart, hstop, -⟩ := (document_spans sampleUnclosed).2 e he
    exact ⟨e, rfl, hstart, hstop⟩

end GraphQL
