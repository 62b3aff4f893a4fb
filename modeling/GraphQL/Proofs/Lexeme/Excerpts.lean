import GraphQL.Proofs.Lexeme.BlockStrings
import GraphQL.Proofs.Document.Nodes
import GraphQL.Proofs.Document.Printing

/-! # Excerpts of a source

What a scanner takes does not depend on what follows, as long as a token ends where it did. So the
tokens of an excerpt that begins and ends with tokens of a source are tokens of the source, but for
their places, which are counted from the start of the excerpt.
-/

namespace GraphQL

/-! ## Places in an excerpt -/

/-- The place in a source of the place `p` in an excerpt that starts at `base`. -/
def Position.behind (base p : Position) : Position :=
  ⟨base.index + p.index, base.line + p.line, if p.line = 0 then base.column + p.column else p.column⟩

/-- The same item elsewhere. -/
def Located.moved {α : Type} (move : Position → Position) (x : Located α) : Located α :=
  ⟨x.item, move x.start, move x.stop⟩

/-- What stands in a source from the start of a span to its end. -/
def excerpt (source : String) (span : Span) : String :=
  String.ofList ((source.toList.take span.stop.index).drop span.start.index)

namespace Position

theorem behind_after (base p : Position) (c : Char) :
    base.behind (p.after c) = (base.behind p).after c := by
  unfold after
  split
  · simp [behind, nextLine, Nat.add_assoc]
  · by_cases hline : p.line = 0 <;> simp [behind, nextColumn, hline, Nat.add_assoc]

theorem behind_afterAll (base p : Position) (text : List Char) :
    base.behind (p.afterAll text) = (base.behind p).afterAll text := by
  induction text generalizing p with
  | nil => rfl
  | cons c text ih => rw [afterAll_cons, ih, behind_after, afterAll_cons]

theorem index_afterAll (p : Position) (text : List Char) :
    (p.afterAll text).index = p.index + text.length := by
  induction text generalizing p with
  | nil => rfl
  | cons c text ih =>
    have step : (p.after c).index = p.index + 1 := by
      unfold after
      split <;> rfl
    rw [afterAll_cons, ih, step, List.length_cons]
    omega

end Position

theorem Spans.moved {move : Position → Position} {tokens : List (Located Token)} {span : Span}
    (h : Spans tokens span) :
    Spans (tokens.map (Located.moved move)) ⟨move span.start, move span.stop⟩ := by
  obtain ⟨first, hfirst, rfl⟩ := h
  refine ⟨first.moved move, by rw [List.head?_map, hfirst]; rfl, ?_⟩
  unfold stopAfter
  rw [List.getLast?_map]
  cases tokens.getLast? <;> rfl

theorem excerpt_eq {source : String} {span : Span} {before text after : List Char}
    (hsource : source.toList = before ++ (text ++ after))
    (hstart : span.start.index = before.length)
    (hstop : span.stop.index = before.length + text.length) :
    excerpt source span = String.ofList text := by
  unfold excerpt
  rw [hsource, hstart, hstop, List.take_length_add_append, List.take_left, List.drop_left]

namespace Lexeme

/-! ## Tokens before a shorter rest -/

variable {source keep cut : List Char} {cs : List BlockCharacter} {c : Char} {t : Token}

theorem Stops.of_append {kind : Char → Bool} (h : Stops kind (keep ++ cut)) : Stops kind keep := by
  cases keep with
  | nil => exact nofun
  | cons c keep => exact stops_cons.mpr (stops_cons.mp h)

theorem not_prefix_of_append {quotes : List Char} (h : ¬ quotes <+: source ++ cut) :
    ¬ quotes <+: source :=
  fun starts => h (starts.trans (List.prefix_append _ _))

theorem Passes.excerpt (h : Passes source cs (keep ++ cut)) :
    ∃ shorter, source = shorter ++ cut ∧ Passes shorter cs keep := by
  -- Induction on the characters that are passed: a quote that closes nothing in a longer text
  -- closes nothing in a shorter one.
  generalize hstop : keep ++ cut = stop at h
  induction h with
  | closing =>
    subst hstop
    exact ⟨tripleQuote ++ keep, (List.append_assoc _ _ _).symm, .closing⟩
  | quotes _ ih =>
    obtain ⟨shorter, rfl, h⟩ := ih hstop
    exact ⟨escapedQuote ++ shorter, (List.append_assoc _ _ _).symm, .quotes h⟩
  | @plain c _ _ _ hescape hquotes hc _ ih =>
    obtain ⟨shorter, rfl, h⟩ := ih hstop
    exact ⟨c :: shorter, rfl,
      .plain (not_prefix_of_append hescape) (not_prefix_of_append hquotes) hc h⟩

theorem Passes.scan (h : Passes source cs keep) : scan '"' ('"' :: '"' :: source) =
    .ok (.block (String.ofList (written escapedQuote cs)), keep) := by
  refine scan_block_eq_ok.mpr ⟨_, h.ends, ?_, ?_⟩
  · conv_rhs => rw [h.source_eq, List.append_assoc, List.take_left]
  · conv_rhs => rw [h.source_eq]
    exact (List.drop_left' (by simp [tripleQuote])).symm

theorem scan_block_excerpt (h : scan '"' ('"' :: '"' :: source) = .ok (t, keep ++ cut)) :
    ∃ shorter, source = shorter ++ cut ∧ scan '"' ('"' :: '"' :: shorter) = .ok (t, keep) := by
  obtain ⟨i, hi, ht, hstop⟩ := scan_block_eq_ok.mp h
  obtain ⟨cs, hcs, htext, -⟩ := hi.exists_passes
  rw [← hstop] at hcs
  obtain ⟨shorter, rfl, hshorter⟩ := hcs.excerpt
  rw [ht, htext]
  exact ⟨shorter, rfl, hshorter.scan⟩

theorem scan_quote_excerpt (hblock : ¬ ['"', '"'] <+: source)
    (h : scan '"' source = .ok (t, keep ++ cut)) :
    ∃ shorter, source = shorter ++ cut ∧ scan '"' shorter = .ok (t, keep) := by
  obtain ⟨raw, cs, rfl, hraw, rfl⟩ := (scan_quote_eq_ok hblock).mp h
  have split : raw ++ '"' :: (keep ++ cut) = (raw ++ '"' :: keep) ++ cut := by simp
  rw [split] at hblock ⊢
  exact ⟨_, rfl, (scan_quote_eq_ok (not_prefix_of_append hblock)).mpr ⟨raw, cs, rfl, hraw, rfl⟩⟩

theorem scan_number_excerpt (hc : c = '-' ∨ c.isDigit) (h : scan c source = .ok (t, keep ++ cut)) :
    ∃ shorter, source = shorter ++ cut ∧ scan c shorter = .ok (t, keep) := by
  have hnumber := (scan_number_eq_ok hc).mp h
  obtain ⟨ht, hsuffix⟩ := scan_takes h
  have hlength := hsuffix.length_le
  generalize hsource : c :: source = whole at hnumber
  generalize hstop : keep ++ cut = stop at hnumber hlength
  obtain @⟨text, _, _, hnumeral, hrest⟩ := hnumber
  subst hstop
  cases text with
  | nil =>
    rw [List.nil_append] at hsource
    rw [← hsource, List.length_cons] at hlength
    omega
  | cons d text =>
    obtain ⟨rfl, rfl⟩ := List.cons.inj hsource
    have number := NumberAt.intro hnumeral hrest.of_append
    exact ⟨text ++ keep, (List.append_assoc _ _ _).symm, (scan_number_eq_ok hc).mpr number⟩

theorem scan_name_excerpt (hc : isNameStart c) (h : scan c source = .ok (t, keep ++ cut)) :
    ∃ shorter, source = shorter ++ cut ∧ scan c shorter = .ok (t, keep) := by
  have split : source.takeWhile isNameContinue ++ source.dropWhile isNameContinue = source :=
    List.takeWhile_append_dropWhile
  have areNames : (source.takeWhile isNameContinue).all isNameContinue := List.all_takeWhile
  have stops := stops_dropWhile isNameContinue source
  have scanned := scan_name hc areNames stops
  rw [split, h] at scanned
  obtain ⟨rfl, hstop⟩ := Prod.mk.inj (Except.ok.inj scanned)
  rw [← hstop] at split stops
  exact ⟨source.takeWhile isNameContinue ++ keep, by rw [List.append_assoc, split],
    scan_name hc areNames stops.of_append⟩

theorem scan_excerpt (h : scan c source = .ok (t, keep ++ cut)) :
    ∃ shorter, source = shorter ++ cut ∧ scan c shorter = .ok (t, keep) := by
  have scanned := h
  unfold scan at h
  split at h
  next p hp =>
    cases h
    exact ⟨keep, rfl, by unfold scan; rw [hp]⟩
  next none =>
  split at h
  next hc =>
    subst hc
    obtain ⟨stop, hstop, h⟩ := map_eq_ok h
    cases h
    have spelled := ellipsis_spelled hstop
    cases spelled
    exact ⟨'.' :: '.' :: keep, rfl, rfl⟩
  split at h
  next hc =>
    subst hc
    split at h
    next body =>
      obtain ⟨shorter, rfl, hshorter⟩ := scan_block_excerpt scanned
      exact ⟨'"' :: '"' :: shorter, rfl, hshorter⟩
    next hblock => exact scan_quote_excerpt (fun ⟨body, h⟩ => hblock body h.symm) scanned
  split at h
  next hc => exact scan_number_excerpt (by simpa using hc) scanned
  split at h
  next hc => exact scan_name_excerpt hc scanned
  next => cases h

/-! ## Items -/

theorem exists_of_afterGap {inComment : Bool} {rest : List Char}
    (h : afterGap inComment source = c :: rest) : ∃ gap, source = gap ++ c :: rest ∧
      (∀ more, afterGap inComment (gap ++ c :: more) = c :: more) ∧
      ∀ more, afterGap false (c :: more) = c :: more := by
  fun_induction afterGap inComment source with
  | case1 => cases h
  | case2 d source ih =>
    obtain ⟨gap, rfl, hgap, hc⟩ := ih h
    exact ⟨d :: gap, rfl, fun more => by rw [List.cons_append, afterGap, if_pos rfl, hgap], hc⟩
  | case3 inComment d source outside hd ih =>
    obtain ⟨gap, rfl, hgap, hc⟩ := ih h
    exact ⟨d :: gap, rfl,
      fun more => by rw [List.cons_append, afterGap, if_neg outside, if_pos hd, hgap], hc⟩
  | case4 inComment source outside hd ih =>
    obtain ⟨gap, rfl, hgap, hc⟩ := ih h
    exact ⟨'#' :: gap, rfl, fun more => by
      rw [List.cons_append, afterGap, if_neg outside, if_neg hd, if_pos rfl, hgap], hc⟩
  | case5 inComment d source outside hd hhash =>
    cases h
    exact ⟨[], rfl, fun more => by simp [afterGap, outside, hd, hhash],
      fun more => by simp [afterGap, hd, hhash]⟩

namespace Lexer

variable {p q : Position} {l : Lexer} {x : Located Token}

theorem next_of_scan {gap rest stop : List Char}
    (hgap : afterGap false (gap ++ c :: rest) = c :: rest) (hscan : scan c rest = .ok (t, stop)) :
    (Lexer.mk p (some (gap ++ c :: rest))).next =
      some (.ok ⟨t, p.afterAll gap, (p.afterAll gap).afterAll t.text.toList⟩,
        ⟨(p.afterAll gap).afterAll t.text.toList, some stop⟩) := by
  have spelled := scan_spelled hscan
  unfold next
  simp only [Option.map_some, hgap, hscan, taken_append]
  rw [spelled, taken_append]

theorem exists_of_next (h : (Lexer.mk p (some source)).next = some (.ok x, l))
    (hx : x.item ≠ .endOfFile) : ∃ gap c rest stop, source = gap ++ c :: rest ∧
      (∀ more, afterGap false (gap ++ c :: more) = c :: more) ∧
      (∀ more, afterGap false (c :: more) = c :: more) ∧ scan c rest = .ok (x.item, stop) ∧
      x.span = ⟨p.afterAll gap, (p.afterAll gap).afterAll x.item.text.toList⟩ ∧
      l = ⟨x.stop, some stop⟩ := by
  cases hstart : afterGap false source with
  | nil =>
    unfold next at h
    simp only [Option.map_some, hstart] at h
    cases h
    exact absurd rfl hx
  | cons c rest =>
    obtain ⟨gap, rfl, hgap, hc⟩ := exists_of_afterGap hstart
    cases hscan : scan c rest with
    | error fault =>
      unfold next at h
      simp only [Option.map_some, hstart, hscan] at h
      cases h
    | ok scanned =>
      obtain ⟨t, stop⟩ := scanned
      rw [next_of_scan hstart hscan] at h
      cases h
      exact ⟨gap, c, rest, stop, rfl, hgap, hc, hscan, rfl, rfl⟩

theorem Gives.withoutGap {tokens : List (Located Token)}
    (h : Gives ⟨p, some source⟩ ((x :: tokens).map .ok)) (hx : x.item ≠ .endOfFile) :
    ∃ gap source', source = gap ++ source' ∧ x.start = p.afterAll gap ∧
      Gives ⟨x.start, some source'⟩ ((x :: tokens).map .ok) := by
  cases h with
  | item hnext hlater =>
    obtain ⟨gap, c, rest, stop, rfl, -, hc, hscan, hspan, rfl⟩ := exists_of_next hnext hx
    obtain ⟨t, span⟩ := x
    obtain rfl : span = ⟨p.afterAll gap, (p.afterAll gap).afterAll t.text.toList⟩ := hspan
    have next := @next_of_scan _ _ (p.afterAll gap) [] _ _ (hc rest) hscan
    exact ⟨gap, c :: rest, rfl, rfl, .item next hlater⟩

theorem Gives.rest {before tokens : List (Located Token)}
    (h : Gives ⟨p, some source⟩ ((before ++ tokens).map .ok))
    (hbefore : ∀ t ∈ before, t.item ≠ .endOfFile) : ∃ passed source', source = passed ++ source' ∧
      Gives ⟨p.afterAll passed, some source'⟩ (tokens.map .ok) := by
  induction before generalizing p source with
  | nil => exact ⟨[], source, rfl, h⟩
  | cons x before ih =>
    obtain ⟨hx, hbefore⟩ := List.forall_mem_cons.mp hbefore
    cases h with
    | item hnext hlater =>
      obtain ⟨gap, c, rest, stop, rfl, -, -, hscan, hspan, rfl⟩ := exists_of_next hnext hx
      obtain ⟨passed, source', rfl, h⟩ := ih hlater hbefore
      have hstop : x.stop = (p.afterAll gap).afterAll x.item.text.toList :=
        congrArg Span.stop hspan
      rw [hstop, ← Position.afterAll_append, ← Position.afterAll_append] at h
      refine ⟨_, source', ?_, h⟩
      rw [List.append_assoc, List.append_assoc, ← scan_spelled hscan]

theorem Gives.upTo {tokens later : List (Located Token)}
    (h : Gives ⟨p, some source⟩ ((tokens ++ later).map .ok))
    (htokens : ∀ t ∈ tokens, t.item ≠ .endOfFile) : ∃ text after, source = text ++ after ∧
      stopAfter p tokens = p.afterAll text ∧ ∀ base q : Position, p = base.behind q → ∃ tokens',
        tokens = tokens'.map (Located.moved base.behind) ∧ Gives ⟨q, some text⟩
          ((tokens' ++ [.atPoint (q.afterAll text) .endOfFile]).map .ok) := by
  -- Induction on the tokens: cut off behind the last of them and moved to `q`, the source gives
  -- the same tokens and then the end of the file.
  induction tokens generalizing p source with
  | nil => exact ⟨[], source, rfl, rfl, fun base q _ => ⟨[], rfl, .item rfl (gives_nothing q)⟩⟩
  | cons x tokens ih =>
    obtain ⟨hx, htokens⟩ := List.forall_mem_cons.mp htokens
    cases h with
    | item hnext hlater =>
      obtain ⟨gap, c, rest, stop, rfl, hgap, -, hscan, hspan, rfl⟩ := exists_of_next hnext hx
      obtain ⟨text, after, rfl, hstop, htext⟩ := ih hlater htokens
      obtain ⟨shorter, rfl, hshorter⟩ := scan_excerpt hscan
      have spelled := scan_spelled hshorter
      obtain ⟨t, span⟩ := x
      obtain rfl : span = ⟨p.afterAll gap, (p.afterAll gap).afterAll t.text.toList⟩ := hspan
      refine ⟨gap ++ c :: shorter, after, by simp, ?_, ?_⟩
      · rw [stopAfter_cons, hstop, spelled, Position.afterAll_append, Position.afterAll_append]
        rfl
      · rintro base q rfl
        let first : Located Token :=
          ⟨t, q.afterAll gap, (q.afterAll gap).afterAll t.text.toList⟩
        have hfirst : ⟨t, (base.behind q).afterAll gap,
            ((base.behind q).afterAll gap).afterAll t.text.toList⟩ = first.moved base.behind := by
          simp only [first, Located.moved, Located.start, Located.stop, Position.behind_afterAll]
        obtain ⟨tokens', rfl, hgives⟩ := htext base first.stop (congrArg Located.stop hfirst)
        have hend : q.afterAll (gap ++ c :: shorter) = first.stop.afterAll text := by
          rw [spelled, Position.afterAll_append, Position.afterAll_append]
          rfl
        rw [hfirst, hend]
        exact ⟨first :: tokens', rfl, .item (next_of_scan (hgap shorter) hshorter) hgives⟩

end Lexer

/-! ## All tokens of a source -/

/-- What is read where these items are given. -/
def Reading.ofItems : List Item → Reading
  | [] => ⟨[], none⟩
  | .error e :: _ => ⟨[], some e⟩
  | .ok t :: rest => ⟨t :: (ofItems rest).tokens, (ofItems rest).failure⟩

theorem Reading.ofItems_tokens (tokens : List (Located Token)) :
    ofItems (tokens.map .ok) = ⟨tokens, none⟩ := by
  induction tokens with
  | nil => rfl
  | cons t tokens ih => rw [List.map_cons, ofItems, ih]

theorem Reading.ofItems_cases (items : List Item) :
    items = (ofItems items).tokens.map .ok ∧ (ofItems items).failure = none ∨
      ∃ e, (ofItems items).failure = some e ∧ .error e ∈ items := by
  induction items with
  | nil => exact .inl ⟨rfl, rfl⟩
  | cons item items ih =>
    rcases item with e | t
    · exact .inr ⟨e, rfl, List.mem_cons_self⟩
    · obtain ⟨hitems, hfailure⟩ | ⟨e, hfailure, he⟩ := ih
      · exact .inl ⟨congrArg (Except.ok t :: ·) hitems, hfailure⟩
      · exact .inr ⟨e, hfailure, List.mem_cons_of_mem _ he⟩

theorem Lexer.Gives.readFrom {l : Lexer} {items : List Item} (h : l.Gives items) {limit : Nat}
    (le : items.length ≤ limit) : readFrom limit l = Reading.ofItems items := by
  induction h generalizing limit with
  | ended h =>
    cases limit with
    | zero => rfl
    | succ limit =>
      unfold Lexeme.readFrom
      rw [h]
      rfl
  | @item _ _ i items hnext _ ih =>
    obtain ⟨limit, rfl⟩ := Nat.exists_eq_succ_of_ne_zero (Nat.ne_zero_of_lt le)
    have later := ih (Nat.le_of_succ_le_succ le)
    unfold Lexeme.readFrom
    rw [hnext]
    cases i with
    | error e => rfl
    | ok t => simp only [later, Reading.ofItems]

theorem Lexer.Gives.read {source : String} {items : List Item}
    (h : (Lexer.ofSource source).Gives items) : read source = Reading.ofItems items := by
  obtain ⟨others, hothers, hlength⟩ := exists_gives .origin source.toList
  obtain rfl := hothers.unique h
  rw [String.length_toList] at hlength
  exact h.readFrom hlength

theorem Lexer.Gives.forward {l : Lexer} {items : List Item} (h : l.Gives items) :
    ∀ item ∈ items, item.span.start.index ≤ item.span.stop.index := by
  induction h with
  | ended => simp
  | @item l _ i _ hnext _ ih =>
    refine List.forall_mem_cons.mpr ⟨?_, ih⟩
    obtain ⟨p, _ | source⟩ := l
    · cases hnext
    · obtain ⟨item, l, hnext', hstep⟩ := next_step p source
      rw [hnext] at hnext'
      cases hnext'
      cases hstep with
      | token =>
        simp only [Item.span, Position.index_afterAll, List.length_append]
        omega
      | _ => exact Nat.le_refl _

theorem Lexer.Gives.successive {p : Position} {tokens : List (Located Token)}
    (h : Gives ⟨p, some source⟩ (tokens.map .ok)) :
    (∀ t ∈ tokens, p.index ≤ t.start.index) ∧ Successive tokens := by
  induction tokens generalizing p source with
  | nil => exact ⟨nofun, .nil, nofun⟩
  | cons x tokens ih =>
    have forward := h.forward
    rw [List.forall_mem_map] at forward
    cases h with
    | item hnext hlater =>
      obtain ⟨item, l, hnext', hstep⟩ := next_step p source
      rw [hnext] at hnext'
      cases hnext'
      cases hstep with
      | endOfFile =>
        obtain rfl := List.map_eq_nil_iff.mp ((gives_nothing _).unique hlater)
        refine ⟨List.forall_mem_singleton.mpr ?_, .cons ⟨.nil, nofun⟩ (Nat.le_refl _) nofun⟩
        simp [Located.start, Located.atPoint, Position.index_afterAll]
      | @token gap _ t =>
        obtain ⟨hbehind, hlater⟩ := ih hlater
        have hstart : p.index ≤ (p.afterAll gap).index := by simp [Position.index_afterAll]
        obtain ⟨hforward, -⟩ := List.forall_mem_cons.mp forward
        refine ⟨List.forall_mem_cons.mpr ⟨hstart, fun s hs => ?_⟩, hlater.cons hforward hbehind⟩
        exact Nat.le_trans (Nat.le_trans hstart hforward) (hbehind s hs)

theorem tokens_placed {source : String} (h : (Lexeme.read source).failure = none) :
    (Lexer.ofSource source).Gives ((Lexeme.read source).tokens.map .ok) ∧
      Successive (Lexeme.read source).tokens ∧ ∀ t ∈ (Lexeme.read source).tokens,
        t.start.In source.toList ∧ t.stop.In source.toList := by
  obtain ⟨items, hitems, -⟩ := Lexer.source_lossless source
  rw [hitems.read] at h ⊢
  obtain ⟨heq, -⟩ | ⟨e, he, -⟩ := Reading.ofItems_cases items
  · rw [heq] at hitems
    have placed := @Lexer.Gives.placed _ _ hitems [] _ rfl
    rw [List.forall_mem_map] at placed
    exact ⟨hitems, hitems.successive.2, placed⟩
  · rw [h] at he
    cases he

theorem failure_placed {source : String} {e : Located LexError}
    (h : (Lexeme.read source).failure = some e) : e.start.In source.toList ∧
      e.stop.In source.toList ∧ e.start.index ≤ e.stop.index := by
  obtain ⟨items, hitems, -⟩ := Lexer.source_lossless source
  rw [hitems.read] at h
  obtain ⟨-, hnone⟩ | ⟨e', he, hmem⟩ := Reading.ofItems_cases items
  · rw [h] at hnone
    cases hnone
  · rw [h] at he
    cases he
    obtain ⟨hstart, hstop⟩ := @Lexer.Gives.placed _ _ hitems [] _ rfl _ hmem
    exact ⟨hstart, hstop, hitems.forward _ hmem⟩

/-- The tokens of an excerpt that goes from a token to a token are those of the source. -/
theorem excerpt_read {source : String} {before tokens later : List (Located Token)} {span : Span}
    (h : (Lexeme.read source).failure = none)
    (hsplit : (Lexeme.read source).tokens = before ++ (tokens ++ later))
    (hbefore : ∀ t ∈ before, t.item ≠ .endOfFile) (htokens : ∀ t ∈ tokens, t.item ≠ .endOfFile)
    (hspan : Spans tokens span) : ∃ tokens' stop,
      Lexeme.read (excerpt source span) = ⟨tokens' ++ [stop], none⟩ ∧ stop.item = .endOfFile ∧
      tokens = tokens'.map (Located.moved span.start.behind) := by
  have hgives := (tokens_placed h).1
  rw [hsplit] at hgives
  obtain ⟨passed, source', hsource, hgives⟩ := hgives.rest hbefore
  obtain ⟨first, hfirst, rfl⟩ := hspan
  obtain ⟨others, rfl⟩ := List.head?_eq_some_iff.mp hfirst
  obtain ⟨gap, source', rfl, hstart, hgives⟩ :=
    Lexer.Gives.withoutGap hgives (htokens first List.mem_cons_self)
  obtain ⟨text, after, rfl, hstop, htext⟩ :=
    @Lexer.Gives.upTo _ _ (first :: others) later hgives htokens
  obtain ⟨tokens', heq, hgives⟩ := htext first.start .origin rfl
  have hexcerpt : excerpt source ⟨first.start, stopAfter first.stop (first :: others)⟩ =
      String.ofList text := by
    have hstop : stopAfter first.stop (first :: others) = first.start.afterAll text := hstop
    apply @excerpt_eq _ _ (passed ++ gap) text after
    · rw [hsource, List.append_assoc]
    · simp [hstart, Position.index_afterAll, Position.origin]
    · simp [hstop, hstart, Position.index_afterAll, Position.origin]
  have hread : (Lexer.ofSource (String.ofList text)).Gives _ :=
    (congrArg (Lexer.Gives ⟨.origin, some ·⟩ _) String.toList_ofList).mpr hgives
  rw [hexcerpt, hread.read, Reading.ofItems_tokens]
  exact ⟨tokens', _, rfl, rfl, heq⟩

end Lexeme

end GraphQL
