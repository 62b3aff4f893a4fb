import GraphQL.Proofs.Document.Completeness

/-! # The tokens of a source

Each token takes at least one character, so reading a source comes to its end: what was read
without a failure ends with the end of the file. Documents are read from such tokens exactly as
the grammar derives them.
-/

namespace GraphQL

namespace Lexeme

variable {source rest : List Char} {flag : Bool}

theorem length_afterGap (inComment : Bool) (source : List Char) :
    (afterGap inComment source).length ≤ source.length := by
  fun_induction afterGap inComment source with
  | case1 => exact Nat.le_refl _
  | case5 => exact Nat.le_refl _
  | _ => rw [List.length_cons]; omega

/-- `rest` is left of `source` when at least one character was taken from its front. -/
def Behind (rest source : List Char) : Prop := ∃ c text, source = c :: text ∧ rest <:+ text

namespace Behind

theorem of_suffix {c : Char} (h : rest <:+ source) : Behind rest (c :: source) :=
  ⟨c, source, rfl, h⟩

theorem suffix (h : Behind rest source) : rest <:+ source := by
  obtain ⟨c, text, rfl, h⟩ := h
  exact h.trans (List.suffix_cons c text)

theorem suffix_tail {c : Char} (h : Behind rest (c :: source)) : rest <:+ source := by
  obtain ⟨_, _, heq, h⟩ := h
  cases heq
  exact h

theorem later {more : List Char} (hmore : more <:+ rest) (h : Behind rest source) :
    Behind more source := by
  obtain ⟨c, text, rfl, h⟩ := h
  exact of_suffix (hmore.trans h)

end Behind

/-! ## Numbers -/

theorem digits_behind (h : digits source = .ok rest) : Behind rest source := by
  unfold digits at h
  split at h
  · cases h
  split at h
  case isTrue =>
    cases h
    exact .of_suffix (List.dropWhile_suffix _)
  case isFalse => cases h

theorem wholePart_behind (h : wholePart source = .ok rest) : Behind rest source := by
  unfold wholePart at h
  split at h
  case h_1 =>
    split at h
    · cases h
    · cases h
      exact .of_suffix List.suffix_rfl
  case h_2 => exact digits_behind h

theorem fraction_suffix (h : fraction source = .ok (rest, flag)) : rest <:+ source := by
  unfold fraction at h
  split at h
  · obtain ⟨r, hr, hrest⟩ := map_eq_ok h
    cases hrest
    exact (digits_behind hr).suffix.trans (List.suffix_cons _ _)
  · cases h
    exact List.suffix_rfl

theorem afterSign_suffix (source : List Char) : afterSign source <:+ source := by
  unfold afterSign
  split
  · exact List.suffix_cons _ _
  · exact List.suffix_cons _ _
  · exact List.suffix_rfl

theorem exponent_suffix (h : exponent source = .ok (rest, flag)) : rest <:+ source := by
  unfold exponent at h
  split at h
  case h_1 tail =>
    obtain ⟨r, hr, hrest⟩ := map_eq_ok h
    cases hrest
    exact ((digits_behind hr).suffix.trans (afterSign_suffix tail)).trans (List.suffix_cons _ _)
  case h_2 tail =>
    obtain ⟨r, hr, hrest⟩ := map_eq_ok h
    cases hrest
    exact ((digits_behind hr).suffix.trans (afterSign_suffix tail)).trans (List.suffix_cons _ _)
  case h_3 =>
    cases h
    exact List.suffix_rfl

theorem number_behind (h : number source = .ok (rest, flag)) : Behind rest source := by
  unfold number at h
  obtain ⟨afterWhole, hwhole, h⟩ := bind_eq_ok h
  obtain ⟨⟨afterFraction, _⟩, hfraction, h⟩ := bind_eq_ok h
  obtain ⟨⟨afterExponent, _⟩, hexponent, h⟩ := bind_eq_ok h
  obtain ⟨_, -, h⟩ := bind_eq_ok h
  cases h
  have unsigned := (wholePart_behind hwhole).later
    ((exponent_suffix hexponent).trans (fraction_suffix hfraction))
  split at unsigned
  · exact .of_suffix unsigned.suffix
  · exact unsigned

/-! ## Strings -/

theorem quoted_closes (h : quoted source = .ok rest) : ∃ raw, source = raw ++ '"' :: rest := by
  fun_induction quoted source with
  | case2 =>
    cases h
    exact ⟨[], rfl⟩
  | case4 a b c d more _ _ ih =>
    obtain ⟨raw, rfl⟩ := ih h
    exact ⟨'\\' :: 'u' :: a :: b :: c :: d :: raw, rfl⟩
  | case8 c more _ _ _ _ ih =>
    obtain ⟨raw, rfl⟩ := ih h
    exact ⟨'\\' :: c :: raw, rfl⟩
  | case11 c rest _ _ _ _ ih =>
    obtain ⟨raw, rfl⟩ := ih h
    exact ⟨c :: raw, rfl⟩
  | _ => cases h

theorem block_closes (h : block source = .ok rest) :
    ∃ raw, source = raw ++ ['"', '"', '"'] ++ rest := by
  fun_induction block source with
  | case1 _ ih =>
    obtain ⟨raw, rfl⟩ := ih h
    exact ⟨'\\' :: '"' :: '"' :: '"' :: raw, rfl⟩
  | case2 =>
    cases h
    exact ⟨[], rfl⟩
  | case4 c _ _ _ _ ih =>
    obtain ⟨raw, rfl⟩ := ih h
    exact ⟨c :: raw, rfl⟩
  | _ => cases h

theorem ellipsis_spelled (h : ellipsis source = .ok rest) :
    source = Punctuator.ellipsis.text.toList ++ rest := by
  unfold ellipsis at h
  split at h <;> cases h
  rfl

/-! ## Tokens -/

theorem scan_takes {c : Char} {stop : List Char} {t : Token} (h : scan c rest = .ok (t, stop)) :
    t ≠ .endOfFile ∧ stop <:+ rest := by
  unfold scan at h
  split at h
  · -- Punctuation of one character.
    cases h
    exact ⟨by simp, List.suffix_rfl⟩
  split at h
  · -- An ellipsis.
    obtain ⟨stop, hstop, h⟩ := map_eq_ok h
    cases h
    obtain ⟨rfl, rfl⟩ := List.cons.inj (ellipsis_spelled hstop)
    exact ⟨by simp, List.suffix_append _ _⟩
  split at h
  · split at h
    · -- A block string.
      obtain ⟨stop, hstop, h⟩ := map_eq_ok h
      cases h
      obtain ⟨raw, rfl⟩ := block_closes hstop
      exact ⟨by simp, '"' :: '"' :: (raw ++ ['"', '"', '"']), by simp⟩
    · -- A string in quotes.
      obtain ⟨stop, hstop, h⟩ := map_eq_ok h
      cases h
      obtain ⟨raw, rfl⟩ := quoted_closes hstop
      exact ⟨by simp, raw ++ ['"'], by simp⟩
  split at h
  · -- A number.
    obtain ⟨⟨stop, isFloat⟩, hstop, h⟩ := map_eq_ok h
    cases h
    exact ⟨by dsimp only; split <;> simp, (number_behind hstop).suffix_tail⟩
  split at h
  · -- A name.
    cases h
    exact ⟨by simp, List.dropWhile_suffix _⟩
  · cases h

theorem ended_readFrom {limit : Nat} {p : Position} {source : List Char}
    (lt : source.length < limit) (h : (readFrom limit ⟨p, some source⟩).failure = none) :
    Ended (readFrom limit ⟨p, some source⟩).tokens := by
  -- Induction on the limit: each token takes a character, so the limit is never reached.
  induction limit generalizing p source with
  | zero => exact absurd lt (Nat.not_lt_zero _)
  | succ limit ih =>
    have shorter := length_afterGap false source
    unfold readFrom Lexer.next at h ⊢
    simp only [Option.map_some] at h ⊢
    generalize afterGap false source = start at h shorter ⊢
    cases start with
    | nil => cases limit <;> exact .last rfl
    | cons c rest =>
      dsimp only at h ⊢
      cases hscan : scan c rest with
      | error fault => rw [hscan] at h; cases h
      | ok p =>
        obtain ⟨t, stop⟩ := p
        rw [hscan] at h
        obtain ⟨ht, hstop⟩ := scan_takes hscan
        have := hstop.length_le
        rw [List.length_cons] at shorter
        exact .cons ht (ih (by omega) h)

theorem ended_read {source : String} (h : (read source).failure = none) :
    Ended (read source).tokens :=
  ended_readFrom (Nat.lt_succ_of_le (Nat.le_of_eq String.length_toList)) h

end Lexeme

theorem Ended.eq_append {tokens : List (Located Token)} (h : Ended tokens) :
    ∃ body stop, tokens = body ++ [stop] ∧ stop.item = .endOfFile ∧
      ∀ t ∈ body, t.item ≠ .endOfFile := by
  induction h with
  | @last t ht => exact ⟨[], t, rfl, ht, by simp⟩
  | @cons t rest ht _ ih =>
    obtain ⟨body, stop, rfl, hstop, hbody⟩ := ih
    exact ⟨t :: body, stop, rfl, hstop, by simpa using ⟨ht, hbody⟩⟩

/-- A document is read from the tokens of a source if and only if the grammar derives it from just
these tokens, and the end of the file is what is left. Other tokens are an error, which is never
that reading went past the end of the file or on without end. -/
theorem readDocument_exactly {source : String} (h : (Lexeme.read source).failure = none) :
    ∃ body stop, (Lexeme.read source).tokens = body ++ [stop] ∧ stop.item = .endOfFile ∧
      (∀ t ∈ body, t.item ≠ .endOfFile) ∧
      (∀ tree, (∃ d, Read.document (body ++ [stop]) = .ok (d, [stop]) ∧ d.bare = tree) ↔
        Grammar.Document (body.map (·.item)) tree) ∧
      (∀ d rest, Read.document (body ++ [stop]) = .ok (d, rest) → rest = [stop]) ∧
      ((∃ e, Read.document (body ++ [stop]) = .error e) ↔
        ∀ tree, ¬ Grammar.Document (body.map (·.item)) tree) ∧
      ∀ e, Read.document (body ++ [stop]) = .error e → e.item ≠ .astray := by
  have ended := Lexeme.ended_read h
  obtain ⟨body, stop, htokens, hstop, hbody⟩ := ended.eq_append
  rw [htokens] at ended
  have reads := @Read.document_reads Read.any (body ++ [stop]).length
  have derives {d : Document} {rest : List (Located Token)}
      (run : Read.document (body ++ [stop]) = .ok (d, rest)) :
      rest = [stop] ∧ Grammar.Document (body.map (·.item)) d.bare := by
    obtain ⟨used, hused, ended', hd⟩ := reads.ok ended (Nat.le_refl _) (fun _ _ => trivial) run
    obtain ⟨t, rfl⟩ := Read.document_finished ended' run
    obtain ⟨rfl, hlast⟩ := List.append_inj' hused rfl
    exact ⟨hlast.symm, hd⟩
  have accepts {tree : Document} (derived : Grammar.Document (body.map (·.item)) tree) :
      ∃ d, Read.document (body ++ [stop]) = .ok (d, [stop]) ∧ d.bare = tree :=
    Read.document_takes derived body stop [] rfl hstop ended (Nat.le_refl _)
  refine ⟨body, stop, htokens, hstop, hbody, fun tree => ⟨?_, accepts⟩,
    fun d rest run => (derives run).1, ⟨?_, ?_⟩, fun e run => ?_⟩
  · rintro ⟨d, run, rfl⟩
    exact (derives run).2
  · rintro ⟨e, run⟩ tree derived
    obtain ⟨d, hd, -⟩ := accepts derived
    rw [run] at hd
    cases hd
  · intro none
    cases run : Read.document (body ++ [stop]) with
    | error e => exact ⟨e, rfl⟩
    | ok p => exact absurd (derives run).2 (none _)
  · exact reads.error ended (Nat.le_refl _) (fun _ _ => trivial) run

/-- A query of one field, `a(b: 1)`. -/
def sampleSource : String := "\x7b a(b: 1) \x7d"

theorem sampleSource_exactly : ∃ d stop, (Lexeme.read sampleSource).failure = none ∧
    Read.document (Lexeme.read sampleSource).tokens = .ok (d, [stop]) ∧
    d.bare = [.operation ⟨.nowhere, .query, none, none, [], [.field .nowhere
      ⟨none, .nowhere "a", some (.nowhere [⟨.nowhere "b", .nowhere (.int 1)⟩]), []⟩ []]⟩] := by
  have lexed : (Lexeme.read sampleSource).failure = none := by decide +kernel
  have spelled : (Lexeme.read sampleSource).tokens.map (·.item) =
      [.punctuator .braceOpen, .name "a", .punctuator .parenOpen, .name "b", .punctuator .colon,
        .int "1", .punctuator .parenClose, .punctuator .braceClose] ++ [.endOfFile] := by
    decide +kernel
  obtain ⟨body, stop, htokens, -, -, exactly, -⟩ := readDocument_exactly lexed
  rw [htokens, List.map_append] at spelled
  obtain ⟨hbody, -⟩ := List.append_inj' spelled rfl
  have one : Grammar.Literal false [.int "1"] (.int 1) := .int (by decide +kernel)
  have argument := Grammar.Argument.intro (@Grammar.Keyed.intro _ _ "b" _ _ one)
  have field := @Grammar.Selection.field "a" _ _ _ _ _ _ _ _ .none
    (.some (.intro (.cons argument .nil))) .nil .none
  have query := Grammar.Definition.shorthand (.intro (.cons field .nil))
  have derived := Grammar.Several.cons query .nil
  rw [hbody] at exactly
  obtain ⟨d, hd, tree⟩ := (exactly _).mpr derived
  exact ⟨d, stop, lexed, htokens ▸ hd, tree⟩

end GraphQL
