import GraphQL.Proofs.Lexeme.Numerals

/-! # Strings in quotes

A string in quotes is accepted exactly if all that stands before its closing quote are characters and
escapes. Each of them then stands for one character, and nothing is left for the decoder to guess.
-/

namespace GraphQL.Lexeme

/-! ## Characters of strings -/

/-- What may follow a backslash, other than a code, and what the two stand for. -/
def escapes : List (Char × Char) :=
  [('b', '\x08'), ('f', '\x0c'), ('n', '\n'), ('r', '\r'), ('t', '\t'), ('\\', '\\'), ('/', '/'),
    ('"', '"')]

/-- `d` is the hexadecimal digit for `n`, in lower or upper case. -/
def HexDigit (d : Char) (n : Nat) : Prop :=
  "0123456789abcdef".toList[n]? = some d ∨ "0123456789ABCDEF".toList[n]? = some d

/-- One character of a string as it is written, and the character that it stands for. -/
inductive StringCharacter : List Char → Char → Prop
  | plain {c : Char} (hc : ' ' ≤ c ∨ c = '\t') (hquote : c ≠ '"') (hbackslash : c ≠ '\\') :
      StringCharacter [c] c
  | escape {e c : Char} (h : (e, c) ∈ escapes) : StringCharacter ['\\', e] c
  | code {d₁ d₂ d₃ d₄ c : Char} {n₁ n₂ n₃ n₄ : Nat} (h₁ : HexDigit d₁ n₁) (h₂ : HexDigit d₂ n₂)
      (h₃ : HexDigit d₃ n₃) (h₄ : HexDigit d₄ n₄)
      (hcode : c.toNat = n₁ * 16 ^ 3 + n₂ * 16 ^ 2 + n₃ * 16 + n₄) :
      StringCharacter ['\\', 'u', d₁, d₂, d₃, d₄] c

/-- String characters one after the other, and what each of them stands for. -/
inductive StringCharacters : List Char → List Char → Prop
  | nil : StringCharacters [] []
  | cons {first rest : List Char} {c : Char} {cs : List Char} (h : StringCharacter first c)
      (hrest : StringCharacters rest cs) : StringCharacters (first ++ rest) (c :: cs)

/-- Each quote in the text is behind a backslash that is not itself behind another such one. -/
inductive Unclosed : List Char → Prop
  | nil : Unclosed []
  | plain {c : Char} {rest : List Char} (hquote : c ≠ '"') (hbackslash : c ≠ '\\')
      (h : Unclosed rest) : Unclosed (c :: rest)
  | pair {c : Char} {rest : List Char} (h : Unclosed rest) : Unclosed ('\\' :: c :: rest)

/-- `raw` is what stands in `source` before the first quote that closes a string, and `stop` is what
stands behind that quote. -/
structure ClosedAt (source raw stop : List Char) : Prop where
  text : source = raw ++ '"' :: stop
  unclosed : Unclosed raw

variable {raw stop rest cs : List Char} {c : Char}

/-! ## Codes -/

instance (d : Char) (n : Nat) : Decidable (HexDigit d n) := inferInstanceAs (Decidable (_ ∨ _))

theorem toNat_lt_of_isHexDigit {d : Char} (h : isHexDigit d) : d.toNat < 128 := by
  have below {limit : Char} (hd : d ≤ limit) : d.toNat ≤ limit.toNat := hd
  simp only [isHexDigit, Bool.or_eq_true, Bool.and_eq_true, decide_eq_true_eq] at h
  rcases h with (h | ⟨-, h⟩) | ⟨-, h⟩
  · exact Nat.lt_of_le_of_lt (Char.isDigit_iff_toNat.mp h).2 (by decide)
  · exact Nat.lt_of_le_of_lt (below h) (by decide)
  · exact Nat.lt_of_le_of_lt (below h) (by decide)

theorem hexDigit_iff {d : Char} {n : Nat} : HexDigit d n ↔ isHexDigit d ∧ hexDigit d = n := by
  constructor
  · have table : ∀ p ∈ "0123456789abcdef".toList.zipIdx ++ "0123456789ABCDEF".toList.zipIdx,
        isHexDigit p.1 ∧ hexDigit p.1 = p.2 := by decide
    intro h
    refine table (d, n) (List.mem_append.mpr ?_)
    exact h.imp List.mem_zipIdx_iff_getElem?.mpr List.mem_zipIdx_iff_getElem?.mpr
  -- All hexadecimal digits are among the first 128 characters.
  · have table : ∀ k < 128, isHexDigit (Char.ofNat k) →
        HexDigit (Char.ofNat k) (hexDigit (Char.ofNat k)) := by decide +kernel
    rintro ⟨h, rfl⟩
    have hd := table d.toNat (toNat_lt_of_isHexDigit h)
    rw [Char.ofNat_toNat] at hd
    exact hd h

theorem toNat_ofNat {n : Nat} (h : n.isValidChar) : (Char.ofNat n).toNat = n := by
  unfold Char.ofNat
  rw [dif_pos h]
  rfl

theorem codeCharacter_cons {d : Char} {digits : List Char}
    (h : (d :: digits).all isHexDigit) : codeCharacter (d :: digits) =
      let code := (d :: digits).foldl (fun code digit => code * 16 + hexDigit digit) 0
      if code.isValidChar then some (Char.ofNat code) else none := by
  unfold codeCharacter
  split
  next heq =>
    cases heq
    exact absurd (List.all_eq_true.mp h '+' List.mem_cons_self) (by decide)
  next => exact if_pos (by rw [h]; rfl)

theorem hexCharacter_eq_some {d₁ d₂ d₃ d₄ : Char} :
    hexCharacter d₁ d₂ d₃ d₄ = some c ↔ StringCharacter ['\\', 'u', d₁, d₂, d₃, d₄] c := by
  unfold hexCharacter
  constructor
  · intro h
    split at h
    case isFalse => cases h
    case isTrue hdigits =>
    rw [codeCharacter_cons hdigits] at h
    dsimp only at h
    split at h
    case isFalse => cases h
    case isTrue hvalid =>
    obtain rfl := Option.some.inj h
    simp only [List.all_cons, List.all_nil, Bool.and_true, Bool.and_eq_true] at hdigits
    obtain ⟨h₁, h₂, h₃, h₄⟩ := hdigits
    refine .code (hexDigit_iff.mpr ⟨h₁, rfl⟩) (hexDigit_iff.mpr ⟨h₂, rfl⟩)
      (hexDigit_iff.mpr ⟨h₃, rfl⟩) (hexDigit_iff.mpr ⟨h₄, rfl⟩) ?_
    rw [toNat_ofNat hvalid]
    simp only [List.foldl_cons, List.foldl_nil]
    omega
  · rintro ⟨⟩
    next n₁ n₂ n₃ n₄ h₁ h₂ h₃ h₄ hcode =>
    obtain ⟨i₁, rfl⟩ := hexDigit_iff.mp h₁
    obtain ⟨i₂, rfl⟩ := hexDigit_iff.mp h₂
    obtain ⟨i₃, rfl⟩ := hexDigit_iff.mp h₃
    obtain ⟨i₄, rfl⟩ := hexDigit_iff.mp h₄
    have hdigits : [d₁, d₂, d₃, d₄].all isHexDigit := by simp [i₁, i₂, i₃, i₄]
    have value : [d₁, d₂, d₃, d₄].foldl (fun code digit => code * 16 + hexDigit digit) 0 =
        c.toNat := by
      simp only [List.foldl_cons, List.foldl_nil]
      omega
    have valid : c.toNat.isValidChar := c.valid
    rw [if_pos hdigits, codeCharacter_cons hdigits, value]
    dsimp only
    rw [if_pos valid, Char.ofNat_toNat]

/-! ## Acceptance -/

theorem simpleEscape_eq_some {e : Char} : simpleEscape e = some c ↔ (e, c) ∈ escapes := by
  constructor
  · intro h
    unfold simpleEscape at h
    split at h <;> cases h <;> decide
  · intro h
    simp only [escapes, List.mem_cons, List.not_mem_nil, or_false, Prod.mk.injEq] at h
    rcases h with ⟨rfl, rfl⟩ | ⟨rfl, rfl⟩ | ⟨rfl, rfl⟩ | ⟨rfl, rfl⟩ | ⟨rfl, rfl⟩ | ⟨rfl, rfl⟩ |
      ⟨rfl, rfl⟩ | ⟨rfl, rfl⟩ <;> rfl

theorem not_u_of_mem_escapes {e : Char} (h : (e, c) ∈ escapes) : e ≠ 'u' := by
  rintro rfl
  simp [escapes] at h

theorem quoted_append {first : List Char} (h : StringCharacter first c) (rest : List Char) :
    quoted (first ++ rest) = quoted rest := by
  cases h with
  | plain hc hquote hbackslash =>
    have hsource : ¬ (c = '\n' ∨ c = '\r') ∧ isSourceCharacter c := by
      rcases hc with hc | rfl
      · refine ⟨?_, by simp [isSourceCharacter, hc]⟩
        rintro (rfl | rfl) <;> exact absurd hc (by decide)
      · decide
    rw [List.singleton_append, quoted]
    · rw [if_neg (by simpa using hsource.1), if_pos hsource.2]
    · exact hquote
    · exact hbackslash
  | escape h =>
    have other := not_u_of_mem_escapes h
    rw [List.cons_append, List.singleton_append, quoted]
    · simp only [simpleEscape_eq_some.mpr h]
    · exact fun _ _ _ _ _ h _ => other h
    · exact other
  | code h₁ h₂ h₃ h₄ hcode =>
    have := hexCharacter_eq_some.mpr (.code h₁ h₂ h₃ h₄ hcode)
    simp [quoted, this]

theorem StringCharacters.quoted (h : StringCharacters raw cs) (stop : List Char) :
    quoted (raw ++ '"' :: stop) = .ok stop := by
  induction h with
  | nil => rw [List.nil_append, Lexeme.quoted]
  | cons h _ ih => rw [List.append_assoc, quoted_append h, ih]

theorem exists_characters_of_quoted {source : List Char} (h : Lexeme.quoted source = .ok stop) :
    ∃ raw cs, source = raw ++ '"' :: stop ∧ StringCharacters raw cs := by
  have cons {first more : List Char} {c : Char} (hfirst : StringCharacter first c) :
      (∃ raw cs, more = raw ++ '"' :: stop ∧ StringCharacters raw cs) →
      ∃ raw cs, first ++ more = raw ++ '"' :: stop ∧ StringCharacters raw cs := by
    rintro ⟨raw, cs, rfl, hraw⟩
    exact ⟨first ++ raw, c :: cs, (List.append_assoc _ _ _).symm, .cons hfirst hraw⟩
  fun_induction Lexeme.quoted source with
  | case2 =>
    cases h
    exact ⟨[], [], rfl, .nil⟩
  | case4 a b c d more _ hcode ih => exact cons (hexCharacter_eq_some.mp hcode) (ih h)
  | case8 c more _ _ e hescape ih =>
    exact cons (.escape (simpleEscape_eq_some.mp hescape)) (ih h)
  | case11 c rest hquote hbackslash hbreak hsource ih =>
    refine cons (.plain ?_ hquote hbackslash) (ih h)
    simp only [Bool.or_eq_true, decide_eq_true_eq, not_or] at hbreak
    simpa [isSourceCharacter, hbreak.1, hbreak.2, or_comm] using hsource
  | _ => cases h

theorem quoted_eq_ok {source : List Char} : quoted source = .ok stop ↔
    ∃ raw cs, source = raw ++ '"' :: stop ∧ StringCharacters raw cs :=
  ⟨exists_characters_of_quoted, fun ⟨_, _, hsource, h⟩ => hsource ▸ h.quoted stop⟩

/-! ## The closing quote -/

theorem HexDigit.ne_quote {d : Char} {n : Nat} (h : HexDigit d n) : d ≠ '"' ∧ d ≠ '\\' := by
  have hd := (hexDigit_iff.mp h).1
  constructor <;> rintro rfl <;> cases hd

theorem Unclosed.hexDigit {d : Char} {n : Nat} (h : HexDigit d n) (hrest : Unclosed rest) :
    Unclosed (d :: rest) :=
  .plain h.ne_quote.1 h.ne_quote.2 hrest

theorem StringCharacters.unclosed (h : StringCharacters raw cs) : Unclosed raw := by
  induction h with
  | nil => exact .nil
  | cons h _ ih =>
    cases h with
    | plain _ hquote hbackslash => exact .plain hquote hbackslash ih
    | escape => exact .pair ih
    | code h₁ h₂ h₃ h₄ => exact .pair (.hexDigit h₁ (.hexDigit h₂ (.hexDigit h₃ (.hexDigit h₄ ih))))

theorem ClosedAt.unique {source raw' stop' : List Char} (h : ClosedAt source raw stop)
    (h' : ClosedAt source raw' stop') : raw = raw' ∧ stop = stop' := by
  -- Only one quote closes a string: by induction on what stands before it.
  obtain ⟨rfl, hraw⟩ := h
  obtain ⟨heq, hraw'⟩ := h'
  induction hraw generalizing raw' with
  | nil =>
    cases hraw' with
    | nil => exact ⟨rfl, (List.cons.inj heq).2⟩
    | plain hquote => exact absurd (List.cons.inj heq).1.symm hquote
    | pair => simp at heq
  | plain hquote hbackslash _ ih =>
    cases hraw' with
    | nil => exact absurd (List.cons.inj heq).1 hquote
    | plain _ _ hraw' =>
      obtain ⟨rfl, htail⟩ := List.cons.inj heq
      exact (ih htail hraw').imp_left (congrArg _)
    | pair => exact absurd (List.cons.inj heq).1 hbackslash
  | pair _ ih =>
    cases hraw' with
    | nil => simp at heq
    | plain _ hbackslash => exact absurd (List.cons.inj heq).1.symm hbackslash
    | pair hraw' =>
      obtain ⟨rfl, htail⟩ := List.cons.inj (List.cons.inj heq).2
      obtain ⟨rfl, rfl⟩ := ih htail hraw'
      exact ⟨rfl, rfl⟩

/-! ## Decoding -/

/-- Decodes as `unescape` does, but has `other` go on from a backslash that starts no escape. -/
def unescapeOr (other : List Char → List Char) : List Char → List Char
  | [] => []
  | '\\' :: rest =>
    match rest with
    | [] => other ['\\']
    | 'u' :: a :: b :: c :: d :: more =>
      match hexCharacter a b c d with
      | some e => e :: unescapeOr other more
      | none => other ('\\' :: rest)
    | 'u' :: digits => other ('\\' :: 'u' :: digits)
    | c :: more =>
      match simpleEscape c with
      | some e => e :: unescapeOr other more
      | none => other ('\\' :: c :: more)
  | c :: rest => c :: unescapeOr other rest

theorem codeCharacter_of_hexCharacter {d₁ d₂ d₃ d₄ : Char} (h : hexCharacter d₁ d₂ d₃ d₄ = some c) :
    codeCharacter [d₁, d₂, d₃, d₄] = some c := by
  unfold hexCharacter at h
  split at h
  · exact h
  · cases h

theorem unescapeOr_unescape (raw : List Char) : unescapeOr unescape raw = unescape raw := by
  fun_induction unescapeOr unescape raw with
  | case1 => rfl
  | case2 => rfl
  | case3 a b c d more e hcode ih => rw [unescape, codeCharacter_of_hexCharacter hcode, ih]; rfl
  | case4 => rfl
  | case5 => rfl
  | case6 c more hlong hu e hescape ih =>
    rw [unescape, hescape, ih]
    · rfl
    · exact hlong
    · exact hu
  | case7 => rfl
  | case8 c rest hbackslash ih =>
    rw [unescape, ih]
    exact hbackslash

/-- A string character is decoded as a whole, whatever happens at a backslash that starts none. -/
theorem unescapeOr_append (other : List Char → List Char) {first : List Char}
    (h : StringCharacter first c) (rest : List Char) :
    unescapeOr other (first ++ rest) = c :: unescapeOr other rest := by
  cases h with
  | plain _ _ hbackslash =>
    rw [List.singleton_append, unescapeOr]
    exact hbackslash
  | escape h =>
    have other := not_u_of_mem_escapes h
    rw [List.cons_append, List.singleton_append, unescapeOr]
    · simp only [simpleEscape_eq_some.mpr h]
    · exact fun _ _ _ _ _ h _ => other h
    · exact other
  | code h₁ h₂ h₃ h₄ hcode =>
    have := hexCharacter_eq_some.mpr (.code h₁ h₂ h₃ h₄ hcode)
    simp [unescapeOr, this]

theorem StringCharacters.unescapeOr (h : StringCharacters raw cs)
    (other : List Char → List Char) : unescapeOr other raw = cs := by
  induction h with
  | nil => rfl
  | cons h _ ih => rw [unescapeOr_append other h, ih]

theorem StringCharacters.unescape (h : StringCharacters raw cs) : unescape raw = cs := by
  rw [← unescapeOr_unescape, h.unescapeOr]

/-! ## Tokens -/

theorem scan_quote (hblock : ¬ ['"', '"'] <+: rest) : scan '"' rest =
    (quoted rest).map fun stop => (.quoted (between 1 ('"' :: rest) stop), stop) := by
  unfold scan
  split
  next heq => cases heq
  next =>
  rw [if_neg (by decide), if_pos rfl]
  split
  next body => exact absurd (List.prefix_append ['"', '"'] body) hblock
  next => rfl

theorem scan_quote_eq_ok (hblock : ¬ ['"', '"'] <+: rest) {t : Token} :
    scan '"' rest = .ok (t, stop) ↔ ∃ raw cs, rest = raw ++ '"' :: stop ∧
      StringCharacters raw cs ∧ t = .quoted (String.ofList raw) := by
  rw [scan_quote hblock]
  have inside (raw : List Char) :
      between 1 ('"' :: (raw ++ '"' :: stop)) stop = String.ofList raw := by
    have := @between_append stop 1 ['"'] raw ['"'] rfl rfl
    rwa [List.append_assoc, List.append_assoc] at this
  constructor
  · intro h
    obtain ⟨stop, hread, heq⟩ := map_eq_ok h
    cases heq
    obtain ⟨raw, cs, rfl, hraw⟩ := quoted_eq_ok.mp hread
    exact ⟨raw, cs, rfl, hraw, congrArg _ (inside raw)⟩
  · rintro ⟨raw, cs, rfl, hraw, rfl⟩
    rw [hraw.quoted, ← inside raw]
    rfl

theorem StringCharacters.not_quotes (h : StringCharacters raw cs)
    (hrest : rest.head? ≠ some '"') : ¬ ['"', '"'] <+: raw ++ '"' :: rest := by
  rintro ⟨more, heq⟩
  cases h with
  | nil =>
    cases heq
    exact hrest rfl
  | cons h =>
    cases h with
    | plain _ hquote => exact hquote (List.cons.inj heq).1.symm
    | escape => cases heq
    | code => cases heq

namespace Lexer

/-- Where a quote opens a string, a token is given exactly if all that stands before the first quote
behind no open backslash are string characters. It is read as the characters that they stand for, and
the decoder never meets a backslash that starts no escape. -/
theorem quoted_exactly {source rest : List Char} (p : Position)
    (hstart : afterGap false source = '"' :: rest) (hblock : ¬ ['"', '"'] <+: rest) :
    (∀ raw raw' stop stop', ClosedAt rest raw stop → ClosedAt rest raw' stop' →
      raw = raw' ∧ stop = stop') ∧
    (∀ t stop,
      (∃ span, (Lexer.mk p (some source)).next = some (.ok ⟨t, span⟩, ⟨span.stop, some stop⟩)) ↔
        ∃ raw cs, ClosedAt rest raw stop ∧ StringCharacters raw cs ∧
          t = .quoted (String.ofList raw)) ∧
    ((∃ e l, (Lexer.mk p (some source)).next = some (.error e, l)) ↔
      ∀ raw stop, ClosedAt rest raw stop → ¬ ∃ cs, StringCharacters raw cs) ∧
    ∀ raw cs, StringCharacters raw cs →
      unescape raw = cs ∧ (∀ other, unescapeOr other raw = cs) ∧
      ∀ const span later, Read.literal const (⟨.quoted (String.ofList raw), span⟩ :: later) =
        .ok (⟨.string (String.ofList cs), span⟩, later) := by
  have scanned (t : Token) (stop : List Char) : scan '"' rest = .ok (t, stop) ↔
      ∃ raw cs, ClosedAt rest raw stop ∧ StringCharacters raw cs ∧
        t = .quoted (String.ofList raw) := by
    refine (scan_quote_eq_ok hblock).trans (exists₂_congr fun raw cs => ?_)
    exact ⟨fun ⟨htext, h, ht⟩ => ⟨⟨htext, h.unclosed⟩, h, ht⟩,
      fun ⟨hclosed, h, ht⟩ => ⟨hclosed.text, h, ht⟩⟩
  obtain ⟨tokens, errors⟩ := @next_of_afterGap p _ _ _ _ hstart scanned
  refine ⟨fun _ _ _ _ => ClosedAt.unique, tokens, errors.trans ⟨?_, ?_⟩, ?_⟩
  · rintro none raw stop hclosed ⟨cs, h⟩
    exact none _ stop ⟨raw, cs, hclosed, h, rfl⟩
  · rintro none t stop ⟨raw, cs, hclosed, h, -⟩
    exact none raw stop hclosed ⟨cs, h⟩
  · intro raw cs h
    refine ⟨h.unescape, h.unescapeOr, fun const span later => ?_⟩
    rw [Read.literal_scalar rfl, String.toList_ofList, h.unescape]
    rfl

/-- An escaped quote, a backslash and a code, in front of a bracket. -/
def sampleQuoted : String := " \"\\\"\\\\\\u00E9\"]"

theorem sampleQuoted_exactly :
    (∃ span, (Lexer.ofSource sampleQuoted).next =
      some (.ok ⟨.quoted "\\\"\\\\\\u00E9", span⟩, ⟨span.stop, some [']']⟩)) ∧
    Read.literal true [⟨.quoted "\\\"\\\\\\u00E9", .nowhere⟩] =
      .ok (⟨.string "\"\\é", .nowhere⟩, []) := by
  obtain ⟨-, tokens, -, decoded⟩ := @quoted_exactly sampleQuoted.toList
    "\\\"\\\\\\u00E9\"]".toList .origin (by decide) (by decide)
  have code : StringCharacters "\\u00E9".toList ['é'] :=
    @StringCharacters.cons _ [] _ [] (hexCharacter_eq_some.mp (by decide)) .nil
  have characters : StringCharacters "\\\"\\\\\\u00E9".toList ['"', '\\', 'é'] :=
    .cons (.escape (by decide)) (.cons (.escape (by decide)) code)
  exact ⟨(tokens _ _).mpr ⟨_, _, ⟨rfl, characters.unclosed⟩, characters, rfl⟩,
    (decoded _ _ characters).2.2 true .nowhere []⟩

end Lexer

end GraphQL.Lexeme
