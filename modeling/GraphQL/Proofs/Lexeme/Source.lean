import Mathlib.Data.List.Infix
import Mathlib.Data.List.TakeWhile
import GraphQL.Proofs.Lexeme.Tokens

/-! # The text of a source

Nothing of a source is lost: put one after the other, the gaps and the texts of the tokens are the
source, and each token says where its text stands. An error stands somewhere in the source, and
reading goes on behind it, so all items of a source are read.
-/

namespace GraphQL

/-! ## Positions -/

namespace Position

/-- `p` is where `text` ends, which stands at the start of a source. -/
structure IsAfter (p : Position) (text : List Char) : Prop where
  index : p.index = text.length
  line : p.line = text.count '\n'
  column : p.column = (text.reverse.takeWhile (· ≠ '\n')).length

/-- `p` is a place in `source`, or its end. -/
def In (p : Position) (source : List Char) : Prop := ∃ text, text <+: source ∧ p.IsAfter text

theorem afterAll_append (p : Position) (text more : List Char) :
    p.afterAll (text ++ more) = (p.afterAll text).afterAll more :=
  List.foldl_append

theorem isAfter_afterAll (text : List Char) : (origin.afterAll text).IsAfter text := by
  -- Induction from the end of the text, where the column is counted.
  induction text using List.reverseRecOn with
  | nil => exact ⟨rfl, rfl, rfl⟩
  | append_singleton text c ih =>
    rw [afterAll_append, afterAll_cons, afterAll_nil]
    unfold after
    split
    case isTrue hc =>
      subst hc
      exact ⟨by simp [nextLine, ih.index], by simp [nextLine, ih.line], by simp [nextLine]⟩
    case isFalse hc =>
      exact ⟨by simp [nextColumn, ih.index], by simp [nextColumn, ih.line, hc],
        by simp [nextColumn, ih.column, hc]⟩

theorem IsAfter.line_add_column_le {p : Position} {text : List Char} (h : p.IsAfter text) :
    p.line + p.column ≤ p.index := by
  have split := List.takeWhile_append_dropWhile (p := (· ≠ '\n')) (l := text.reverse)
  have none : (text.reverse.takeWhile (· ≠ '\n')).count '\n' = 0 := by
    rw [List.count_eq_zero]
    intro mem
    simpa using List.mem_takeWhile_imp mem
  have lines : text.count '\n' ≤ (text.reverse.dropWhile (· ≠ '\n')).length := by
    calc text.count '\n'
        = text.reverse.count '\n' := List.count_reverse.symm
      _ = (text.reverse.dropWhile (· ≠ '\n')).count '\n' := by
        rw [← split, List.count_append, none, Nat.zero_add, split]
      _ ≤ _ := List.count_le_length
  have lengths := congrArg List.length split
  rw [List.length_append, List.length_reverse] at lengths
  rw [h.index, h.line, h.column]
  omega

theorem In.line_add_column_le {p : Position} {source : List Char} (h : p.In source) :
    p.line + p.column ≤ p.index :=
  h.elim fun _ h => h.2.line_add_column_le

end Position

namespace Lexeme

variable {source rest : List Char} {flag : Bool}

/-! ## Gaps -/

/-- What may stand before a token, and at the end of a source. A comment goes up to the end of its
line, which for the last one may be the end of the source. -/
inductive Gap (last : Bool) : List Char → Prop
  | nil : Gap last []
  | ignored {c : Char} {gap : List Char} (hc : c ∈ ['\t', ' ', '\n', '\r', ',', '\ufeff'])
      (h : Gap last gap) : Gap last (c :: gap)
  | comment {text gap : List Char} {c : Char} (ht : ∀ d ∈ text, d ≠ '\n' ∧ d ≠ '\r')
      (hc : c ∈ ['\n', '\r']) (h : Gap last gap) : Gap last ('#' :: text ++ c :: gap)
  | lastComment {text : List Char} (hlast : last) (ht : ∀ d ∈ text, d ≠ '\n' ∧ d ≠ '\r') :
      Gap last ('#' :: text)

theorem Gap.comment_cons {last : Bool} {c : Char} {gap : List Char} (hc : c ≠ '\n' ∧ c ≠ '\r')
    (h : Gap last ('#' :: gap)) : Gap last ('#' :: c :: gap) := by
  generalize heq : '#' :: gap = commented at h
  cases h with
  | nil => cases heq
  | ignored hd =>
    cases heq
    simp at hd
  | comment ht hd h =>
    cases heq
    exact .comment (List.forall_mem_cons.mpr ⟨hc, ht⟩) hd h
  | lastComment hlast ht =>
    cases heq
    exact .lastComment hlast (List.forall_mem_cons.mpr ⟨hc, ht⟩)

/-- What is passed inside a comment is a gap once the comment's start stands before it. -/
theorem exists_gap (inComment : Bool) (source : List Char) :
    ∃ gap, source = gap ++ afterGap inComment source ∧
      Gap (afterGap inComment source).isEmpty (if inComment then '#' :: gap else gap) := by
  fun_induction afterGap inComment source with
  | case1 inComment =>
    refine ⟨[], rfl, ?_⟩
    cases inComment
    · exact .nil
    · exact .lastComment rfl (by simp)
  | case2 c rest ih =>
    obtain ⟨gap, hgap, h⟩ := ih
    refine ⟨c :: gap, by rw [List.cons_append, ← hgap], ?_⟩
    by_cases hc : c = '\n' ∨ c = '\r'
    · have ends : (!(c = '\n' || c = '\r')) = false := by rcases hc with rfl | rfl <;> rfl
      rw [ends] at h ⊢
      exact @Gap.comment _ [] _ _ (by simp) (by rcases hc with rfl | rfl <;> simp) h
    · have hc := not_or.mp hc
      have goesOn : (!(c = '\n' || c = '\r')) = true := by simp [hc.1, hc.2]
      rw [goesOn] at h ⊢
      exact h.comment_cons hc
  | case3 inComment c rest outside hc ih =>
    obtain ⟨gap, hgap, h⟩ := ih
    refine ⟨c :: gap, by rw [List.cons_append, ← hgap], ?_⟩
    rw [if_neg outside]
    exact .ignored (by simpa [isIgnored, or_assoc] using hc) h
  | case4 inComment rest outside _ ih =>
    obtain ⟨gap, hgap, h⟩ := ih
    refine ⟨'#' :: gap, by rw [List.cons_append, ← hgap], ?_⟩
    rwa [if_neg outside]
  | case5 inComment c rest outside =>
    refine ⟨[], rfl, ?_⟩
    rw [if_neg outside]
    exact .nil

/-! ## Texts -/

theorem taken_append (text rest : List Char) : taken (text ++ rest) rest = text := by
  unfold taken
  rw [List.length_append, Nat.add_sub_cancel, List.take_left]

theorem taken_append_rest (h : rest <:+ source) : taken source rest ++ rest = source := by
  obtain ⟨text, rfl⟩ := h
  rw [taken_append]

theorem between_append (width : Nat) {opening raw closing : List Char}
    (ho : opening.length = width) (hc : closing.length = width) :
    between width (opening ++ raw ++ closing ++ rest) rest = String.ofList raw := by
  unfold between
  have length : (opening ++ raw ++ closing).length - 2 * width = raw.length := by
    simp only [List.length_append]
    omega
  rw [taken_append]
  dsimp only
  rw [length, ← ho, List.append_assoc, List.drop_left, List.take_left]

theorem punctuator?_text {c : Char} {p : Punctuator} (h : punctuator? c = some p) :
    p.text.toList = [c] := by
  unfold punctuator? at h
  split at h <;> cases h <;> rfl

theorem scan_spelled {c : Char} {stop : List Char} {t : Token} (h : scan c rest = .ok (t, stop)) :
    c :: rest = t.text.toList ++ stop := by
  unfold scan at h
  split at h
  · -- Punctuation of one character.
    rename_i p hp
    cases h
    rw [Token.text, punctuator?_text hp]
    rfl
  split at h
  · -- An ellipsis.
    obtain ⟨stop, hstop, h⟩ := map_eq_ok h
    cases h
    exact ellipsis_spelled hstop
  split at h
  · rename_i hc
    subst hc
    split at h
    · -- A block string.
      obtain ⟨stop, hstop, h⟩ := map_eq_ok h
      cases h
      obtain ⟨raw, rfl⟩ := block_closes hstop
      have inside : between 3 (['"', '"', '"'] ++ raw ++ ['"', '"', '"'] ++ stop) stop = _ :=
        between_append 3 rfl rfl
      simp only [List.cons_append, List.nil_append, List.append_assoc] at inside ⊢
      rw [inside]
      simp [Token.text]
    · -- A string in quotes.
      obtain ⟨stop, hstop, h⟩ := map_eq_ok h
      cases h
      obtain ⟨raw, rfl⟩ := quoted_closes hstop
      have inside : between 1 (['"'] ++ raw ++ ['"'] ++ stop) stop = _ :=
        between_append 1 rfl rfl
      simp only [List.cons_append, List.nil_append, List.append_assoc] at inside ⊢
      rw [inside]
      simp [Token.text]
  split at h
  · -- A number.
    obtain ⟨⟨stop, isFloat⟩, hstop, h⟩ := map_eq_ok h
    cases h
    have whole := taken_append_rest (number_behind hstop).suffix
    cases isFloat <;> simp [Token.text, whole]
  split at h
  · -- A name.
    cases h
    have whole := taken_append_rest
      ((List.dropWhile_suffix isNameContinue (l := rest)).trans (List.suffix_cons c rest))
    simp [Token.text, whole]
  · cases h

/-! ## Faults -/

/-- The fault is reported in `source`, and reading goes on in `after`. -/
structure Fault.Within (f : Fault) (source after : List Char) : Prop where
  reported : f.rest <:+ source
  goesOn : ∀ left, f.left = some left → left <:+ after

variable {f : Fault} {c : Char} {after : List Char}

theorem Fault.Within.mono {source' after' : List Char} (h : f.Within source after)
    (hs : source <:+ source') (ha : after <:+ after') : f.Within source' after' :=
  ⟨h.reported.trans hs, fun left hleft => (h.goesOn left hleft).trans ha⟩

theorem Fault.within_here (error : LexError) (hs : rest <:+ source) (ha : rest <:+ after) :
    (Fault.here error rest).Within source after :=
  ⟨hs, fun _ hleft => Option.some.inj hleft ▸ ha⟩

theorem Fault.within_source {error : LexError} {left : List Char} (h : left <:+ after) :
    (Fault.mk error source (some left)).Within source after :=
  ⟨List.suffix_rfl, fun _ hleft => Option.some.inj hleft ▸ h⟩

theorem digits_fault (h : digits source = .error f) : f.Within source source := by
  unfold digits at h
  split at h
  · cases h
    exact Fault.within_here _ List.suffix_rfl List.suffix_rfl
  split at h
  case isTrue => cases h
  case isFalse =>
    cases h
    exact Fault.within_here _ List.suffix_rfl List.suffix_rfl

theorem wholePart_fault (h : wholePart source = .error f) : f.Within source source := by
  unfold wholePart at h
  split at h
  case h_1 c rest =>
    split at h
    · cases h
      exact Fault.within_source (((List.dropWhile_suffix _).trans (List.suffix_cons _ _)).trans
        (List.suffix_cons _ _))
    · cases h
  case h_2 => exact digits_fault h

theorem wholePart_fault_of_isDigit (hc : c.isDigit) (h : wholePart (c :: rest) = .error f) :
    f.Within (c :: rest) rest := by
  unfold wholePart at h
  split at h
  case h_1 heq =>
    cases heq
    split at h
    · cases h
      exact Fault.within_source ((List.dropWhile_suffix _).trans (List.suffix_cons _ _))
    · cases h
  case h_2 =>
    simp only [digits, if_pos hc] at h
    cases h

theorem fraction_fault (h : fraction source = .error f) : f.Within source source := by
  unfold fraction at h
  split at h
  · exact (digits_fault (map_eq_error h)).mono (List.suffix_cons _ _) (List.suffix_cons _ _)
  · cases h

theorem exponent_fault (h : exponent source = .error f) : f.Within source source := by
  unfold exponent at h
  split at h
  case h_1 tail =>
    have inside := (afterSign_suffix tail).trans (List.suffix_cons 'e' tail)
    exact (digits_fault (map_eq_error h)).mono inside inside
  case h_2 tail =>
    have inside := (afterSign_suffix tail).trans (List.suffix_cons 'E' tail)
    exact (digits_fault (map_eq_error h)).mono inside inside
  case h_3 => cases h

theorem endOfNumber_fault (h : endOfNumber source = .error f) : f.Within source source := by
  unfold endOfNumber at h
  split at h
  · split at h
    · cases h
      exact Fault.within_here _ List.suffix_rfl List.suffix_rfl
    · cases h
  · cases h

theorem number_fault_cases (h : number source = .error f) :
    ∃ unsigned, (source = '-' :: unsigned ∨ source = unsigned ∧ ∀ more, source ≠ '-' :: more) ∧
      (wholePart unsigned = .error f ∨
        ∃ afterWhole, wholePart unsigned = .ok afterWhole ∧ f.Within afterWhole afterWhole) := by
  unfold number at h
  split at h
  case' h_1 unsigned => refine ⟨unsigned, .inl rfl, ?_⟩
  case' h_2 notMinus => refine ⟨source, .inr ⟨rfl, notMinus⟩, ?_⟩
  all_goals
    obtain h | ⟨afterWhole, hwhole, h⟩ := bind_eq_error h
    · exact .inl h
    refine .inr ⟨afterWhole, hwhole, ?_⟩
    obtain h | ⟨⟨afterFraction, _⟩, hfraction, h⟩ := bind_eq_error h
    · exact fraction_fault h
    have inFraction := fraction_suffix hfraction
    obtain h | ⟨⟨afterExponent, _⟩, hexponent, h⟩ := bind_eq_error h
    · exact (exponent_fault h).mono inFraction inFraction
    have inExponent := (exponent_suffix hexponent).trans inFraction
    obtain h | ⟨_, -, h⟩ := bind_eq_error h
    · exact (endOfNumber_fault h).mono inExponent inExponent
    · cases h

theorem number_fault (hc : c = '-' ∨ c.isDigit) (h : number (c :: rest) = .error f) :
    f.Within (c :: rest) rest := by
  obtain ⟨unsigned, heq | ⟨rfl, notMinus⟩, h⟩ := number_fault_cases h
  · cases heq
    have inside : f.Within rest rest := by
      obtain h | ⟨afterWhole, hwhole, h⟩ := h
      · exact wholePart_fault h
      · have inside := (wholePart_behind hwhole).suffix
        exact h.mono inside inside
    exact inside.mono (List.suffix_cons _ _) List.suffix_rfl
  · have hdigit : c.isDigit := hc.resolve_left fun hc => notMinus rest (hc ▸ rfl)
    obtain h | ⟨afterWhole, hwhole, h⟩ := h
    · exact wholePart_fault_of_isDigit hdigit h
    · have inside := wholePart_behind hwhole
      exact h.mono inside.suffix inside.suffix_tail

theorem afterCode_suffix (source : List Char) : afterCode source <:+ source :=
  List.drop_suffix _ _

theorem quoted_fault (h : quoted source = .error f) : f.Within source source := by
  fun_induction quoted source with
  | case2 => cases h
  | case4 a b c d more _ _ ih =>
    have inside : more <:+ '\\' :: 'u' :: a :: b :: c :: d :: more :=
      List.suffix_append ['\\', 'u', a, b, c, d] more
    exact (ih h).mono inside inside
  | case5 a b c d more =>
    cases h
    exact Fault.within_source ((afterCode_suffix _).trans (List.suffix_append ['\\', 'u'] _))
  | case7 digits =>
    cases h
    exact Fault.within_source ((afterCode_suffix _).trans (List.suffix_append ['\\', 'u'] _))
  | case8 c more _ _ _ _ ih =>
    have inside := List.suffix_append ['\\', c] more
    exact (ih h).mono inside inside
  | case9 c more =>
    cases h
    exact Fault.within_source (List.suffix_append ['\\', c] more)
  | case11 c rest _ _ _ _ ih =>
    exact (ih h).mono (List.suffix_cons _ _) (List.suffix_cons _ _)
  | case10 | case12 =>
    cases h
    exact Fault.within_source (List.suffix_cons _ _)
  | _ =>
    cases h
    exact Fault.within_here _ List.nil_suffix List.nil_suffix

theorem block_fault (h : block source = .error f) : f.Within source source := by
  fun_induction block source with
  | case1 rest ih =>
    have inside := List.suffix_append ['\\', '"', '"', '"'] rest
    exact (ih h).mono inside inside
  | case2 => cases h
  | case3 =>
    cases h
    exact Fault.within_here _ List.nil_suffix List.nil_suffix
  | case4 c rest _ _ _ ih => exact (ih h).mono (List.suffix_cons _ _) (List.suffix_cons _ _)
  | case5 =>
    cases h
    exact Fault.within_source (List.suffix_cons _ _)

theorem ellipsis_fault (h : ellipsis ('.' :: rest) = .error f) : f.Within ('.' :: rest) rest := by
  unfold ellipsis at h
  split at h
  case h_1 => cases h
  case h_4 =>
    cases h
    rw [List.dropWhile_cons_of_pos (by simp)]
    exact Fault.within_source ((List.tail_suffix _).trans (List.dropWhile_suffix _))
  all_goals
    cases h
    exact Fault.within_here _ List.nil_suffix List.nil_suffix

theorem scan_fault (h : scan c rest = .error f) : f.Within (c :: rest) rest := by
  unfold scan at h
  split at h
  · cases h
  split at h
  · rename_i hc
    subst hc
    exact ellipsis_fault (map_eq_error h)
  split at h
  · split at h
    case h_1 body =>
      have inside := List.suffix_append ['"', '"'] body
      exact (block_fault (map_eq_error h)).mono (inside.trans (List.suffix_cons _ _)) inside
    case h_2 => exact (quoted_fault (map_eq_error h)).mono (List.suffix_cons _ _) List.suffix_rfl
  split at h
  · rename_i hc
    exact number_fault (by simpa using hc) (map_eq_error h)
  split at h
  · cases h
  · cases h
    exact ⟨List.suffix_rfl, fun _ hleft => nomatch hleft⟩

/-! ## Items -/

def Item.span : Item → Span
  | .ok token => token.span
  | .error e => e.span

namespace Lexer

/-- What is read next at `p`, where `source` begins, and how the lexer goes on. -/
inductive Step (p : Position) (source : List Char) : Item → Lexer → Prop
  | endOfFile (hgap : Gap true source) :
      Step p source (.ok (.atPoint (p.afterAll source) .endOfFile)) ⟨p.afterAll source, none⟩
  | token {gap rest : List Char} {t : Token} (hgap : Gap false gap) (ht : t ≠ .endOfFile)
      (hsource : source = gap ++ t.text.toList ++ rest) (shorter : rest.length < source.length) :
      Step p source (.ok ⟨t, p.afterAll gap, p.afterAll (gap ++ t.text.toList)⟩)
        ⟨p.afterAll (gap ++ t.text.toList), some rest⟩
  | error {reached passed rest : List Char} {e : LexError} (hreached : reached <+: source)
      (hsource : source = passed ++ rest) (shorter : rest.length < source.length) :
      Step p source (.error (.atPoint (p.afterAll reached) e)) ⟨p.afterAll passed, some rest⟩
  | lastError {reached : List Char} {e : LexError} {q : Position} (hreached : reached <+: source) :
      Step p source (.error (.atPoint (p.afterAll reached) e)) ⟨q, none⟩

theorem next_step (p : Position) (source : List Char) :
    ∃ item l, (Lexer.mk p (some source)).next = some (item, l) ∧ Step p source item l := by
  refine ⟨_, _, rfl, ?_⟩
  obtain ⟨gap, hgap, isGap⟩ := exists_gap false source
  generalize afterGap false source = start at hgap isGap
  subst hgap
  simp only [taken_append]
  cases start with
  | nil =>
    rw [List.append_nil]
    exact .endOfFile isGap
  | cons c rest =>
    dsimp only
    cases hscan : scan c rest with
    | ok scanned =>
      obtain ⟨t, stop⟩ := scanned
      obtain ⟨ht, hsuffix⟩ := scan_takes hscan
      have hlength := hsuffix.length_le
      have spelled := scan_spelled hscan
      rw [spelled]
      simp only [taken_append, ← Position.afterAll_append]
      refine .token isGap ht (List.append_assoc _ _ _).symm ?_
      have := congrArg List.length spelled
      simp only [List.length_cons, List.length_append] at this ⊢
      omega
    | error fault =>
      obtain ⟨error, at_, left⟩ := fault
      obtain ⟨⟨reached, hreached⟩, goesOn⟩ := scan_fault hscan
      dsimp only at hreached goesOn ⊢
      rw [← hreached, taken_append, ← Position.afterAll_append]
      have isPrefix : gap ++ reached <+: gap ++ (reached ++ at_) :=
        ⟨at_, List.append_assoc _ _ _⟩
      cases left with
      | none => exact .lastError isPrefix
      | some left =>
        obtain ⟨passed, rfl⟩ := goesOn left rfl
        have split : reached ++ at_ = (c :: passed) ++ left := hreached
        rw [Option.getD_some, split, taken_append, ← Position.afterAll_append]
        refine .error (split ▸ isPrefix) (List.append_assoc _ _ _).symm ?_
        simp only [List.length_append, List.length_cons]
        omega

/-- `l` gives `items`, and nothing after them. -/
inductive Gives : Lexer → List Item → Prop
  | ended {l : Lexer} (h : l.next = none) : Gives l []
  | item {l later : Lexer} {i : Item} {items : List Item} (h : l.next = some (i, later))
      (hlater : Gives later items) : Gives l (i :: items)

theorem Gives.unique {l : Lexer} {items others : List Item} (h : Gives l items)
    (h' : Gives l others) : others = items := by
  induction h generalizing others with
  | ended h =>
    cases h' with
    | ended => rfl
    | item h' => rw [h] at h'; cases h'
  | item h _ ih =>
    cases h' with
    | ended h' => rw [h] at h'; cases h'
    | item h' hlater =>
      rw [h] at h'
      cases h'
      rw [ih hlater]

theorem gives_nothing (p : Position) : Gives ⟨p, none⟩ [] := .ended rfl

theorem exists_gives (p : Position) (source : List Char) :
    ∃ items, Gives ⟨p, some source⟩ items ∧ items.length ≤ source.length + 1 := by
  -- Induction on the length of the source, which gets shorter with each item.
  induction hlength : source.length using Nat.strong_induction_on generalizing p source with
  | _ n ih =>
    subst hlength
    obtain ⟨item, l, hnext, hstep⟩ := next_step p source
    have last {q : Position} (h : l = ⟨q, none⟩) :
        ∃ items, Gives ⟨p, some source⟩ items ∧ items.length ≤ source.length + 1 :=
      ⟨[item], .item hnext (h ▸ gives_nothing q), by simp⟩
    have goesOn {q : Position} {rest : List Char} (h : l = ⟨q, some rest⟩)
        (shorter : rest.length < source.length) :
        ∃ items, Gives ⟨p, some source⟩ items ∧ items.length ≤ source.length + 1 := by
      obtain ⟨items, hitems, le⟩ := ih _ shorter q rest rfl
      exact ⟨item :: items, .item hnext (h ▸ hitems), by rw [List.length_cons]; omega⟩
    cases hstep with
    | endOfFile => exact last rfl
    | token _ _ _ shorter => exact goesOn rfl shorter
    | error _ _ shorter => exact goesOn rfl shorter
    | lastError => exact last rfl

theorem Gives.placed {l : Lexer} {items : List Item} (h : Gives l items) :
    ∀ {before source : List Char}, l = ⟨Position.origin.afterAll before, some source⟩ →
      ∀ item ∈ items,
        item.span.start.In (before ++ source) ∧ item.span.stop.In (before ++ source) := by
  induction h with
  | ended => simp
  | item hnext hlater ih =>
    rintro before source rfl
    obtain ⟨item, l, hnext', hstep⟩ := next_step (Position.origin.afterAll before) source
    rw [hnext] at hnext'
    cases hnext'
    have placed {text : List Char} (h : text <+: source) :
        ((Position.origin.afterAll before).afterAll text).In (before ++ source) :=
      ⟨before ++ text, (List.prefix_append_right_inj before).mpr h,
        Position.afterAll_append .origin before text ▸ Position.isAfter_afterAll _⟩
    cases hstep with
    | endOfFile =>
      cases (gives_nothing _).unique hlater
      exact List.forall_mem_singleton.mpr ⟨placed List.prefix_rfl, placed List.prefix_rfl⟩
    | @token gap rest t _ _ hsource =>
      have hstop : gap ++ t.text.toList <+: source := ⟨rest, hsource.symm⟩
      have hrest := ih (congrArg (Lexer.mk · _) (Position.afterAll_append _ before _).symm)
      rw [List.append_assoc before, ← hsource] at hrest
      have hstart := (List.prefix_append gap t.text.toList).trans hstop
      exact List.forall_mem_cons.mpr ⟨⟨placed hstart, placed hstop⟩, hrest⟩
    | error hreached hsource =>
      have hrest := ih (congrArg (Lexer.mk · _) (Position.afterAll_append _ before _).symm)
      rw [List.append_assoc before, ← hsource] at hrest
      exact List.forall_mem_cons.mpr ⟨⟨placed hreached, placed hreached⟩, hrest⟩
    | lastError hreached =>
      cases (gives_nothing _).unique hlater
      exact List.forall_mem_singleton.mpr ⟨placed hreached, placed hreached⟩

/-- A gap and the token behind it. -/
structure Piece where
  gap : List Char
  token : Located Token

def Piece.text (piece : Piece) : List Char := piece.gap ++ piece.token.item.text.toList

/-- The text of gaps and tokens one after the other. -/
def spelling (pieces : List Piece) : List Char := pieces.flatMap Piece.text

/-- `source`, which stands behind `before`, is the text of `pieces` and a last gap. -/
structure Spells (before source : List Char) (pieces : List Piece) (last : List Char) : Prop where
  text : source = spelling pieces ++ last
  gaps : ∀ piece ∈ pieces, Gap false piece.gap
  last : Gap true last
  tokens : ∀ piece ∈ pieces, piece.token.item ≠ .endOfFile
  spans : ∀ earlier piece later, pieces = earlier ++ piece :: later →
    piece.token.start.IsAfter (before ++ spelling earlier ++ piece.gap) ∧
    piece.token.stop.IsAfter (before ++ spelling (earlier ++ [piece]))

theorem Spells.nil {before gap : List Char} (h : Gap true gap) : Spells before gap [] gap where
  text := rfl
  gaps := by simp
  last := h
  tokens := by simp
  spans := by simp

theorem Spells.cons {before source last : List Char} {pieces : List Piece} {piece : Piece}
    (h : Spells (before ++ piece.text) source pieces last) (hgap : Gap false piece.gap)
    (htoken : piece.token.item ≠ .endOfFile)
    (hstart : piece.token.start.IsAfter (before ++ piece.gap))
    (hstop : piece.token.stop.IsAfter (before ++ piece.text)) :
    Spells before (piece.text ++ source) (piece :: pieces) last where
  text := by
    rw [h.text, ← List.append_assoc]
    rfl
  gaps := List.forall_mem_cons.mpr ⟨hgap, h.gaps⟩
  last := h.last
  tokens := List.forall_mem_cons.mpr ⟨htoken, h.tokens⟩
  spans := by
    rintro earlier other later heq
    cases earlier with
    | nil =>
      cases heq
      simpa [spelling] using ⟨hstart, hstop⟩
    | cons first earlier =>
      cases heq
      simpa [spelling] using h.spans earlier other later rfl

theorem Gives.spells {l : Lexer} {items : List Item} (h : Gives l items)
    (hok : ∀ item ∈ items, ∃ token, item = .ok token) :
    ∀ {before source : List Char}, l = ⟨Position.origin.afterAll before, some source⟩ →
      ∃ pieces last, Spells before source pieces last ∧ items = pieces.map (.ok ·.token) ++
        [.ok (.atPoint (Position.origin.afterAll (before ++ source)) .endOfFile)] := by
  -- Induction on the items: each token is the text behind the gap.
  induction h with
  | ended h =>
    rintro before source rfl
    cases h
  | item hnext hlater ih =>
    rintro before source rfl
    obtain ⟨item, l, hnext', hstep⟩ := next_step (Position.origin.afterAll before) source
    rw [hnext] at hnext'
    cases hnext'
    obtain ⟨isOk, areOk⟩ := List.forall_mem_cons.mp hok
    cases hstep with
    | endOfFile hgap =>
      cases (gives_nothing _).unique hlater
      exact ⟨[], source, .nil hgap, by rw [Position.afterAll_append]; rfl⟩
    | @token gap rest t hgap ht hsource =>
      subst hsource
      obtain ⟨pieces, last, hspells, rfl⟩ :=
        ih areOk (congrArg (Lexer.mk · _) (Position.afterAll_append _ before _).symm)
      have start : ((Position.origin.afterAll before).afterAll gap).IsAfter (before ++ gap) :=
        Position.afterAll_append .origin before gap ▸ Position.isAfter_afterAll _
      have stop : ((Position.origin.afterAll before).afterAll (gap ++ t.text.toList)).IsAfter
          (before ++ (gap ++ t.text.toList)) :=
        Position.afterAll_append .origin before _ ▸ Position.isAfter_afterAll _
      refine ⟨⟨gap, t, _, _⟩ :: pieces, last,
        @Spells.cons _ _ _ _ ⟨gap, t, _, _⟩ hspells hgap ht start stop, ?_⟩
      rw [List.append_assoc before]
      rfl
    | error => exact nomatch isOk
    | lastError => exact nomatch isOk

/-- The items of any source come to an end. All their positions are in the source. Where there is no
error the items are tokens and then the end of the file, and the texts of the tokens, with gaps
before, between and behind them, are the source, each where the token's span says. -/
theorem source_lossless (source : String) :
    ∃ items, Gives (.ofSource source) items ∧ items.length ≤ source.length + 1 ∧
      (∀ others, Gives (.ofSource source) others → others = items) ∧
      (∀ item ∈ items, ∀ p ∈ [item.span.start, item.span.stop],
        p.In source.toList ∧ p.line + p.column ≤ p.index) ∧
      ((∀ item ∈ items, ∃ token, item = .ok token) → ∃ pieces last stop,
        items = pieces.map (.ok ·.token) ++ [.ok (.atPoint stop .endOfFile)] ∧
        stop.IsAfter source.toList ∧ Spells [] source.toList pieces last) := by
  obtain ⟨items, hitems, hlength⟩ := exists_gives .origin source.toList
  refine ⟨items, hitems, by rwa [String.length_toList] at hlength, fun _ => hitems.unique, ?_, ?_⟩
  · intro item hitem
    obtain ⟨hstart, hstop⟩ := @Gives.placed _ _ hitems [] _ rfl item hitem
    exact List.forall_mem_cons.mpr ⟨⟨hstart, hstart.line_add_column_le⟩,
      List.forall_mem_singleton.mpr ⟨hstop, hstop.line_add_column_le⟩⟩
  · intro hok
    obtain ⟨pieces, last, hspells, heq⟩ := @Gives.spells _ _ hitems hok [] _ rfl
    exact ⟨pieces, last, _, heq, Position.isAfter_afterAll _, hspells⟩

/-- Two names around a comment and a block string of two lines. -/
def sampleLines : String := "a # é\n\"\"\"b\nc\"\"\", d"

def sampleItems : List Item := [
  .ok ⟨.name "a", ⟨0, 0, 0⟩, ⟨1, 0, 1⟩⟩,
  .ok ⟨.block "b\nc", ⟨6, 1, 0⟩, ⟨15, 2, 4⟩⟩,
  .ok ⟨.name "d", ⟨17, 2, 6⟩, ⟨18, 2, 7⟩⟩,
  .ok ⟨.endOfFile, ⟨18, 2, 7⟩, ⟨18, 2, 7⟩⟩]

theorem sampleItems_given : Gives (.ofSource sampleLines) sampleItems := by
  exact .item rfl (.item rfl (.item rfl (.item rfl (.ended rfl))))

theorem sampleLines_lossless : ∃ pieces last stop,
    sampleItems = pieces.map (.ok ·.token) ++ [.ok (.atPoint stop .endOfFile)] ∧
    stop.IsAfter sampleLines.toList ∧ Spells [] sampleLines.toList pieces last := by
  obtain ⟨items, -, -, unique, -, spells⟩ := source_lossless sampleLines
  obtain rfl := unique _ sampleItems_given
  exact spells (by simp [sampleItems])

end Lexer

end Lexeme

end GraphQL
