import Mathlib.Order.Bounds.Basic
import GraphQL.Proofs.Lexeme.QuotedStrings

/-! # The values of block strings

A block string ends at the first triple quote that is not part of an escaped one, and the decoder
finds the same escapes as the scanner. What it makes of the lines is the value that the language
gives a block string.
-/

namespace GraphQL.Lexeme

/-! ## The closing quotes -/

def tripleQuote : List Char := ['"', '"', '"']

def escapedQuote : List Char := '\\' :: tripleQuote

/-- The triple quote at `i` has no quote in common with an escaped one. -/
structure ClosesAt (text : List Char) (i : Nat) : Prop where
  quotes : tripleQuote <+: text.drop i
  outside : ∀ j < i, escapedQuote <+: text.drop j → j + 4 ≤ i

/-- A block string of this text has its closing quotes at `i`. Before them stand characters that
belong in a source. -/
structure BlockEnds (text : List Char) (i : Nat) : Prop where
  first : IsLeast {i | ClosesAt text i} i
  characters : ∀ c ∈ text.take i, isSourceCharacter c

/-- What stands in a block string: characters, and triple quotes that are escaped. -/
inductive BlockCharacter
  | plain (c : Char)
  | quotes

/-- The text of a character, with `mark` for an escaped triple quote. -/
def BlockCharacter.text (mark : List Char) : BlockCharacter → List Char
  | .plain c => [c]
  | .quotes => mark

/-- The text of characters, with `mark` for each escaped triple quote. -/
def written (mark : List Char) (cs : List BlockCharacter) : List Char :=
  cs.flatMap (BlockCharacter.text mark)

/-- A scanner of block strings passes these characters of the source and the closing quotes. -/
inductive Passes : List Char → List BlockCharacter → List Char → Prop
  | closing {stop : List Char} : Passes (tripleQuote ++ stop) [] stop
  | quotes {rest stop : List Char} {cs : List BlockCharacter} (h : Passes rest cs stop) :
      Passes (escapedQuote ++ rest) (.quotes :: cs) stop
  | plain {c : Char} {rest stop : List Char} {cs : List BlockCharacter}
      (hescape : ¬ escapedQuote <+: c :: rest) (hquotes : ¬ tripleQuote <+: c :: rest)
      (hc : isSourceCharacter c) (h : Passes rest cs stop) :
      Passes (c :: rest) (.plain c :: cs) stop

variable {text source before raw rest stop : List Char} {cs : List BlockCharacter} {c : Char}
  {i j : Nat}

theorem closesAt_add (hbefore : ∀ j < before.length,
      escapedQuote <+: (before ++ rest).drop j → j + 4 ≤ before.length) :
    ClosesAt (before ++ rest) (before.length + i) ↔ ClosesAt rest i := by
  constructor
  · intro h
    refine ⟨by simpa only [List.drop_length_add_append] using h.quotes, fun j hj hescape => ?_⟩
    have := h.outside (before.length + j) (by omega) (by rwa [List.drop_length_add_append])
    omega
  · intro h
    refine ⟨by simpa only [List.drop_length_add_append] using h.quotes, fun j hj hescape => ?_⟩
    by_cases hlt : j < before.length
    · have := hbefore j hlt hescape
      omega
    · obtain ⟨k, rfl⟩ := Nat.exists_eq_add_of_le (Nat.le_of_not_lt hlt)
      rw [List.drop_length_add_append] at hescape
      have := h.outside k (by omega) hescape
      omega

/-- Behind a text that has no closing quotes the end is where it is in what follows. -/
theorem blockEnds_append (hbefore : ∀ j < before.length,
      escapedQuote <+: (before ++ rest).drop j → j + 4 ≤ before.length)
    (hnone : ∀ j < before.length, ¬ ClosesAt (before ++ rest) j) :
    BlockEnds (before ++ rest) i ↔ (∀ c ∈ before, isSourceCharacter c) ∧
      ∃ k, i = before.length + k ∧ BlockEnds rest k := by
  have behind {j : Nat} (hj : ClosesAt (before ++ rest) j) :
      ∃ k, j = before.length + k ∧ ClosesAt rest k := by
    have hle : before.length ≤ j := Nat.le_of_not_lt fun hlt => hnone j hlt hj
    obtain ⟨k, rfl⟩ := Nat.exists_eq_add_of_le hle
    exact ⟨k, rfl, (closesAt_add hbefore).mp hj⟩
  constructor
  · rintro ⟨⟨hi, least⟩, characters⟩
    obtain ⟨k, rfl, hk⟩ := behind hi
    rw [List.take_length_add_append, List.forall_mem_append] at characters
    refine ⟨characters.1, k, rfl, ⟨hk, fun k' hk' => ?_⟩, characters.2⟩
    have := least ((closesAt_add hbefore).mpr hk')
    omega
  · rintro ⟨hcharacters, k, rfl, ⟨hk, least⟩, characters⟩
    refine ⟨⟨(closesAt_add hbefore).mpr hk, fun j hj => ?_⟩, ?_⟩
    · obtain ⟨k', rfl, hk'⟩ := behind hj
      exact Nat.add_le_add_left (least hk') _
    · rw [List.take_length_add_append]
      exact List.forall_mem_append.mpr ⟨hcharacters, characters⟩

theorem blockEnds_quotes : BlockEnds (tripleQuote ++ rest) i ↔ i = 0 := by
  have here : ClosesAt (tripleQuote ++ rest) 0 :=
    ⟨List.prefix_append tripleQuote rest, fun _ hj => absurd hj (Nat.not_lt_zero _)⟩
  constructor
  · exact fun h => Nat.le_zero.mp (h.first.2 here)
  · rintro rfl
    exact ⟨⟨here, fun _ _ => Nat.zero_le _⟩, by simp⟩

theorem blockEnds_escape : BlockEnds (escapedQuote ++ rest) i ↔
    ∃ k, i = 4 + k ∧ BlockEnds rest k := by
  have start : escapedQuote <+: (escapedQuote ++ rest).drop 0 := List.prefix_append _ _
  refine (blockEnds_append ?_ ?_).trans (and_iff_right (List.all_eq_true.mp (by decide)))
  -- No escape starts inside another one, and closing quotes would have to overlap this one.
  · intro j hj hescape
    match j with
    | 0 => exact Nat.le_refl 4
    | 1 | 2 | 3 => simp [escapedQuote, tripleQuote] at hescape
    | j + 4 => exact absurd hj (Nat.not_lt.mpr (Nat.le_add_left 4 j))
  · intro j hj hcloses
    match j with
    | 0 => simpa [escapedQuote, tripleQuote] using hcloses.quotes
    | 1 | 2 | 3 => simpa using hcloses.outside 0 (by omega) start
    | j + 4 => exact absurd hj (Nat.not_lt.mpr (Nat.le_add_left 4 j))

theorem blockEnds_plain (hescape : ¬ escapedQuote <+: c :: rest)
    (hquotes : ¬ tripleQuote <+: c :: rest) :
    BlockEnds (c :: rest) i ↔ isSourceCharacter c ∧ ∃ k, i = 1 + k ∧ BlockEnds rest k := by
  refine (@blockEnds_append [c] rest i ?_ ?_).trans (and_congr_left' List.forall_mem_singleton)
  · intro j hj h
    obtain rfl := Nat.lt_one_iff.mp hj
    exact absurd h hescape
  · intro j hj hcloses
    obtain rfl := Nat.lt_one_iff.mp hj
    exact hquotes hcloses.quotes

theorem not_escapedQuote_iff : ¬ escapedQuote <+: c :: rest ↔
    ∀ more, c = '\\' → rest = '"' :: '"' :: '"' :: more → False := by
  constructor
  · rintro h more rfl rfl
    exact h (List.prefix_append escapedQuote more)
  · rintro h ⟨more, heq⟩
    cases heq
    exact h more rfl rfl

theorem not_tripleQuote_iff : ¬ tripleQuote <+: c :: rest ↔
    ∀ more, c = '"' → rest = '"' :: '"' :: more → False := by
  constructor
  · rintro h more rfl rfl
    exact h (List.prefix_append tripleQuote more)
  · rintro h ⟨more, heq⟩
    cases heq
    exact h more rfl rfl

theorem exists_passes_of_block (h : Lexeme.block source = .ok stop) :
    ∃ cs, Passes source cs stop := by
  fun_induction Lexeme.block source with
  | case1 rest ih => exact (ih h).imp' _ fun _ => .quotes
  | case2 rest =>
    cases h
    exact ⟨[], .closing⟩
  | case3 => cases h
  | case4 c rest hescape hquotes hc ih =>
    exact (ih h).imp' _ fun _ =>
      .plain (not_escapedQuote_iff.mpr hescape) (not_tripleQuote_iff.mpr hquotes) hc
  | case5 => cases h

theorem Passes.source_eq (h : Passes source cs stop) :
    source = written escapedQuote cs ++ tripleQuote ++ stop := by
  induction h with
  | closing => rfl
  | quotes _ ih => exact congrArg (escapedQuote ++ ·) ih
  | plain _ _ _ _ ih => exact congrArg (List.cons _) ih

theorem Passes.ends (h : Passes source cs stop) :
    BlockEnds source (written escapedQuote cs).length := by
  induction h with
  | closing => exact blockEnds_quotes.mpr rfl
  | quotes _ ih =>
    rw [written, List.flatMap_cons, List.length_append]
    exact blockEnds_escape.mpr ⟨_, rfl, ih⟩
  | plain hescape hquotes hc _ ih =>
    rw [written, List.flatMap_cons, List.length_append]
    exact (blockEnds_plain hescape hquotes).mpr ⟨hc, _, rfl, ih⟩

theorem BlockEnds.block (h : BlockEnds source i) : block source = .ok (source.drop (i + 3)) := by
  fun_induction Lexeme.block source generalizing i with
  | case1 rest ih =>
    obtain ⟨k, rfl, hk⟩ := blockEnds_escape.mp h
    rw [ih hk, Nat.add_assoc, Nat.add_comm k]
    exact congrArg _ (@List.drop_length_add_append _ escapedQuote rest (3 + k)).symm
  | case2 rest =>
    obtain rfl := blockEnds_quotes.mp h
    rfl
  | case3 => exact absurd h.first.1.quotes (by simp [tripleQuote])
  | case4 c rest hescape hquotes hc ih =>
    obtain ⟨-, k, rfl, hk⟩ :=
      (blockEnds_plain (not_escapedQuote_iff.mpr hescape) (not_tripleQuote_iff.mpr hquotes)).mp h
    rw [ih hk, Nat.add_assoc, Nat.add_comm 1, List.drop_succ_cons]
  | case5 c rest hescape hquotes hc =>
    exact absurd ((blockEnds_plain (not_escapedQuote_iff.mpr hescape)
      (not_tripleQuote_iff.mpr hquotes)).mp h).1 hc

theorem block_eq_ok : block source = .ok stop ↔
    ∃ i, BlockEnds source i ∧ stop = source.drop (i + 3) := by
  constructor
  · intro h
    obtain ⟨cs, hcs⟩ := exists_passes_of_block h
    refine ⟨_, hcs.ends, ?_⟩
    have := hcs.ends.block
    rw [h] at this
    exact Except.ok.inj this
  · rintro ⟨i, hi, rfl⟩
    exact hi.block

/-! ## Escapes -/

/-- Decodes as `unescapeQuotes` does, but puts `mark` where a triple quote is escaped. -/
def replaceEscapes (mark : List Char) : List Char → List Char
  | '\\' :: '"' :: '"' :: '"' :: rest => mark ++ replaceEscapes mark rest
  | c :: rest => c :: replaceEscapes mark rest
  | [] => []

theorem replaceEscapes_tripleQuote (raw : List Char) :
    replaceEscapes tripleQuote raw = unescapeQuotes raw := by
  fun_induction unescapeQuotes raw with
  | case1 rest ih => exact congrArg (tripleQuote ++ ·) ih
  | case2 c rest h ih =>
    rw [replaceEscapes, ih]
    exact h
  | case3 => rfl

/-- The decoder finds the escapes that the scanner has passed, and no others. -/
theorem Passes.replaceEscapes (h : Passes source cs stop) (mark : List Char) :
    replaceEscapes mark (written escapedQuote cs) = written mark cs := by
  induction h with
  | closing => rfl
  | quotes _ ih => exact congrArg (mark ++ ·) ih
  | @plain c rest stop cs hescape _ _ h ih =>
    have inside : ¬ escapedQuote <+: c :: written escapedQuote cs := by
      intro start
      refine hescape (start.trans ?_)
      rw [h.source_eq, List.append_assoc]
      exact List.prefix_append (c :: _) _
    have step : Lexeme.replaceEscapes mark (c :: written escapedQuote cs) =
        c :: Lexeme.replaceEscapes mark (written escapedQuote cs) := by
      rw [Lexeme.replaceEscapes]
      exact not_escapedQuote_iff.mp inside
    exact step.trans (congrArg _ ih)

/-- The text without the backslash of each escaped triple quote. -/
def unescaped (raw : List Char) : List Char :=
  raw.tails.filterMap fun tail => if escapedQuote <+: tail then none else tail.head?

theorem unescapeQuotes_eq (raw : List Char) : unescapeQuotes raw = unescaped raw := by
  fun_induction unescapeQuotes raw with
  | case1 rest ih =>
    rw [ih]
    simp [unescaped, escapedQuote, tripleQuote]
  | case2 c rest h ih =>
    rw [ih]
    simp [unescaped, not_escapedQuote_iff.mpr h]
  | case3 => rfl

/-! ## Lines -/

/-- A line break with what follows it. A carriage return and a line feed are one. -/
inductive LineBreak : List Char → List Char → Prop
  | lineFeed {rest : List Char} : LineBreak ['\n'] rest
  | both {rest : List Char} : LineBreak ['\r', '\n'] rest
  | carriageReturn {rest : List Char} (h : rest.head? ≠ some '\n') : LineBreak ['\r'] rest

/-- No line ends in this text. -/
def Unbroken (line : List Char) : Prop := ∀ c ∈ line, c ≠ '\n' ∧ c ≠ '\r'

/-- The lines of a text. -/
inductive Lines : List Char → List (List Char) → Prop
  | last {line : List Char} (h : Unbroken line) : Lines line [line]
  | cons {line mark rest : List Char} {lines : List (List Char)} (h : Unbroken line)
      (hmark : LineBreak mark rest) (hrest : Lines rest lines) :
      Lines (line ++ (mark ++ rest)) (line :: lines)

/-- The line has only spaces and tabs. -/
def Blank (line : List Char) : Prop := ∀ c ∈ line, c = ' ' ∨ c = '\t'

/-- The line starts with just this many spaces and tabs. -/
structure Indented (line : List Char) (n : Nat) : Prop where
  inside : n ≤ line.length
  blank : Blank (line.take n)
  stops : ∀ c ∈ (line.drop n).head?, ¬ (c = ' ' ∨ c = '\t')

/-- The least indentation of the lines that are not blank, if there are such lines. -/
def CommonIndent (lines : List (List Char)) (n : Nat) : Prop :=
  IsLeast {k | ∃ line ∈ lines, ¬ Blank line ∧ Indented line k} n ∨
    (∀ line ∈ lines, Blank line) ∧ n = 0

/-- Blank lines are left out at either end. -/
inductive Trimmed : List (List Char) → List (List Char) → Prop
  | intro {leading kept trailing : List (List Char)} (hleading : ∀ line ∈ leading, Blank line)
      (htrailing : ∀ line ∈ trailing, Blank line) (hfirst : ∀ line ∈ kept.head?, ¬ Blank line)
      (hlast : ∀ line ∈ kept.getLast?, ¬ Blank line) : Trimmed (leading ++ kept ++ trailing) kept

/-- The value of a block string with this inside. -/
inductive BlockStringValue (raw : List Char) : List Char → Prop
  | intro {first : List Char} {others kept : List (List Char)} {n : Nat}
      (hlines : Lines (unescaped raw) (first :: others)) (hindent : CommonIndent others n)
      (hkept : Trimmed (first :: others.map (List.drop n)) kept) :
      BlockStringValue raw (List.intercalate ['\n'] kept)

variable {line mark : List Char} {lines kept : List (List Char)} {n : Nat}

theorem splitLines_append (hline : Unbroken line) {first : List Char}
    (h : splitLines source = first :: lines) :
    splitLines (line ++ source) = (line ++ first) :: lines := by
  induction line with
  | nil => exact h
  | cons c line ih =>
    obtain ⟨hc, hline⟩ := List.forall_mem_cons.mp hline
    rw [List.cons_append, splitLines]
    · rw [if_neg (by simp [hc]), ih hline]
      rfl
    · exact fun _ h _ => hc.2 h

theorem LineBreak.splitLines (h : LineBreak mark rest) :
    splitLines (mark ++ rest) = [] :: splitLines rest := by
  cases h with
  | lineFeed =>
    rw [List.singleton_append, Lexeme.splitLines]
    · rfl
    · exact nofun
  | both => rfl
  | carriageReturn h =>
    rw [List.singleton_append, Lexeme.splitLines]
    · rfl
    · rintro more - rfl
      exact h rfl

theorem Lines.splitLines (h : Lines text lines) : splitLines text = lines := by
  induction h with
  | @last line h =>
    have := splitLines_append h (rfl : Lexeme.splitLines [] = [] :: [])
    rwa [List.append_nil] at this
  | cons h hmark _ ih =>
    have := splitLines_append h hmark.splitLines
    rwa [List.append_nil, ih] at this

theorem Lines.cons_unbroken (hc : c ≠ '\n' ∧ c ≠ '\r') (h : Lines rest (line :: lines)) :
    Lines (c :: rest) ((c :: line) :: lines) := by
  cases h with
  | last h => exact .last (List.forall_mem_cons.mpr ⟨hc, h⟩)
  | cons h hmark hrest => exact .cons (List.forall_mem_cons.mpr ⟨hc, h⟩) hmark hrest

theorem lines_splitLines (text : List Char) : Lines text (splitLines text) := by
  have none : Unbroken [] := nofun
  fun_induction splitLines text with
  | case1 rest ih => exact .cons none .both ih
  | case2 c rest hboth hc ih =>
    simp only [Bool.or_eq_true, decide_eq_true_eq] at hc
    rcases hc with rfl | rfl
    · exact .cons none .lineFeed ih
    · refine .cons none (.carriageReturn fun h => ?_) ih
      obtain ⟨more, rfl⟩ := List.head?_eq_some_iff.mp h
      exact hboth more rfl rfl
  | case3 c rest _ hc line lines heq ih =>
    rw [heq] at ih
    exact ih.cons_unbroken (by simpa using hc)
  | case4 c rest _ hc heq ih =>
    rw [heq] at ih
    cases ih
  | case5 => exact .last none

theorem lines_iff : Lines text lines ↔ splitLines text = lines :=
  ⟨Lines.splitLines, fun h => h ▸ lines_splitLines text⟩

theorem splitLines_ne_nil (text : List Char) : splitLines text ≠ [] := by
  intro h
  have := lines_splitLines text
  rw [h] at this
  cases this

/-! ## Indentation -/

theorem isBlankLine_iff : isBlankLine line ↔ Blank line := by
  simp [isBlankLine, Blank, isIndent]

theorem not_blank_iff : ¬ Blank line ↔ isBlankLine line = false := by
  rw [← isBlankLine_iff, Bool.not_eq_true]

theorem isIndent_iff : isIndent c ↔ c = ' ' ∨ c = '\t' := by simp [isIndent]

theorem take_indentOf (line : List Char) : line.take (indentOf line) = line.takeWhile isIndent :=
  (List.prefix_iff_eq_take.mp (List.takeWhile_prefix _)).symm

theorem drop_indentOf (line : List Char) : line.drop (indentOf line) = line.dropWhile isIndent := by
  have := @List.drop_left _ (line.takeWhile isIndent) (line.dropWhile isIndent)
  rwa [List.takeWhile_append_dropWhile] at this

theorem indentOf_append (hline : Blank line) (hrest : Stops isIndent rest) :
    indentOf (line ++ rest) = line.length := by
  rw [indentOf, List.takeWhile_append_of_pos (fun c hc => isIndent_iff.mpr (hline c hc)),
    takeWhile_of_stops hrest, List.append_nil]

theorem indented_iff : Indented line n ↔ indentOf line = n := by
  constructor
  · intro h
    have stops : Stops isIndent (line.drop n) := fun c hc =>
      Bool.eq_false_iff.mpr fun hkind => h.stops c hc (isIndent_iff.mp hkind)
    have := indentOf_append h.blank stops
    rwa [List.take_append_drop, List.length_take_of_le h.inside] at this
  · rintro rfl
    refine ⟨(List.takeWhile_prefix _).length_le, ?_, ?_⟩
    · rw [take_indentOf]
      exact fun c hc => isIndent_iff.mp (List.mem_takeWhile_imp hc)
    · rw [drop_indentOf]
      intro c hc hkind
      exact Bool.eq_false_iff.mp (stops_dropWhile _ _ c hc) (isIndent_iff.mpr hkind)

theorem commonIndent_iff : CommonIndent lines n ↔ commonIndent lines = n := by
  unfold CommonIndent commonIndent
  generalize hindents : (lines.filter (!isBlankLine ·)).map indentOf = indents
  have mem (k : Nat) : k ∈ indents ↔ ∃ line ∈ lines, ¬ Blank line ∧ Indented line k := by
    simp [← hindents, not_blank_iff, indented_iff, and_assoc]
  have allBlank : (∀ line ∈ lines, Blank line) ↔ indents = [] := by
    simp [← hindents, isBlankLine_iff]
  have least : IsLeast {k | ∃ line ∈ lines, ¬ Blank line ∧ Indented line k} n ↔
      indents.min? = some n := by
    rw [List.min?_eq_some_iff]
    exact and_congr (mem n).symm
      ⟨fun h k hk => h ((mem k).mp hk), fun h k hk => h k ((mem k).mpr hk)⟩
  rw [least, allBlank, ← List.min?_eq_none_iff]
  cases indents.min? <;> simp [eq_comm]

theorem stripIndent_eq (h : CommonIndent lines n) (hline : line ∈ lines) :
    stripIndent n line = line.drop n := by
  have inside : indentOf line ≤ line.length := (List.takeWhile_prefix _).length_le
  by_cases hblank : Blank line
  · have whole : indentOf line = line.length := by
      have := indentOf_append hblank (nofun : Stops isIndent [])
      rwa [List.append_nil] at this
    rw [stripIndent, whole]
    rcases Nat.le_total n line.length with hn | hn
    · rw [Nat.min_eq_left hn]
    · rw [Nat.min_eq_right hn, List.drop_length, List.drop_eq_nil_of_le hn]
  · have least : n ≤ indentOf line := by
      rcases h with ⟨-, least⟩ | ⟨allBlank, -⟩
      · exact least ⟨line, hline, hblank, indented_iff.mpr rfl⟩
      · exact absurd (allBlank line hline) hblank
    rw [stripIndent, Nat.min_eq_left least]

theorem map_stripIndent (h : CommonIndent lines n) :
    lines.map (stripIndent n) = lines.map (List.drop n) :=
  List.map_congr_left fun _ hline => stripIndent_eq h hline

/-! ## The value -/

theorem Trimmed.trimBlankLines (h : Trimmed lines kept) : trimBlankLines lines = kept := by
  obtain ⟨hleading, htrailing, hfirst, hlast⟩ := h
  next leading trailing =>
  have leadingBlank : ∀ line ∈ leading, isBlankLine line := fun line hline =>
    isBlankLine_iff.mpr (hleading line hline)
  have trailingBlank : ∀ line ∈ trailing.reverse, isBlankLine line := fun line hline =>
    isBlankLine_iff.mpr (htrailing line (List.mem_reverse.mp hline))
  have last : Stops isBlankLine kept.reverse := fun line hline =>
    not_blank_iff.mp (hlast line (List.head?_reverse ▸ hline))
  rw [Lexeme.trimBlankLines, List.append_assoc, List.dropWhile_append_of_pos leadingBlank]
  cases kept with
  | nil =>
    -- Nothing is kept, so the lines at the end are dropped from the front as well.
    have none : trailing.dropWhile isBlankLine = [] :=
      List.dropWhile_eq_nil_iff.mpr fun line hline =>
        trailingBlank line (List.mem_reverse.mpr hline)
    rw [List.nil_append, none]
    rfl
  | cons first others =>
    have stops : Stops isBlankLine (first :: others ++ trailing) :=
      stops_cons.mpr (not_blank_iff.mp (hfirst first rfl))
    rw [dropWhile_of_stops stops, List.reverse_append, List.dropWhile_append_of_pos trailingBlank,
      dropWhile_of_stops last, List.reverse_reverse]

theorem trimmed_trimBlankLines (lines : List (List Char)) : Trimmed lines (trimBlankLines lines) := by
  have blank {line : List Char} {lines : List (List Char)} (h : line ∈ lines.takeWhile isBlankLine) :
      Blank line := isBlankLine_iff.mp (List.mem_takeWhile_imp h)
  have stops {line : List Char} {lines : List (List Char)}
      (h : line ∈ (lines.dropWhile isBlankLine).head?) : ¬ Blank line :=
    not_blank_iff.mpr (stops_dropWhile _ _ line h)
  generalize hrest : lines.dropWhile isBlankLine = rest
  have back : rest = (rest.reverse.dropWhile isBlankLine).reverse ++
      (rest.reverse.takeWhile isBlankLine).reverse := by
    rw [← List.reverse_append, List.takeWhile_append_dropWhile, List.reverse_reverse]
  have split : lines = lines.takeWhile isBlankLine ++
      (rest.reverse.dropWhile isBlankLine).reverse ++
      (rest.reverse.takeWhile isBlankLine).reverse := by
    rw [List.append_assoc, ← back, ← hrest, List.takeWhile_append_dropWhile]
  have kept : trimBlankLines lines = (rest.reverse.dropWhile isBlankLine).reverse := by
    rw [trimBlankLines, hrest]
  rw [kept]
  conv => arg 1; rw [split]
  refine .intro (fun _ => blank) (fun _ h => blank (List.mem_reverse.mp h)) ?_ ?_
  · intro line hline
    have : line ∈ rest.head? := by
      rw [back, List.head?_append, Option.mem_def.mp hline]
      rfl
    rw [← hrest] at this
    exact stops this
  · intro line hline
    rw [List.getLast?_reverse] at hline
    exact stops hline

theorem blockStringValue_iff {value : List Char} :
    BlockStringValue raw value ↔ value = dedent raw := by
  unfold dedent
  rw [unescapeQuotes_eq]
  constructor
  · rintro ⟨hlines, hindent, hkept⟩
    rw [hlines.splitLines]
    dsimp only
    rw [commonIndent_iff.mp hindent, map_stripIndent hindent, hkept.trimBlankLines]
  · rintro rfl
    obtain ⟨first, others, heq⟩ := List.exists_cons_of_ne_nil (splitLines_ne_nil (unescaped raw))
    have hindent : CommonIndent others (commonIndent others) := commonIndent_iff.mpr rfl
    rw [heq]
    dsimp only
    rw [map_stripIndent hindent]
    exact .intro (lines_iff.mpr heq) hindent (trimmed_trimBlankLines _)

/-! ## Tokens -/

variable {body : List Char} {t : Token}

theorem BlockEnds.split (h : BlockEnds body i) :
    body = body.take i ++ tripleQuote ++ body.drop (i + 3) := by
  obtain ⟨rest, hrest⟩ := h.first.1.quotes
  have behind : body.drop (i + 3) = rest := by
    rw [← List.drop_drop, ← hrest]
    rfl
  rw [behind, List.append_assoc, hrest, List.take_append_drop]

theorem scan_block_eq_ok : scan '"' ('"' :: '"' :: body) = .ok (t, stop) ↔
    ∃ i, BlockEnds body i ∧ t = .block (String.ofList (body.take i)) ∧
      stop = body.drop (i + 3) := by
  have scanned : scan '"' ('"' :: '"' :: body) =
      (block body).map fun stop => (.block (between 3 (tripleQuote ++ body) stop), stop) := rfl
  have inside {i : Nat} (h : BlockEnds body i) :
      between 3 (tripleQuote ++ body) (body.drop (i + 3)) = String.ofList (body.take i) := by
    have := @between_append (body.drop (i + 3)) 3 tripleQuote (body.take i) tripleQuote rfl rfl
    rwa [List.append_assoc tripleQuote, List.append_assoc tripleQuote, ← h.split] at this
  rw [scanned]
  constructor
  · intro h
    obtain ⟨stop, hread, heq⟩ := map_eq_ok h
    cases heq
    obtain ⟨i, hi, rfl⟩ := block_eq_ok.mp hread
    exact ⟨i, hi, congrArg _ (inside hi), rfl⟩
  · rintro ⟨i, hi, rfl, rfl⟩
    rw [hi.block, ← inside hi]
    rfl

theorem BlockEnds.exists_passes (h : BlockEnds source i) :
    ∃ cs, Passes source cs (source.drop (i + 3)) ∧ source.take i = written escapedQuote cs ∧
      unescapeQuotes (source.take i) = written tripleQuote cs ∧
      ∀ mark, Lexeme.replaceEscapes mark (source.take i) = written mark cs := by
  obtain ⟨cs, hcs⟩ := exists_passes_of_block h.block
  have length : (written escapedQuote cs).length = i := hcs.ends.first.unique h.first
  have whole : source.take i = written escapedQuote cs := by
    conv_lhs => rw [hcs.source_eq, ← length, List.append_assoc]
    exact List.take_left
  refine ⟨cs, hcs, whole, ?_, fun mark => whole ▸ hcs.replaceEscapes mark⟩
  rw [whole, ← replaceEscapes_tripleQuote, hcs.replaceEscapes]

namespace Lexer

/-- Where a block string opens, a token is given exactly if there is a triple quote that is not
escaped, and what stands before the first one are source characters. The decoder replaces the escapes
that the scanner has passed and no others, and the text that is read is the value of the block
string. -/
theorem block_exactly {source body : List Char} (p : Position)
    (hstart : afterGap false source = '"' :: '"' :: '"' :: body) :
    (∀ t stop,
      (∃ span, (Lexer.mk p (some source)).next = some (.ok ⟨t, span⟩, ⟨span.stop, some stop⟩)) ↔
        ∃ i, BlockEnds body i ∧ t = .block (String.ofList (body.take i)) ∧
          stop = body.drop (i + 3)) ∧
    ((∃ e l, (Lexer.mk p (some source)).next = some (.error e, l)) ↔ ∀ i, ¬ BlockEnds body i) ∧
    ∀ i, BlockEnds body i →
      (∃ cs, Passes body cs (body.drop (i + 3)) ∧ body.take i = written escapedQuote cs ∧
        unescapeQuotes (body.take i) = written tripleQuote cs ∧
        ∀ mark, replaceEscapes mark (body.take i) = written mark cs) ∧
      (∀ value, BlockStringValue (body.take i) value ↔ value = dedent (body.take i)) ∧
      ∀ const span later,
        Read.literal const (⟨.block (String.ofList (body.take i)), span⟩ :: later) =
          .ok (⟨.string (String.ofList (dedent (body.take i))), span⟩, later) := by
  obtain ⟨tokens, errors⟩ := @next_of_afterGap p _ _ _ _ hstart fun _ _ => scan_block_eq_ok
  refine ⟨tokens, errors.trans ⟨?_, ?_⟩, ?_⟩
  · exact fun none i hi => none _ _ ⟨i, hi, rfl, rfl⟩
  · rintro none t stop ⟨i, hi, -⟩
    exact none i hi
  · intro i hi
    refine ⟨hi.exists_passes, fun value => blockStringValue_iff, fun const span later => ?_⟩
    rw [Read.literal_scalar rfl, String.toList_ofList]
    rfl

/-- An escaped triple quote, breaks of two kinds and a last line with just spaces. -/
def sampleBlock : String := "\"\"\"\r\n  a\\\"\"\"\"\n    b\n \"\"\"]"

theorem sampleBlock_exactly :
    (∃ span, (Lexer.ofSource sampleBlock).next =
      some (.ok ⟨.block "\r\n  a\\\"\"\"\"\n    b\n ", span⟩, ⟨span.stop, some [']']⟩)) ∧
    BlockStringValue "\r\n  a\\\"\"\"\"\n    b\n ".toList "a\"\"\"\"\n  b".toList := by
  obtain ⟨tokens, -, values⟩ := @block_exactly sampleBlock.toList (sampleBlock.toList.drop 3) .origin
    (by decide)
  have given : ∃ span, (Lexer.ofSource sampleBlock).next =
      some (.ok ⟨.block "\r\n  a\\\"\"\"\"\n    b\n ", span⟩, ⟨span.stop, some [']']⟩) := ⟨_, rfl⟩
  obtain ⟨i, hi, ht, -⟩ := (tokens _ _).mp given
  have raw : "\r\n  a\\\"\"\"\"\n    b\n ".toList = (sampleBlock.toList.drop 3).take i := by
    rw [Token.block.inj ht, String.toList_ofList]
  exact ⟨given, raw ▸ ((values i hi).2.1 _).mpr (raw ▸ rfl)⟩

end Lexer

end GraphQL.Lexeme
