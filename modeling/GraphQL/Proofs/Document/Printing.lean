import GraphQL.Proofs.Json.RoundTrip
import GraphQL.Proofs.Lexeme.QuotedStrings

/-! # Printed literals and types are read again

What is printed of a literal or a type consists of the tokens that the grammar derives it from. So
reading the print takes all of its tokens and gives the literal or the type back.
-/

namespace GraphQL

/-- The literals that have a print of their own: they have no floating point numbers, and their enum
values, variables and keys have names as the language writes them. -/
inductive Literal.Lexical : Literal → Prop
  | null : Lexical .null
  | int (n : Int64) : Lexical (.int n)
  | string (s : String) : Lexical (.string s)
  | boolean (b : Bool) : Lexical (.boolean b)
  | enum {name : String} (hname : Lexeme.IsName name.toList) (hnull : name ≠ "null")
      (htrue : name ≠ "true") (hfalse : name ≠ "false") : Lexical (.enum name)
  | variable {name : String} (hname : Lexeme.IsName name.toList) : Lexical (.variable name)
  | list {items : List (Located Literal)} (h : ∀ l ∈ items, Lexical l.item) :
      Lexical (.list items)
  | object {fields : List (Located String × Located Literal)}
      (hkeys : ∀ f ∈ fields, Lexeme.IsName f.1.item.toList)
      (h : ∀ f ∈ fields, Lexical f.2.item) : Lexical (.object fields)

/-- The type has a name as the language writes it. -/
def TypeRef.Lexical (type : TypeRef) : Prop := Lexeme.IsName type.innermost.toList

namespace Lexeme

variable {source rest stop text : List Char} {ts : List Token} {t : Token} {c : Char}

/-! ## The tokens of a text -/

/-- The source has these tokens, the end of the file last. -/
inductive Tokenized : List Char → List Token → Prop
  | ended {source : List Char} (h : afterGap false source = []) : Tokenized source [.endOfFile]
  | token {source rest stop : List Char} {c : Char} {t : Token} {ts : List Token}
      (hstart : afterGap false source = c :: rest) (hscan : scan c rest = .ok (t, stop))
      (h : Tokenized stop ts) : Tokenized source (t :: ts)

theorem Tokenized.readFrom (h : Tokenized source ts) {limit : Nat} (lt : source.length < limit)
    (p : Position) : (readFrom limit ⟨p, some source⟩).failure = none ∧
      (readFrom limit ⟨p, some source⟩).tokens.map (·.item) = ts := by
  induction h generalizing limit p with
  | ended h =>
    obtain ⟨limit, rfl⟩ := Nat.exists_eq_succ_of_ne_zero (Nat.ne_zero_of_lt lt)
    unfold Lexeme.readFrom Lexer.next
    simp only [Option.map_some, h]
    cases limit <;> exact ⟨rfl, rfl⟩
  | @token source _ stop _ _ _ hstart hscan _ ih =>
    obtain ⟨limit, rfl⟩ := Nat.exists_eq_succ_of_ne_zero (Nat.ne_zero_of_lt lt)
    have shorter := length_afterGap false source
    rw [hstart, List.length_cons] at shorter
    have hstop := (scan_takes hscan).2.length_le
    unfold Lexeme.readFrom Lexer.next
    simp only [Option.map_some, hstart, hscan]
    have later := ih (show stop.length < limit by omega)
    exact ⟨(later _).1, congrArg _ (later _).2⟩

theorem Tokenized.read {source : String} (h : Tokenized source.toList ts) :
    (read source).failure = none ∧ (read source).tokens.map (·.item) = ts :=
  h.readFrom (Nat.lt_succ_of_le (Nat.le_of_eq String.length_toList)) .origin

theorem Tokenized.skip (hc : isIgnored c) (h : Tokenized rest ts) : Tokenized (c :: rest) ts := by
  have gap : afterGap false (c :: rest) = afterGap false rest := by simp [afterGap, hc]
  cases h with
  | ended h => exact .ended (gap.trans h)
  | token hstart hscan h => exact .token (gap.trans hstart) hscan h

theorem Tokenized.scanned (kind : Char → Bool) (hc : kind c)
    (hgap : ['\t', ' ', '\n', '\r', ',', '\ufeff', '#'].all (!kind ·))
    (hscan : scan c rest = .ok (t, stop)) (h : Tokenized stop ts) :
    Tokenized (c :: rest) (t :: ts) := by
  have starts : c ∉ ['\t', ' ', '\n', '\r', ',', '\ufeff', '#'] := by
    intro hmem
    have := List.all_eq_true.mp hgap c hmem
    simp [hc] at this
  refine .token ?_ hscan h
  simp only [List.mem_cons, List.not_mem_nil, or_false, not_or] at starts
  simp [afterGap, isIgnored, starts]

theorem Tokenized.punctuator {p : Punctuator} (hp : punctuator? c = some p) (h : Tokenized rest ts) :
    Tokenized (c :: rest) (.punctuator p :: ts) := by
  have kind : (punctuator? c).isSome := hp ▸ rfl
  refine Tokenized.scanned (fun c => (punctuator? c).isSome) kind (by decide) ?_ h
  unfold scan
  rw [hp]

/-- What follows a name, a number or a string, and is no part of it. -/
def Apart (rest : List Char) : Prop := Stops (fun c => runsOn c || c = '"') rest

/-- Before anything that is apart, the text consists of these tokens. -/
def Prints (text : List Char) (tokens : List Token) : Prop :=
  ∀ rest ts, Apart rest → Tokenized rest ts → Tokenized (text ++ rest) (tokens ++ ts)

theorem scan_name (hc : isNameStart c) {name : List Char} (hname : name.all isNameContinue)
    (hrest : Stops isNameContinue rest) :
    scan c (name ++ rest) = .ok (.name (String.ofList (c :: name)), rest) := by
  have other {d : Char} (hd : isNameStart d = false) : c ≠ d := by
    rintro rfl
    rw [hd] at hc
    cases hc
  have none : punctuator? c = none := by
    unfold punctuator?
    split
    case h_13 => rfl
    all_goals cases hc
  have noNumber : ¬ (c = '-' || c.isDigit) := by
    have digits : ['0', '1', '2', '3', '4', '5', '6', '7', '8', '9'].all (!isNameStart ·) := by decide
    have minus : c ≠ '-' := other rfl
    have digit : ¬ c.isDigit := by
      intro h
      have := List.all_eq_true.mp digits c (Pattern.isDigit_iff_mem.mp h)
      simp [hc] at this
    simp [minus, digit]
  have behind : (name ++ rest).dropWhile isNameContinue = rest := by
    rw [List.dropWhile_append_of_pos (List.all_eq_true.mp hname), dropWhile_of_stops hrest]
  unfold scan
  rw [none]
  dsimp only
  rw [if_neg (other rfl), if_neg (other rfl), if_neg noNumber, if_pos hc, behind]
  rw [← List.cons_append, taken_append]

theorem prints_name {name : String} (h : IsName name.toList) : Prints name.toList [.name name] := by
  intro rest ts hrest hts
  obtain ⟨c, tail, htext, hc, htail⟩ := h
  have stops : Stops isNameContinue rest := hrest.imp (by
    simp +contextual [runsOn, isNameContinue, isNameStart, or_imp])
  have scanned := scan_name hc htail stops
  rw [← htext, String.ofList_toList] at scanned
  rw [htext]
  exact .scanned isNameStart hc (by decide) scanned hts

theorem mem_whole_toString (n : Int) : (toString n).toList ∈ Pattern.whole.matches' := by
  have unsigned (n : Nat) : Nat.toDigits 10 n ∈ Pattern.unsigned.matches' := by
    obtain ⟨c, tail, hdigits⟩ := List.exists_cons_of_ne_nil (@Nat.toDigits_ne_nil n 10)
    have areDigits : ∀ d ∈ c :: tail, d.isDigit := fun d hd =>
      Json.isDigit_of_mem_toDigits (hdigits ▸ hd)
    obtain ⟨hc, htail⟩ := List.forall_mem_cons.mp areDigits
    by_cases hzero : c = '0'
    · obtain rfl : n = 0 := Json.head?_toDigits (by rw [hdigits, hzero]; rfl)
      exact .inl rfl
    · exact Pattern.mem_unsigned.mpr (.inr ⟨c, tail, hdigits, hc, hzero, htail⟩)
  rw [Json.toList_toString]
  split
  · exact Pattern.mem_whole.mpr ⟨['-'], by simp, _, unsigned n.natAbs, rfl⟩
  · exact Pattern.mem_whole.mpr ⟨[], by simp, _, unsigned n.natAbs, rfl⟩

theorem prints_int (n : Int) : Prints (toString n).toList [.int (toString n)] := by
  intro rest ts hrest hts
  obtain ⟨c, tail, htext, hc⟩ := Json.toString_starts n
  have stops : Stops runsOn rest := hrest.imp (by simp +contextual)
  have number := @NumberAt.intro _ rest _ (.int (mem_whole_toString n)) stops
  rw [String.ofList_toList, htext, List.cons_append] at number
  rw [htext]
  exact Tokenized.scanned (fun c => c = '-' || c.isDigit) (by simpa using hc.symm)
    (by decide) ((scan_number_eq_ok hc.symm).mpr number) hts

theorem wholeValue_toString (n : Int) : Grammar.wholeValue (toString n) = n := by
  unfold Grammar.wholeValue
  rw [Json.toList_toString]
  split
  next digits heq =>
    split at heq
    · obtain ⟨-, rfl⟩ := List.cons.inj heq
      rw [Json.digitsValue_toDigits]
      omega
    · have minus : '-' ∈ Nat.toDigits 10 n.natAbs := heq ▸ List.mem_cons_self
      cases Json.isDigit_of_mem_toDigits minus
  next other =>
    split
    · exact (other _ (if_pos ‹n < 0›)).elim
    · rw [Json.digitsValue_toDigits]
      omega

theorem stringCharacter_escape (c : Char) : StringCharacter (Json.escape c) c := by
  unfold Json.escape
  split
  case h_8 hquote hbackslash _ _ _ _ _ =>
    have digits : ∀ n < 16, HexDigit (Json.hexDigit n) n := by decide
    split
    next hcontrol =>
      have small : c.toNat < 32 := hcontrol
      refine .code (digits 0 (by decide)) (digits 0 (by decide)) (digits _ (by omega))
        (digits _ (by omega)) ?_
      omega
    next hcontrol => exact .plain (.inl (Char.not_lt.mp hcontrol)) hquote hbackslash
  all_goals exact .escape (by decide)

theorem stringCharacters_escape (s : List Char) : StringCharacters (s.flatMap Json.escape) s := by
  induction s with
  | nil => exact .nil
  | cons c s ih => exact .cons (stringCharacter_escape c) ih

theorem prints_quote (s : String) :
    Prints (Json.quote s).toList [.quoted (String.ofList (s.toList.flatMap Json.escape))] := by
  intro rest ts hrest hts
  have characters := stringCharacters_escape s.toList
  rw [Json.toList_quote, List.cons_append, List.append_assoc]
  -- The quotes of an empty string would open a block string before a third one.
  have hblock : ¬ ['"', '"'] <+: s.toList.flatMap Json.escape ++ '"' :: rest := by
    refine characters.not_quotes fun hhead => ?_
    have := hrest '"' hhead
    simp at this
  refine Tokenized.scanned (· = '"') (by decide) (by decide) ?_ hts
  exact (scan_quote_eq_ok hblock).mpr ⟨_, _, rfl, characters, rfl⟩

/-! ## Parts -/

variable {later : List Char} {tokens tokens' : List Token}

/-- A text may be followed by one that starts with a character that is apart from it. -/
theorem Prints.append (h : Prints text tokens) (h' : Prints (c :: later) tokens')
    (hc : (runsOn c || c = '"') = false) : Prints (text ++ c :: later) (tokens ++ tokens') := by
  intro rest ts hrest hts
  rw [List.append_assoc, List.append_assoc]
  exact h _ _ (stops_cons.mpr hc) (h' _ _ hrest hts)

theorem Prints.nil : Prints [] [] := fun _ _ _ hts => hts

theorem Prints.skip (hc : isIgnored c) (h : Prints text tokens) : Prints (c :: text) tokens :=
  fun rest ts hrest hts => .skip hc (h rest ts hrest hts)

theorem Prints.punctuator {p : Punctuator} (hp : punctuator? c = some p)
    (h : Prints text tokens) : Prints (c :: text) (.punctuator p :: tokens) :=
  fun rest ts hrest hts => .punctuator hp (h rest ts hrest hts)

theorem Prints.inBrackets (h : Prints text tokens) : Prints ('[' :: (text ++ [']']))
    (.punctuator .bracketOpen :: (tokens ++ [.punctuator .bracketClose])) :=
  .punctuator rfl (h.append (.punctuator rfl .nil) rfl)

/-- Items are separated by commas, which are no tokens. -/
theorem exists_prints_intercalate {α β : Type} {rule : Production β} {print : α → String}
    {view : α → β} {xs : List α}
    (h : ∀ x ∈ xs, ∃ tokens, Prints (print x).toList tokens ∧ rule tokens (view x)) :
    ∃ tokens, Prints (", ".intercalate (xs.map print)).toList tokens ∧
      Grammar.Many rule tokens (xs.map view) := by
  induction xs with
  | nil => exact ⟨[], .nil, .nil⟩
  | cons x xs ih =>
    obtain ⟨⟨first, hfirst, hx⟩, hxs⟩ := List.forall_mem_cons.mp h
    obtain ⟨others, hothers, htrees⟩ := ih hxs
    refine ⟨first ++ others, ?_, .cons hx htrees⟩
    cases xs with
    | nil =>
      cases htrees
      simpa using hfirst
    | cons y ys =>
      have separated : (", ".intercalate ((x :: y :: ys).map print)).toList =
          (print x).toList ++ ',' :: ' ' :: (", ".intercalate ((y :: ys).map print)).toList := by
        simp [String.intercalate_cons_cons]
      rw [separated]
      exact hfirst.append ((hothers.skip rfl).skip rfl) rfl

theorem Prints.bracketed {items : List String}
    (h : Prints (", ".intercalate items).toList tokens) : Prints (bracketedText items).toList
      (.punctuator .bracketOpen :: (tokens ++ [.punctuator .bracketClose])) := by
  have inside : (bracketedText items).toList = '[' :: ((", ".intercalate items).toList ++ [']']) := by
    simp [bracketedText]
  rw [inside]
  exact h.inBrackets

theorem Prints.braced {fields : List String}
    (h : Prints (", ".intercalate fields).toList tokens) : Prints (bracedText fields).toList
      (.punctuator .braceOpen :: (tokens ++ [.punctuator .braceClose])) := by
  have closing : Prints ['\x7d'] [.punctuator .braceClose] := .punctuator rfl .nil
  cases fields with
  | nil => exact .punctuator rfl (h.append closing rfl)
  | cons first others =>
    have inside : (bracedText (first :: others)).toList =
        '\x7b' :: ' ' :: ((", ".intercalate (first :: others)).toList ++ [' ', '\x7d']) := by
      simp [bracedText]
    rw [inside]
    exact .punctuator rfl (.skip rfl (h.append (closing.skip rfl) rfl))

end Lexeme

open Lexeme

theorem Literal.itemTexts_eq (items : List (Located Literal)) :
    Literal.itemTexts items = items.map (·.item.text) := by
  induction items with
  | nil => rfl
  | cons l rest ih => rw [Literal.itemTexts, ih, List.map_cons]

theorem Literal.fieldTexts_eq (fields : List (Located String × Located Literal)) :
    Literal.fieldTexts fields = fields.map fun f => f.1.item ++ ": " ++ f.2.item.text := by
  induction fields with
  | nil => rfl
  | cons f rest ih => rw [Literal.fieldTexts, ih, List.map_cons]

theorem exists_prints_keyed {rule : Production Literal} {key : String} {l tree : Literal}
    (hkey : IsName key.toList)
    (h : ∃ tokens, Prints l.text.toList tokens ∧ rule tokens tree) :
    ∃ tokens, Prints (key ++ ": " ++ l.text).toList tokens ∧
      Grammar.Keyed rule tokens (key, tree) := by
  obtain ⟨tokens, htokens, htree⟩ := h
  have separated : (key ++ ": " ++ l.text).toList = key.toList ++ ':' :: ' ' :: l.text.toList := by
    simp
  refine ⟨.name key :: .punctuator .colon :: tokens, ?_, .intro htree⟩
  rw [separated]
  exact (prints_name hkey).append (.punctuator rfl (htokens.skip rfl)) rfl

theorem Literal.Lexical.exists_prints {l : Literal} (h : l.Lexical) :
    ∃ tokens, Prints l.text.toList tokens ∧ Grammar.Literal false tokens l.bare := by
  -- Induction on the literal: its print consists of tokens that the grammar derives it from.
  induction h with
  | null => exact ⟨_, prints_name ⟨'n', _, rfl, rfl, rfl⟩, .null⟩
  | int n => exact ⟨_, prints_int n.toInt, .int (wholeValue_toString n.toInt).symm⟩
  | string s =>
    refine ⟨_, prints_quote s, ?_⟩
    have := @Grammar.Literal.quoted false (String.ofList (s.toList.flatMap Json.escape))
    rwa [String.toList_ofList, (stringCharacters_escape _).unescape, String.ofList_toList] at this
  | boolean b =>
    cases b with
    | false => exact ⟨_, prints_name ⟨'f', _, rfl, rfl, rfl⟩, .false⟩
    | true => exact ⟨_, prints_name ⟨'t', _, rfl, rfl, rfl⟩, .true⟩
  | enum hname hnull htrue hfalse => exact ⟨_, prints_name hname, .enum hnull htrue hfalse⟩
  | «variable» hname =>
    refine ⟨_, ?_, .variable rfl⟩
    rw [Literal.text, String.toList_append]
    exact .punctuator rfl (prints_name hname)
  | list _ ih =>
    obtain ⟨tokens, htokens, htrees⟩ := exists_prints_intercalate ih
    rw [Literal.text, Literal.itemTexts_eq, Literal.bare_list]
    exact ⟨_, htokens.bracketed, .list (.intro htrees)⟩
  | object hkeys _ ih =>
    obtain ⟨tokens, htokens, htrees⟩ := exists_prints_intercalate fun f hf =>
      exists_prints_keyed (hkeys f hf) (ih f hf)
    rw [Literal.text, Literal.fieldTexts_eq, Literal.bare_object]
    exact ⟨_, htokens.braced, .object (.intro htrees)⟩

theorem TypeRef.Lexical.exists_prints {type : TypeRef} (h : type.Lexical) :
    ∃ tokens, Prints type.text.toList tokens ∧ Grammar.TypeRef tokens type := by
  have bang : Prints ['!'] [.punctuator .bang] := .punctuator rfl .nil
  induction type with
  | named name => exact ⟨_, prints_name h, .named⟩
  | nonNullNamed name =>
    refine ⟨_, ?_, .nonNullNamed⟩
    rw [TypeRef.text, String.toList_append]
    exact (prints_name h).append bang rfl
  | list item ih =>
    obtain ⟨tokens, htokens, htree⟩ := ih h
    refine ⟨_, ?_, .list (.intro htree)⟩
    have inside : (TypeRef.list item).text.toList = '[' :: (item.text.toList ++ [']']) := by
      simp [TypeRef.text]
    rw [inside]
    exact htokens.inBrackets
  | nonNullList item ih =>
    obtain ⟨tokens, htokens, htree⟩ := ih h
    refine ⟨_, ?_, .nonNullList (.intro htree)⟩
    have inside : (TypeRef.nonNullList item).text.toList =
        '[' :: (item.text.toList ++ [']']) ++ ['!'] := by
      simp [TypeRef.text]
    rw [inside]
    exact htokens.inBrackets.append bang rfl

/-! ## Reading prints -/

theorem Lexeme.Prints.run {α : Type} {text : String} {tokens : List Token} {read : Read α}
    {good : α → Prop} (h : Prints text.toList tokens)
    (takes : ∀ size, Read.Takes size read tokens .endOfFile good) :
    ∃ a stop, Read.run text read = .ok (a, [stop]) ∧ stop.item = .endOfFile ∧ good a := by
  have tokenized := h [] [.endOfFile] nofun (.ended rfl)
  rw [List.append_nil] at tokenized
  obtain ⟨hfailure, htokens⟩ := tokenized.read
  have ended := ended_read hfailure
  obtain ⟨used, last, hsplit, hused, hlast⟩ := List.map_eq_append_iff.mp htokens
  obtain ⟨stop, rfl, hstop⟩ := List.map_eq_singleton_iff.mp hlast
  rw [hsplit] at ended
  obtain ⟨a, hread, ha⟩ := takes _ used stop [] hused hstop ended (Nat.le_refl _)
  refine ⟨a, stop, ?_, hstop, ha⟩
  unfold Read.run
  dsimp only
  rw [hfailure, hsplit]
  exact hread

/-- Printed literals and types are read again. All tokens of the print are taken, and what is read
differs from what was printed at most in its spans. -/
theorem prints_reread :
    (∀ l : Literal, l.Lexical → ∃ read stop,
      Read.run l.text (Read.literal false) = .ok (read, [stop]) ∧
      stop.item = .endOfFile ∧ read.item.bare = l.bare) ∧
    ∀ type : TypeRef, type.Lexical → ∃ read stop,
      Read.run type.text Read.typeRef = .ok (read, [stop]) ∧
      stop.item = .endOfFile ∧ read.item = type := by
  constructor
  · intro l h
    obtain ⟨tokens, htokens, derived⟩ := h.exists_prints
    exact htokens.run fun _ => Read.literal_takes derived
  · intro type h
    obtain ⟨tokens, htokens, derived⟩ := h.exists_prints
    exact htokens.run fun _ => Read.typeRef_takes derived (by simp)

/-- A literal with the least number of 64 bits, an empty string and one that must be escaped. -/
def samplePrinted : Literal := .objectOf [
  ("a", .listOf [.int Int64.minValue, .string "", .string "\"\\\x07é"]),
  ("b", .variable "v"),
  ("c", .enum "RED")]

theorem samplePrinted_reread :
    samplePrinted.text =
      "\x7b a: [-9223372036854775808, \"\", \"\\\"\\\\\\u0007é\"], b: $v, c: RED \x7d" ∧
    (∃ read stop, Read.run samplePrinted.text (Read.literal false) = .ok (read, [stop]) ∧
      stop.item = .endOfFile ∧ read.item.bare = samplePrinted.bare) ∧
    ∃ read stop, Read.run "[[T!]]!" Read.typeRef = .ok (read, [stop]) ∧
      stop.item = .endOfFile ∧ read.item = .nonNullList (.list (.nonNullNamed "T")) := by
  have items : (Literal.listOf [.int Int64.minValue, .string "", .string "\"\\\x07é"]).Lexical := by
    refine .list ?_
    simp only [List.forall_mem_map, List.forall_mem_cons, Located.nowhere]
    exact ⟨.int _, .string _, .string _, nofun⟩
  have named {name : String} {c : Char} {rest : List Char} (h : name.toList = c :: rest)
      (hc : isNameStart c) (hrest : rest.all isNameContinue) : IsName name.toList :=
    ⟨c, rest, h, hc, hrest⟩
  have lexical : samplePrinted.Lexical := by
    refine .object ?_ ?_
    · simp only [List.forall_mem_map, List.forall_mem_cons, Located.nowhere]
      exact ⟨named rfl rfl rfl, named rfl rfl rfl, named rfl rfl rfl, nofun⟩
    · simp only [List.forall_mem_map, List.forall_mem_cons, Located.nowhere]
      exact ⟨items, .variable (named rfl rfl rfl),
        .enum (named rfl rfl rfl) (by decide) (by decide) (by decide), nofun⟩
  exact ⟨by decide +kernel, prints_reread.1 samplePrinted lexical,
    prints_reread.2 (.nonNullList (.list (.nonNullNamed "T"))) (named rfl rfl rfl)⟩

end GraphQL
