import Mathlib.Algebra.GroupWithZero.Nat
import Mathlib.Algebra.Ring.Int.Defs
import GraphQL.Json.Reader

/-! # Written JSON is read again

What is written for a JSON value whose numbers are whole and fit 64 bits is read as that value, up to
what follows it.
-/

namespace GraphQL.Json

/-! ## Strings -/

theorem hexValue?_hexDigit : ∀ n < 16, hexValue? (hexDigit n) = some n := by decide

theorem stringBody_plain {c : Char} (hquote : c ≠ '"') (hbackslash : c ≠ '\\') (hcontrol : ¬ c < ' ')
    (rest : List Char) :
    stringBody (c :: rest) = (stringBody rest).map fun (s, rest) => (c :: s, rest) := by
  rw [stringBody.eq_def]
  split
  · contradiction
  · next heq => exact absurd (List.cons.inj heq).1 hquote
  · next heq => exact absurd (List.cons.inj heq).1 hbackslash
  · next heq =>
    obtain ⟨rfl, rfl⟩ := List.cons.inj heq
    rw [if_neg hcontrol]

theorem stringBody_unescape {c e : Char} (he : unescape? e = some c) (rest : List Char) :
    stringBody ('\\' :: e :: rest) = (stringBody rest).map fun (s, rest) => (c :: s, rest) := by
  have hunit : e ≠ 'u' := by
    rintro rfl
    cases he
  rw [stringBody]
  · simp only [he]
  · exact fun _ _ _ _ _ h _ => hunit h

theorem stringBody_control {c : Char} (h : c < ' ') (rest : List Char) :
    stringBody ('\\' :: 'u' :: '0' :: '0' :: hexDigit (c.toNat / 16) :: hexDigit (c.toNat % 16) :: rest) =
      (stringBody rest).map fun (s, rest) => (c :: s, rest) := by
  have hsmall : c.toNat < 32 := h
  have hunit : unit? '0' '0' (hexDigit (c.toNat / 16)) (hexDigit (c.toNat % 16)) = some c.toNat := by
    have hzero : hexValue? '0' = some 0 := rfl
    simp only [unit?, hzero, hexValue?_hexDigit _ (show c.toNat / 16 < 16 by omega),
      hexValue?_hexDigit _ (show c.toNat % 16 < 16 by omega), Option.bind_eq_bind, Option.bind_some,
      pure]
    congr 1
    omega
  have hhigh : isHighSurrogate c.toNat = false := by simp [isHighSurrogate]; omega
  have hlow : isLowSurrogate c.toNat = false := by simp [isLowSurrogate]; omega
  rw [stringBody]
  simp [hunit, hhigh, hlow, Char.ofNat_toNat]

theorem stringBody_escape (c : Char) (rest : List Char) :
    stringBody (escape c ++ rest) = (stringBody rest).map fun (s, rest) => (c :: s, rest) := by
  unfold escape
  split
  case h_8 _ hquote hbackslash _ _ _ _ _ =>
    split
    · next hcontrol => exact stringBody_control hcontrol rest
    · next hcontrol => exact stringBody_plain hquote hbackslash hcontrol rest
  all_goals exact stringBody_unescape rfl rest

theorem stringBody_quoted (s rest : List Char) :
    stringBody (s.flatMap escape ++ '"' :: rest) = some (s, rest) := by
  induction s with
  | nil => rw [List.flatMap_nil, List.nil_append, stringBody]
  | cons c s ih =>
    rw [List.flatMap_cons, List.append_assoc, stringBody_escape, ih]
    rfl

/-! ## Numbers -/

/-- What may follow a value: nothing, or what separates or ends items and members. -/
inductive Ends : List Char → Prop
  | nil : Ends []
  | comma {rest} : Ends (',' :: rest)
  | bracket {rest} : Ends (']' :: rest)
  | brace {rest} : Ends ('\x7d' :: rest)

theorem head?_toDigits {n : Nat} (h : (Nat.toDigits 10 n).head? = some '0') : n = 0 := by
  induction n using Nat.strongRecOn with
  | ind n ih =>
    by_cases hsmall : n < 10
    · have hdigit : ∀ n < 10, [n.digitChar].head? = some '0' → n = 0 := by decide
      exact hdigit n hsmall (Nat.toDigits_of_lt_base hsmall ▸ h)
    · obtain ⟨c, digits, hdigits⟩ := List.exists_cons_of_ne_nil (Nat.toDigits_ne_nil (n := n / 10) (b := 10))
      have hzero : n / 10 = 0 := by
        rw [Nat.toDigits_of_base_le (by decide) (by omega), hdigits] at h
        exact ih (n / 10) (by omega) (hdigits ▸ h)
      omega

theorem isWholePart_toDigits (n : Nat) : isWholePart (Nat.toDigits 10 n) := by
  unfold isWholePart
  split
  · next h => exact absurd h Nat.toDigits_ne_nil
  · rfl
  · next hlonger h =>
    obtain rfl := head?_toDigits (congrArg List.head? h)
    exact absurd (List.cons.inj h).2.symm hlonger
  · rfl

theorem digitsValue_toDigits (n : Nat) : Decimal.digitsValue (Nat.toDigits 10 n) = n := by
  have hvalue := Nat.ofDigitChars_ten_toDigits (n := n)
  rw [Nat.ofDigitChars_eq_foldl] at hvalue
  simpa only [Decimal.digitsValue, Nat.mul_comm] using hvalue

section

variable {digits rest : List Char}

theorem takeWhile_digits (hdigits : ∀ c ∈ digits, c.isDigit) (hrest : Ends rest) :
    (digits ++ rest).takeWhile Char.isDigit = digits := by
  rw [List.takeWhile_append_of_pos hdigits]
  cases hrest <;> simp [List.takeWhile]

theorem dropWhile_digits (hdigits : ∀ c ∈ digits, c.isDigit) (hrest : Ends rest) :
    (digits ++ rest).dropWhile Char.isDigit = rest := by
  rw [List.dropWhile_append_of_pos hdigits]
  cases hrest <;> simp [List.dropWhile]

theorem ofText_digits (hdigits : ∀ c ∈ digits, c.isDigit) (hne : digits ≠ []) (hrest : Ends rest) :
    Decimal.Written.ofText (digits ++ rest) = (⟨false, digits, [], false, []⟩, rest) := by
  have htake := takeWhile_digits hdigits hrest
  have hdrop := dropWhile_digits hdigits hrest
  obtain ⟨c, tail, rfl⟩ := List.exists_cons_of_ne_nil hne
  have hdigit : c.isDigit := hdigits c List.mem_cons_self
  unfold Decimal.Written.ofText
  split
  next heq =>
    split at heq
    · next hminus => simp_all
    · next hplus => simp_all
    · obtain ⟨rfl, rfl⟩ := Prod.mk.inj heq
      simp only [htake, hdrop]
      cases hrest <;> rfl

theorem ofText_minus (hdigits : ∀ c ∈ digits, c.isDigit) (hrest : Ends rest) :
    Decimal.Written.ofText ('-' :: (digits ++ rest)) = (⟨true, digits, [], false, []⟩, rest) := by
  unfold Decimal.Written.ofText
  simp only [takeWhile_digits hdigits hrest, dropWhile_digits hdigits hrest]
  cases hrest <;> rfl

end

theorem whole_of_digits {taken : List Char} (h : ∀ c ∈ taken, c.isDigit ∨ c = '-') :
    taken.contains '.' = false ∧ (taken.any fun c => c = 'e' || c = 'E') = false := by
  rw [List.contains_eq_any_beq, List.any_eq_false, List.any_eq_false]
  refine ⟨fun c hc => ?_, fun c hc => ?_⟩ <;> rcases h c hc with hdigit | rfl
  · rintro heq
    obtain rfl := eq_of_beq heq
    cases hdigit
  · decide
  · intro heq
    rcases Bool.or_eq_true_iff.mp heq with heq | heq <;> obtain rfl := of_decide_eq_true heq <;> cases hdigit
  · decide

theorem isDigit_of_mem_toDigits {n : Nat} {c : Char} (h : c ∈ Nat.toDigits 10 n) : c.isDigit :=
  Nat.isDigit_of_mem_toDigits (by decide) (by decide) h

theorem number_nat {n : Nat} (hn : n < UInt64.size) {rest : List Char} (hrest : Ends rest) :
    number (Nat.toDigits 10 n ++ rest) = some (.int n, rest) := by
  have htext := ofText_digits (fun _ => isDigit_of_mem_toDigits) (Nat.toDigits_ne_nil (n := n)) hrest
  obtain ⟨hpoint, hexponent⟩ := whole_of_digits fun c (hc : c ∈ Nat.toDigits 10 n) =>
    .inl (isDigit_of_mem_toDigits hc)
  unfold number
  split
  · next heq =>
    obtain ⟨c, digits, hdigits⟩ := List.exists_cons_of_ne_nil (Nat.toDigits_ne_nil (n := n) (b := 10))
    have hdigit : c.isDigit := isDigit_of_mem_toDigits (hdigits ▸ List.mem_cons_self)
    rw [hdigits] at heq
    obtain ⟨rfl, -⟩ := List.cons.inj heq
    cases hdigit
  · have htaken : ((Nat.toDigits 10 n ++ rest).take ((Nat.toDigits 10 n ++ rest).length - rest.length)) =
        Nat.toDigits 10 n := by simp
    simp only [htext, htaken, hpoint, hexponent, isWholePart_toDigits, digitsValue_toDigits, hn]
    simp

theorem number_minus {n : Nat} (hpos : 0 < n) (hn : n ≤ 2 ^ 63) {rest : List Char}
    (hrest : Ends rest) :
    number ('-' :: (Nat.toDigits 10 n ++ rest)) = some (.int (-n), rest) := by
  have htext := ofText_minus (fun _ => isDigit_of_mem_toDigits (n := n)) hrest
  obtain ⟨hpoint, hexponent⟩ := whole_of_digits fun c (hc : c ∈ '-' :: Nat.toDigits 10 n) =>
    (List.mem_cons.mp hc).symm.imp_left isDigit_of_mem_toDigits
  have htaken : ('-' :: (Nat.toDigits 10 n ++ rest)).take
      (('-' :: (Nat.toDigits 10 n ++ rest)).length - rest.length) = '-' :: Nat.toDigits 10 n := by
    rw [← List.cons_append, List.length_append, Nat.add_sub_cancel, List.take_left]
  have hfits : Decimal.isInt64 (-(n : Int)) := by
    have hmin : Int64.minValue.toInt = -2 ^ 63 := rfl
    have hmax : Int64.maxValue.toInt = 2 ^ 63 - 1 := rfl
    simp only [Decimal.isInt64, hmin, hmax, Bool.and_eq_true, decide_eq_true_eq]
    omega
  unfold number
  simp only [htext, htaken, hpoint, hexponent, isWholePart_toDigits, digitsValue_toDigits, hpos, hfits]
  simp

/-- Whether a whole number with its sign fits 64 bits, or one without a sign does. -/
def Whole (n : Int) : Prop := -2 ^ 63 ≤ n ∧ n < 2 ^ 64

theorem toList_toString (n : Int) : (toString n).toList =
    if n < 0 then '-' :: Nat.toDigits 10 n.natAbs else Nat.toDigits 10 n.natAbs := by
  cases n with
  | ofNat n => simp [toString, Int.repr]
  | negSucc n => simp [toString, Int.repr]

theorem number_int {n : Int} (hn : Whole n) {rest : List Char} (hrest : Ends rest) :
    number ((toString n).toList ++ rest) = some (.int n, rest) := by
  obtain ⟨hleast, hgreatest⟩ := hn
  rw [toList_toString]
  split
  · next hnegative =>
    rw [List.cons_append, number_minus (by omega) (by omega) hrest]
    have hminus : -(n.natAbs : Int) = n := by omega
    rw [hminus]
  · next hpositive =>
    have hsize : UInt64.size = 2 ^ 64 := rfl
    rw [number_nat (by omega) hrest]
    have hplus : (n.natAbs : Int) = n := by omega
    rw [hplus]

/-! ## Values -/

/-- Whether the numbers of a JSON value are whole and fit 64 bits, and its arrays and objects nest at
most `depth` deep. -/
inductive Readable : Nat → Json → Prop
  | null {depth} : Readable depth .null
  | bool {depth} (b : Bool) : Readable depth (.bool b)
  | int {depth n} (h : Whole n) : Readable depth (.int n)
  | string {depth} (s : String) : Readable depth (.string s)
  | array {depth items} (h : ∀ j ∈ items, Readable depth j) : Readable (depth + 1) (.array items)
  | object {depth members} (h : ∀ key j, (key, j) ∈ members → Readable depth j) :
    Readable (depth + 1) (.object members)

/-- Whether a value is read from its text, given enough steps, up to what ends it. -/
def Rereads (depth : Nat) (j : Json) : Prop :=
  ∀ fuel rest, 2 * j.text.length ≤ fuel → Ends rest →
    value fuel depth (j.text.toList ++ rest) = some (j, rest)

theorem afterBlanks_cons {c : Char} (h : isBlank c = false) (rest : List Char) :
    afterBlanks (c :: rest) = c :: rest := by
  simp [afterBlanks, h]

theorem isBlank_of_number {c : Char} (h : c.isDigit ∨ c = '-') : isBlank c = false := by
  rcases h with hdigit | rfl
  · refine Bool.eq_false_iff.mpr fun hblank => ?_
    simp only [isBlank, Bool.or_eq_true, decide_eq_true_eq] at hblank
    rcases hblank with ((rfl | rfl) | rfl) | rfl <;> cases hdigit
  · rfl

theorem value_number {c : Char} {tail : List Char} (h : c.isDigit ∨ c = '-') (fuel depth : Nat) :
    value (fuel + 1) depth (c :: tail) = number (c :: tail) := by
  rw [value, afterBlanks_cons (isBlank_of_number h)]
  split <;> simp_all

theorem toString_starts (n : Int) :
    ∃ c tail, (toString n).toList = c :: tail ∧ (c.isDigit ∨ c = '-') := by
  obtain ⟨c, digits, hdigits⟩ :=
    List.exists_cons_of_ne_nil (Nat.toDigits_ne_nil (n := n.natAbs) (b := 10))
  rw [toList_toString]
  split
  · exact ⟨'-', _, rfl, .inr rfl⟩
  · exact ⟨c, digits, hdigits, .inl (isDigit_of_mem_toDigits (hdigits ▸ List.mem_cons_self))⟩

theorem toList_quote (s : String) : (quote s).toList = '"' :: (s.toList.flatMap escape ++ ['"']) := by
  simp [quote]

theorem toList_array (items : List Json) : (Json.array items).text.toList =
    '[' :: ((",".intercalate (itemTexts items)).toList ++ [']']) := by
  simp [text]

theorem toList_object (members : List (String × Json)) : (Json.object members).text.toList =
    '\x7b' :: ((",".intercalate (memberTexts members)).toList ++ ['\x7d']) := by
  simp [text]

theorem text_starts {depth : Nat} {j : Json} (h : j.Readable depth) :
    ∃ c tail, j.text.toList = c :: tail ∧ isBlank c = false ∧ c ≠ ']' := by
  cases h with
  | null => exact ⟨'n', _, rfl, rfl, by decide⟩
  | bool b => cases b <;> exact ⟨_, _, rfl, rfl, by decide⟩
  | @int _ n _ =>
    obtain ⟨c, tail, htext, hc⟩ := toString_starts n
    refine ⟨c, tail, htext, isBlank_of_number hc, ?_⟩
    rintro rfl
    simp at hc
  | string s => exact ⟨_, _, toList_quote s, rfl, by decide⟩
  | array => exact ⟨_, _, toList_array _, rfl, by decide⟩
  | object => exact ⟨_, _, toList_object _, rfl, by decide⟩

/-! ## Items and members -/

theorem toList_intercalate_cons (first second : String) (others : List String) :
    (",".intercalate (first :: second :: others)).toList =
      first.toList ++ ',' :: (",".intercalate (second :: others)).toList := by
  rw [String.intercalate_cons_cons, String.toList_append, String.toList_append, List.append_assoc]
  rfl

theorem length_intercalate_cons (first second : String) (others : List String) :
    (",".intercalate (first :: second :: others)).length =
      first.length + 1 + (",".intercalate (second :: others)).length := by
  rw [String.intercalate_cons_cons, String.length_append, String.length_append]
  rfl

theorem intercalate_starts {first : String} {c : Char} {tail : List Char} (h : first.toList = c :: tail)
    (others : List String) : ∃ more, (",".intercalate (first :: others)).toList = c :: more := by
  cases others with
  | nil => exact ⟨tail, by rw [String.intercalate_singleton, h]⟩
  | cons second others => exact ⟨_, by rw [toList_intercalate_cons, h, List.cons_append]⟩

theorem items_text {depth : Nat} {items : List Json} (hne : items ≠ [])
    (h : ∀ j ∈ items, j.Rereads depth) (fuel : Nat) (rest : List Char)
    (hfuel : 2 * (",".intercalate (itemTexts items)).length < fuel) :
    Json.items fuel depth ((",".intercalate (itemTexts items)).toList ++ ']' :: rest) =
      some (items, rest) := by
  induction items generalizing fuel with
  | nil => contradiction
  | cons first others ih =>
    obtain ⟨hfirst, hothers⟩ := List.forall_mem_cons.mp h
    obtain ⟨fuel, rfl⟩ := Nat.exists_eq_succ_of_ne_zero (Nat.ne_zero_of_lt hfuel)
    cases others with
    | nil =>
      simp only [itemTexts, String.intercalate_singleton] at hfuel ⊢
      rw [Json.items, hfirst fuel _ (by omega) .bracket]
      rfl
    | cons second others =>
      have hrest := ih (by simp) hothers fuel
      simp only [itemTexts, length_intercalate_cons, toList_intercalate_cons, List.append_assoc] at hfuel hrest ⊢
      rw [Json.items, List.cons_append, hfirst fuel _ (by omega) .comma]
      simp only [Option.bind_eq_bind, Option.bind_some, afterBlanks_cons (c := ',') rfl,
        hrest (by omega)]
      rfl

theorem toList_member (key : String) (j : Json) (after : List Char) :
    (quote key ++ ":" ++ j.text).toList ++ after =
      '"' :: (key.toList.flatMap escape ++ '"' :: ':' :: (j.text.toList ++ after)) := by
  simp [toList_quote]

theorem members_first {depth fuel : Nat} {key : String} {j : Json} (h : j.Rereads depth)
    (hfuel : 2 * j.text.length ≤ fuel) (rest : List Char) :
    Json.members (fuel + 1) depth ((quote key ++ ":" ++ j.text).toList ++ ',' :: rest) =
        (Json.members fuel depth rest).map (fun (others, rest) => ((key, j) :: others, rest)) ∧
      Json.members (fuel + 1) depth ((quote key ++ ":" ++ j.text).toList ++ '\x7d' :: rest) =
        some ([(key, j)], rest) := by
  constructor <;> rw [toList_member, Json.members, afterBlanks_cons rfl]
  · simp only [stringBody_quoted, Option.bind_eq_bind, Option.bind_some, afterBlanks_cons (c := ':') rfl,
      h fuel _ hfuel .comma, afterBlanks_cons (c := ',') rfl, String.ofList_toList]
    cases Json.members fuel depth rest <;> rfl
  · simp only [stringBody_quoted, Option.bind_eq_bind, Option.bind_some, afterBlanks_cons (c := ':') rfl,
      h fuel _ hfuel .brace, afterBlanks_cons (c := '\x7d') rfl, String.ofList_toList]
    rfl

theorem members_text {depth : Nat} {members : List (String × Json)} (hne : members ≠ [])
    (h : ∀ key j, (key, j) ∈ members → j.Rereads depth) (fuel : Nat) (rest : List Char)
    (hfuel : 2 * (",".intercalate (memberTexts members)).length < fuel) :
    Json.members fuel depth ((",".intercalate (memberTexts members)).toList ++ '\x7d' :: rest) =
      some (members, rest) := by
  induction members generalizing fuel with
  | nil => contradiction
  | cons member others ih =>
    obtain ⟨key, first⟩ := member
    obtain ⟨fuel, rfl⟩ := Nat.exists_eq_succ_of_ne_zero (Nat.ne_zero_of_lt hfuel)
    have hfirst := h key first List.mem_cons_self
    cases others with
    | nil =>
      simp only [memberTexts, String.intercalate_singleton, String.length_append] at hfuel ⊢
      exact (members_first hfirst (by omega) rest).2
    | cons second others =>
      have hrest := ih (by simp) (fun key j hmem => h key j (List.mem_cons_of_mem _ hmem)) fuel
      obtain ⟨key', second⟩ := second
      simp only [memberTexts, length_intercalate_cons, toList_intercalate_cons, List.append_assoc,
        List.cons_append] at hfuel hrest ⊢
      rw [(members_first hfirst (by simp only [String.length_append] at hfuel; omega) _).1,
        hrest (by omega)]
      rfl

/-! ## Whole texts -/

/-- The first step is always taken, as no text is empty. -/
theorem rereads_of_step {depth : Nat} {j : Json} (hj : j.Readable depth)
    (h : ∀ fuel rest, 2 * j.text.length ≤ fuel + 1 → Ends rest →
      value (fuel + 1) depth (j.text.toList ++ rest) = some (j, rest)) : j.Rereads depth := by
  intro fuel rest hfuel hrest
  obtain ⟨c, tail, htext, -⟩ := text_starts hj
  have hlength : j.text.length = tail.length + 1 := by
    rw [← String.length_toList, htext, List.length_cons]
  obtain ⟨fuel, rfl⟩ := Nat.exists_eq_succ_of_ne_zero (n := fuel) (by omega)
  exact h fuel rest hfuel hrest

theorem value_array {depth fuel : Nat} {items : List Json} (hitems : ∀ j ∈ items, j.Readable depth)
    (h : ∀ j ∈ items, j.Rereads depth) (hfuel : 2 * (Json.array items).text.length ≤ fuel + 1)
    (rest : List Char) :
    value (fuel + 1) (depth + 1) ((Json.array items).text.toList ++ rest) =
      some (.array items, rest) := by
  have hlength : (Json.array items).text.length = (",".intercalate (itemTexts items)).length + 2 := by
    rw [← String.length_toList, toList_array, List.length_cons, List.length_append, String.length_toList]
    rfl
  rw [toList_array, List.cons_append, List.append_assoc, value, afterBlanks_cons rfl]
  cases items with
  | nil => rfl
  | cons first others =>
    have hread := items_text (by simp) h fuel rest (by omega)
    obtain ⟨c, tail, htext, hblank, hbracket⟩ := text_starts (hitems first List.mem_cons_self)
    obtain ⟨more, hstart⟩ := intercalate_starts htext (itemTexts others)
    rw [itemTexts, hstart, List.cons_append] at hread ⊢
    simp only [List.singleton_append, afterBlanks_cons hblank]
    split
    · next heq => exact absurd (List.cons.inj heq).1 hbracket
    · rw [hread]
      rfl

theorem value_object {depth fuel : Nat} {members : List (String × Json)}
    (h : ∀ key j, (key, j) ∈ members → j.Rereads depth)
    (hfuel : 2 * (Json.object members).text.length ≤ fuel + 1) (rest : List Char) :
    value (fuel + 1) (depth + 1) ((Json.object members).text.toList ++ rest) =
      some (.object members, rest) := by
  have hlength : (Json.object members).text.length =
      (",".intercalate (memberTexts members)).length + 2 := by
    rw [← String.length_toList, toList_object, List.length_cons, List.length_append, String.length_toList]
    rfl
  rw [toList_object, List.cons_append, List.append_assoc, value, afterBlanks_cons rfl]
  cases members with
  | nil => rfl
  | cons first others =>
    have hread := members_text (by simp) h fuel rest (by omega)
    obtain ⟨more, hstart⟩ := intercalate_starts
      ((List.append_nil _).symm.trans (toList_member first.1 first.2 [])) (memberTexts others)
    rw [memberTexts, hstart, List.cons_append] at hread ⊢
    simp only [List.singleton_append, afterBlanks_cons (c := '"') rfl]
    split
    · next heq => exact absurd (List.cons.inj heq).1 (by decide)
    · rw [hread]
      rfl

theorem rereads {depth : Nat} {j : Json} (h : j.Readable depth) : j.Rereads depth := by
  induction h with
  | null => exact rereads_of_step .null fun _ _ _ _ => rfl
  | bool b => exact rereads_of_step (.bool b) fun _ _ _ _ => by cases b <;> rfl
  | @int _ n hn =>
    refine rereads_of_step (.int hn) fun fuel rest _ hrest => ?_
    obtain ⟨c, tail, htext, hc⟩ := toString_starts n
    have hread := number_int hn hrest
    rw [text, htext, List.cons_append] at *
    rw [value_number hc, hread]
  | string s =>
    refine rereads_of_step (.string s) fun fuel rest _ _ => ?_
    rw [text, toList_quote, List.cons_append, value, afterBlanks_cons rfl]
    simp [stringBody_quoted]
  | array hitems ih =>
    exact rereads_of_step (.array hitems) fun _ rest hfuel _ => value_array hitems ih hfuel rest
  | object hmembers ih =>
    exact rereads_of_step (.object hmembers) fun _ rest hfuel _ => value_object ih hfuel rest

theorem read_text {j : Json} (h : j.Readable depthLimit) : read j.text = some j := by
  have hread : readValue j.text = some (j, []) := by
    have hrereads := rereads h (2 * j.text.length + 2) [] (by omega) .nil
    rwa [List.append_nil] at hrereads
  rw [read, hread]
  rfl

end GraphQL.Json
