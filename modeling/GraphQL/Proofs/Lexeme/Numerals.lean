import Mathlib.Algebra.Ring.Int.Defs
import Mathlib.Computability.RegularExpressions
import GraphQL.Proofs.Lexeme.Source

/-! # Numerals

Where a minus sign or a digit stands, a number is read exactly if a numeral stands there that runs
into nothing that could belong to it. Everything else there is an error.
-/

namespace GraphQL

namespace Lexeme

/-! ## The pattern of numerals -/

namespace Pattern

/-- One of some characters. -/
def oneOf : List Char → RegularExpression Char
  | [] => 0
  | c :: cs => .char c + oneOf cs

def optional (e : RegularExpression Char) : RegularExpression Char := 1 + e

def repeated (e : RegularExpression Char) : RegularExpression Char := e * e.star

/-- The pattern `[0-9]`. -/
def digit : RegularExpression Char := oneOf ['0', '1', '2', '3', '4', '5', '6', '7', '8', '9']

/-- The pattern `0|[1-9][0-9]*`. -/
def unsigned : RegularExpression Char :=
  .char '0' + oneOf ['1', '2', '3', '4', '5', '6', '7', '8', '9'] * digit.star

/-- The pattern `-?(0|[1-9][0-9]*)`. -/
def whole : RegularExpression Char := optional (.char '-') * unsigned

/-- The pattern `\.[0-9]+`. -/
def fraction : RegularExpression Char := .char '.' * repeated digit

/-- The pattern `[eE][+-]?[0-9]+`. -/
def exponent : RegularExpression Char :=
  oneOf ['e', 'E'] * (optional (oneOf ['+', '-']) * repeated digit)

/-- The pattern `-?(0|[1-9][0-9]*)(\.[0-9]+)?([eE][+-]?[0-9]+)?`. -/
def numeral : RegularExpression Char := whole * (optional fraction * optional exponent)

section

variable {text : List Char} {c : Char} {cs : List Char} {e f : RegularExpression Char}

theorem mem_oneOf : text ∈ (oneOf cs).matches' ↔ ∃ c ∈ cs, text = [c] := by
  induction cs with
  | nil => simp [oneOf, RegularExpression.matches'_zero, Language.notMem_zero]
  | cons c cs ih =>
    rw [oneOf, RegularExpression.matches'_add, Language.mem_add, ih, List.exists_mem_cons_iff]
    rfl

theorem mem_optional : text ∈ (optional e).matches' ↔ text = [] ∨ text ∈ e.matches' := by
  rw [optional, RegularExpression.matches'_add, Language.mem_add]
  rfl

theorem mem_mul : text ∈ (e * f).matches' ↔
    ∃ first ∈ e.matches', ∃ second ∈ f.matches', first ++ second = text := by
  rw [RegularExpression.matches'_mul, Language.mem_mul]

theorem isDigit_iff_mem :
    c.isDigit ↔ c ∈ ['0', '1', '2', '3', '4', '5', '6', '7', '8', '9'] := by
  rw [Char.isDigit_iff_toNat]
  simp only [List.mem_cons, List.not_mem_nil, or_false, ← Char.toNat_inj, Char.reduceToNat]
  omega

theorem mem_digits : text ∈ digit.star.matches' ↔ ∀ c ∈ text, c.isDigit := by
  rw [RegularExpression.matches'_star, Language.mem_kstar]
  constructor
  · rintro ⟨parts, rfl, hparts⟩ c hc
    obtain ⟨part, hpart, hc⟩ := List.mem_flatten.mp hc
    obtain ⟨d, hd, rfl⟩ := mem_oneOf.mp (hparts part hpart)
    rw [List.mem_singleton.mp hc]
    exact isDigit_iff_mem.mpr hd
  · intro h
    refine ⟨text.map fun c => [c], (List.flatMap_singleton' text).symm, fun part hpart => ?_⟩
    obtain ⟨c, hc, rfl⟩ := List.mem_map.mp hpart
    exact mem_oneOf.mpr ⟨c, isDigit_iff_mem.mp (h c hc), rfl⟩

theorem mem_repeated : text ∈ (repeated digit).matches' ↔
    ∃ c rest, text = c :: rest ∧ c.isDigit ∧ ∀ d ∈ rest, d.isDigit := by
  rw [repeated, mem_mul]
  constructor
  · rintro ⟨_, hfirst, rest, hrest, rfl⟩
    obtain ⟨c, hc, rfl⟩ := mem_oneOf.mp hfirst
    exact ⟨c, rest, rfl, isDigit_iff_mem.mpr hc, mem_digits.mp hrest⟩
  · rintro ⟨c, rest, rfl, hc, hrest⟩
    exact ⟨[c], mem_oneOf.mpr ⟨c, isDigit_iff_mem.mp hc, rfl⟩, rest, mem_digits.mpr hrest, rfl⟩

theorem mem_unsigned : text ∈ unsigned.matches' ↔
    text = ['0'] ∨ ∃ c rest, text = c :: rest ∧ c.isDigit ∧ c ≠ '0' ∧ ∀ d ∈ rest, d.isDigit := by
  rw [unsigned, RegularExpression.matches'_add, Language.mem_add, mem_mul]
  refine or_congr Iff.rfl ⟨?_, ?_⟩
  · rintro ⟨_, hfirst, rest, hrest, rfl⟩
    obtain ⟨c, hc, rfl⟩ := mem_oneOf.mp hfirst
    refine ⟨c, rest, rfl, isDigit_iff_mem.mpr (List.mem_cons_of_mem _ hc), ?_, mem_digits.mp hrest⟩
    rintro rfl
    simp at hc
  · rintro ⟨c, rest, rfl, hc, hzero, hrest⟩
    have hc := (List.mem_cons.mp (isDigit_iff_mem.mp hc)).resolve_left hzero
    exact ⟨[c], mem_oneOf.mpr ⟨c, hc, rfl⟩, rest, mem_digits.mpr hrest, rfl⟩

theorem mem_fraction : text ∈ fraction.matches' ↔
    ∃ digits ∈ (repeated digit).matches', text = '.' :: digits := by
  rw [fraction, mem_mul]
  constructor
  · rintro ⟨_, rfl, digits, hdigits, rfl⟩
    exact ⟨digits, hdigits, rfl⟩
  · rintro ⟨digits, hdigits, rfl⟩
    exact ⟨['.'], rfl, digits, hdigits, rfl⟩

theorem mem_exponent : text ∈ exponent.matches' ↔
    ∃ mark ∈ ['e', 'E'], ∃ sign ∈ [[], ['+'], ['-']], ∃ digits ∈ (repeated digit).matches',
      text = mark :: (sign ++ digits) := by
  have signs {sign : List Char} :
      sign ∈ (optional (oneOf ['+', '-'])).matches' ↔ sign ∈ [[], ['+'], ['-']] := by
    simp [mem_optional, mem_oneOf]
  rw [exponent, mem_mul]
  constructor
  · rintro ⟨_, hfirst, tail, htail, rfl⟩
    obtain ⟨mark, hmark, rfl⟩ := mem_oneOf.mp hfirst
    obtain ⟨sign, hsign, digits, hdigits, rfl⟩ := mem_mul.mp htail
    exact ⟨mark, hmark, sign, signs.mp hsign, digits, hdigits, rfl⟩
  · rintro ⟨mark, hmark, sign, hsign, digits, hdigits, rfl⟩
    exact ⟨[mark], mem_oneOf.mpr ⟨mark, hmark, rfl⟩, _,
      mem_mul.mpr ⟨sign, signs.mpr hsign, digits, hdigits, rfl⟩, rfl⟩

theorem mem_whole : text ∈ whole.matches' ↔
    ∃ sign ∈ [[], ['-']], ∃ digits ∈ unsigned.matches', text = sign ++ digits := by
  rw [whole, mem_mul]
  have signs {sign : List Char} :
      sign ∈ (optional (.char '-')).matches' ↔ sign ∈ [[], ['-']] := by
    rw [mem_optional, List.mem_cons, List.mem_singleton]
    rfl
  constructor
  · rintro ⟨sign, hsign, digits, hdigits, rfl⟩
    exact ⟨sign, signs.mp hsign, digits, hdigits, rfl⟩
  · rintro ⟨sign, hsign, digits, hdigits, rfl⟩
    exact ⟨sign, signs.mpr hsign, digits, hdigits, rfl⟩

theorem of_mem_whole (h : text ∈ whole.matches') (hc : c ∈ text) : c = '-' ∨ c.isDigit := by
  obtain ⟨sign, hsign, digits, hdigits, rfl⟩ := mem_whole.mp h
  rcases List.mem_append.mp hc with hc | hc
  · simp only [List.mem_cons, List.not_mem_nil, or_false] at hsign
    rcases hsign with rfl | rfl
    · cases hc
    · exact .inl (List.mem_singleton.mp hc)
  · right
    rcases mem_unsigned.mp hdigits with rfl | ⟨d, rest, rfl, hd, -, hrest⟩
    · rw [List.mem_singleton.mp hc]
      rfl
    · rcases List.mem_cons.mp hc with rfl | hc
      · exact hd
      · exact hrest c hc

theorem exists_of_fraction (h : text ∈ fraction.matches') :
    ∃ c ∈ text, ¬ (c = '-' ∨ c.isDigit) := by
  obtain ⟨digits, -, rfl⟩ := mem_fraction.mp h
  exact ⟨'.', List.mem_cons_self, by decide⟩

theorem exists_of_exponent (h : text ∈ exponent.matches') :
    ∃ c ∈ text, ¬ (c = '-' ∨ c.isDigit) := by
  obtain ⟨mark, hmark, sign, -, digits, -, rfl⟩ := mem_exponent.mp h
  simp only [List.mem_cons, List.not_mem_nil, or_false] at hmark
  rcases hmark with rfl | rfl
  · exact ⟨'e', List.mem_cons_self, by decide⟩
  · exact ⟨'E', List.mem_cons_self, by decide⟩

end

end Pattern

/-! ## Scanners -/

section

variable {α : Type} {kind kind' : α → Bool} {source rest : List α} {c : α}

/-- `rest` does not start with something of this kind. -/
def Stops (kind : α → Bool) (rest : List α) : Prop := ∀ c ∈ rest.head?, kind c = false

theorem stops_cons : Stops kind (c :: rest) ↔ kind c = false := by
  simp [Stops]

theorem not_stops : ¬ Stops kind source ↔ ∃ c rest, source = c :: rest ∧ kind c := by
  cases source <;> simp [Stops]

theorem Stops.imp (h : Stops kind rest) (imp : ∀ c, kind' c → kind c) : Stops kind' rest :=
  fun c hc => Bool.eq_false_iff.mpr fun h' => Bool.eq_false_iff.mp (h c hc) (imp c h')

theorem dropWhile_of_stops (h : Stops kind rest) : rest.dropWhile kind = rest := by
  cases rest with
  | nil => rfl
  | cons c rest => exact List.dropWhile_cons_of_neg (by simp [stops_cons.mp h])

theorem takeWhile_of_stops (h : Stops kind rest) : rest.takeWhile kind = [] := by
  cases rest with
  | nil => rfl
  | cons c rest => exact List.takeWhile_cons_of_neg (by simp [stops_cons.mp h])

theorem stops_dropWhile (kind : α → Bool) (source : List α) :
    Stops kind (source.dropWhile kind) := by
  intro c hc
  exact Bool.eq_false_iff.mpr fun h => by
    have := List.head?_dropWhile_not kind source
    rw [Option.mem_def.mp hc] at this
    simp [h] at this

end

variable {source rest : List Char} {flag : Bool}

theorem digits_eq_ok : digits source = .ok rest ↔
    ∃ text ∈ (Pattern.repeated Pattern.digit).matches',
      source = text ++ rest ∧ Stops Char.isDigit rest := by
  constructor
  · intro h
    unfold digits at h
    split at h
    · cases h
    next c tail =>
    split at h
    case isTrue hc =>
      cases h
      refine ⟨c :: tail.takeWhile Char.isDigit, Pattern.mem_repeated.mpr ⟨c, _, rfl, hc, ?_⟩, ?_, ?_⟩
      · exact fun d hd => List.mem_takeWhile_imp hd
      · rw [List.cons_append, List.takeWhile_append_dropWhile]
      · exact stops_dropWhile _ _
    case isFalse => cases h
  · rintro ⟨text, htext, rfl, hrest⟩
    obtain ⟨c, tail, rfl, hc, htail⟩ := Pattern.mem_repeated.mp htext
    rw [List.cons_append, digits, if_pos hc, List.dropWhile_append_of_pos htail,
      dropWhile_of_stops hrest]

theorem wholePart_eq_ok : wholePart source = .ok rest ↔
    ∃ text ∈ Pattern.unsigned.matches', source = text ++ rest ∧ Stops Char.isDigit rest := by
  constructor
  · intro h
    unfold wholePart at h
    split at h
    next c tail =>
      split at h
      · cases h
      next hc =>
        cases h
        exact ⟨['0'], .inl rfl, rfl, stops_cons.mpr (by simpa using hc)⟩
    next single =>
      obtain ⟨text, htext, rfl, hrest⟩ := digits_eq_ok.mp h
      obtain ⟨c, tail, rfl, hc, htail⟩ := Pattern.mem_repeated.mp htext
      refine ⟨c :: tail, Pattern.mem_unsigned.mpr ?_, rfl, hrest⟩
      by_cases hzero : c = '0'
      · subst hzero
        cases tail with
        | nil => exact .inl rfl
        | cons d tail => exact absurd rfl (single d (tail ++ rest))
      · exact .inr ⟨c, tail, rfl, hc, hzero, htail⟩
  · rintro ⟨text, htext, rfl, hrest⟩
    rcases Pattern.mem_unsigned.mp htext with rfl | ⟨c, tail, rfl, hc, hzero, htail⟩
    · cases rest with
      | nil => rfl
      | cons d rest =>
        have hd : d.isDigit = false := stops_cons.mp hrest
        rw [List.singleton_append, wholePart, if_neg (by simp [hd])]
    · have digits : digits (c :: tail ++ rest) = .ok rest :=
        digits_eq_ok.mpr ⟨_, Pattern.mem_repeated.mpr ⟨c, tail, rfl, hc, htail⟩, rfl, hrest⟩
      unfold wholePart
      split
      next heq => exact absurd (List.cons.inj heq).1 hzero
      next => exact digits

/-- An optional part of a number stands in front of `rest`, unless the flag is not set. Then `rest`
does not start as such a part does. -/
inductive Part (e : RegularExpression Char) (starts : Char → Bool) :
    Bool → List Char → List Char → Prop
  | present {text rest : List Char} (h : text ∈ e.matches') (hrest : Stops Char.isDigit rest) :
      Part e starts true (text ++ rest) rest
  | absent {rest : List Char} (h : Stops starts rest) : Part e starts false rest rest

section

variable {e : RegularExpression Char} {starts : Char → Bool} {text : List Char}

theorem Part.stops (h : Part e starts flag source rest) (hsource : Stops Char.isDigit source) :
    Stops Char.isDigit rest := by
  cases h with
  | present _ hrest => exact hrest
  | absent => exact hsource

theorem Part.exists_text (h : Part e starts flag source rest) :
    ∃ text ∈ (Pattern.optional e).matches', source = text ++ rest ∧
      if flag then text ∈ e.matches' else text = [] := by
  cases h with
  | present h => exact ⟨_, Pattern.mem_optional.mpr (.inr h), rfl, h⟩
  | absent => exact ⟨[], Pattern.mem_optional.mpr (.inl rfl), rfl, rfl⟩

theorem exists_part (h : text ∈ (Pattern.optional e).matches') (hdigit : Stops Char.isDigit rest)
    (hstarts : Stops starts rest) : ∃ flag, Part e starts flag (text ++ rest) rest := by
  rcases Pattern.mem_optional.mp h with rfl | h
  · exact ⟨false, .absent hstarts⟩
  · exact ⟨true, .present h hdigit⟩

end

def isPoint (c : Char) : Bool := c = '.'

theorem fraction_of_stops (h : Stops isPoint source) : fraction source = .ok (source, false) := by
  unfold fraction
  split
  · exact absurd (stops_cons.mp h) (by simp [isPoint])
  · rfl

theorem fraction_eq_ok :
    fraction source = .ok (rest, flag) ↔ Part Pattern.fraction isPoint flag source rest := by
  constructor
  · intro h
    by_cases hpoint : Stops isPoint source
    · rw [fraction_of_stops hpoint] at h
      cases h
      exact .absent hpoint
    · obtain ⟨c, tail, rfl, hc⟩ := not_stops.mp hpoint
      obtain rfl : c = '.' := by simpa [isPoint] using hc
      obtain ⟨stop, hstop, heq⟩ := map_eq_ok h
      cases heq
      obtain ⟨text, htext, rfl, hrest⟩ := digits_eq_ok.mp hstop
      exact .present (Pattern.mem_fraction.mpr ⟨text, htext, rfl⟩) hrest
  · rintro (⟨h, hrest⟩ | h)
    · obtain ⟨digits, hdigits, rfl⟩ := Pattern.mem_fraction.mp h
      rw [List.cons_append, fraction, digits_eq_ok.mpr ⟨digits, hdigits, rfl, hrest⟩]
      rfl
    · exact fraction_of_stops h

theorem afterSign_append {sign : List Char} (hsign : sign ∈ [[], ['+'], ['-']])
    {digits : List Char} (h : digits ∈ (Pattern.repeated Pattern.digit).matches') :
    afterSign (sign ++ digits ++ rest) = digits ++ rest := by
  obtain ⟨c, tail, rfl, hc, -⟩ := Pattern.mem_repeated.mp h
  simp only [List.mem_cons, List.not_mem_nil, or_false] at hsign
  rcases hsign with rfl | rfl | rfl
  · unfold afterSign
    split
    next heq =>
      cases heq
      cases hc
    next heq =>
      cases heq
      cases hc
    next => rfl
  · rfl
  · rfl

theorem exists_sign (source : List Char) :
    ∃ sign ∈ [[], ['+'], ['-']], source = sign ++ afterSign source := by
  unfold afterSign
  split
  · exact ⟨['+'], by simp, rfl⟩
  · exact ⟨['-'], by simp, rfl⟩
  · exact ⟨[], by simp, rfl⟩

/-- A character that starts an exponent. -/
def isMark (c : Char) : Bool := c = 'e' || c = 'E'

theorem exponent_cons {mark : Char} (h : mark ∈ ['e', 'E']) (tail : List Char) :
    exponent (mark :: tail) = (digits (afterSign tail)).map (·, true) := by
  simp only [List.mem_cons, List.not_mem_nil, or_false] at h
  rcases h with rfl | rfl <;> rfl

theorem exponent_of_stops (h : Stops isMark source) : exponent source = .ok (source, false) := by
  unfold exponent
  split
  · exact absurd (stops_cons.mp h) (by simp [isMark])
  · exact absurd (stops_cons.mp h) (by simp [isMark])
  · rfl

theorem exponent_eq_ok :
    exponent source = .ok (rest, flag) ↔ Part Pattern.exponent isMark flag source rest := by
  constructor
  · intro h
    by_cases hmark : Stops isMark source
    · rw [exponent_of_stops hmark] at h
      cases h
      exact .absent hmark
    · obtain ⟨mark, tail, rfl, hm⟩ := not_stops.mp hmark
      have hm : mark ∈ ['e', 'E'] := by simpa [isMark] using hm
      rw [exponent_cons hm] at h
      obtain ⟨stop, hstop, heq⟩ := map_eq_ok h
      cases heq
      obtain ⟨sign, hsign, htail⟩ := exists_sign tail
      obtain ⟨text, htext, hafter, hrest⟩ := digits_eq_ok.mp hstop
      have whole : mark :: tail = mark :: (sign ++ text) ++ rest := by
        rw [List.cons_append, List.append_assoc, ← hafter, ← htail]
      rw [whole]
      exact .present (Pattern.mem_exponent.mpr ⟨mark, hm, sign, hsign, text, htext, rfl⟩) hrest
  · rintro (⟨h, hrest⟩ | h)
    · obtain ⟨mark, hmark, sign, hsign, digits, hdigits, rfl⟩ := Pattern.mem_exponent.mp h
      rw [List.cons_append, exponent_cons hmark, afterSign_append hsign hdigits,
        digits_eq_ok.mpr ⟨digits, hdigits, rfl, hrest⟩]
      rfl
    · exact exponent_of_stops h

/-! ## Numbers -/

/-- Characters that a number may not run into. -/
def runsOn (c : Char) : Bool := c.isDigit || c = '.' || c.isAlpha || c = '_'

theorem endOfNumber_eq_ok : endOfNumber source = .ok () ↔
    Stops (fun c => c = '.' || isNameStart c) source := by
  cases source with
  | nil => simp [endOfNumber, Stops]
  | cons c rest => simp [endOfNumber, stops_cons]

/-- Past an optional minus sign. -/
def afterMinus (source : List Char) : List Char :=
  match source with
  | '-' :: rest => rest
  | _ => source

theorem number_eq (source : List Char) : number source = do
    let afterWhole ← wholePart (afterMinus source)
    let (afterFraction, hasFraction) ← fraction afterWhole
    let (afterExponent, hasExponent) ← exponent afterFraction
    endOfNumber afterExponent
    return (afterExponent, hasFraction || hasExponent) := rfl

theorem exists_minus (source : List Char) :
    ∃ sign ∈ [[], ['-']], source = sign ++ afterMinus source := by
  unfold afterMinus
  split
  · exact ⟨['-'], by simp, rfl⟩
  · exact ⟨[], by simp, rfl⟩

theorem afterMinus_append {sign text : List Char} (hsign : sign ∈ [[], ['-']])
    (h : text ∈ Pattern.unsigned.matches') : afterMinus (sign ++ text ++ rest) = text ++ rest := by
  simp only [List.mem_cons, List.not_mem_nil, or_false] at hsign
  rcases hsign with rfl | rfl
  · rcases Pattern.mem_unsigned.mp h with rfl | ⟨c, tail, rfl, hc, -⟩
    · rfl
    · unfold afterMinus
      split
      next heq =>
        cases heq
        cases hc
      next => rfl
  · rfl

theorem stops_runsOn (hdigit : Stops Char.isDigit rest)
    (hend : Stops (fun c => c = '.' || isNameStart c) rest) : Stops runsOn rest := by
  intro c hc
  have hd := hdigit c hc
  have he := hend c hc
  simp only [isNameStart, Bool.or_eq_false_iff] at he
  simp [runsOn, hd, he]

theorem exists_numeral_of_number (h : number source = .ok (rest, flag)) :
    ∃ text ∈ Pattern.numeral.matches', source = text ++ rest ∧ Stops runsOn rest ∧
      (flag = false ↔ text ∈ Pattern.whole.matches') := by
  rw [number_eq] at h
  obtain ⟨afterWhole, hwhole, h⟩ := bind_eq_ok h
  obtain ⟨⟨afterFraction, hasFraction⟩, hfraction, h⟩ := bind_eq_ok h
  obtain ⟨⟨afterExponent, hasExponent⟩, hexponent, h⟩ := bind_eq_ok h
  obtain ⟨⟨⟩, hend, h⟩ := bind_eq_ok h
  cases h
  obtain ⟨sign, hsign, hsource⟩ := exists_minus source
  obtain ⟨digits, hdigits, hunsigned, noDigit⟩ := wholePart_eq_ok.mp hwhole
  have hfraction := fraction_eq_ok.mp hfraction
  have hexponent := exponent_eq_ok.mp hexponent
  have hstops := hexponent.stops (hfraction.stops noDigit)
  obtain ⟨fraction, hoptional, rfl, isFraction⟩ := hfraction.exists_text
  obtain ⟨exponent, hoptional', rfl, isExponent⟩ := hexponent.exists_text
  have isWhole : sign ++ digits ∈ Pattern.whole.matches' :=
    Pattern.mem_whole.mpr ⟨sign, hsign, digits, hdigits, rfl⟩
  refine ⟨sign ++ digits ++ (fraction ++ exponent), ?_, ?_, ?_, ?_⟩
  · exact Pattern.mem_mul.mpr ⟨_, isWhole, _, Pattern.mem_mul.mpr
      ⟨fraction, hoptional, exponent, hoptional', rfl⟩, rfl⟩
  · rw [hsource, hunsigned]
    simp only [List.append_assoc]
  · exact stops_runsOn hstops (endOfNumber_eq_ok.mp hend)
  · rw [Bool.or_eq_false_iff]
    constructor
    · rintro ⟨rfl, rfl⟩
      obtain rfl : fraction = [] := isFraction
      obtain rfl : exponent = [] := isExponent
      simpa using isWhole
    · intro h
      have plain {c : Char} (hc : c ∈ fraction ++ exponent) : c = '-' ∨ c.isDigit :=
        Pattern.of_mem_whole h (List.mem_append_right _ hc)
      refine ⟨Bool.eq_false_iff.mpr ?_, Bool.eq_false_iff.mpr ?_⟩
      · rintro rfl
        obtain ⟨c, hc, other⟩ := Pattern.exists_of_fraction isFraction
        exact other (plain (List.mem_append_left _ hc))
      · rintro rfl
        obtain ⟨c, hc, other⟩ := Pattern.exists_of_exponent isExponent
        exact other (plain (List.mem_append_right _ hc))

theorem Stops.append_exponent {kind : Char → Bool} {text : List Char}
    (h : text ∈ (Pattern.optional Pattern.exponent).matches')
    (hmark : ['e', 'E'].all (!kind ·)) (hrest : Stops kind rest) :
    Stops kind (text ++ rest) := by
  rcases Pattern.mem_optional.mp h with rfl | h
  · exact hrest
  · obtain ⟨mark, hm, sign, -, digits, -, rfl⟩ := Pattern.mem_exponent.mp h
    exact stops_cons.mpr (by simpa using List.all_eq_true.mp hmark mark hm)

theorem Stops.append_fraction {kind : Char → Bool} {text : List Char}
    (h : text ∈ (Pattern.optional Pattern.fraction).matches') (hpoint : kind '.' = false)
    (hrest : Stops kind rest) : Stops kind (text ++ rest) := by
  rcases Pattern.mem_optional.mp h with rfl | h
  · exact hrest
  · obtain ⟨digits, -, rfl⟩ := Pattern.mem_fraction.mp h
    exact stops_cons.mpr hpoint

theorem exists_number_of_numeral {text : List Char} (h : text ∈ Pattern.numeral.matches')
    (hrest : Stops runsOn rest) : ∃ flag, number (text ++ rest) = .ok (rest, flag) := by
  obtain ⟨_, hwhole, _, hmore, rfl⟩ := Pattern.mem_mul.mp h
  obtain ⟨fraction, isFraction, exponent, isExponent, rfl⟩ := Pattern.mem_mul.mp hmore
  obtain ⟨sign, hsign, digits, hdigits, rfl⟩ := Pattern.mem_whole.mp hwhole
  have noDigit : Stops Char.isDigit rest := hrest.imp (by simp +contextual [runsOn])
  have noPoint : Stops isPoint rest := hrest.imp (by simp +contextual [runsOn, isPoint])
  have noMark : Stops isMark rest := hrest.imp (by simp +contextual [runsOn, isMark])
  have noEnd : Stops (fun c => c = '.' || isNameStart c) rest :=
    hrest.imp (by simp +contextual [runsOn, isNameStart])
  have noDigit' := noDigit.append_exponent isExponent (by decide)
  have noPoint' := noPoint.append_exponent isExponent (by decide)
  obtain ⟨hasExponent, hexponent⟩ := exists_part isExponent noDigit noMark
  obtain ⟨hasFraction, hfraction⟩ := exists_part isFraction noDigit' noPoint'
  have readExponent := exponent_eq_ok.mpr hexponent
  have readFraction := fraction_eq_ok.mpr hfraction
  have readWhole := wholePart_eq_ok.mpr
    ⟨digits, hdigits, rfl, noDigit'.append_fraction isFraction rfl⟩
  refine ⟨hasFraction || hasExponent, ?_⟩
  have split : sign ++ digits ++ (fraction ++ exponent) ++ rest =
      sign ++ digits ++ (fraction ++ (exponent ++ rest)) := by simp only [List.append_assoc]
  rw [number_eq, split, afterMinus_append hsign hdigits, readWhole]
  change (Lexeme.fraction _ >>= _) = _
  rw [readFraction]
  change (Lexeme.exponent _ >>= _) = _
  rw [readExponent]
  change (endOfNumber _ >>= _) = _
  rw [endOfNumber_eq_ok.mpr noEnd]
  rfl

theorem number_eq_ok : number source = .ok (rest, flag) ↔
    ∃ text ∈ Pattern.numeral.matches', source = text ++ rest ∧ Stops runsOn rest ∧
      (flag = false ↔ text ∈ Pattern.whole.matches') := by
  refine ⟨exists_numeral_of_number, ?_⟩
  rintro ⟨text, htext, rfl, hrest, hflag⟩
  obtain ⟨flag', hread⟩ := exists_number_of_numeral htext hrest
  obtain ⟨text', -, heq, -, hflag'⟩ := exists_numeral_of_number hread
  obtain rfl := List.append_cancel_right heq
  have hsame : flag' = false ↔ flag = false := hflag'.trans hflag.symm
  rw [hread]
  cases flag <;> cases flag' <;> simp_all

/-! ## Tokens -/

/-- The token that the text of a numeral is: whole numbers have neither a fraction nor an exponent. -/
inductive Numeral (text : List Char) : Token → Prop
  | int (h : text ∈ Pattern.whole.matches') : Numeral text (.int (String.ofList text))
  | float (h : text ∈ Pattern.numeral.matches') (hwhole : text ∉ Pattern.whole.matches') :
      Numeral text (.float (String.ofList text))

/-- The number `t` stands in front of `rest` and does not run into it. -/
inductive NumberAt : List Char → Token → List Char → Prop
  | intro {text rest : List Char} {t : Token} (h : Numeral text t) (hrest : Stops runsOn rest) :
      NumberAt (text ++ rest) t rest

theorem Pattern.numeral_of_whole {text : List Char} (h : text ∈ whole.matches') :
    text ∈ numeral.matches' :=
  mem_mul.mpr ⟨text, h, [], mem_mul.mpr
    ⟨[], mem_optional.mpr (.inl rfl), [], mem_optional.mpr (.inl rfl), rfl⟩, List.append_nil text⟩

theorem punctuator?_of_isDigit {c : Char} (hc : c.isDigit) : punctuator? c = none := by
  unfold punctuator?
  split
  case h_13 => rfl
  all_goals cases hc

theorem scan_number {c : Char} (hc : c = '-' ∨ c.isDigit) (rest : List Char) :
    scan c rest = (number (c :: rest)).map fun (stop, isFloat) =>
      (if isFloat then .float (String.ofList (taken (c :: rest) stop))
        else .int (String.ofList (taken (c :: rest) stop)), stop) := by
  have other : punctuator? c = none ∧ c ≠ '.' ∧ c ≠ '"' := by
    rcases hc with rfl | hc
    · decide
    · refine ⟨punctuator?_of_isDigit hc, ?_, ?_⟩ <;> rintro rfl <;> cases hc
  unfold scan
  rw [other.1]
  dsimp only
  rw [if_neg other.2.1, if_neg other.2.2, if_pos (by simpa using hc)]

theorem scan_number_eq_ok {c : Char} (hc : c = '-' ∨ c.isDigit) {t : Token} {stop : List Char} :
    scan c rest = .ok (t, stop) ↔ NumberAt (c :: rest) t stop := by
  rw [scan_number hc]
  constructor
  · intro h
    obtain ⟨⟨stop, isFloat⟩, hread, heq⟩ := map_eq_ok h
    cases heq
    obtain ⟨text, htext, hsource, hrest, hwhole⟩ := number_eq_ok.mp hread
    rw [hsource, taken_append]
    refine .intro ?_ hrest
    cases isFloat with
    | false => exact .int (hwhole.mp rfl)
    | true => exact .float htext fun h => nomatch hwhole.mpr h
  · intro h
    generalize hsource : c :: rest = source at h
    obtain ⟨h, hrest⟩ := h
    cases h with
    | int h =>
      have read : number _ = .ok (stop, false) :=
        number_eq_ok.mpr ⟨_, Pattern.numeral_of_whole h, rfl, hrest, iff_of_true rfl h⟩
      rw [read]
      simp [Except.map, taken_append]
    | float h hwhole =>
      have read : number _ = .ok (stop, true) :=
        number_eq_ok.mpr ⟨_, h, rfl, hrest, iff_of_false nofun hwhole⟩
      rw [read]
      simp [Except.map, taken_append]

end Lexeme

/-! ## Literals -/

theorem Decimal.isInt64_iff {n : Int} : Decimal.isInt64 n ↔ -2 ^ 63 ≤ n ∧ n < 2 ^ 63 := by
  have least : Int64.minValue.toInt = -2 ^ 63 := rfl
  have greatest : Int64.maxValue.toInt = 2 ^ 63 - 1 := rfl
  simp only [Decimal.isInt64, least, greatest, Bool.and_eq_true, decide_eq_true_eq]
  omega

namespace Read

theorem literal_scalar {t : Token} {result : Except ParseError Literal}
    (h : scalarLiteral? t = some result) (const : Bool) (span : Span)
    (later : List (Located Token)) : Read.literal const (⟨t, span⟩ :: later) =
      (result.map (⟨·, span⟩, later)).mapError (⟨·, span⟩) := by
  have hremaining : Read.remaining (⟨t, span⟩ :: later) =
      .ok (later.length + 1, ⟨t, span⟩ :: later) := rfl
  have hpeek : Read.peek (⟨t, span⟩ :: later) = .ok (⟨t, span⟩, ⟨t, span⟩ :: later) := rfl
  unfold Read.literal
  rw [bind_eq hremaining]
  unfold literalWithin
  rw [bind_eq hpeek]
  cases t with
  | name => cases h
  | punctuator => cases h
  | endOfFile => cases h
  | _ =>
    simp only [h]
    cases result <;> rfl

end Read

namespace Lexeme.Lexer

theorem next_of_afterGap {p : Position} {source rest : List Char} {c : Char}
    {scanned : Token → List Char → Prop} (hstart : afterGap false source = c :: rest)
    (hscan : ∀ t stop, scan c rest = .ok (t, stop) ↔ scanned t stop) :
    (∀ t stop,
      (∃ span, (Lexer.mk p (some source)).next = some (.ok ⟨t, span⟩, ⟨span.stop, some stop⟩)) ↔
        scanned t stop) ∧
    ((∃ e l, (Lexer.mk p (some source)).next = some (.error e, l)) ↔
      ∀ t stop, ¬ scanned t stop) := by
  simp only [next, Option.map_some, hstart, ← hscan]
  cases scan c rest with
  | ok given =>
    obtain ⟨t, stop⟩ := given
    refine ⟨fun t' stop' => ⟨?_, ?_⟩, ?_⟩
    · rintro ⟨span, h⟩
      simp_all
    · rintro ⟨⟩
      exact ⟨_, rfl⟩
    · simp
  | error f => simp

/-- Where a minus sign or a digit stands, a number token is given exactly if a numeral stands there
that runs into no digit, point, letter or underscore; it is that numeral. Otherwise there is an
error. A whole number is read as a literal exactly if it has 64 bits. -/
theorem numerals_exactly {source rest : List Char} {c : Char} (p : Position)
    (hstart : afterGap false source = c :: rest) (hc : c = '-' ∨ c.isDigit) :
    (∀ t stop,
      (∃ span, (Lexer.mk p (some source)).next = some (.ok ⟨t, span⟩, ⟨span.stop, some stop⟩)) ↔
        NumberAt (c :: rest) t stop) ∧
    ((∃ e l, (Lexer.mk p (some source)).next = some (.error e, l)) ↔
      ∀ t stop, ¬ NumberAt (c :: rest) t stop) ∧
    ∀ digits stop, NumberAt (c :: rest) (.int digits) stop → ∀ const span later,
      ((∃ l, Read.literal const (⟨.int digits, span⟩ :: later) = .ok (l, later)) ↔
        -2 ^ 63 ≤ Grammar.wholeValue digits ∧ Grammar.wholeValue digits < 2 ^ 63) ∧
      ∀ l left, Read.literal const (⟨.int digits, span⟩ :: later) = .ok (l, left) →
        ∃ n : Int64, l = ⟨.int n, span⟩ ∧ n.toInt = Grammar.wholeValue digits := by
  obtain ⟨tokens, errors⟩ := @next_of_afterGap p _ _ _ _ hstart fun _ _ => scan_number_eq_ok hc
  refine ⟨tokens, errors, ?_⟩
  intro digits stop _ const span later
  rw [Read.literal_scalar rfl, ← Decimal.isInt64_iff]
  cases hread : Read.int64? digits with
  | none =>
    have unfit : ¬ Decimal.isInt64 (Grammar.wholeValue digits) := by
      intro fits
      rw [Read.int64?_eq, if_pos fits] at hread
      cases hread
    exact ⟨iff_of_false nofun unfit, nofun⟩
  | some n =>
    have value := Read.toInt_of_int64? hread
    have fits : Decimal.isInt64 (Grammar.wholeValue digits) := by
      rw [Decimal.isInt64_iff, ← value]
      exact ⟨Int64.le_toInt n, Int64.toInt_lt n⟩
    refine ⟨iff_of_true ⟨_, rfl⟩ fits, ?_⟩
    rintro l left ⟨⟩
    exact ⟨n, rfl, value⟩

/-- The least number of 64 bits, in front of a bracket. -/
def sampleLeast : String := ", -9223372036854775808]"

theorem sampleLeast_exactly :
    (∃ span, (Lexer.ofSource sampleLeast).next =
      some (.ok ⟨.int "-9223372036854775808", span⟩, ⟨span.stop, some [']']⟩)) ∧
    ∃ l, Read.literal true [⟨.int "-9223372036854775808", .nowhere⟩] = .ok (l, []) := by
  obtain ⟨tokens, -, literals⟩ := @numerals_exactly sampleLeast.toList "9223372036854775808]".toList
    '-' .origin (by decide) (.inl rfl)
  have text : "-9223372036854775808".toList ∈ Pattern.whole.matches' :=
    (RegularExpression.rmatch_iff_matches' _ _).mp (by decide +kernel)
  have isNumber : NumberAt ('-' :: "9223372036854775808]".toList)
      (.int "-9223372036854775808") [']'] := @NumberAt.intro _ [']'] _ (.int text) (stops_cons.mpr rfl)
  exact ⟨(tokens _ _).mpr isNumber, (literals _ _ isNumber true .nowhere []).1.mpr (by decide)⟩

end Lexeme.Lexer

end GraphQL
