import GraphQL.Proofs.Schema.Attempts
import GraphQL.Proofs.Document.Grammar

/-! # Readers and tokens

`Reads` says what a reader has taken when it gives an item, and that it never goes astray. `Takes`
says which tokens it takes before a given one. Both follow the way in which readers are put
together.
-/

namespace GraphQL

/-- Tokens of which the last one, and no other, is the end of the file. -/
inductive Ended : List (Located Token) → Prop where
  | last {t : Located Token} : t.item = .endOfFile → Ended [t]
  | cons {t : Located Token} {rest : List (Located Token)} :
    t.item ≠ .endOfFile → Ended rest → Ended (t :: rest)

theorem Ended.ne_nil {tokens : List (Located Token)} (h : Ended tokens) : tokens ≠ [] := by
  cases h <;> simp

theorem Ended.of_append {used rest : List (Located Token)} (h : Ended (used ++ rest))
    (hr : rest ≠ []) : Ended rest := by
  induction used with
  | nil => exact h
  | cons t used ih =>
    rw [List.cons_append] at h
    generalize tail : used ++ rest = later at h
    cases h with
    | last => exact absurd (List.append_eq_nil_iff.mp tail).2 hr
    | cons _ h => exact ih (tail ▸ h)

namespace Read

open Grammar

variable {α β : Type}

/-! ## What is read -/

theorem bind_ok {read : Read α} {f : α → Read β} {tokens rest : List (Located Token)} {b : β}
    (h : (read >>= f) tokens = .ok (b, rest)) :
    ∃ a mid, read tokens = .ok (a, mid) ∧ f a mid = .ok (b, rest) := by
  obtain ⟨⟨a, mid⟩, hread, hf⟩ := bind_eq_ok h
  exact ⟨a, mid, hread, hf⟩

theorem bind_error {read : Read α} {f : α → Read β} {tokens : List (Located Token)}
    {e : Located ParseError} (h : (read >>= f) tokens = .error e) :
    read tokens = .error e ∨ ∃ a mid, read tokens = .ok (a, mid) ∧ f a mid = .error e := by
  obtain hread | ⟨⟨a, mid⟩, hread, hf⟩ := bind_eq_error h
  · exact .inl hread
  · exact .inr ⟨a, mid, hread, hf⟩

/-- On at most `size` tokens, the first of which is one of `start`, the reader takes what `post`
says or reports an error. -/
structure Reads (start : Token → Prop) (size : Nat) (read : Read α)
    (post : List Token → α → Prop) : Prop where
  ok {tokens rest : List (Located Token)} {a : α} : Ended tokens → tokens.length ≤ size →
    (∀ t, tokens.head? = some t → start t.item) → read tokens = .ok (a, rest) →
    ∃ used, tokens = used ++ rest ∧ Ended rest ∧ post (used.map (·.item)) a
  error {tokens : List (Located Token)} {e : Located ParseError} : Ended tokens →
    tokens.length ≤ size → (∀ t, tokens.head? = some t → start t.item) →
    read tokens = .error e → e.item ≠ .astray

/-- No condition on a token. -/
abbrev any (_ : Token) : Prop := True

section

variable {start : Token → Prop} {size : Nat} {read : Read α} {post : List Token → α → Prop}
  {goal : List Token → β → Prop}

theorem Reads.mono {larger : Nat} (h : Reads start larger read post) (le : size ≤ larger) :
    Reads start size read post :=
  ⟨fun ended hs => h.ok ended (by omega), fun ended hs => h.error ended (by omega)⟩

theorem Reads.imp {stronger : List Token → α → Prop} (h : Reads start size read stronger)
    (imp : ∀ used a, stronger used a → post used a) : Reads start size read post := by
  refine ⟨fun ended hs first run => ?_, h.error⟩
  obtain ⟨used, rfl, ended', hp⟩ := h.ok ended hs first run
  exact ⟨used, rfl, ended', imp _ _ hp⟩

theorem Reads.zero : Reads start 0 read post := by
  have none_left {tokens : List (Located Token)} (ended : Ended tokens) : ¬ tokens.length ≤ 0 := by
    intro le
    exact ended.ne_nil (List.eq_nil_of_length_eq_zero (by omega))
  exact ⟨fun ended le => absurd le (none_left ended), fun ended le => absurd le (none_left ended)⟩

theorem Reads.pure {a : α} (h : post [] a) : Reads start size (pure a) post := by
  constructor
  · rintro tokens rest _ ended - - ⟨⟩
    exact ⟨[], rfl, ended, h⟩
  · rintro tokens e - - - ⟨⟩

theorem Reads.throw {e : Located ParseError} (h : e.item ≠ .astray) :
    Reads start size (throw e : Read α) post := by
  constructor
  · rintro tokens rest a - - - ⟨⟩
  · rintro tokens e' - - - ⟨⟩
    exact h

theorem Reads.bind {f : α → Read β} (h : Reads start size read post)
    (k : ∀ a used, post used a →
      Reads any (size - used.length) (f a) fun later => goal (used ++ later)) :
    Reads start size (read >>= f) goal := by
  constructor
  · intro tokens rest b ended hs first run
    obtain ⟨a, mid, hread, hf⟩ := bind_ok run
    obtain ⟨used, rfl, ended', hp⟩ := h.ok ended hs first hread
    rw [List.length_append] at hs
    obtain ⟨later, rfl, ended'', hg⟩ :=
      (k a _ hp).ok ended' (by rw [List.length_map]; omega) (fun _ _ => trivial) hf
    refine ⟨used ++ later, by rw [List.append_assoc], ended'', ?_⟩
    rw [List.map_append]
    exact hg
  · intro tokens e ended hs first run
    obtain hread | ⟨a, mid, hread, hf⟩ := bind_error run
    · exact h.error ended hs first hread
    · obtain ⟨used, rfl, ended', hp⟩ := h.ok ended hs first hread
      rw [List.length_append] at hs
      exact (k a _ hp).error ended' (by rw [List.length_map]; omega) (fun _ _ => trivial) hf

theorem Reads.peek {f : Located Token → Read β}
    (k : ∀ t, start t.item → Reads (· = t.item) size (f t) goal) :
    Reads start size (peek >>= f) goal := by
  constructor
  · intro tokens rest b ended hs first run
    cases tokens with
    | nil => exact absurd rfl ended.ne_nil
    | cons t tokens => exact (k t (first t rfl)).ok ended hs (by simp) run
  · intro tokens e ended hs first run
    cases tokens with
    | nil => exact absurd rfl ended.ne_nil
    | cons t tokens => exact (k t (first t rfl)).error ended hs (by simp) run

theorem Reads.remaining {f : Nat → Read β} (k : ∀ n, Reads start n (f n) goal) :
    Reads start size (remaining >>= f) goal :=
  ⟨fun ended _ first run => (k _).ok ended (Nat.le_refl _) first run,
    fun ended _ first run => (k _).error ended (Nat.le_refl _) first run⟩

theorem next_reads : Reads start size next fun used t => used = [t.item] ∧ start t.item := by
  constructor
  · intro tokens rest a ended _ first run
    cases ended with
    | last h => simp [next, h] at run
    | @cons t tokens h ended =>
      simp only [next, h, if_false, Except.ok.injEq, Prod.mk.injEq] at run
      obtain ⟨rfl, rfl⟩ := run
      exact ⟨[t], rfl, ended, rfl, first t rfl⟩
  · intro tokens e ended _ _ run
    cases ended with
    | last h =>
      simp only [next, h, if_true, Except.error.injEq] at run
      subst run
      simp
    | cons h => simp [next, h] at run

theorem unexpected_reads : Reads start size (unexpected : Read α) post := by
  unfold unexpected
  apply next_reads.bind
  intro t used _
  apply Reads.throw
  simp [Located.map]

theorem expect_reads {t : Token} : Reads start size (expect t) fun used _ => used = [t] := by
  unfold expect
  apply Reads.peek
  intro t' _
  split
  case isTrue h => exact next_reads.imp fun used a ⟨hu, ha⟩ => by rw [hu, ha, h]
  case isFalse => exact unexpected_reads

theorem skip_reads {t : Token} : Reads start size (skip t) fun used taken =>
    used = if taken.isSome then [t] else [] := by
  unfold skip
  apply Reads.peek
  intro t' _
  split
  case isTrue h =>
    apply next_reads.bind
    rintro a used ⟨hu, ha⟩
    apply Reads.pure
    simp [hu, ha, h]
  case isFalse =>
    split
    · apply Reads.throw
      simp [Located.atPoint]
    · exact Reads.pure rfl

theorem expectName_reads : Reads start size expectName fun used name =>
    used = [.name name.item] ∧ start (.name name.item) := by
  unfold expectName
  apply Reads.peek
  intro t ht
  split
  case h_1 n h =>
    apply next_reads.bind
    rintro a used ⟨hu, ha⟩
    apply Reads.pure
    rw [h] at ha ht
    exact ⟨by rw [hu, ha]; rfl, ht⟩
  case h_2 => exact unexpected_reads

theorem expectKeyword_reads {keyword : String} :
    Reads start size (expectKeyword keyword) fun used _ => used = [.name keyword] := by
  unfold expectKeyword
  apply Reads.peek
  intro t _
  split
  case isTrue h => exact next_reads.imp fun used a ⟨hu, ha⟩ => by rw [hu, ha, h]
  case isFalse => exact unexpected_reads

variable {item : Read α} (view : α → β) (rule : Production β) {opening closing : Punctuator} {limit : Nat}

/-- The items take at least one token each, so there are no more of them than tokens. -/
theorem upTo_reads (hitem : Reads any size item fun used a => rule used (view a))
    (takes : ∀ used b, rule used b → used ≠ []) (le : size ≤ limit) :
    Reads any size (upTo (.punctuator closing) item limit) fun used p =>
      ∃ inside, used = inside ++ [.punctuator closing] ∧ Many rule inside (p.1.map view) := by
  induction limit generalizing size with
  | zero => exact Reads.zero.mono le
  | succ limit ih =>
    unfold upTo
    apply skip_reads.bind
    rintro (_ | stop) used hused
    · obtain rfl : used = [] := by simpa using hused
      apply Reads.bind (hitem.mono (by omega))
      intro first used hfirst
      have hne : 1 ≤ used.length := List.length_pos_iff.mpr (takes _ _ hfirst)
      apply Reads.bind (ih (hitem.mono (by omega)) (by simp only [List.length_nil]; omega))
      rintro ⟨others, stop⟩ _ ⟨inside, rfl, hothers⟩
      apply Reads.pure
      exact ⟨used ++ inside, by simp, .cons hfirst hothers⟩
    · apply Reads.pure
      exact ⟨[], by simpa using hused, .nil⟩

theorem bracketed_reads (hitem : Reads any size item fun used a => rule used (view a))
    (takes : ∀ used b, rule used b → used ≠ []) (le : size ≤ limit) :
    Reads start (size + 1)
      (bracketed limit (.punctuator opening) (.punctuator closing) item) fun used items =>
        Enclosed opening closing (Many rule) used (items.item.map view) := by
  unfold bracketed
  apply expect_reads.bind
  rintro start _ rfl
  apply Reads.bind (upTo_reads view rule hitem takes le)
  rintro ⟨items, stop⟩ _ ⟨inside, rfl, hitems⟩
  apply Reads.pure
  simpa using Enclosed.intro hitems

theorem bracketedNonempty_reads (hitem : Reads any size item fun used a => rule used (view a))
    (takes : ∀ used b, rule used b → used ≠ []) (le : size ≤ limit) :
    Reads start (size + 1)
      (bracketedNonempty limit (.punctuator opening) (.punctuator closing) item) fun used items =>
        Enclosed opening closing (Several rule) used (items.item.map view) := by
  unfold bracketedNonempty
  apply expect_reads.bind
  rintro start _ rfl
  apply Reads.bind hitem
  intro first used hfirst
  apply Reads.bind ((upTo_reads view rule hitem takes le).mono (by simp))
  rintro ⟨others, stop⟩ _ ⟨inside, rfl, hothers⟩
  apply Reads.pure
  simpa using Enclosed.intro (Several.cons hfirst hothers)

end

/-! ## What is taken -/

/-- Before a token `next`, the reader takes `tokens` and gives something good. There are at most
`size` tokens, those that follow included. -/
def Takes (size : Nat) (read : Read α) (tokens : List Token) (next : Token) (good : α → Prop) :
    Prop :=
  ∀ used t rest, used.map (·.item) = tokens → t.item = next → Ended (used ++ t :: rest) →
    (used ++ t :: rest).length ≤ size → ∃ a, read (used ++ t :: rest) = .ok (a, t :: rest) ∧ good a

section

variable {size : Nat} {read : Read α} {first later tokens : List Token} {t next : Token}
  {good : α → Prop} {goal : β → Prop}

theorem Takes.mono {larger : Nat} (h : Takes larger read tokens next good) (le : size ≤ larger) :
    Takes size read tokens next good :=
  fun used t rest hu ht ended hs => h used t rest hu ht ended (by omega)

theorem Takes.imp {weaker : α → Prop} (h : Takes size read tokens next good)
    (imp : ∀ a, good a → weaker a) : Takes size read tokens next weaker := by
  intro used t rest hu ht ended hs
  obtain ⟨a, hread, ha⟩ := h used t rest hu ht ended hs
  exact ⟨a, hread, imp a ha⟩

theorem Takes.zero : Takes 0 read tokens next good := by
  intro used t rest _ _ _ hs
  simp at hs

theorem Takes.pure {a : α} (h : good a) : Takes size (pure a) [] next good := by
  intro used t rest hu _ _ _
  obtain rfl := List.map_eq_nil_iff.mp hu
  exact ⟨a, rfl, h⟩

theorem bind_eq {f : α → Read β} {tokens rest : List (Located Token)} {a : α}
    (h : read tokens = .ok (a, rest)) : (read >>= f) tokens = f a rest := by
  change (read tokens >>= fun p => f p.1 p.2) = _
  rw [h]
  rfl

theorem Takes.bind {f : α → Read β} (h : Takes size read first (later.headD next) good)
    (k : ∀ a, good a → Takes (size - first.length) (f a) later next goal) :
    Takes size (read >>= f) (first ++ later) next goal := by
  intro used t rest hu ht ended hs
  obtain ⟨taken, left, rfl, rfl, rfl⟩ := List.map_eq_append_iff.mp hu
  rw [List.append_assoc] at ended hs ⊢
  have second (a : α) (ha : good a) :
      ∃ b, f a (left ++ t :: rest) = .ok (b, t :: rest) ∧ goal b := by
    refine k a ha left t rest rfl ht (ended.of_append (by simp)) ?_
    simp only [List.length_append, List.length_map] at hs ⊢
    omega
  cases left with
  | nil =>
    obtain ⟨a, hread, ha⟩ := h taken t rest rfl ht ended hs
    rw [List.nil_append, bind_eq hread]
    exact second a ha
  | cons x left =>
    obtain ⟨a, hread, ha⟩ := h taken x (left ++ t :: rest) rfl rfl ended hs
    rw [List.cons_append, bind_eq hread]
    exact second a ha

theorem Takes.cons {f : α → Read β} (h : Takes size read [t] (later.headD next) good)
    (k : ∀ a, good a → Takes (size - 1) (f a) later next goal) :
    Takes size (read >>= f) (t :: later) next goal :=
  Takes.bind h k

theorem Takes.none {f : α → Read β} (h : Takes size read [] (tokens.headD next) good)
    (k : ∀ a, good a → Takes size (f a) tokens next goal) :
    Takes size (read >>= f) tokens next goal :=
  Takes.bind h k

theorem Takes.last {f : α → β} (h : Takes size read tokens next good)
    (k : ∀ a, good a → goal (f a)) :
    Takes size (read >>= fun a => Pure.pure (f a)) tokens next goal := by
  rw [← List.append_nil tokens]
  exact Takes.bind h fun a ha => Takes.pure (k a ha)

theorem Takes.peek {f : Located Token → Read β}
    (k : ∀ t, t.item = tokens.headD next → Takes size (f t) tokens next goal) :
    Takes size (peek >>= f) tokens next goal := by
  intro used t rest hu ht ended hs
  cases used with
  | nil =>
    subst hu
    exact k t ht [] t rest rfl ht ended hs
  | cons x used =>
    subst hu
    exact k x rfl (x :: used) t rest rfl ht ended hs

theorem Takes.peek_cons {f : Located Token → Read β}
    (k : ∀ x, x.item = t → Takes size (f x) (t :: later) next goal) :
    Takes size (Read.peek >>= f) (t :: later) next goal :=
  Takes.peek k

theorem Takes.remaining {f : Nat → Read β} (k : ∀ n, Takes n (f n) tokens next goal) :
    Takes size (remaining >>= f) tokens next goal :=
  fun used t rest hu ht ended _ => k _ used t rest hu ht ended (Nat.le_refl _)

theorem next_takes : Takes size Read.next [t] next (·.item = t) := by
  intro used x rest hu _ ended _
  obtain ⟨y, rfl, rfl⟩ := List.map_eq_singleton_iff.mp hu
  cases ended with
  | cons hy _ => exact ⟨y, by simp [Read.next, hy], rfl⟩

theorem expect_takes : Takes size (expect t) [t] next fun _ => True := by
  unfold expect
  apply Takes.peek_cons
  intro x hx
  rw [if_pos hx]
  exact next_takes.imp fun _ _ => trivial

theorem skip_takes : Takes size (skip t) [t] next (·.isSome) := by
  unfold skip
  apply Takes.peek_cons
  intro x hx
  rw [if_pos hx]
  apply next_takes.last
  exact fun _ _ => rfl

theorem skip_takes_none (ht : next ≠ t) (hend : next ≠ .endOfFile) :
    Takes size (skip t) [] next (· = none) := by
  unfold skip
  apply Takes.peek
  intro x hx
  rw [List.headD_nil] at hx
  rw [hx, if_neg ht, if_neg hend]
  exact Takes.pure rfl

theorem expectName_takes {name : String} :
    Takes size expectName [.name name] next (·.item = name) := by
  unfold expectName
  apply Takes.peek_cons
  intro x hx
  rw [hx]
  apply next_takes.last
  exact fun _ _ => rfl

theorem expectKeyword_takes {keyword : String} :
    Takes size (expectKeyword keyword) [.name keyword] next fun _ => True := by
  unfold expectKeyword
  apply Takes.peek_cons
  intro x hx
  rw [if_pos hx]
  exact next_takes.imp fun _ _ => trivial

/-- Every tree of the rule starts with a token of this kind. -/
def Starts (rule : Production β) (start : Token → Prop) : Prop :=
  ∀ tokens b, rule tokens b → ∃ t later, tokens = t :: later ∧ start t

theorem Starts.headD {rule : Production β} {start : Token → Prop} (h : Starts rule start) {b : β}
    (derived : rule tokens b) {l : List Token} {n : Token} : start ((tokens ++ l).headD n) := by
  obtain ⟨t, later, rfl, ht⟩ := h _ _ derived
  exact ht

section

variable {item : Read α} (view : α → β) {rule : Production β} {follow : Token → Prop}
  {opening closing : Punctuator} {limit : Nat}

theorem Starts.follows {start : Token → Prop} (starts : Starts rule start) {bs : List β}
    (h : Many rule tokens bs) (first : ∀ t, start t → follow t) (hclosing : follow t) :
    follow ((tokens ++ [t]).headD next) := by
  cases h with
  | nil => exact hclosing
  | cons hfirst _ =>
    rw [List.append_assoc]
    exact first _ (starts.headD hfirst)

theorem upTo_takes
    (hitem : ∀ tokens b next, rule tokens b → follow next →
      Takes size item tokens next (view · = b))
    (starts : Starts rule fun t => follow t ∧ t ≠ .punctuator closing ∧ t ≠ .endOfFile)
    (hclosing : follow (.punctuator closing)) (le : size ≤ limit) {inside : List Token}
    {bs : List β} (h : Many rule inside bs) :
    Takes size (upTo (.punctuator closing) item limit) (inside ++ [.punctuator closing]) next
      (·.1.map view = bs) := by
  induction h generalizing size limit next with
  | nil =>
    cases limit with
    | zero => exact Takes.zero.mono le
    | succ limit =>
      unfold upTo
      apply skip_takes.cons
      intro stop hstop
      obtain ⟨x, rfl⟩ := Option.isSome_iff_exists.mp hstop
      exact Takes.pure rfl
  | @cons first others b bs hfirst hothers ih =>
    cases limit with
    | zero => exact Takes.zero.mono le
    | succ limit =>
      rw [List.append_assoc]
      have hstart := starts.headD (l := others ++ [Token.punctuator closing]) (n := next) hfirst
      unfold upTo
      apply (skip_takes_none hstart.2.1 hstart.2.2).none
      rintro _ rfl
      have hfollow : follow ((others ++ [Token.punctuator closing]).headD next) :=
        starts.follows hothers (fun _ ht => ht.1) hclosing
      apply Takes.bind (hitem _ _ _ hfirst hfollow)
      rintro a rfl
      have taken : 1 ≤ first.length := by
        obtain ⟨t, later, rfl, -⟩ := starts _ _ hfirst
        simp
      have smaller : size - first.length ≤ limit := by omega
      have hrest : Takes (size - first.length) (upTo _ item limit) _ next _ :=
        ih (fun tokens b n hb hf => (hitem tokens b n hb hf).mono (Nat.sub_le _ _)) smaller
      apply hrest.last
      rintro ⟨others, stop⟩ rfl
      rfl

theorem bracketed_takes
    (hitem : ∀ tokens b next, rule tokens b → follow next →
      Takes size item tokens next (view · = b))
    (starts : Starts rule fun t => follow t ∧ t ≠ .punctuator closing ∧ t ≠ .endOfFile)
    (hclosing : follow (.punctuator closing)) (le : size ≤ limit) {bs : List β}
    (h : Enclosed opening closing (Many rule) tokens bs) :
    Takes (size + 1) (bracketed limit (.punctuator opening) (.punctuator closing) item) tokens next
      (·.item.map view = bs) := by
  obtain ⟨h⟩ := h
  unfold bracketed
  apply expect_takes.cons
  rintro start -
  apply (upTo_takes view hitem starts hclosing le h).last
  exact fun _ h => h

theorem bracketedNonempty_takes
    (hitem : ∀ tokens b next, rule tokens b → follow next →
      Takes size item tokens next (view · = b))
    (starts : Starts rule fun t => follow t ∧ t ≠ .punctuator closing ∧ t ≠ .endOfFile)
    (hclosing : follow (.punctuator closing)) (le : size ≤ limit) {bs : List β}
    (h : Enclosed opening closing (Several rule) tokens bs) :
    Takes (size + 1) (bracketedNonempty limit (.punctuator opening) (.punctuator closing) item)
      tokens next (·.item.map view = bs) := by
  obtain ⟨⟨hfirst, hothers⟩⟩ := h
  unfold bracketedNonempty
  apply expect_takes.cons
  rintro start -
  rw [List.append_assoc]
  have hfollow : follow ((_ ++ [Token.punctuator closing]).headD next) :=
    starts.follows hothers (fun _ ht => ht.1) hclosing
  apply Takes.bind (hitem _ _ _ hfirst hfollow)
  rintro a rfl
  apply ((upTo_takes view hitem starts hclosing le hothers).mono (by simp)).last
  rintro ⟨others, stop⟩ rfl
  rfl

end

end

end Read

end GraphQL
