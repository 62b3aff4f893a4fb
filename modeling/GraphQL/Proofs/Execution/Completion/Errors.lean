import Mathlib.Data.List.Perm.Subperm
import GraphQL.Proofs.Execution.Collection.Basic
import GraphQL.Proofs.Execution.Completion.Conformance
import GraphQL.Proofs.Value.Merging

/-! # Errors and nulls explain each other

An error that arises somewhere in a response makes a null there or further up, and every null that
the host did not give comes from an error. The errors of a response come in the order of their
places, no two of them from one place.
-/

namespace GraphQL

open Process

variable {σ : Type}

/-! ## Paths -/

namespace Path

/-- The segments from the root, each with its ordinal. -/
def steps : Path → List (Segment × Nat)
  | root => []
  | extend p s n => p.steps ++ [(s, n)]

theorem segments_eq (p : Path) : p.segments = p.steps.map Prod.fst := by
  induction p with
  | root => rfl
  | extend p s n ih => simp [segments, steps, ih]

theorem ordinals_eq (p : Path) : p.ordinals = p.steps.map Prod.snd := by
  induction p with
  | root => rfl
  | extend p s n ih => simp [ordinals, steps, ih]

/-- Whether two places are below different children of a third. -/
def Diverge (p q : Path) : Prop :=
  ∃ common s m t n, s ≠ t ∧ m ≠ n ∧ common ++ [(s, m)] <+: p.steps ∧ common ++ [(t, n)] <+: q.steps

theorem Diverge.symm {p q : Path} (h : p.Diverge q) : q.Diverge p := by
  obtain ⟨common, s, m, t, n, hst, hmn, hp, hq⟩ := h
  exact ⟨common, t, n, s, m, hst.symm, hmn.symm, hq, hp⟩

theorem eq_of_prefixes {α : Type} {common l : List α} {a b : α} (ha : common ++ [a] <+: l)
    (hb : common ++ [b] <+: l) : a = b := by
  have hbelow := List.prefix_of_prefix_length_le ha hb (by simp)
  have heq := hbelow.eq_of_length (by simp)
  simpa using heq

theorem Diverge.segments_ne {p q : Path} (h : p.Diverge q) : p.segments ≠ q.segments := by
  obtain ⟨common, s, m, t, n, hst, -, hp, hq⟩ := h
  intro heq
  rw [segments_eq, segments_eq] at heq
  have hp := hp.map Prod.fst
  have hq := hq.map Prod.fst
  rw [heq] at hp
  simp only [List.map_append, List.map_cons, List.map_nil] at hp hq
  exact hst (eq_of_prefixes hp hq)

theorem Diverge.ordinals_ne {p q : Path} (h : p.Diverge q) : p.ordinals ≠ q.ordinals := by
  obtain ⟨common, s, m, t, n, -, hmn, hp, hq⟩ := h
  intro heq
  rw [ordinals_eq, ordinals_eq] at heq
  have hp := hp.map Prod.snd
  have hq := hq.map Prod.snd
  rw [heq] at hp
  simp only [List.map_append, List.map_cons, List.map_nil] at hp hq
  exact hmn (eq_of_prefixes hp hq)

theorem notAfter_total (a b : List Nat) : notAfter a b || notAfter b a := by
  induction a generalizing b with
  | nil => rfl
  | cons m a ih =>
    cases b with
    | nil => rfl
    | cons n b =>
      have hrest := ih b
      simp only [notAfter, Bool.or_eq_true, Bool.and_eq_true, decide_eq_true_eq, beq_iff_eq] at *
      rcases Nat.lt_trichotomy m n with hlt | rfl | hgt
      · exact .inl (.inl hlt)
      · exact hrest.imp (fun h => .inr ⟨rfl, h⟩) fun h => .inr ⟨rfl, h⟩
      · exact .inr (.inl hgt)

theorem notAfter_trans {a b c : List Nat} (hab : notAfter a b) (hbc : notAfter b c) :
    notAfter a c := by
  induction a generalizing b c with
  | nil => rfl
  | cons m a ih =>
    cases b with
    | nil => simp [notAfter] at hab
    | cons n b =>
      cases c with
      | nil => simp [notAfter] at hbc
      | cons k c =>
        simp only [notAfter, Bool.or_eq_true, Bool.and_eq_true, decide_eq_true_eq, beq_iff_eq] at *
        rcases hab with hab | ⟨rfl, hab⟩
        · rcases hbc with hbc | ⟨rfl, -⟩ <;> omega
        · rcases hbc with hbc | ⟨rfl, hbc⟩
          · exact .inl hbc
          · exact .inr ⟨rfl, ih hab hbc⟩

theorem lt_of_notAfter {a b : List Nat} (h : notAfter a b) (hne : a ≠ b) : a < b := by
  induction a generalizing b with
  | nil =>
    cases b with
    | nil => exact absurd rfl hne
    | cons n b => exact List.nil_lt_cons n b
  | cons m a ih =>
    cases b with
    | nil => simp [notAfter] at h
    | cons n b =>
      simp only [notAfter, Bool.or_eq_true, Bool.and_eq_true, decide_eq_true_eq, beq_iff_eq] at h
      rw [List.cons_lt_cons_iff]
      rcases h with h | ⟨rfl, h⟩
      · exact .inl h
      · exact .inr ⟨rfl, ih h fun heq => hne (heq ▸ rfl)⟩

end Path

theorem inResponseOrder_perm (errors : List ExecutionError) : (inResponseOrder errors).Perm errors :=
  List.mergeSort_perm _ _

theorem inResponseOrder_sorted (errors : List ExecutionError) :
    (inResponseOrder errors).Pairwise fun a b =>
      Path.notAfter a.path.ordinals b.path.ordinals := by
  apply List.pairwise_mergeSort
  · exact fun _ _ _ => Path.notAfter_trans
  · exact fun _ _ => Path.notAfter_total _ _

theorem inResponseOrder_increasing {errors : List ExecutionError}
    (h : errors.Pairwise fun a b => a.path.Diverge b.path) :
    ((inResponseOrder errors).map fun e => e.path.segments).Nodup ∧
      (inResponseOrder errors).Pairwise fun a b => a.path.ordinals < b.path.ordinals := by
  have hdiverge := ((inResponseOrder_perm errors).pairwise_iff Path.Diverge.symm).mpr h
  constructor
  · exact List.pairwise_map.mpr (hdiverge.imp Path.Diverge.segments_ne)
  · exact hdiverge.imp₂ (fun _ _ hdiverge hsorted => Path.lt_of_notAfter hsorted hdiverge.ordinals_ne)
      (inResponseOrder_sorted errors)

/-! ## Reports -/

namespace Report

/-- What was found below a place. -/
inductive At : Report σ → List Segment → Report σ → Prop
  | here (r : Report σ) : At r [] r
  | item {items i r q s} (hr : items[i]? = some r) (h : At r q s) :
    At (.list items) (.index i :: q) s
  | field {deferred fields key r q s} (hr : (key, r) ∈ fields) (h : At r q s) :
    At (.object deferred fields) (.key key :: q) s
  | followed {inner ticket job q s} (h : At inner q s) : At (.followed inner ticket job) q s
  | nullable {inner q s} (h : At inner q s) : At (.nullable inner) q s

theorem At.of_followed {inner s : Report σ} {ticket : Nat} {job : Job σ} {q : List Segment}
    (h : (Report.followed inner ticket job).At q s) : ∃ s, inner.At q s := by
  cases h with
  | here => exact ⟨inner, .here inner⟩
  | followed h => exact ⟨s, h⟩

theorem At.of_nullable {inner s : Report σ} {q : List Segment}
    (h : (Report.nullable inner).At q s) : ∃ s, inner.At q s := by
  cases h with
  | here => exact ⟨inner, .here inner⟩
  | nullable h => exact ⟨s, h⟩

/-- Whether a report about a place has reports about the places below it, and errors of its own
place. -/
inductive Placed : Path → Report σ → Prop
  | null {path} : Placed path .null
  | leaf {path v} (hv : v.isNull = false) : Placed path (.leaf v)
  | failed {path e} (he : e.path = path) : Placed path (.failed e)
  | list {path items} (hitems : ∀ i r, items[i]? = some r → Placed (path.index i) r) :
    Placed path (.list items)
  | object {path deferred fields} (hkeys : (fields.map Prod.fst).Nodup)
    (hfields : ∀ i key r, fields[i]? = some (key, r) → r ≠ .absent → Placed (path.key key i) r) :
    Placed path (.object deferred fields)
  | followed {path inner ticket job} (h : Placed path inner) :
    Placed path (.followed inner ticket job)
  | nullable {path inner} (h : Placed path inner) : Placed path (.nullable inner)

/-- All errors, whether they became nulls or escape. -/
def raised (r : Report σ) : List ExecutionError := r.errors ++ r.escape?.toList

theorem ne_absent_of_mem_raised {r : Report σ} {e : ExecutionError} (h : e ∈ r.raised) :
    r ≠ .absent := by
  rintro rfl
  simp [raised] at h

theorem allErrors_eq (r : Report σ) : r.outcome.allErrors = inResponseOrder r.raised := by
  unfold Outcome.allErrors raised errors escape? Outcome.escape?
  cases r.outcome.result <;> simp

theorem raised_nullable (r : Report σ) : (nullable r).raised = r.raised := by simp [raised]

theorem pairwise_of_subperm {α : Type} {R : α → α → Prop} (hR : ∀ {a b}, R a b → R b a)
    {l l' : List α} (h : l.Subperm l') (hl : l'.Pairwise R) : l.Pairwise R := by
  obtain ⟨l'', hperm, hsub⟩ := h
  exact (hperm.pairwise_iff hR).mp (hl.sublist hsub)

theorem subperm_flatMap {α β : Type} (l : List α) (f : α → List β) (g : α → Option β) :
    (l.flatMap f ++ (l.findSome? g).toList).Subperm (l.flatMap fun a => f a ++ (g a).toList) := by
  have hfirst : (l.findSome? g).toList.Sublist (l.flatMap fun a => (g a).toList) := by
    induction l with
    | nil => simp
    | cons a l ih =>
      rw [List.findSome?_cons, List.flatMap_cons]
      cases g a with
      | none => simpa using ih
      | some b => simp
  exact ((List.Sublist.refl _).append hfirst).subperm.trans
    (List.flatMap_append_perm l f fun a => (g a).toList).subperm

theorem raised_list (items : List (Report σ)) :
    (list items).raised.Subperm (items.flatMap raised) := by
  unfold raised
  rw [errors_list, escape?_list]
  exact subperm_flatMap items errors escape?

theorem raised_object (deferred : List (Nat × Job σ)) (fields : List (String × Report σ)) :
    (object deferred fields).raised.Subperm (fields.flatMap fun field => field.2.raised) := by
  unfold raised
  rw [errors_object, escape?_object]
  exact subperm_flatMap fields (fun field => field.2.errors) fun field => field.2.escape?

/-- Whether a report about the place `path` tells where a null at `q` comes from: the host gave it, or
there is an error at its place or below. -/
def JustifiesNull (r : Report σ) (path : Path) (q : List Segment) : Prop :=
  r.At q .null ∨ ∃ e ∈ r.errors, path.segments ++ q <+: e.path.segments

namespace JustifiesNull

variable {path : Path} {q : List Segment} {r : Report σ}

theorem item {items : List (Report σ)} {i : Nat} (h : r.JustifiesNull (path.index i) q)
    (hr : items[i]? = some r) : (list items).JustifiesNull path (.index i :: q) := by
  rcases h with hgiven | ⟨e, he, hbelow⟩
  · exact .inl (.item hr hgiven)
  · refine .inr ⟨e, ?_, by simpa [Path.index, Path.segments] using hbelow⟩
    rw [errors_list]
    exact List.mem_flatMap.mpr ⟨r, List.mem_of_getElem? hr, he⟩

theorem field {deferred : List (Nat × Job σ)} {fields : List (String × Report σ)} {key : String}
    {i : Nat} (h : r.JustifiesNull (path.key key i) q) (hr : (key, r) ∈ fields) :
    (object deferred fields).JustifiesNull path (.key key :: q) := by
  rcases h with hgiven | ⟨e, he, hbelow⟩
  · exact .inl (.field hr hgiven)
  · refine .inr ⟨e, ?_, by simpa [Path.key, Path.segments] using hbelow⟩
    rw [errors_object]
    exact List.mem_flatMap.mpr ⟨(key, r), hr, he⟩

theorem followed {ticket : Nat} {job : Job σ} (h : r.JustifiesNull path q) :
    (Report.followed r ticket job).JustifiesNull path q :=
  h.imp .followed id

theorem nullable (h : r.JustifiesNull path q) : (Report.nullable r).JustifiesNull path q := by
  refine Or.imp .nullable ?_ h
  rintro ⟨e, he, hbelow⟩
  rw [errors_nullable]
  exact ⟨e, List.mem_append_left _ he, hbelow⟩

end JustifiesNull

namespace Placed

variable {path : Path} {r : Report σ}

theorem present (h : Placed path r) (herror : r.isError = false) : r.value?.isSome := by
  induction h with
  | null | leaf => rfl
  | failed => simp [isError_eq] at herror
  | list =>
    rw [isError_list] at herror
    simp [herror]
  | object =>
    rw [isError_object] at herror
    simp [herror]
  | followed _ ih => exact ih (by simpa [isError_eq] using herror)
  | nullable _ ih =>
    rw [value?_nullable]
    split
    · rfl
    · next herror => exact ih (by simpa using herror)

theorem prefix_steps (h : Placed path r) : ∀ e ∈ r.raised, path.steps <+: e.path.steps := by
  induction h with
  | null | leaf => simp [raised]
  | failed he => simp [raised, he]
  | @list path items _ ih =>
    intro e he
    obtain ⟨r, hr, he⟩ := List.mem_flatMap.mp ((raised_list items).subset he)
    obtain ⟨i, hi⟩ := List.mem_iff_getElem?.mp hr
    exact (List.prefix_append _ _).trans (ih i r hi e he)
  | @object path deferred fields _ _ ih =>
    intro e he
    obtain ⟨⟨key, r⟩, hr, he⟩ := List.mem_flatMap.mp ((raised_object deferred fields).subset he)
    obtain ⟨i, hi⟩ := List.mem_iff_getElem?.mp hr
    exact (List.prefix_append _ _).trans (ih i key r hi (ne_absent_of_mem_raised he) e he)
  | followed _ ih => exact ih
  | nullable _ ih =>
    rw [raised_nullable]
    exact ih

theorem diverge (h : Placed path r) : r.raised.Pairwise fun a b => a.path.Diverge b.path := by
  induction h with
  | null | leaf => simp [raised]
  | failed he => simp [raised]
  | @list path items hitems ih =>
    refine pairwise_of_subperm Path.Diverge.symm (raised_list items)
      (List.pairwise_flatMap.mpr ⟨?_, ?_⟩)
    · intro r hr
      obtain ⟨i, hi⟩ := List.mem_iff_getElem?.mp hr
      exact ih i r hi
    · refine List.pairwise_iff_getElem.mpr fun i j hi hj hij a ha b hb => ?_
      have hne : i ≠ j := Nat.ne_of_lt hij
      exact ⟨path.steps, .index i, i, .index j, j, by simpa using hne, hne,
        (hitems i _ (List.getElem?_eq_getElem hi)).prefix_steps a ha,
        (hitems j _ (List.getElem?_eq_getElem hj)).prefix_steps b hb⟩
  | @object path deferred fields hkeys hfields ih =>
    have hplaced {i : Nat} {key : String} {r : Report σ} (hi : fields[i]? = some (key, r))
        {e : ExecutionError} (he : e ∈ r.raised) : Placed (path.key key i) r :=
      hfields i key r hi (ne_absent_of_mem_raised he)
    refine pairwise_of_subperm Path.Diverge.symm (raised_object deferred fields)
      (List.pairwise_flatMap.mpr ⟨?_, ?_⟩)
    · rintro ⟨key, r⟩ hr
      obtain ⟨i, hi⟩ := List.mem_iff_getElem?.mp hr
      by_cases habsent : r = .absent
      · simp [habsent, raised]
      · exact ih i key r hi habsent
    · refine List.pairwise_iff_getElem.mpr fun i j hi hj hij a ha b hb => ?_
      have hne : i ≠ j := Nat.ne_of_lt hij
      have hkey : fields[i].1 ≠ fields[j].1 := by
        have hdistinct := List.pairwise_iff_getElem.mp hkeys i j (by simpa) (by simpa) hij
        simpa using hdistinct
      exact ⟨path.steps, .key fields[i].1, i, .key fields[j].1, j, by simpa using hkey, hne,
        (hplaced (List.getElem?_eq_getElem hi) ha).prefix_steps a ha,
        (hplaced (List.getElem?_eq_getElem hj) hb).prefix_steps b hb⟩
  | followed _ ih => exact ih
  | nullable _ ih =>
    rw [raised_nullable]
    exact ih

/-! ### Nulls -/

theorem getElem?_filterMap_value? {items : List (Report σ)} (h : ∀ r ∈ items, r.value?.isSome)
    (i : Nat) : (items.filterMap value?)[i]? = items[i]?.bind value? := by
  induction items generalizing i with
  | nil => simp
  | cons r items ih =>
    obtain ⟨hr, hitems⟩ := List.forall_mem_cons.mp h
    obtain ⟨v, hv⟩ := Option.isSome_iff_exists.mp hr
    rw [List.filterMap_cons_some hv]
    cases i with
    | zero => simp [hv]
    | succ i => simpa using ih hitems i

theorem get?_filterMap_value? {fields : List (String × Report σ)}
    (hkeys : (fields.map Prod.fst).Nodup) {key : String} {r : Report σ} (h : (key, r) ∈ fields) :
    Entries.get? key (fields.filterMap fun field => field.2.value?.map (field.1, ·)) = r.value? := by
  induction fields with
  | nil => simp at h
  | cons field fields ih =>
    rw [List.map_cons, List.nodup_cons] at hkeys
    unfold Entries.get? at ih ⊢
    rw [List.filterMap_cons]
    rcases List.mem_cons.mp h with rfl | h
    · cases hv : r.value? with
      | some v => simp
      | none =>
        simp only [Option.map_none, List.lookup_eq_none_iff]
        intro entry hentry
        obtain ⟨field, hfield, heq⟩ := List.mem_filterMap.mp hentry
        obtain ⟨w, -, rfl⟩ := Option.map_eq_some_iff.mp heq
        have hne : key ≠ field.1 := by
          rintro rfl
          exact hkeys.1 (List.mem_map.mpr ⟨field, hfield, rfl⟩)
        simpa using hne
    · have hne : key ≠ field.1 := fun heq => hkeys.1 (heq ▸ List.mem_map_of_mem h)
      cases field.2.value? with
      | none => exact ih hkeys.2 h
      | some w =>
        rw [Option.map_some, List.lookup_cons]
        simp only [beq_false_of_ne hne]
        exact ih hkeys.2 h

theorem items_present {path : Path} {items : List (Report σ)} (h : (Report.list items).Placed path)
    (hok : (Report.list items).isError = false) : ∀ r ∈ items, r.value?.isSome := by
  cases h with
  | list hitems =>
    intro r hr
    obtain ⟨i, hi⟩ := List.mem_iff_getElem?.mp hr
    rw [isError_list, List.any_eq_false] at hok
    exact (hitems i r hi).present (by simpa using hok r hr)

theorem child?_list {path : Path} {items : List (Report σ)} {v : Value}
    (hitems : ∀ i r, items[i]? = some r → Placed (path.index i) r)
    (hv : (Report.list items).value? = some v) {i : Nat} {r : Report σ} (hr : items[i]? = some r) :
    v.child? (.index i) = r.value? ∧ r.isError = false := by
  rw [value?_list] at hv
  split at hv
  · simp at hv
  · next herror =>
    obtain rfl := Option.some.inj hv
    have hok : ∀ r ∈ items, r.isError = false := by simpa using herror
    refine ⟨?_, hok r (List.mem_of_getElem? hr)⟩
    have hpresent := (Placed.list hitems).items_present (by simpa [isError_list] using hok)
    rw [Value.child?, getElem?_filterMap_value? hpresent, hr, Option.bind_some]

theorem child?_object {deferred : List (Nat × Job σ)} {fields : List (String × Report σ)} {v : Value}
    (hkeys : (fields.map Prod.fst).Nodup) (hv : (Report.object deferred fields).value? = some v)
    {key : String} {r : Report σ} (hr : (key, r) ∈ fields) :
    v.child? (.key key) = r.value? ∧ r.isError = false := by
  rw [value?_object] at hv
  split at hv
  · simp at hv
  · next herror =>
    obtain rfl := Option.some.inj hv
    have hok : ∀ field ∈ fields, field.2.isError = false := by simpa using herror
    exact ⟨get?_filterMap_value? hkeys hr, hok (key, r) hr⟩

theorem mem_errors {r : Report σ} {e : ExecutionError} (he : e ∈ r.raised)
    (herror : r.isError = false) : e ∈ r.errors := by
  rw [isError_eq, Option.isSome_eq_false_iff, Option.isNone_iff_eq_none] at herror
  simpa [raised, herror] using he

/-- Each error that does not escape made a null at its place or above. -/
theorem null_of_error (h : Placed path r) : ∀ e ∈ r.errors, ∀ v, r.value? = some v →
    ∃ q, path.segments ++ q <+: e.path.segments ∧ v.at? q = some .null := by
  induction h with
  | null | leaf | failed => simp
  | @list path items hitems ih =>
    intro e he v hv
    rw [errors_list] at he
    obtain ⟨r, hr, he⟩ := List.mem_flatMap.mp he
    obtain ⟨i, hi⟩ := List.mem_iff_getElem?.mp hr
    obtain ⟨hchild, herror⟩ := child?_list hitems hv hi
    obtain ⟨w, hw⟩ := Option.isSome_iff_exists.mp ((hitems i r hi).present herror)
    obtain ⟨q, hbelow, hnull⟩ := ih i r hi e he w hw
    refine ⟨.index i :: q, by simpa [Path.index, Path.segments] using hbelow, ?_⟩
    rw [Value.at?, hchild, hw]
    exact hnull
  | @object path deferred fields hkeys hfields ih =>
    intro e he v hv
    rw [errors_object] at he
    obtain ⟨⟨key, r⟩, hr, he⟩ := List.mem_flatMap.mp he
    obtain ⟨i, hi⟩ := List.mem_iff_getElem?.mp hr
    obtain ⟨hchild, herror⟩ := child?_object hkeys hv hr
    have habsent : r ≠ .absent := ne_absent_of_mem_raised (List.mem_append_left _ he)
    obtain ⟨w, hw⟩ := Option.isSome_iff_exists.mp ((hfields i key r hi habsent).present herror)
    obtain ⟨q, hbelow, hnull⟩ := ih i key r hi habsent e he w hw
    refine ⟨.key key :: q, by simpa [Path.key, Path.segments] using hbelow, ?_⟩
    rw [Value.at?, hchild, hw]
    exact hnull
  | followed _ ih => exact ih
  | @nullable path inner h ih =>
    intro e he v hv
    have he : e ∈ inner.raised := by simpa [raised] using he
    rw [value?_nullable] at hv
    split at hv
    · obtain rfl := Option.some.inj hv
      refine ⟨[], ?_, rfl⟩
      simpa [Path.segments_eq] using (h.prefix_steps e he).map Prod.fst
    · next herror => exact ih e (mem_errors he (by simpa using herror)) v hv

theorem exists_escape (h : Placed path r) (herror : r.isError) :
    ∃ e, r.escape? = some e ∧ path.segments <+: e.path.segments := by
  rw [isError_eq] at herror
  obtain ⟨e, he⟩ := Option.isSome_iff_exists.mp herror
  refine ⟨e, he, ?_⟩
  simpa [Path.segments_eq] using (h.prefix_steps e (by simp [raised, he])).map Prod.fst

/-- Each null was given by the host, or comes from an error at its place or below. -/
theorem error_of_null (h : Placed path r) {v : Value} (hv : r.value? = some v) {q : List Segment}
    {s : Report σ} (hs : r.At q s) (hnull : v.at? q = some .null) : r.JustifiesNull path q := by
  induction h generalizing v q s with
  | null =>
    cases hs
    exact .inl (.here _)
  | leaf hleaf =>
    cases hs
    obtain rfl := Option.some.inj hv
    obtain rfl := Option.some.inj hnull
    simp [Value.isNull] at hleaf
  | failed => simp at hv
  | @list path items hitems ih =>
    cases hs with
    | here =>
      obtain rfl := Option.some.inj hnull
      rw [value?_list] at hv
      split at hv <;> simp at hv
    | @item _ i r q s hr hs =>
      obtain ⟨hchild, -⟩ := child?_list hitems hv hr
      rw [Value.at?, hchild, Option.bind_eq_some_iff] at hnull
      obtain ⟨w, hw, hnull⟩ := hnull
      exact (ih i r hr hw hs hnull).item hr
  | @object path deferred fields hkeys hfields ih =>
    cases hs with
    | here =>
      obtain rfl := Option.some.inj hnull
      rw [value?_object] at hv
      split at hv <;> simp at hv
    | @field _ _ key r q s hr hs =>
      obtain ⟨hchild, -⟩ := child?_object hkeys hv hr
      rw [Value.at?, hchild, Option.bind_eq_some_iff] at hnull
      obtain ⟨w, hw, hnull⟩ := hnull
      obtain ⟨i, hi⟩ := List.mem_iff_getElem?.mp hr
      have habsent : r ≠ .absent := by
        rintro rfl
        simp at hw
      exact (ih i key r hi habsent hw hs hnull).field hr
  | followed _ ih =>
    obtain ⟨s, hs⟩ := hs.of_followed
    exact (ih hv hs hnull).followed
  | @nullable path inner h ih =>
    rw [value?_nullable] at hv
    split at hv
    · next herror =>
      obtain rfl := Option.some.inj hv
      obtain rfl := Value.at?_null hnull
      obtain ⟨e, he, hbelow⟩ := h.exists_escape herror
      exact .inr ⟨e, by simp [errors_nullable, he], by simpa using hbelow⟩
    · obtain ⟨s, hs⟩ := hs.of_nullable
      exact (ih hv hs hnull).nullable

end Placed

end Report

/-! ## What the executor reports -/

variable {I : World σ → Prop} {ctx : ExecutionContext σ}

/-- Whether work reports about its place. -/
def Completer.Places (I : World σ → Prop) (complete : Completer σ) : Prop :=
  ∀ plan t path value r, Yields I (complete plan t path value) r → r.Placed path

theorem Report.Placed.absorbing {path : Path} {r : Report σ} (h : r.Placed path) (t : TypeRef) :
    (r.absorbing t).Placed path := by
  unfold Report.absorbing
  split
  · exact h
  · exact .nullable h

section

variable {complete completeField : Completer σ} {object : ObjectType σ} {source : HostValue}
  {path : Path} {plan : FieldPlan σ} {itemType t : TypeRef} {value : HostValue} {r : Report σ}

theorem FieldReport.placed (hcomplete : completeField.Places I) {uses : List FieldUse}
    (h : FieldReport I ctx completeField object source path uses r) (hr : r ≠ .absent) :
    r.Placed path := by
  cases h with
  | unused | unknown => exact absurd rfl hr
  | typeName => exact .leaf rfl
  | unresolved _ _ hresolved => exact (Report.Placed.failed (path_of_resolved hresolved)).absorbing _
  | resolved _ _ _ hfound => exact (hcomplete _ _ _ _ _ hfound).absorbing _

theorem Executed.prefix_keys {isSerial : Bool} {fields : List (String × Completing σ)}
    {reports : List (String × Report σ)} (h : Executed I isSerial fields reports) :
    reports.map Prod.fst <+: fields.map Prod.fst := by
  induction h with
  | nil => simp
  | stopped => simp
  | cons _ _ _ ih => simpa using ih

theorem ObjectReport.placed (hcomplete : completeField.Places I) {isSerial : Bool}
    {collected : Collected} (hgrouped : collected.Grouped) {deferred : List (Nat × Job σ)}
    {fields : List (String × Report σ)}
    (h : ObjectReport I ctx completeField isSerial object source path collected deferred fields) :
    (Report.object deferred fields).Placed path := by
  refine .object ?_ fun i key r hi hr => ?_
  · have hkeys := h.executed.prefix_keys
    rw [fieldWork_keys] at hkeys
    exact hkeys.sublist.nodup hgrouped.keys
  · obtain ⟨uses, -, hreport⟩ := h.field hi
    exact hreport.placed hcomplete hr

theorem ItemReports.placed (hcomplete : complete.Places I) {items : List HostValue}
    {reports : List (Report σ)} (h : ItemReports I complete plan itemType path items reports) :
    (Report.list reports).Placed path := by
  refine .list fun i r hi => ?_
  have hlt : i < items.length := h.length ▸ (List.getElem?_eq_some_iff.mp hi).1
  obtain ⟨s, hs, rfl⟩ := yields_completeItem (h.item (List.getElem?_eq_getElem hlt) hi)
  exact (hcomplete _ _ _ _ _ hs).absorbing itemType

theorem ListReport.placed (hcomplete : complete.Places I)
    (h : ListReport I ctx complete plan itemType path value r) : r.Placed path := by
  cases h with
  | failed he => exact .failed he
  | whole _ _ hreports => exact hreports.placed hcomplete
  | begun _ _ hreports => exact .followed (hreports.placed hcomplete)

theorem isNull_of_completeScalar {s : ScalarType} {v : Value}
    (hv : plan.completeScalar path s value = .ok v) : v.isNull = false := by
  unfold FieldPlan.completeScalar at hv
  split at hv
  · simp at hv
  · split at hv
    · simp at hv
    · split at hv
      · simp at hv
      · next hnull =>
        obtain rfl := Except.ok.inj hv
        simpa using hnull

theorem isNull_of_completeEnum {e : EnumType} {v : Value}
    (hv : plan.completeEnum path e value = .ok v) : v.isNull = false := by
  unfold FieldPlan.completeEnum at hv
  split at hv
  · obtain rfl := Except.ok.inj hv
    rfl
  · simp at hv

theorem ValueReport.placed (hcomplete : complete.Places I) (hcompleteField : completeField.Places I)
    (h : ValueReport I ctx complete completeField plan t path value r) : r.Placed path := by
  cases h with
  | failed he => exact .failed he
  | null => exact .null
  | scalar _ _ _ hv => exact .leaf (isNull_of_completeScalar hv)
  | enum _ _ _ hv => exact .leaf (isNull_of_completeEnum hv)
  | list _ _ hr => exact hr.placed hcomplete
  | object _ _ _ hcollected hr =>
    exact hr.placed hcompleteField (ExecutionContext.grouped_subfields hcollected)

end

theorem places_completeWithin (depth : Nat) (isStreamable : Bool) :
    (completeWithin ctx depth isStreamable).Places I := by
  induction depth generalizing isStreamable with
  | zero => exact fun _ _ _ _ _ h => h.elim
  | succ depth ih =>
    intro plan t path value r h
    exact (yields_completeValue h).placed (ih false) (ih true)

/-! ## Nulls of the host -/

/-- What is to be completed: fields of an object, a field with some uses, or a value. -/
inductive Work (σ : Type) where
  | fields (object : ObjectType σ) (source : HostValue) (collected : Collected)
  | field (object : ObjectType σ) (source : HostValue) (uses : List FieldUse)
  | value (plan : FieldPlan σ) (type : TypeRef) (value : HostValue)

/-- Whether the host gives null at a place below some work: a field is resolved to null there, or a
list has null among its items. -/
inductive Work.GivesNull (I : World σ → Prop) (ctx : ExecutionContext σ) :
    Work σ → Path → List Segment → Prop
  | here {plan t value path} (hnull : value.isNull) : GivesNull I ctx (.value plan t value) path []
  | item {plan t item value items i v path q} (ht : t.item? = some item)
    (hitems : value.items? = some items) (hv : items.values[i]? = some v)
    (h : GivesNull I ctx (.value plan item v) (path.index i) q) :
    GivesNull I ctx (.value plan t value) path (.index i :: q)
  | object {plan t value object collected path q} (ht : t.item? = none)
    (hchosen : Chosen I ctx plan path value t.innermost object)
    (hcollected : ctx.subfields object plan.uses = some collected)
    (h : GivesNull I ctx (.fields object value collected) path q) :
    GivesNull I ctx (.value plan t value) path q
  | fields {object source collected i key uses path q}
    (hgroup : collected.groups[i]? = some (key, uses))
    (h : GivesNull I ctx (.field object source uses) (path.key key i) q) :
    GivesNull I ctx (.fields object source collected) path (.key key :: q)
  | field {object source use others field value path q}
    (hname : use.node.name.item ≠ "__typename")
    (hfield : object.field? use.node.name.item = some field)
    (hresolved : Resolved I ctx ⟨object, field, use, others⟩ source path (.ok value))
    (h : GivesNull I ctx (.value ⟨object, field, use, others⟩ field.type value) path q) :
    GivesNull I ctx (.field object source (use :: others)) path q

/-- Whether the nulls that are reported when values are completed are those of the host. -/
def Completer.ReportsNulls (I : World σ → Prop) (ctx : ExecutionContext σ) (complete : Completer σ) :
    Prop :=
  ∀ plan t path value r, Yields I (complete plan t path value) r →
    ∀ q, r.At q .null → (Work.value plan t value).GivesNull I ctx path q

theorem Report.At.null_of_absorbing {r : Report σ} {t : TypeRef} {q : List Segment}
    (h : (r.absorbing t).At q .null) : r.At q .null := by
  unfold Report.absorbing at h
  split at h
  · exact h
  · cases h with
    | nullable h => exact h

section

variable {complete completeField : Completer σ} {object : ObjectType σ} {source : HostValue}
  {path : Path} {plan : FieldPlan σ} {t item : TypeRef} {value : HostValue} {r : Report σ}
  {q : List Segment}

theorem FieldReport.givesNull (hcomplete : completeField.ReportsNulls I ctx) {uses : List FieldUse}
    (h : FieldReport I ctx completeField object source path uses r) (hr : r.At q .null) :
    (Work.field object source uses).GivesNull I ctx path q := by
  cases h with
  | unused | unknown | typeName => cases hr
  | unresolved => cases hr.null_of_absorbing
  | resolved hname hfield hresolved h =>
    exact .field hname hfield hresolved (hcomplete _ _ _ _ _ h q hr.null_of_absorbing)

theorem ObjectReport.givesNull (hcomplete : completeField.ReportsNulls I ctx) {isSerial : Bool}
    {collected : Collected} {deferred : List (Nat × Job σ)} {fields : List (String × Report σ)}
    (h : ObjectReport I ctx completeField isSerial object source path collected deferred fields)
    (hr : (Report.object deferred fields).At q .null) :
    (Work.fields object source collected).GivesNull I ctx path q := by
  cases hr with
  | field hmem hr =>
    obtain ⟨i, hi⟩ := List.mem_iff_getElem?.mp hmem
    obtain ⟨uses, hgroup, hreport⟩ := h.field hi
    exact .fields hgroup (hreport.givesNull hcomplete hr)

theorem ItemReports.givesNull (hcomplete : complete.ReportsNulls I ctx) {items : HostValue.Items}
    {initial : List HostValue} {remaining : Option ItemSource} {reports : List (Report σ)}
    (h : ItemReports I complete plan item path initial reports) (ht : t.item? = some item)
    (hitems : value.items? = some items) (hcut : Cut I items initial remaining)
    (hr : (Report.list reports).At q .null) : (Work.value plan t value).GivesNull I ctx path q := by
  cases hr with
  | @item _ i r q _ hi hr =>
    have hlt : i < initial.length := h.length ▸ (List.getElem?_eq_some_iff.mp hi).1
    have hv := List.getElem?_eq_getElem hlt
    obtain ⟨s, hs, rfl⟩ := yields_completeItem (h.item hv hi)
    exact .item ht hitems (getElem?_of_cut hcut hv) (hcomplete _ _ _ _ _ hs q hr.null_of_absorbing)

theorem ListReport.givesNull (hcomplete : complete.ReportsNulls I ctx) (ht : t.item? = some item)
    (h : ListReport I ctx complete plan item path value r) (hr : r.At q .null) :
    (Work.value plan t value).GivesNull I ctx path q := by
  cases h with
  | failed => cases hr
  | whole hitems hcut hreports => exact hreports.givesNull hcomplete ht hitems hcut hr
  | begun hitems hcut hreports =>
    cases hr with
    | followed hr => exact hreports.givesNull hcomplete ht hitems hcut hr

theorem ValueReport.givesNull (hcomplete : complete.ReportsNulls I ctx)
    (hcompleteField : completeField.ReportsNulls I ctx)
    (h : ValueReport I ctx complete completeField plan t path value r) (hr : r.At q .null) :
    (Work.value plan t value).GivesNull I ctx path q := by
  cases h with
  | failed | scalar | enum => cases hr
  | null hnull =>
    cases hr
    exact .here hnull
  | list _ ht h => exact h.givesNull hcomplete ht hr
  | object _ ht hchosen hcollected h =>
    exact .object ht hchosen hcollected (h.givesNull hcompleteField hr)

end

theorem reportsNulls_completeWithin (depth : Nat) (isStreamable : Bool) :
    (completeWithin ctx depth isStreamable).ReportsNulls I ctx := by
  induction depth generalizing isStreamable with
  | zero => exact fun _ _ _ _ _ h => h.elim
  | succ depth ih =>
    intro plan t path value r h q hr
    exact (yields_completeValue h).givesNull (ih false) (ih true) hr

/-- Whether the host gives null at a place of the data of an operation. -/
def ExecutionContext.GivesNull (I : World σ → Prop) (ctx : ExecutionContext σ) (root : ObjectType σ)
    (q : List Segment) : Prop :=
  ∃ collected, ctx.rootFields root = some collected ∧
    (Work.fields root ctx.root collected).GivesNull I ctx .root q

/-- Whether the host gives null at a place of what a job delivers. -/
def Job.GivesNull (I : World σ → Prop) (ctx : ExecutionContext σ) : Job σ → List Segment → Prop
  | .deferred object source path fragment, q =>
    (Work.fields object source fragment.fields).GivesNull I ctx path q
  | .streamed plan itemType path _ index source, q =>
    ∃ v ∈ source.values.head?, (Work.value plan itemType v).GivesNull I ctx (path.index index) q

theorem JobReport.givesNull {job : Job σ} {r : Report σ} (h : JobReport I ctx job r)
    {q : List Segment} (hr : r.At q .null) : job.GivesNull I ctx q := by
  have hitem {plan : FieldPlan σ} {itemType : TypeRef} {path : Path} {v : HostValue} {r : Report σ}
      (h : Yields I (completeItem (completeListItem ctx) plan itemType path v) r)
      (hr : r.At q .null) : (Work.value plan itemType v).GivesNull I ctx path q := by
    obtain ⟨s, hs, rfl⟩ := yields_completeItem h
    exact reportsNulls_completeWithin _ _ _ _ _ _ _ hs q hr.null_of_absorbing
  cases h with
  | deferred h => exact h.givesNull (reportsNulls_completeWithin _ _) hr
  | ended | failed => cases hr
  | last hsource h => exact ⟨_, by simp [hsource], hitem h hr⟩
  | more hsource h =>
    cases hr with
    | followed hr => exact ⟨_, by simp [hsource], hitem h hr⟩

/-! ## Payloads -/

/-- Whether the errors and the nulls of a payload explain each other, where some places are `given`
null by the host. Data that is absent counts as null. -/
structure Explained (given : List Segment → Prop) (path : Path) (report : Report σ)
    (data : Option Value) (errors : List ExecutionError) : Prop where
  null_of_error : ∀ e ∈ errors, ∃ q, path.segments ++ q <+: e.path.segments ∧
    (data.getD .null).at? q = some .null
  error_of_null : ∀ q s, report.At q s → (data.getD .null).at? q = some .null →
    (report.At q .null ∧ given q) ∨ ∃ e ∈ errors, path.segments ++ q <+: e.path.segments
  distinct : (errors.map fun e => e.path.segments).Nodup
  increasing : errors.Pairwise fun a b => a.path.ordinals < b.path.ordinals

theorem Report.mem_allErrors {r : Report σ} {e : ExecutionError} :
    e ∈ r.outcome.allErrors ↔ e ∈ r.raised := by
  rw [allErrors_eq]
  exact (inResponseOrder_perm _).mem_iff

theorem Report.Placed.explained {path : Path} {r : Report σ} {given : List Segment → Prop}
    (h : r.Placed path) (hgiven : ∀ q, r.At q .null → given q) :
    Explained given path r r.value? r.outcome.allErrors := by
  have hbelow {e : ExecutionError} (he : e ∈ r.raised) : path.segments ++ [] <+: e.path.segments := by
    simpa [Path.segments_eq] using (h.prefix_steps e he).map Prod.fst
  obtain ⟨hdistinct, hincreasing⟩ := inResponseOrder_increasing h.diverge
  rw [← allErrors_eq] at hdistinct hincreasing
  refine ⟨fun e he => ?_, fun q s hs hnull => ?_, hdistinct, hincreasing⟩
  · have he := mem_allErrors.mp he
    cases hv : r.value? with
    | none => exact ⟨[], hbelow he, rfl⟩
    | some v =>
      have herror : r.isError = false := isError_of_value? hv
      exact h.null_of_error e (mem_errors he herror) v hv
  · cases hv : r.value? with
    | some v =>
      rw [hv] at hnull
      refine Or.imp (fun hreported => ⟨hreported, hgiven q hreported⟩) ?_
        (h.error_of_null hv hs hnull)
      rintro ⟨e, he, hbelow⟩
      exact ⟨e, mem_allErrors.mpr (List.mem_append_left _ he), hbelow⟩
    | none =>
      rw [hv] at hnull
      obtain rfl := Value.at?_null hnull
      have herror : r.isError := by
        by_contra hok
        simpa [hv] using h.present (by simpa using hok)
      obtain ⟨e, he, hbelow⟩ := h.exists_escape herror
      exact .inr ⟨e, mem_allErrors.mpr (by simp [raised, he]), by simpa using hbelow⟩

/-- What a part adds at its path, if anything. -/
def Part.data? (part : Part) : Option Value :=
  match part.content with
  | .fields data => data.map .object
  | .items items => items.bind List.head?

theorem object?_object (deferred : List (Nat × Job σ)) (fields : List (String × Report σ)) :
    (Report.object deferred fields).outcome.object?.map Value.object =
      (Report.object deferred fields).value? := by
  cases hv : (Report.object deferred fields).value? with
  | none =>
    rw [Option.map_eq_none_iff, Option.eq_none_iff_forall_ne_some]
    intro data hdata
    have hsome := Outcome.object?_eq_some.mp hdata
    rw [Report.value?] at hv
    simp [hv] at hsome
  | some v =>
    have hobject := hv
    rw [Report.value?_object] at hobject
    split at hobject
    · simp at hobject
    · obtain rfl := Option.some.inj hobject
      rw [Outcome.object?_eq_some.mpr hv]
      rfl

theorem explained_streamed {plan : FieldPlan σ} {itemType : TypeRef} {path : Path}
    {label : Option String} {index : Nat} {source : ItemSource} {r : Report σ}
    {given : List Segment → Prop} (h : r.Placed (path.index index))
    (hgiven : ∀ q, r.At q .null → given q) {part : Part}
    (hpart : (Job.streamed plan itemType path label index source).part r = some part) :
    Explained given part.path r part.data? part.errors := by
  obtain rfl := part_streamed hpart
  have hdata : (r.value?.map fun v => [v]).bind List.head? = r.value? := by
    cases r.value? <;> rfl
  unfold Part.data?
  dsimp only
  rw [hdata]
  exact h.explained hgiven

theorem Declared.grouped {root object : ObjectType σ} {path : Path} {collected : Collected}
    (h : Declared ctx root path (.fields object collected)) : collected.Grouped := by
  generalize hplace : Place.fields object collected = place at h
  induction h generalizing object collected with
  | root hcollected =>
    obtain ⟨rfl, rfl⟩ := Place.fields.inj hplace
    exact ExecutionContext.grouped_rootFields hcollected
  | deferred _ hfragment ih =>
    obtain ⟨rfl, rfl⟩ := Place.fields.inj hplace
    exact (ih rfl).deferred _ hfragment
  | field | item => simp at hplace
  | object _ _ _ hcollected =>
    obtain ⟨rfl, rfl⟩ := Place.fields.inj hplace
    exact ExecutionContext.grouped_subfields hcollected

theorem explained_job {root : ObjectType σ} {job : Job σ} {r : Report σ}
    (hjob : job.Declared ctx root) (h : Yields I (job.execute ctx) r) {part : Part}
    (hpart : job.part r = some part) :
    Explained (job.GivesNull I ctx) part.path r part.data? part.errors := by
  have hgiven (q : List Segment) (hr : r.At q .null) : job.GivesNull I ctx q :=
    (yields_execute h).givesNull hr
  have hcomplete (isStreamable : Bool) :
      (completeWithin ctx ctx.bounds.response isStreamable).Places I := places_completeWithin _ _
  cases yields_execute h with
  | @deferred object source path fragment deferred fields hreport =>
    obtain ⟨collected, hplace, hfragment⟩ := hjob
    obtain rfl := Option.some.inj hpart
    have hplaced := hreport.placed (hcomplete true) (hplace.grouped.deferred _ hfragment)
    unfold Part.data?
    dsimp only
    rw [object?_object]
    exact hplaced.explained hgiven
  | ended => cases hpart
  | failed he => exact explained_streamed (.failed he) hgiven hpart
  | last _ hitem _ =>
    obtain ⟨s, hs, rfl⟩ := yields_completeItem hitem
    exact explained_streamed ((hcomplete false _ _ _ _ _ hs).absorbing _) hgiven hpart
  | more _ hitem _ =>
    obtain ⟨s, hs, rfl⟩ := yields_completeItem hitem
    exact explained_streamed (.followed ((hcomplete false _ _ _ _ _ hs).absorbing _)) hgiven hpart

theorem explained_delivers {root : ObjectType σ} {jobs : List (Job σ)}
    (hjobs : ∀ job ∈ jobs, job.Declared ctx root) {history : List (Finished σ)} {d : Delivery σ}
    (h : Delivers ctx jobs history d) : ∀ finished ∈ history, ∀ part,
      finished.part = some part → Explained (finished.job.GivesNull (fun _ => True) ctx) part.path
        finished.report part.data? part.errors := by
  refine h.unfolds.invariant (fun finished hjob hyields => ?_) hjobs
  exact ⟨fun part => explained_job hjob hyields, declared_of_job hjob hyields⟩

/-- Whether errors and nulls explain each other in all payloads of a response, where some places of
the first are `given` null by the host. -/
def Response.Explained (given : List Segment → Prop) (report : Report σ) : Response σ → Prop
  | .single result => GraphQL.Explained given .root report (result.data.map .object) result.errors
  | .incremental initial ctx jobs =>
    GraphQL.Explained given .root report (some (.object initial.data)) initial.errors ∧
      ∀ history d, Delivers ctx jobs history d → ∀ finished ∈ history, ∀ part,
        finished.part = some part →
        GraphQL.Explained (finished.job.GivesNull (fun _ => True) ctx) part.path finished.report
          part.data? part.errors

/-- Whatever the callbacks of the host do, a request is refused, or the errors and the nulls of each
payload of its response explain each other. -/
theorem executeIncrementally_explained {r : Request σ} {w w' : World σ} {response : Response σ}
    (h : r.executeIncrementally w = some (response, w')) :
    (∃ e, r.prepare = .error e ∧ response = .single e.result) ∨
      ∃ ctx root report v, r.prepare = .ok (ctx, root) ∧
        (executeRoot ctx root).run ctx.bounds.rounds
          (w.trace (.executing ctx.operation.name?)) = some (report, v) ∧
        Responds ctx report response ∧
        response.Explained (ctx.GivesNull (fun _ => True) root) report := by
  rcases executeIncrementally_cases h with hrefused | ⟨ctx, root, report, v, hprepare, hrun, hr, -⟩
  · exact .inl hrefused
  · refine .inr ⟨ctx, root, report, v, hprepare, hrun, hr, ?_⟩
    have hyields := run_possible hrun
    obtain ⟨collected, deferred, fields, rfl, hcollected, hreport⟩ := yields_executeRoot hyields
    have hplaced := hreport.placed (places_completeWithin _ _)
      (ExecutionContext.grouped_rootFields hcollected)
    have hdeclared := jobsDeclared_executeRoot hyields
    have hexplained := hplaced.explained fun q hr =>
      (⟨collected, hcollected, hreport.givesNull (reportsNulls_completeWithin _ _) hr⟩ :
        ctx.GivesNull (fun _ => True) root q)
    rw [← object?_object] at hexplained
    cases hr with
    | single => exact hexplained
    | incremental hobject =>
      rw [hobject] at hexplained
      exact ⟨hexplained, fun history d => explained_delivers (declared_of_queued hdeclared)⟩

theorem sampleRequest_explained :
    ∃ response w root report v, ∃ ctx : ExecutionContext Unit,
      (sampleRequest [.int 1, .null]).executeIncrementally sampleWorld = some (response, w) ∧
      (sampleRequest [.int 1, .null]).prepare = .ok (ctx, root) ∧
      (executeRoot ctx root).run ctx.bounds.rounds
        (sampleWorld.trace (.executing ctx.operation.name?)) = some (report, v) ∧
      response.Explained (ctx.GivesNull (fun _ => True) root) report := by
  have hanswered : ((sampleRequest [.int 1, .null]).executeIncrementally sampleWorld).isSome := by
    decide +kernel
  have hprepared : (sampleRequest [.int 1, .null]).prepare.isOk := by decide +kernel
  obtain ⟨⟨response, w⟩, hresponse⟩ := Option.isSome_iff_exists.mp hanswered
  rcases executeIncrementally_explained hresponse with
    ⟨e, he, -⟩ | ⟨ctx, root, report, v, hprepare, hrun, -, hexplained⟩
  · simp [he, Except.isOk, Except.toBool] at hprepared
  · exact ⟨response, w, root, report, v, ctx, hresponse, hprepare, hrun, hexplained⟩

end GraphQL
