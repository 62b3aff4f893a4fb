import Mathlib.Data.List.Nodup
import Mathlib.Data.List.Induction
import Mathlib.Data.List.Forall2
import GraphQL.Proofs.Schema.Attempts
import GraphQL.Proofs.Value.Merging
import GraphQL.Coercion.Arguments
import GraphQL.Coercion.Variables

/-! # What is coerced

Objects are gathered from the definitions of their fields, and both coercers follow the values and
literals that they read. Whatever they read is not null.
-/

namespace GraphQL

variable {σ : Type}

/-! ## Objects gathered from definitions -/

namespace Entries

variable {α β : Type}

theorem insert_of_not_mem {key : String} {v : α} {es : Entries α} (h : key ∉ es.map Prod.fst) :
    insert key v es = es ++ [(key, v)] := by
  induction es with
  | nil => rfl
  | cons e es ih =>
    obtain ⟨k, w⟩ := e
    simp only [List.map_cons, List.mem_cons, not_or] at h
    rw [insert, if_neg (Ne.symm h.1), ih h.2]
    rfl

theorem get?_eq_none_iff {key : String} {es : Entries α} :
    get? key es = none ↔ key ∉ es.map Prod.fst := by
  induction es with
  | nil => simp
  | cons e es ih =>
    obtain ⟨k, v⟩ := e
    rw [get?_cons, List.map_cons, List.mem_cons, not_or, ← ih]
    split <;> simp [*]

theorem get?_of_mem {key : String} {v : α} {es : Entries α} (hkeys : (es.map Prod.fst).Nodup)
    (h : (key, v) ∈ es) : get? key es = some v := by
  induction es with
  | nil => cases h
  | cons e es ih =>
    obtain ⟨k, w⟩ := e
    rw [List.map_cons, List.nodup_cons] at hkeys
    rw [get?_cons]
    rcases List.mem_cons.mp h with heq | hmem
    · obtain ⟨rfl, rfl⟩ := Prod.mk.inj heq
      rw [if_pos rfl]
    · have hne : key ≠ k := by
        rintro rfl
        exact hkeys.1 (List.mem_map.mpr ⟨_, hmem, rfl⟩)
      rw [if_neg hne, ih hkeys.2 hmem]

theorem get?_map (f : α → β) (key : String) (es : Entries α) :
    get? key (es.map fun e => (e.1, f e.2)) = (get? key es).map f := by
  induction es with
  | nil => rfl
  | cons e es ih =>
    obtain ⟨k, v⟩ := e
    rw [List.map_cons, get?_cons, get?_cons, ih]
    split <;> rfl

theorem foldl_insert_of_nodup (es done : List (String × α))
    (h : ((done ++ es).map Prod.fst).Nodup) :
    es.foldl (fun acc (k, v) => insert k v acc) done = done ++ es := by
  induction es generalizing done with
  | nil => simp
  | cons e es ih =>
    obtain ⟨k, v⟩ := e
    have hnew : k ∉ done.map Prod.fst := by
      rw [List.map_append, List.map_cons] at h
      exact fun hmem => (List.nodup_append.mp h).2.2 k hmem k List.mem_cons_self rfl
    have hnext := ih (done ++ [(k, v)]) (by simpa using h)
    rw [← insert_of_not_mem hnew] at hnext
    rw [List.foldl_cons, hnext, insert_of_not_mem hnew]
    simp

theorem ofList_of_nodup {es : List (String × α)} (h : (es.map Prod.fst).Nodup) : ofList es = es :=
  foldl_insert_of_nodup es [] (by simpa using h)

theorem get?_foldl_insert (key : String) (es done : List (String × α)) :
    get? key (es.foldl (fun acc (k, v) => insert k v acc) done) =
      (get? key es.reverse).or (get? key done) := by
  induction es generalizing done with
  | nil => rfl
  | cons e es ih =>
    obtain ⟨k, v⟩ := e
    rw [List.foldl_cons, ih, List.reverse_cons, get?_append, get?_insert, get?_cons, get?_nil]
    cases get? key es.reverse with
    | some w => rfl
    | none => split <;> rfl

theorem mem_of_get?_ofList {key : String} {v : α} {es : List (String × α)}
    (h : get? key (ofList es) = some v) : (key, v) ∈ es := by
  unfold ofList at h
  rw [get?_foldl_insert] at h
  exact List.mem_reverse.mp (mem_of_get? (by simpa using h))

theorem ofList_concat (es : List (String × α)) (key : String) (v : α) :
    ofList (es ++ [(key, v)]) = insert key v (ofList es) := by
  rw [ofList, List.foldl_append]
  rfl

theorem map_fst_insert (key : String) (v : α) (es : Entries α) :
    (insert key v es).map Prod.fst =
      if key ∈ es.map Prod.fst then es.map Prod.fst else es.map Prod.fst ++ [key] := by
  split
  · next hmem =>
    induction es with
    | nil => cases hmem
    | cons e es ih =>
      rw [insert]
      split
      · rfl
      · next hne =>
        rw [List.map_cons, List.mem_cons] at hmem
        rw [List.map_cons, ih (hmem.resolve_left (Ne.symm hne)), List.map_cons]
  · next hmem => rw [insert_of_not_mem hmem, List.map_append, List.map_singleton]

theorem map_fst_ofList (es : List (String × α)) :
    (ofList es).map Prod.fst = (es.map Prod.fst).eraseDups := by
  induction es using List.reverseRecOn with
  | nil => rfl
  | append_singleton es e ih =>
    rw [ofList_concat, map_fst_insert, ih, List.map_append, List.eraseDups_append,
      List.map_singleton, List.removeAll, List.filter_singleton]
    by_cases hmem : e.1 ∈ es.map Prod.fst
    · simp [hmem]
    · simp [hmem, List.eraseDups_cons]

theorem eq_singleton {key : String} {v : α} {es : Entries α} (hkeys : (es.map Prod.fst).Nodup)
    (honly : ∀ k ∈ es.map Prod.fst, k = key) (h : get? key es = some v) : es = [(key, v)] := by
  match es, hkeys, honly, h with
  | [], _, _, h => cases h
  | [(k, w)], _, honly, h =>
    obtain rfl : k = key := honly k List.mem_cons_self
    rw [get?_cons, if_pos rfl] at h
    rw [Option.some.inj h]
  | (j, _) :: (k, _) :: _, hkeys, honly, _ =>
    have hj : j = key := honly j (by simp)
    have hk : k = key := honly k (by simp)
    simp [hj, hk] at hkeys

end Entries

/-- The object that has, for each of some definitions, the value it is given. -/
def gathered {α β : Type} (name : α → String) (given : α → Option β) (definitions : List α) :
    Entries β :=
  .ofList (definitions.filterMap fun d => (given d).map fun v => (name d, v))

section

variable {α β : Type} {name : α → String} {given : α → Option β} {definitions : List α}

theorem exists_of_get?_gathered {key : String} {v : β}
    (h : Entries.get? key (gathered name given definitions) = some v) :
    ∃ d ∈ definitions, name d = key ∧ given d = some v := by
  obtain ⟨d, hd, hgiven⟩ := List.mem_filterMap.mp (Entries.mem_of_get?_ofList h)
  obtain ⟨w, hw, heq⟩ := Option.map_eq_some_iff.mp hgiven
  obtain ⟨rfl, rfl⟩ := Prod.mk.inj heq
  exact ⟨d, hd, rfl, hw⟩

theorem map_fst_pieces :
    (definitions.filterMap fun d => (given d).map fun v => (name d, v)).map Prod.fst =
      (definitions.filter fun d => (given d).isSome).map name := by
  induction definitions with
  | nil => rfl
  | cons d definitions ih => cases hd : given d <;> simp [hd, ih]

theorem gathered_congr {given' : α → Option β} (h : ∀ d ∈ definitions, given d = given' d) :
    gathered name given definitions = gathered name given' definitions := by
  unfold gathered
  rw [List.filterMap_congr fun d hd => by rw [h d hd]]

theorem nodup_pieces (hnames : (definitions.map name).Nodup) :
    ((definitions.filterMap fun d => (given d).map fun v => (name d, v)).map Prod.fst).Nodup := by
  rw [map_fst_pieces]
  exact hnames.sublist (List.filter_sublist.map name)

theorem gathered_of_nodup (hnames : (definitions.map name).Nodup) :
    gathered name given definitions =
      definitions.filterMap fun d => (given d).map fun v => (name d, v) :=
  Entries.ofList_of_nodup (nodup_pieces hnames)

variable (given) in
theorem nodup_keys_gathered (hnames : (definitions.map name).Nodup) :
    ((gathered name given definitions).map Prod.fst).Nodup := by
  rw [gathered_of_nodup hnames]
  exact nodup_pieces hnames

theorem exists_of_mem_keys_gathered {key : String} (hnames : (definitions.map name).Nodup)
    (h : key ∈ (gathered name given definitions).map Prod.fst) :
    ∃ d ∈ definitions, name d = key ∧ (given d).isSome := by
  rw [gathered_of_nodup hnames, map_fst_pieces] at h
  obtain ⟨d, hd, rfl⟩ := List.mem_map.mp h
  exact ⟨d, (List.mem_filter.mp hd).1, rfl, (List.mem_filter.mp hd).2⟩

variable (given) in
theorem get?_gathered (hnames : (definitions.map name).Nodup) {d : α} (hd : d ∈ definitions) :
    Entries.get? (name d) (gathered name given definitions) = given d := by
  cases hgiven : given d with
  | some v =>
    refine Entries.get?_of_mem (nodup_keys_gathered given hnames) ?_
    rw [gathered_of_nodup hnames]
    exact List.mem_filterMap.mpr ⟨d, hd, by rw [hgiven]; rfl⟩
  | none =>
    rw [Entries.get?_eq_none_iff]
    intro hmem
    obtain ⟨d', hd', hname, hsome⟩ := exists_of_mem_keys_gathered hnames hmem
    obtain rfl := List.inj_on_of_nodup_map hnames hd' hd hname
    simp [hgiven] at hsome

end

/-- Adds the value of one more definition, if it has one. -/
def gathering {α β ε : Type} (name : α → String) (attempt : α → Except ε (Option β))
    (es : Entries β) (d : α) : Except ε (Entries β) := do
  match ← attempt d with
  | some v => return es.insert (name d) v
  | none => return es

section

variable {α β ε : Type} {name : α → String} {attempt : α → Except ε (Option β)}
  {definitions : List α} {es out : Entries β}

theorem foldlM_gathering {given : α → Option β} (hgiven : ∀ d v, attempt d = .ok v → given d = v)
    (h : definitions.foldlM (gathering name attempt) es = .ok out) :
    (∀ d ∈ definitions, attempt d = .ok (given d)) ∧
      out = (definitions.filterMap fun d => (given d).map fun v => (name d, v)).foldl
        (fun es (k, v) => Entries.insert k v es) es := by
  induction definitions generalizing es with
  | nil => exact ⟨by simp, (Except.ok.inj h).symm⟩
  | cons d definitions ih =>
    rw [List.foldlM_cons] at h
    obtain ⟨es', hd, h⟩ := bind_eq_ok h
    obtain ⟨v, hv, hd⟩ := bind_eq_ok hd
    have hgiven := hgiven d v hv
    cases v with
    | none =>
      obtain rfl := Except.ok.inj hd
      obtain ⟨hrest, rfl⟩ := ih h
      exact ⟨by simpa [hgiven, hv] using hrest, by simp [hgiven]⟩
    | some v =>
      obtain rfl := Except.ok.inj hd
      obtain ⟨hrest, rfl⟩ := ih h
      exact ⟨by simpa [hgiven, hv] using hrest, by simp [hgiven]⟩

theorem foldlM_gathering_ok {given : α → Option β} (h : ∀ d ∈ definitions, attempt d = .ok (given d)) :
    definitions.foldlM (gathering name attempt) es =
      .ok ((definitions.filterMap fun d => (given d).map fun v => (name d, v)).foldl
        (fun es (k, v) => Entries.insert k v es) es) := by
  induction definitions generalizing es with
  | nil => rfl
  | cons d definitions ih =>
    rw [List.forall_mem_cons] at h
    rw [List.foldlM_cons, gathering, h.1]
    cases hd : given d with
    | none => exact (ih h.2).trans (by simp [hd])
    | some v => exact (ih h.2).trans (by simp [hd])

theorem exists_of_foldlM_gathering
    (h : definitions.foldlM (gathering name attempt) [] = .ok out) :
    ∃ given : α → Option β, (∀ d ∈ definitions, attempt d = .ok (given d)) ∧
      out = gathered name given definitions := by
  let given (d : α) : Option β := (attempt d).toOption.join
  refine ⟨given, foldlM_gathering (fun d v hd => ?_) h⟩
  simp [given, hd, Except.toOption]

end

/-! ## Induction over literals -/

theorem forall_mem_of_cons {α : Type} (all : List α → Prop) {each : α → Prop}
    (hcons : ∀ a rest, all (a :: rest) → each a ∧ all rest) {as : List α} (h : all as) :
    ∀ a ∈ as, each a := by
  induction as with
  | nil => exact fun _ ha => nomatch ha
  | cons a as ih =>
    obtain ⟨hhead, hrest⟩ := hcons a as h
    exact List.forall_mem_cons.mpr ⟨hhead, ih hrest⟩

namespace Literal

theorem induct {P : Literal → Prop} (null : P .null) (int : ∀ n, P (.int n))
    (float : ∀ x, P (.float x)) (string : ∀ s, P (.string s)) (boolean : ∀ b, P (.boolean b))
    (enum : ∀ name, P (.enum name)) («variable» : ∀ name, P (.variable name))
    (list : ∀ items, (∀ l ∈ items, P l.item) → P (.list items))
    (object : ∀ fields, (∀ f ∈ fields, P f.2.item) → P (.object fields)) (l : Literal) : P l :=
  Literal.rec (motive_1 := P) (motive_2 := fun items => ∀ l ∈ items, P l.item)
    (motive_3 := fun fields => ∀ f ∈ fields, P f.2.item) (motive_4 := fun l => P l.item)
    (motive_5 := fun f => P f.2.item)
    null int float string boolean enum «variable» list object (by simp)
    (fun l items hl hitems => by simpa using ⟨hl, hitems⟩) (by simp)
    (fun f fields hf hfields => by simpa using And.intro hf fun a b => hfields (a, b)) (fun _ _ h => h) (fun _ _ h => h) l

theorem itemsToValues_eq_map (scope : Scope) (items : List (Located Literal)) :
    itemsToValues scope items = items.map fun l => l.item.toValue scope := by
  induction items with
  | nil => rfl
  | cons l items ih => rw [itemsToValues, ih, List.map_cons]

theorem isVariable_of_isConst {l : Literal} (h : l.isConst) : l.isVariable = false := by
  cases l with
  | «variable» name => cases h
  | _ => rfl

theorem isUnset_of_isConst {scope : Scope} {l : Literal} (h : l.isConst) :
    l.isUnset scope = false := by
  cases l with
  | «variable» name => cases h
  | _ => rfl

theorem isConst_item {items : List (Located Literal)} (h : isConstItems items) :
    ∀ l ∈ items, l.item.isConst :=
  forall_mem_of_cons (isConstItems ·) (fun _ _ => Bool.and_eq_true_iff.mp) h

theorem isConst_field {fields : List (Located String × Located Literal)} (h : isConstFields fields) :
    ∀ f ∈ fields, f.2.item.isConst :=
  forall_mem_of_cons (isConstFields ·) (fun _ _ => Bool.and_eq_true_iff.mp) h

theorem isNullIn_of_isUnset {scope : Scope} {l : Literal} (h : l.isUnset scope) :
    l.isNullIn scope := by
  cases l with
  | «variable» name =>
    have hnone : scope.get? name = none := by simpa [isUnset, Scope.isUnset] using h
    simp [isNullIn, hnone]
  | _ => cases h

theorem isNull_of_isNullIn {scope : Scope} {l : Literal} (h : l.isNullIn scope = false) :
    l.isNull = false := by
  cases l with
  | null => cases h
  | _ => rfl

theorem toValue_isNull {scope : Scope} {l : Literal} (hnull : l.isNull = false)
    (hvariable : l.isVariable = false) : (l.toValue scope).isNull = false := by
  cases l with
  | null => cases hnull
  | «variable» name => cases hvariable
  | _ => rfl

theorem replaceVariables_isNull {scope : Scope} {l : Literal} (hnull : l.isNull = false)
    (hvariable : l.isVariable = false) : (l.replaceVariables scope).isNull = false := by
  cases l with
  | null => cases hnull
  | «variable» name => cases hvariable
  | _ => rfl

end Literal

def Schema.inputObject? (schema : Schema σ) (name : String) : Option InputObjectType :=
  match schema.type? name with
  | some (.inputObject o) => some o
  | _ => none

theorem listDepth_of_item? {t : TypeRef} (h : t.item? = none) : t.listDepth = 0 := by
  cases t with
  | named name => rfl
  | nonNullNamed name => rfl
  | list t => cases h
  | nonNullList t => cases h

/-- What a field of an input object is when it is not among the fields that are given. -/
def InputDefinition.Omitted (defaultOf : DefaultCoercion) (d : InputDefinition)
    (read : Option Value) : Prop :=
  (∃ default v, d.default = some default ∧ defaultOf default d.type = .ok v ∧ read = some v) ∨
    d.default = none ∧ d.type.isNonNull = false ∧ read = none

/-! ## External values -/

namespace Checked

theorem toExcept_eq_ok {c : Checked} {v : Value} : c.toExcept = .ok v ↔ c = .accepted v := by
  obtain ⟨w, errors⟩ := c
  cases errors <;> simp [toExcept, accepted]

theorem toExcept_eq_error {c : Checked} {errors : List CoercionError} :
    c.toExcept = .error errors ↔ c.errors = errors ∧ errors ≠ [] := by
  obtain ⟨w, found⟩ := c
  cases found with
  | nil => simp [toExcept, eq_comm]
  | cons e found => exact ⟨fun h => by cases h; simp, fun h => congrArg Except.error h.1⟩

theorem accepted_of_errors {c : Checked} (h : c.errors = []) : c = .accepted c.value := by
  obtain ⟨v, errors⟩ := c
  rw [show errors = [] from h, accepted]

theorem mem_of_refusal? {c : Checked} {e : CoercionError} (h : c.refusal? = some e) :
    e ∈ c.errors := by
  rcases Option.or_eq_some_iff.mp h with hendless | ⟨-, hfirst⟩
  · exact List.mem_of_find?_eq_some hendless
  · exact List.mem_of_head? hfirst

theorem refusal?_eq_none {c : Checked} : c.refusal? = none ↔ c.errors = [] := by
  rw [refusal?, Option.or_eq_none_iff, List.head?_eq_none_iff]
  exact and_iff_right_of_imp fun h => by rw [h]; rfl

theorem nested_succ (n : Nat) (c : Checked) :
    c.nested (n + 1) = { c.nested n with value := .list [(c.nested n).value] } := rfl

theorem errors_nested (n : Nat) (c : Checked) : (c.nested n).errors = c.errors := by
  induction n with
  | zero => rfl
  | succ n ih => rw [nested_succ, ← ih]

theorem nested_accepted (n : Nat) (v : Value) :
    (accepted v).nested n = accepted (n.repeat (fun v => .list [v]) v) := by
  induction n with
  | zero => rfl
  | succ n ih =>
    rw [nested_succ, ih]
    rfl

theorem ofItems_accepted {items : List Checked} (h : ∀ c ∈ items, c.errors = []) :
    ofItems items = accepted (.list (items.map (·.value))) := by
  unfold ofItems accepted
  congr 1
  rw [List.flatMap_eq_nil_iff]
  rintro ⟨c, i⟩ hmem
  have hc : c ∈ items := List.mem_of_getElem? (List.mk_mem_zipIdx_iff_getElem?.mp hmem)
  simp [h c hc]

theorem ofItems_map_accepted (vs : List Value) : ofItems (vs.map accepted) = accepted (.list vs) := by
  rw [ofItems_accepted (by simp [accepted])]
  simp [accepted, Function.comp_def]

theorem mem_errors_ofItems {items : List Checked} {e : CoercionError} : e ∈ (ofItems items).errors ↔
    ∃ (c : Checked) (i : Nat), items[i]? = some c ∧
      ∃ inner ∈ c.errors, inner.below (.index i) = e := by
  simp only [ofItems, List.mem_flatMap, List.mem_map, Prod.exists, List.mk_mem_zipIdx_iff_getElem?]

theorem exists_error_of_item {items : List Checked} {c : Checked} {e : CoercionError} (hc : c ∈ items)
    (he : e ∈ c.errors) : ∃ i, e.below (.index i) ∈ (ofItems items).errors := by
  obtain ⟨i, hi⟩ := List.mem_iff_getElem?.mp hc
  exact ⟨i, mem_errors_ofItems.mpr ⟨c, i, hi, e, he, rfl⟩⟩

theorem errors_of_ofItems {items : List Checked} (h : (ofItems items).errors = []) :
    ∀ c ∈ items, c.errors = [] := by
  intro c hc
  refine List.eq_nil_iff_forall_not_mem.mpr fun e he => ?_
  obtain ⟨i, hi⟩ := exists_error_of_item hc he
  rw [h] at hi
  cases hi

end Checked

section

variable (schema : Schema σ) (defaultOf : DefaultCoercion) (scope : Scope)

theorem inputItems_eq_map (items : List Value) :
    inputItems schema defaultOf items = items.map fun v t => inputAs schema defaultOf v t := by
  induction items with
  | nil => rfl
  | cons v items ih => rw [inputItems, ih, List.map_cons]

theorem inputMembers_eq_map (fields : List (String × Value)) :
    inputMembers schema defaultOf fields =
      fields.map fun (key, v) => (key, fun t => inputAs schema defaultOf v t) := by
  induction fields with
  | nil => rfl
  | cons f fields ih => rw [inputMembers, ih, List.map_cons]

theorem get?_inputMembers (key : String) (fields : List (String × Value)) :
    Entries.get? key (inputMembers schema defaultOf fields) =
      (Entries.get? key fields).map fun v t => inputAs schema defaultOf v t := by
  rw [inputMembers_eq_map]
  exact Entries.get?_map (fun v t => inputAs schema defaultOf v t) key fields

variable {defaultOf} in
/-- What the definition of a field makes of the external values that are given. -/
theorem inputOf_cases {members : Entries (TypeRef → Checked)} {v : Value} {d : InputDefinition}
    (h : (d.inputOf defaultOf members v).2 = []) :
    (∃ member, members.get? d.name = some member ∧ (member d.type).errors = [] ∧
        (d.inputOf defaultOf members v).1 = some (member d.type).value) ∨
      members.get? d.name = none ∧ d.Omitted defaultOf (d.inputOf defaultOf members v).1 := by
  unfold InputDefinition.inputOf at h ⊢
  cases hmember : members.get? d.name with
  | some member =>
    rw [hmember] at h
    exact .inl ⟨member, rfl, List.map_eq_nil_iff.mp h, rfl⟩
  | none =>
    rw [hmember] at h
    refine .inr ⟨rfl, ?_⟩
    cases hdefault : d.default with
    | some default =>
      simp only [hdefault] at h ⊢
      cases hv : defaultOf default d.type with
      | ok v => exact .inl ⟨default, v, hdefault, hv, rfl⟩
      | error e => simp [hv] at h
    | none =>
      simp only [hdefault] at h ⊢
      split at h
      · cases h
      · next hnull => exact .inr ⟨hdefault, by simpa using hnull, by simp [hnull]⟩

variable {defaultOf} in
theorem inputOf_of_omitted {members : Entries (TypeRef → Checked)} {v : Value}
    {d : InputDefinition} {read : Option Value} (hnone : members.get? d.name = none)
    (h : d.Omitted defaultOf read) : d.inputOf defaultOf members v = (read, []) := by
  unfold InputDefinition.inputOf
  rw [hnone]
  rcases h with ⟨default, w, hdefault, hw, rfl⟩ | ⟨hdefault, hnull, rfl⟩
  · simp only [hdefault, hw]
  · simp [hdefault, hnull]

theorem value_inputObject (o : InputObjectType) (members : Entries (TypeRef → Checked))
    (fields : Object) :
    (o.input defaultOf members (.object fields)).value =
      .object (gathered (·.name) (fun d => (d.inputOf defaultOf members (.object fields)).1)
        o.fields.value) := by
  simp [InputObjectType.input, gathered, List.filterMap_map, Function.comp_def]

theorem errors_inputObject_eq_nil_iff (o : InputObjectType)
    (members : Entries (TypeRef → Checked)) (fields : Object) :
    (o.input defaultOf members (.object fields)).errors = [] ↔
      (∀ d ∈ o.fields.value, (d.inputOf defaultOf members (.object fields)).2 = []) ∧
      (∀ key ∈ fields.map Prod.fst, (o.field? key).isSome) ∧
      (o.isOneOf → oneOfErrors o fields = []) := by
  simp only [InputObjectType.input, Entries.keys, List.append_eq_nil_iff,
    List.flatMap_eq_nil_iff, List.map_eq_nil_iff, List.forall_mem_map, List.filter_eq_nil_iff]
  refine and_congr_right fun _ => and_congr ?_ ?_
  · simp [Option.isSome_iff_ne_none]
  · cases o.isOneOf <;> simp

theorem mem_oneOfErrors {o : InputObjectType} {fields : Object} {problem : CoercionProblem}
    (h : problem ∈ oneOfErrors o fields) :
    (∃ key, problem = .nullInOneOf key) ∨ problem = .notExactlyOne o.name := by
  unfold oneOfErrors at h
  split at h
  · next key v =>
    split at h
    · exact .inl ⟨key, List.mem_singleton.mp h⟩
    · cases h
  · exact .inr (List.mem_singleton.mp h)

variable {defaultOf} in
theorem mem_errors_inputObject {o : InputObjectType} {members : Entries (TypeRef → Checked)}
    {fields : Object} {e : CoercionError}
    (he : e ∈ (o.input defaultOf members (.object fields)).errors) :
    (∃ d ∈ o.fields.value, e ∈ (d.inputOf defaultOf members (.object fields)).2) ∨
      (∃ key, e.problem = .unknownField key o.name) ∨ (∃ key, e.problem = .nullInOneOf key) ∨
        e.problem = .notExactlyOne o.name := by
  simp only [InputObjectType.input, List.mem_append, List.flatMap_map, List.mem_flatMap,
    List.mem_map] at he
  rcases he with hfield | ⟨problem, ⟨key, -, rfl⟩ | hproblem, rfl⟩
  · exact .inl hfield
  · exact .inr (.inl ⟨key, rfl⟩)
  · split at hproblem
    · exact .inr (.inr (mem_oneOfErrors hproblem))
    · cases hproblem

/-! ## Literals -/

/-- The fields of an object literal, without where they were written. -/
def fieldsByName (fields : List (Located String × Located Literal)) : Entries Literal :=
  fields.map fun (key, l) => (key.item, l.item)

theorem mem_of_get?_fieldsByName {fields : List (Located String × Located Literal)} {key : String}
    {l : Literal} (h : (fieldsByName fields).get? key = some l) :
    ∃ f ∈ fields, f.1.item = key ∧ f.2.item = l := by
  obtain ⟨f, hf, heq⟩ := List.mem_map.mp (Entries.mem_of_get? h)
  obtain ⟨rfl, rfl⟩ := Prod.mk.inj heq
  exact ⟨f, hf, rfl, rfl⟩

theorem literalItems_eq_map (items : List (Located Literal)) :
    literalItems schema defaultOf scope items =
      items.map fun l t => literalAs schema defaultOf scope l.item t := by
  induction items with
  | nil => rfl
  | cons l items ih => rw [literalItems, ih, List.map_cons]

theorem literalMembers_eq_map (fields : List (Located String × Located Literal)) :
    literalMembers schema defaultOf scope fields =
      (fieldsByName fields).map fun e => (e.1, fun t => literalAs schema defaultOf scope e.2 t) := by
  induction fields with
  | nil => rfl
  | cons f fields ih =>
    rw [literalMembers, ih]
    rfl

theorem get?_literalMembers (key : String) (fields : List (Located String × Located Literal)) :
    Entries.get? key (literalMembers schema defaultOf scope fields) =
      (Entries.get? key (fieldsByName fields)).map
        fun l t => literalAs schema defaultOf scope l t := by
  rw [literalMembers_eq_map]
  exact Entries.get?_map (fun l t => literalAs schema defaultOf scope l t) key (fieldsByName fields)

end

section

variable {schema : Schema σ} {defaultOf : DefaultCoercion} {scope : Scope}

theorem exists_of_nested {n : Nat} {r : Except CoercionError Value} {read : Option Value}
    (h : LiteralResult.nested n r = .ok read) :
    ∃ w, r = .ok w ∧ read = some (n.repeat (fun v => .list [v]) w) := by
  obtain ⟨w, hw, heq⟩ := map_eq_ok h
  exact ⟨w, hw, heq.symm⟩

/-- Only a variable without a value is coerced to nothing. -/
theorem isUnset_of_literalAs {l : Literal} {t : TypeRef}
    (h : literalAs schema defaultOf scope l t = .ok none) : l.isUnset scope := by
  cases l with
  | «variable» name =>
    unfold literalAs at h
    unfold Literal.isUnset Scope.isUnset
    split at h
    · next hnone => simp [hnone]
    · split at h <;> cases h
  | null =>
    unfold literalAs at h
    split at h <;> cases h
  | list items =>
    unfold literalAs at h
    split at h <;> obtain ⟨_, -, heq⟩ := map_eq_ok h <;> cases heq
  | _ =>
    unfold literalAs at h
    obtain ⟨_, -, heq⟩ := exists_of_nested h
    cases heq

theorem exists_of_forall₂ {α β : Type} {R : α → β → Prop} {as : List α} {bs : List β}
    (h : List.Forall₂ R as bs) {b : β} (hb : b ∈ bs) : ∃ a ∈ as, R a b := by
  induction h with
  | nil => cases hb
  | cons hab _ ih =>
    rcases List.mem_cons.mp hb with rfl | hb
    · exact ⟨_, List.mem_cons_self, hab⟩
    · obtain ⟨a, ha, hR⟩ := ih hb
      exact ⟨a, List.mem_cons_of_mem _ ha, hR⟩

/-- The items of a list are coerced one by one; what is left out was unset, and is null. -/
theorem forall₂_of_itemsOfLiterals {item : TypeRef} {members : List (TypeRef → LiteralResult)}
    {vs : List Value} (h : itemsOfLiterals item members = .ok vs) :
    List.Forall₂ (fun member v => member item = .ok (some v) ∨
      member item = .ok none ∧ item.isNonNull = false ∧ v = .null) members vs := by
  induction members generalizing vs with
  | nil =>
    obtain rfl := Except.ok.inj h
    exact .nil
  | cons member members ih =>
    unfold itemsOfLiterals at h
    obtain ⟨read, hmember, h⟩ := bind_eq_ok h
    cases read with
    | some v =>
      obtain ⟨rest, hrest, h⟩ := bind_eq_ok h
      obtain rfl := Except.ok.inj h
      exact .cons (.inl hmember) (ih hrest)
    | none =>
      dsimp only at h
      split at h
      · cases h
      · next hnull =>
        obtain ⟨rest, hrest, h⟩ := bind_eq_ok h
        obtain rfl := Except.ok.inj h
        exact .cons (.inr ⟨hmember, by simpa using hnull, rfl⟩) (ih hrest)

theorem omitted_of_literals {d : InputDefinition} {read : Option Value}
    (h : (match (none : Option Value), d.default with
      | some v, _ => Except.ok (some v)
      | none, some default => return some (← defaultOf default d.type)
      | none, none =>
        if d.type.isNonNull then (CoercionProblem.missingField d.name d.type).refuse
        else return none) = .ok read) : d.Omitted defaultOf read := by
  cases hdefault : d.default with
  | some default =>
    rw [hdefault] at h
    obtain ⟨v, hv, h⟩ := bind_eq_ok h
    exact .inl ⟨default, v, hdefault, hv, (Except.ok.inj h).symm⟩
  | none =>
    simp only [hdefault, CoercionProblem.refuse] at h
    split at h
    · cases h
    · next hnull => exact .inr ⟨hdefault, by simpa using hnull, (Except.ok.inj h).symm⟩

theorem ofLiterals_cases {members : Entries (TypeRef → LiteralResult)} {d : InputDefinition}
    {read : Option Value} (h : d.ofLiterals defaultOf members = .ok read) :
    (∃ member v, members.get? d.name = some member ∧ member d.type = .ok (some v) ∧
        read = some v) ∨
      (∀ member, members.get? d.name = some member → member d.type = .ok none) ∧
        d.Omitted defaultOf read := by
  unfold InputDefinition.ofLiterals at h
  cases hmember : members.get? d.name with
  | none =>
    rw [hmember] at h
    obtain ⟨given, hgiven, h⟩ := bind_eq_ok h
    obtain rfl := Except.ok.inj hgiven
    exact .inr ⟨by simp, omitted_of_literals h⟩
  | some member =>
    rw [hmember] at h
    obtain ⟨given, hgiven, h⟩ := bind_eq_ok h
    cases given with
    | some v => exact .inl ⟨member, v, rfl, hgiven, (Except.ok.inj h).symm⟩
    | none => exact .inr ⟨fun _ h => Option.some.inj h ▸ hgiven, omitted_of_literals h⟩

theorem fieldsOfLiterals_eq_foldlM (members : Entries (TypeRef → LiteralResult))
    (definitions : List InputDefinition) (coerced : Object) :
    fieldsOfLiterals defaultOf members definitions coerced =
      definitions.foldlM (gathering (·.name) fun d => d.ofLiterals defaultOf members) coerced := by
  induction definitions generalizing coerced with
  | nil => rfl
  | cons d definitions ih =>
    rw [fieldsOfLiterals, List.foldlM_cons, gathering]
    cases d.ofLiterals defaultOf members with
    | error e => rfl
    | ok read => cases read <;> exact ih _

theorem exists_of_checkOneOf {o : InputObjectType} {fields : List (Located String × Located Literal)}
    (h : checkOneOf scope o fields = .ok ()) :
    ∃ key field, fields = [(key, field)] ∧ field.item.isNullIn scope = false := by
  unfold checkOneOf at h
  split at h
  · next key field =>
    split at h
    · cases h
    · next hnull => exact ⟨key, field, rfl, by simpa using hnull⟩
  · cases h

/-- What is known of an object literal that became a value of an input object type. -/
structure ReadsObject (defaultOf : DefaultCoercion) (scope : Scope) (o : InputObjectType)
    (members : Entries (TypeRef → LiteralResult)) (fields : List (Located String × Located Literal))
    (read : InputDefinition → Option Value) : Prop where
  known : ∀ f ∈ fields, (o.field? f.1.item).isSome
  oneOf : o.isOneOf → ∃ key field, fields = [(key, field)] ∧ field.item.isNullIn scope = false
  fields : ∀ d ∈ o.fields.value, d.ofLiterals defaultOf members = .ok (read d)

theorem exists_of_objectLiteral {o : InputObjectType} {members : Entries (TypeRef → LiteralResult)}
    {l : Literal} {v : Value} (h : o.ofLiteral defaultOf scope members l = .ok v) :
    ∃ fields read, l = .object fields ∧ ReadsObject defaultOf scope o members fields read ∧
      v = .object (gathered (·.name) read o.fields.value) := by
  unfold InputObjectType.ofLiteral at h
  split at h
  · next fields =>
    split at h
    · cases h
    · next hunknown =>
      have hunknown' : ∀ f ∈ fields, (o.field? f.1.item).isSome := fun f hf => by
        simpa [Option.isSome_iff_ne_none] using List.find?_eq_none.mp hunknown f hf
      obtain ⟨honeOf, out, hout, rfl⟩ : (o.isOneOf → checkOneOf scope o fields = .ok ()) ∧
          ∃ out, fieldsOfLiterals defaultOf members o.fields.value [] = .ok out ∧
            .object out = v := by
        split at h
        · obtain ⟨_, honeOf, h⟩ := bind_eq_ok h
          obtain ⟨out, hout, h⟩ := bind_eq_ok h
          exact ⟨fun _ => honeOf, out, hout, Except.ok.inj h⟩
        · next hmany =>
          obtain ⟨out, hout, h⟩ := bind_eq_ok h
          exact ⟨fun h => absurd h hmany, out, hout, Except.ok.inj h⟩
      rw [fieldsOfLiterals_eq_foldlM] at hout
      obtain ⟨read, hread, rfl⟩ := exists_of_foldlM_gathering hout
      exact ⟨fields, read, rfl, ⟨hunknown', fun h => exists_of_checkOneOf (honeOf h), hread⟩, rfl⟩
  · cases h

theorem ReadsObject.ofLiteral_eq {o : InputObjectType} {members : Entries (TypeRef → LiteralResult)}
    {fields : List (Located String × Located Literal)} {read : InputDefinition → Option Value}
    (h : ReadsObject defaultOf scope o members fields read) :
    o.ofLiteral defaultOf scope members (.object fields) =
      .ok (.object (gathered (·.name) read o.fields.value)) := by
  have hunknown : (fields.find? fun f => (o.field? f.1.item).isNone) = none :=
    List.find?_eq_none.mpr fun f hf => by simpa [Option.isSome_iff_ne_none] using h.known f hf
  have hfields : fieldsOfLiterals defaultOf members o.fields.value [] =
      .ok (gathered (·.name) read o.fields.value) := by
    rw [fieldsOfLiterals_eq_foldlM, foldlM_gathering_ok h.fields]
    rfl
  unfold InputObjectType.ofLiteral
  simp only [hunknown, hfields]
  split
  · next honeOf =>
    obtain ⟨key, field, rfl, hnull⟩ := h.oneOf honeOf
    simp only [checkOneOf, hnull]
    rfl
  · rfl

end

/-! ## A small schema -/

def sampleMood : EnumType where
  name := "Mood"
  values := .given [{ name := "GLAD", value := .int 1 }, { name := "SAD", value := .int 0 }]

def sampleRange : InputObjectType where
  name := "Range"
  fields := .given [
    { name := "low", type := .nonNullNamed "Int", default := some (.value (.int 0)) },
    { name := "moods", type := .list (.nonNullNamed "Mood") }]

def samplePick : InputObjectType where
  name := "Pick"
  fields := .given [{ name := "id", type := .named "ID" }, { name := "range", type := .named "Range" }]
  isOneOf := true

/-- A scalar that reads everything as it is. -/
def sampleAny : ScalarType where
  name := "Any"

def sampleInputs : Schema σ where
  description := none
  queryType := "Query"
  mutationType := none
  subscriptionType := none
  types := [
    .object { name := "Query", fields := .given [{ name := "name", type := .named "String" }] },
    .enum sampleMood, .inputObject sampleRange, .inputObject samplePick, .scalar sampleAny]
      ++ ScalarType.builtins.map .scalar
  directives := DirectiveDefinition.builtins
  types_nodup := by
    change (["Query", "Mood", "Range", "Pick", "Any"] ++ ScalarType.builtins.map (·.name)).Nodup
    decide
  directives_nodup := DirectiveDefinition.builtins_names_nodup

end GraphQL
