import Mathlib.Data.List.Basic
import Mathlib.Tactic.ByContra
import GraphQL.Execution.Response

/-! # Merging data

Data that is delivered in pieces is put together by merging each piece into what is there already.
Pieces of one value, in any order, are merged to a piece of that value that holds all of them.
-/

namespace GraphQL

/-! ## Places in values -/

/-- The field or item that a segment leads to. -/
def Value.child? : Value → Segment → Option Value
  | .object fields, .key name => Entries.get? name fields
  | .list items, .index i => items[i]?
  | _, _ => none

/-- What stands where some segments lead to. -/
def Value.at? (v : Value) : List Segment → Option Value
  | [] => some v
  | s :: rest => (v.child? s).bind (·.at? rest)

namespace Value

theorem at?_null {q : List Segment} {v : Value} (h : null.at? q = some v) : q = [] := by
  cases q with
  | nil => rfl
  | cons s rest => simp [at?, child?] at h

theorem at?_append (v : Value) (p q : List Segment) : v.at? (p ++ q) = (v.at? p).bind (·.at? q) := by
  induction p generalizing v with
  | nil => rfl
  | cons s rest ih =>
    simp only [List.cons_append, at?]
    cases v.child? s with
    | none => rfl
    | some w => exact ih w

theorem at?_concat (v : Value) (p : List Segment) (s : Segment) :
    v.at? (p ++ [s]) = (v.at? p).bind (·.child? s) := by
  rw [at?_append]
  congr 1
  funext w
  simp [at?]

theorem induct {P : Value → Prop} (null : P .null) (scalar : ∀ s, P (.scalar s))
    (list : ∀ items, (∀ v ∈ items, P v) → P (.list items))
    (object : ∀ fields, (∀ k v, (k, v) ∈ fields → P v) → P (.object fields)) (v : Value) : P v :=
  Value.rec (motive_1 := P) (motive_2 := fun items => ∀ v ∈ items, P v)
    (motive_3 := fun fields => ∀ k v, (k, v) ∈ fields → P v) (motive_4 := fun field => P field.2)
    null scalar list object (by simp) (fun v items hv hitems => by simpa using ⟨hv, hitems⟩)
    (by simp)
    (fun field fields hfield hfields k v hmem => by
      rcases List.mem_cons.mp hmem with rfl | hmem
      · exact hfield
      · exact hfields k v hmem)
    (fun _ _ h => h) v

end Value

namespace Entries

variable {α : Type}

@[simp] theorem get?_nil (k : String) : get? k ([] : Entries α) = none := rfl

theorem get?_cons (k j : String) (v : α) (es : Entries α) :
    get? k ((j, v) :: es) = if k = j then some v else get? k es := by
  unfold get?
  rw [List.lookup_cons]
  by_cases h : k = j
  · simp [h]
  · simp [h, beq_false_of_ne h]

theorem mem_of_get? {k : String} {v : α} {es : Entries α} (h : get? k es = some v) :
    (k, v) ∈ es := by
  induction es with
  | nil => cases h
  | cons e es ih =>
    rw [get?_cons] at h
    split at h
    · next heq =>
      obtain rfl := Option.some.inj h
      rw [heq]
      exact List.mem_cons_self
    · exact List.mem_cons_of_mem _ (ih h)

theorem get?_insert (k j : String) (v : α) (es : Entries α) :
    get? j (insert k v es) = if j = k then some v else get? j es := by
  induction es with
  | nil => rw [insert, get?_cons]
  | cons e es ih =>
    obtain ⟨k', v'⟩ := e
    unfold insert
    split
    · next heq =>
      subst heq
      rw [get?_cons, get?_cons]
      split <;> rfl
    · next hne =>
      rw [get?_cons, get?_cons, ih]
      by_cases h : j = k'
      · subst h
        simp [hne]
      · simp [h]

theorem get?_append (k : String) (es es' : Entries α) :
    get? k (es ++ es') = (get? k es).or (get? k es') := by
  induction es with
  | nil => rfl
  | cons e es ih =>
    rw [List.cons_append, get?_cons, get?_cons]
    split
    · rfl
    · exact ih

theorem get?_filter_contains (k : String) (es es' : Entries α) :
    get? k (es.filter fun e => !es'.contains e.1) =
      if (get? k es').isSome then none else get? k es := by
  induction es with
  | nil => simp
  | cons e es ih =>
    obtain ⟨k', v⟩ := e
    rw [List.filter_cons, get?_cons]
    by_cases hcontains : (get? k' es').isSome
    · have hcontains' : contains k' es' = true := hcontains
      simp only [hcontains', Bool.not_true, Bool.false_eq_true, if_false, ih]
      by_cases hk : k = k'
      · subst hk
        simp [hcontains]
      · simp [hk]
    · have hcontains' : contains k' es' = false := by
        unfold contains
        exact Bool.eq_false_iff.mpr hcontains
      simp only [hcontains', Bool.not_false, if_true, get?_cons, ih]
      by_cases hk : k = k'
      · subst hk
        simp [hcontains]
      · simp [hk]

end Entries

/-! ## Parts of values -/

namespace Value

/-- Whether a value is a piece of another: lists begin with pieces of its items, and objects have
pieces of its fields, in any order. -/
inductive Within : Value → Value → Prop
  | null : Within .null .null
  | scalar {s} : Within (.scalar s) (.scalar s)
  | list {items items'} (hlength : items.length ≤ items'.length)
    (hitems : ∀ (i : Nat) v w, items[i]? = some v → items'[i]? = some w → Within v w) :
    Within (.list items) (.list items')
  | object {fields fields'} (hkeys : ∀ k, (Entries.get? k fields).isSome →
      (Entries.get? k fields').isSome)
    (hfields : ∀ k v w, Entries.get? k fields = some v → Entries.get? k fields' = some w →
      Within v w) :
    Within (.object fields) (.object fields')

/-- Whether two values are the same but for the order of keys. -/
def Same (v w : Value) : Prop := v.Within w ∧ w.Within v

/-- Whether what stands in one place, if anything, is a piece of what stands in another. -/
def OptionWithin (v w : Option Value) : Prop := ∀ v', v = some v' → ∃ w', w = some w' ∧ v'.Within w'

theorem OptionWithin.none (w : Option Value) : OptionWithin .none w := fun _ h => nomatch h

theorem OptionWithin.some {v w : Value} {w' : Option Value} (hw : w' = .some w) (h : v.Within w) :
    OptionWithin (.some v) w' := by
  rintro _ ⟨⟩
  exact ⟨w, hw, h⟩

theorem within_list_iff {items items' : List Value} :
    (list items).Within (list items') ↔ ∀ i : Nat, OptionWithin items[i]? items'[i]? := by
  constructor
  · intro h i v hv
    cases h with
    | list hlength hitems =>
      have hi := Nat.lt_of_lt_of_le (List.getElem?_eq_some_iff.mp hv).1 hlength
      exact ⟨_, List.getElem?_eq_getElem hi, hitems i v _ hv (List.getElem?_eq_getElem hi)⟩
  · intro h
    refine .list ?_ fun i v w hv hw => ?_
    · by_contra hlt
      have hi : items'.length < items.length := by omega
      obtain ⟨w, hw, -⟩ := h _ _ (List.getElem?_eq_getElem hi)
      simp at hw
    · obtain ⟨w', hw', hwithin⟩ := h i v hv
      obtain rfl := Option.some.inj (hw'.symm.trans hw)
      exact hwithin

theorem within_object_iff {fields fields' : Object} :
    (object fields).Within (object fields') ↔
      ∀ k, OptionWithin (Entries.get? k fields) (Entries.get? k fields') := by
  constructor
  · intro h k v hv
    cases h with
    | object hkeys hfields =>
      obtain ⟨w, hw⟩ := Option.isSome_iff_exists.mp (hkeys k (by simp [hv]))
      exact ⟨w, hw, hfields k v w hv hw⟩
  · intro h
    refine .object (fun k hk => ?_) fun k v w hv hw => ?_
    · obtain ⟨v, hv⟩ := Option.isSome_iff_exists.mp hk
      obtain ⟨w, hw, -⟩ := h k v hv
      simp [hw]
    · obtain ⟨w', hw', hwithin⟩ := h k v hv
      obtain rfl := Option.some.inj (hw'.symm.trans hw)
      exact hwithin

namespace Within

theorem refl (v : Value) : v.Within v := by
  induction v using induct with
  | null => exact .null
  | scalar => exact .scalar
  | list items ih =>
    exact within_list_iff.mpr fun i v hv => ⟨v, hv, ih v (List.mem_of_getElem? hv)⟩
  | object fields ih =>
    exact within_object_iff.mpr fun k v hv => ⟨v, hv, ih k v (Entries.mem_of_get? hv)⟩

theorem child? {v w : Value} (h : v.Within w) (s : Segment) :
    OptionWithin (v.child? s) (w.child? s) := by
  cases h with
  | null | scalar => exact fun _ hv => nomatch hv
  | list hlength hitems =>
    cases s with
    | key => exact fun _ hv => nomatch hv
    | index i => exact within_list_iff.mp (.list hlength hitems) i
  | object hkeys hfields =>
    cases s with
    | index => exact fun _ hv => nomatch hv
    | key k => exact within_object_iff.mp (.object hkeys hfields) k

theorem at? {v w : Value} (h : v.Within w) (p : List Segment) : OptionWithin (v.at? p) (w.at? p) := by
  intro v' hv
  induction p generalizing v w with
  | nil =>
    obtain rfl := Option.some.inj hv
    exact ⟨w, rfl, h⟩
  | cons s rest ih =>
    obtain ⟨u, hu, hv⟩ := Option.bind_eq_some_iff.mp hv
    obtain ⟨u', hu', hwithin⟩ := h.child? s u hu
    obtain ⟨w', hw', hwithin'⟩ := ih hwithin hv
    exact ⟨w', by simp [Value.at?, hu', hw'], hwithin'⟩

theorem trans {u v w : Value} (huv : u.Within v) (hvw : v.Within w) : u.Within w := by
  induction huv generalizing w with
  | null | scalar => exact hvw
  | @list items items' hlength hitems ih =>
    cases hvw with
    | @list _ items'' hlength' hitems' =>
      refine .list (Nat.le_trans hlength hlength') fun i u w hu hw => ?_
      have hi : i < items'.length :=
        Nat.lt_of_lt_of_le (List.getElem?_eq_some_iff.mp hu).1 hlength
      exact ih i u _ hu (List.getElem?_eq_getElem hi)
        (hitems' i _ w (List.getElem?_eq_getElem hi) hw)
  | object hkeys hfields ih =>
    cases hvw with
    | object hkeys' hfields' =>
      refine .object (fun k hk => hkeys' k (hkeys k hk)) fun k u w hu hw => ?_
      obtain ⟨v, hv⟩ := Option.isSome_iff_exists.mp (hkeys k (by simp [hu]))
      exact ih k u v hu hv (hfields' k v w hv hw)

end Within

theorem OptionWithin.child? {v whole : Value} {p : List Segment}
    (h : OptionWithin (.some v) (whole.at? p)) (s : Segment) :
    OptionWithin (v.child? s) (whole.at? (p ++ [s])) := by
  obtain ⟨w, hw, hwithin⟩ := h v rfl
  rw [at?_concat, hw]
  exact hwithin.child? s

theorem OptionWithin.object {fields : Object} {w : Option Value}
    (h : OptionWithin (.some (.object fields)) w) : ∃ fields', w = .some (.object fields') := by
  obtain ⟨w, rfl, hwithin⟩ := h _ rfl
  cases hwithin
  exact ⟨_, rfl⟩

theorem OptionWithin.list {items : List Value} {w : Option Value}
    (h : OptionWithin (.some (.list items)) w) :
    ∃ items', w = .some (.list items') ∧ items.length ≤ items'.length := by
  obtain ⟨w, rfl, hwithin⟩ := h _ rfl
  cases hwithin with
  | list hlength => exact ⟨_, rfl, hlength⟩

/-! ## Merging -/

mutual

/-- Merges a value into another: lists index by index, and objects key by key. -/
def merge : Value → Value → Value
  | .list items, .list more => .list (mergeItems items more)
  | .object fields, .object more =>
    .object (mergeFields fields more ++ more.filter fun field => !Entries.contains field.1 fields)
  | _, v => v

def mergeItems : List Value → List Value → List Value
  | v :: rest, w :: more => v.merge w :: mergeItems rest more
  | [], more => more
  | rest, [] => rest

/-- The first fields, each with what another object has under its key. -/
def mergeFields : List (String × Value) → Object → List (String × Value)
  | [], _ => []
  | (k, v) :: rest, more =>
    (k, match Entries.get? k more with
      | some w => v.merge w
      | none => v) :: mergeFields rest more

end

/-- What two values come to in one place, of which one may be missing. -/
def mergeOptions : Option Value → Option Value → Option Value
  | some v, some w => some (v.merge w)
  | v, w => v.or w

theorem getElem?_mergeItems (items more : List Value) (i : Nat) :
    (mergeItems items more)[i]? = mergeOptions items[i]? more[i]? := by
  induction items generalizing more i with
  | nil => simp [mergeItems, mergeOptions]
  | cons v rest ih =>
    cases more with
    | nil => cases h : (v :: rest)[i]? <;> simp [mergeItems, mergeOptions, h]
    | cons w more =>
      cases i with
      | zero => rfl
      | succ i => simpa [mergeItems] using ih more i

theorem get?_mergeFields (fields more : Object) (k : String) :
    Entries.get? k (mergeFields fields more) = (Entries.get? k fields).map fun v =>
      match Entries.get? k more with
      | some w => v.merge w
      | none => v := by
  induction fields with
  | nil => rfl
  | cons field rest ih =>
    obtain ⟨j, v⟩ := field
    rw [mergeFields, Entries.get?_cons, Entries.get?_cons]
    split
    · next heq =>
      subst heq
      rfl
    · exact ih

theorem get?_merge (fields more : Object) (k : String) :
    Entries.get? k (mergeFields fields more ++
      more.filter fun field => !Entries.contains field.1 fields) =
        mergeOptions (Entries.get? k fields) (Entries.get? k more) := by
  rw [Entries.get?_append, get?_mergeFields, Entries.get?_filter_contains]
  cases Entries.get? k fields <;> cases Entries.get? k more <;> rfl

theorem within_mergeOptions {v w whole : Option Value} (hv : OptionWithin v whole)
    (hw : OptionWithin w whole)
    (h : ∀ v' w' whole', v = some v' → whole = some whole' → w'.Within whole' →
      v'.Within (v'.merge w') ∧ w'.Within (v'.merge w') ∧ (v'.merge w').Within whole') :
    OptionWithin v (mergeOptions v w) ∧ OptionWithin w (mergeOptions v w) ∧
      OptionWithin (mergeOptions v w) whole := by
  cases v with
  | none =>
    cases w with
    | none => exact ⟨.none _, .none _, .none _⟩
    | some w => exact ⟨.none _, .some rfl (.refl w), hw⟩
  | some v =>
    cases w with
    | none => exact ⟨.some rfl (.refl v), .none _, hv⟩
    | some w =>
      obtain ⟨u, hu, -⟩ := hv v rfl
      obtain ⟨u', hu', hwithin⟩ := hw w rfl
      obtain rfl := Option.some.inj (hu.symm.trans hu')
      obtain ⟨hfirst, hsecond, hboth⟩ := h v w u rfl hu hwithin
      exact ⟨.some rfl hfirst, .some rfl hsecond, .some hu hboth⟩

/-- Pieces of one value are merged to a piece of it that holds both. -/
theorem within_merge {v w whole : Value} (hv : v.Within whole) (hw : w.Within whole) :
    v.Within (v.merge w) ∧ w.Within (v.merge w) ∧ (v.merge w).Within whole := by
  induction hv generalizing w with
  | null =>
    cases hw
    exact ⟨.null, .null, .null⟩
  | scalar =>
    cases hw
    exact ⟨.scalar, .scalar, .scalar⟩
  | @list items all hlength hitems ih =>
    cases hw with
    | @list more _ hlength' hitems' =>
      have hjoined (i : Nat) := within_mergeOptions
        (within_list_iff.mp (.list hlength hitems) i) (within_list_iff.mp (.list hlength' hitems') i)
        fun v w whole hv hwhole => ih i v whole hv hwhole
      simp only [merge, within_list_iff, getElem?_mergeItems]
      exact ⟨fun i => (hjoined i).1, fun i => (hjoined i).2.1, fun i => (hjoined i).2.2⟩
  | @object fields all hkeys hfields ih =>
    cases hw with
    | @object more _ hkeys' hfields' =>
      have hjoined (k : String) := within_mergeOptions
        (within_object_iff.mp (.object hkeys hfields) k)
        (within_object_iff.mp (.object hkeys' hfields') k)
        fun v w whole hv hwhole => ih k v whole hv hwhole
      simp only [merge, within_object_iff, get?_merge]
      exact ⟨fun k => (hjoined k).1, fun k => (hjoined k).2.1, fun k => (hjoined k).2.2⟩

/-! ## Merging below the root -/

/-- Merges a value into what stands at a place, which may be right behind the items of a list. There
has to be such a place. -/
def patch (v : Value) : List Segment → Value → Option Value
  | [], data => some (data.merge v)
  | .key k :: rest, .object fields => do
    let data ← Entries.get? k fields
    return .object (Entries.insert k (← v.patch rest data) fields)
  | .index i :: rest, .list items =>
    match items[i]? with
    | some data => (v.patch rest data).map fun data => .list (items.set i data)
    | none => if i = items.length ∧ rest = [] then some (.list (items ++ [v])) else none
  | _, _ => none

/-- Whether there is such a place. -/
def HasRoom : Value → List Segment → Prop
  | _, [] => True
  | data, s :: rest => (∃ child, data.child? s = some child ∧ child.HasRoom rest) ∨
    rest = [] ∧ ∃ items, data = .list items ∧ s = .index items.length

theorem hasRoom_of_at? {data : Value} {p : List Segment} {v : Value} (h : data.at? p = some v) :
    data.HasRoom p := by
  induction p generalizing data with
  | nil => trivial
  | cons s rest ih =>
    obtain ⟨child, hchild, h⟩ := Option.bind_eq_some_iff.mp h
    exact .inl ⟨child, hchild, ih h⟩

theorem hasRoom_of_list {data : Value} {p : List Segment} {items : List Value} {i : Nat}
    (h : data.at? p = some (.list items)) (hi : i ≤ items.length) :
    data.HasRoom (p ++ [.index i]) := by
  induction p generalizing data with
  | nil =>
    obtain rfl := Option.some.inj h
    rcases Nat.lt_or_eq_of_le hi with hlt | rfl
    · exact .inl ⟨_, List.getElem?_eq_getElem hlt, trivial⟩
    · exact .inr ⟨rfl, items, rfl, rfl⟩
  | cons s rest ih =>
    obtain ⟨child, hchild, h⟩ := Option.bind_eq_some_iff.mp h
    exact .inl ⟨child, hchild, ih h⟩

/-- What a piece of the value at a place comes to when it is merged there. -/
structure Patched (data v data' whole : Value) (p : List Segment) : Prop where
  keeps : data.Within data'
  adds : OptionWithin (some v) (data'.at? p)
  within : data'.Within whole

theorem patched_here {data v whole : Value} (hdata : data.Within whole) (hv : v.Within whole) :
    Patched data v (data.merge v) whole [] := by
  obtain ⟨hkeeps, hadds, hwithin⟩ := within_merge hdata hv
  exact ⟨hkeeps, .some rfl hadds, hwithin⟩

theorem patched_field {fields : Object} {k : String} {child child' whole whole' v : Value}
    {rest : List Segment} (hdata : (object fields).Within whole)
    (hchild : Entries.get? k fields = some child) (hwhole : whole.child? (.key k) = some whole')
    (h : Patched child v child' whole' rest) :
    Patched (.object fields) v (.object (Entries.insert k child' fields)) whole (.key k :: rest) := by
  cases hdata with
  | @object _ all hkeys hfields =>
    have hall := within_object_iff.mp (.object hkeys hfields)
    refine ⟨within_object_iff.mpr fun j => ?_, ?_, within_object_iff.mpr fun j => ?_⟩
    · rw [Entries.get?_insert]
      split
      · next heq =>
        rw [heq, hchild]
        exact .some rfl h.keeps
      · exact fun w hw => ⟨w, hw, .refl w⟩
    · simpa [Value.at?, Value.child?, Entries.get?_insert] using h.adds
    · rw [Entries.get?_insert]
      split
      · next heq => exact .some (heq ▸ hwhole) h.within
      · exact hall j

theorem patched_item {items : List Value} {i : Nat} {child child' whole whole' v : Value}
    {rest : List Segment} (hdata : (list items).Within whole) (hchild : items[i]? = some child)
    (hwhole : whole.child? (.index i) = some whole') (h : Patched child v child' whole' rest) :
    Patched (.list items) v (.list (items.set i child')) whole (.index i :: rest) := by
  have hi := (List.getElem?_eq_some_iff.mp hchild).1
  cases hdata with
  | @list _ all hlength hitems =>
    have hall := within_list_iff.mp (.list hlength hitems)
    refine ⟨within_list_iff.mpr fun j => ?_, ?_, within_list_iff.mpr fun j => ?_⟩
    · rw [List.getElem?_set]
      split
      · next heq =>
        rw [← heq, hchild]
        exact .some rfl h.keeps
      · exact fun w hw => ⟨w, hw, .refl w⟩
    · simpa [Value.at?, Value.child?, hi] using h.adds
    · rw [List.getElem?_set]
      split
      · next heq =>
        subst heq
        exact .some hwhole h.within
      · exact hall j

theorem patched_end {items : List Value} {v whole w : Value} (hdata : (list items).Within whole)
    (hwhole : whole.child? (.index items.length) = some w) (hv : v.Within w) :
    Patched (.list items) v (.list (items ++ [v])) whole [.index items.length] := by
  cases hdata with
  | @list _ all hlength hitems =>
    have hall := within_list_iff.mp (.list hlength hitems)
    refine ⟨within_list_iff.mpr fun j u hu => ?_, ?_, within_list_iff.mpr fun j => ?_⟩
    · exact ⟨u, by rw [List.getElem?_append_left (List.getElem?_eq_some_iff.mp hu).1, hu], .refl u⟩
    · simpa [Value.at?, Value.child?] using OptionWithin.some rfl (.refl v)
    · rcases Nat.lt_trichotomy j items.length with hlt | rfl | hgt
      · rw [List.getElem?_append_left hlt]
        exact hall j
      · rw [List.getElem?_concat_length]
        exact .some hwhole hv
      · rw [List.getElem?_eq_none (by rw [List.length_append]; exact hgt)]
        exact .none _

/-- A piece of what a whole has at a place is merged into a piece of the whole. -/
theorem exists_patched {data v whole w : Value} {p : List Segment} (hdata : data.Within whole)
    (hw : whole.at? p = some w) (hv : v.Within w) (hroom : data.HasRoom p) :
    ∃ data', v.patch p data = some data' ∧ Patched data v data' whole p := by
  induction p generalizing data whole with
  | nil =>
    obtain rfl := Option.some.inj hw
    exact ⟨_, rfl, patched_here hdata hv⟩
  | cons s rest ih =>
    obtain ⟨whole', hwhole, hrest⟩ := Option.bind_eq_some_iff.mp hw
    rcases hroom with ⟨child, hchild, hroom⟩ | ⟨rfl, items, rfl, rfl⟩
    · obtain ⟨w', hw', hwithin⟩ := hdata.child? s child hchild
      obtain rfl := Option.some.inj (hw'.symm.trans hwhole)
      obtain ⟨child', hpatch, hpatched⟩ := ih hwithin hrest hroom
      cases data with
      | null | scalar => cases hchild
      | object fields =>
        cases s with
        | index => cases hchild
        | key k =>
          change Entries.get? k fields = some child at hchild
          exact ⟨_, by simp [patch, hchild, hpatch], patched_field hdata hchild hwhole hpatched⟩
      | list items =>
        cases s with
        | key => cases hchild
        | index i =>
          change items[i]? = some child at hchild
          exact ⟨_, by simp [patch, hchild, hpatch], patched_item hdata hchild hwhole hpatched⟩
    · obtain rfl := Option.some.inj hrest
      exact ⟨_, by simp [patch], patched_end hdata hwhole hv⟩

end Value

/-- Merges what a part delivers into the data before it. -/
def Part.patch (part : Part) (data : Value) : Option Value :=
  match part.content with
  | .fields (some fields) => (Value.object fields).patch part.path.segments data
  | .items (some [item]) => item.patch part.path.segments data
  | _ => none

end GraphQL
