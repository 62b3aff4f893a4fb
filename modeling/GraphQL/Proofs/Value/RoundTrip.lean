import GraphQL.Value.Json
import Mathlib.Data.List.Induction
import GraphQL.Proofs.Coercion.ConstantLiterals
import GraphQL.Proofs.Json.RoundTrip

/-! # Values survive the trip through JSON

Values without floats that do not nest too deep are the same after they were written and read again,
and so is whatever was read.
-/

namespace GraphQL

namespace Value

mutual

/-- Whether no number of the value is a float. -/
def isFloatFree : Value → Bool
  | .scalar (.float _) => false
  | .list items => areFloatFree items
  | .object fields => fieldsFloatFree fields
  | _ => true

def areFloatFree : List Value → Bool
  | [] => true
  | v :: rest => v.isFloatFree && areFloatFree rest

def fieldsFloatFree : List (String × Value) → Bool
  | [] => true
  | (_, v) :: rest => v.isFloatFree && fieldsFloatFree rest

end

mutual

/-- How deep lists and objects nest. -/
def nesting : Value → Nat
  | .list items => itemsNesting items + 1
  | .object fields => fieldsNesting fields + 1
  | _ => 0

def itemsNesting : List Value → Nat
  | [] => 0
  | v :: rest => max v.nesting (itemsNesting rest)

def fieldsNesting : List (String × Value) → Nat
  | [] => 0
  | (_, v) :: rest => max v.nesting (fieldsNesting rest)

end

/-! ## Items and fields -/

theorem areFloatFree_iff (items : List Value) :
    areFloatFree items ↔ ∀ v ∈ items, v.isFloatFree := by
  induction items with
  | nil => simp [areFloatFree]
  | cons v rest ih => simp [areFloatFree, ih]

theorem fieldsFloatFree_iff (fields : List (String × Value)) :
    fieldsFloatFree fields ↔ ∀ key v, (key, v) ∈ fields → v.isFloatFree := by
  induction fields with
  | nil => simp [fieldsFloatFree]
  | cons field rest ih =>
    rw [fieldsFloatFree, Bool.and_eq_true, ih]
    grind

theorem itemsNesting_le (items : List Value) (n : Nat) :
    itemsNesting items ≤ n ↔ ∀ v ∈ items, v.nesting ≤ n := by
  induction items with
  | nil => simp [itemsNesting]
  | cons v rest ih => rw [itemsNesting, Nat.max_le, ih, List.forall_mem_cons]

theorem fieldsNesting_le (fields : List (String × Value)) (n : Nat) :
    fieldsNesting fields ≤ n ↔ ∀ key v, (key, v) ∈ fields → v.nesting ≤ n := by
  induction fields with
  | nil => simp [fieldsNesting]
  | cons field rest ih =>
    rw [fieldsNesting, Nat.max_le, ih]
    grind

theorem distinctKeysItems_iff (items : List Value) :
    DistinctKeysItems items ↔ ∀ v ∈ items, v.DistinctKeys := by
  induction items with
  | nil => simp [DistinctKeysItems]
  | cons v rest ih => simp [DistinctKeysItems, ih]

theorem distinctKeysFields_iff (fields : List (String × Value)) :
    DistinctKeysFields fields ↔ ∀ key v, (key, v) ∈ fields → v.DistinctKeys := by
  induction fields with
  | nil => simp [DistinctKeysFields]
  | cons field rest ih =>
    rw [DistinctKeysFields, ih]
    grind

theorem itemsToJson_eq_map (items : List Value) : itemsToJson items = items.map toJson := by
  induction items with
  | nil => rfl
  | cons v rest ih => rw [itemsToJson, ih, List.map_cons]

theorem fieldsToJson_eq_map (fields : List (String × Value)) :
    fieldsToJson fields = fields.map fun field => (field.1, field.2.toJson) := by
  induction fields with
  | nil => rfl
  | cons field rest ih => rw [fieldsToJson, ih, List.map_cons]

theorem itemsOfJson_eq_map (items : List Json) : itemsOfJson items = items.map ofJson := by
  induction items with
  | nil => rfl
  | cons j rest ih => rw [itemsOfJson, ih, List.map_cons]

theorem fieldsOfJson_eq_map (members : List (String × Json)) :
    fieldsOfJson members = members.map fun member => (member.1, ofJson member.2) := by
  induction members with
  | nil => rfl
  | cons member rest ih => rw [fieldsOfJson, ih, List.map_cons]

end Value

namespace Entries

variable {α : Type}

theorem mem_of_mem_insert {entry : String × α} {key : String} {v : α} {es : Entries α}
    (h : entry ∈ insert key v es) : entry = (key, v) ∨ entry ∈ es := by
  induction es with
  | nil => exact .inl (List.mem_singleton.mp h)
  | cons e es ih =>
    rw [insert] at h
    split at h
    · next heq => exact (List.mem_cons.mp h).imp (·.trans (by rw [heq])) (List.mem_cons_of_mem _)
    · rcases List.mem_cons.mp h with rfl | hmem
      · exact .inr List.mem_cons_self
      · exact (ih hmem).imp_right (List.mem_cons_of_mem _)

theorem mem_of_mem_ofList {entry : String × α} {es : List (String × α)} (h : entry ∈ ofList es) :
    entry ∈ es := by
  induction es using List.reverseRecOn with
  | nil => cases h
  | append_singleton es e ih =>
    rw [ofList_concat] at h
    rcases mem_of_mem_insert h with rfl | hmem
    · exact List.mem_append_right _ (List.mem_singleton_self _)
    · exact List.mem_append_left _ (ih hmem)

theorem nodup_keys_ofList (es : List (String × α)) : ((ofList es).map Prod.fst).Nodup := by
  induction es using List.reverseRecOn with
  | nil => exact List.nodup_nil
  | append_singleton es e ih =>
    rw [ofList_concat, map_fst_insert]
    split
    · exact ih
    · next hnew => exact List.nodup_append.mpr ⟨ih, List.nodup_singleton _, by grind⟩

theorem get?_ofList (key : String) (es : List (String × α)) :
    get? key (ofList es) = es.reverse.lookup key :=
  (get?_foldl_insert key es []).trans (Option.or_none ..)

end Entries

namespace Value

/-! ## From values to JSON and back -/

theorem readable_toJson (v : Value) : ∀ depth, v.isFloatFree → v.nesting ≤ depth → v.toJson.Readable depth := by
  induction v using Value.induct with
  | null => exact fun _ _ _ => .null
  | scalar s =>
    intro depth hfree _
    cases s with
    | int n =>
      have hleast := n.le_toInt
      have hgreatest := n.toInt_lt
      exact .int ⟨by omega, by omega⟩
    | float x => cases hfree
    | string s => exact .string s
    | boolean b => exact .bool b
  | list items ih =>
    intro depth hfree hnesting
    obtain ⟨depth, rfl⟩ := Nat.exists_eq_succ_of_ne_zero (Nat.ne_zero_of_lt hnesting)
    rw [isFloatFree, areFloatFree_iff] at hfree
    rw [nesting, Nat.succ_le_succ_iff, itemsNesting_le] at hnesting
    rw [toJson, itemsToJson_eq_map]
    refine .array fun j hj => ?_
    obtain ⟨v, hv, rfl⟩ := List.mem_map.mp hj
    exact ih v hv depth (hfree v hv) (hnesting v hv)
  | object fields ih =>
    intro depth hfree hnesting
    obtain ⟨depth, rfl⟩ := Nat.exists_eq_succ_of_ne_zero (Nat.ne_zero_of_lt hnesting)
    rw [isFloatFree, fieldsFloatFree_iff] at hfree
    rw [nesting, Nat.succ_le_succ_iff, fieldsNesting_le] at hnesting
    rw [toJson, fieldsToJson_eq_map]
    refine .object fun key j hj => ?_
    obtain ⟨⟨k, v⟩, hv, heq⟩ := List.mem_map.mp hj
    obtain ⟨rfl, rfl⟩ := Prod.mk.inj heq
    exact ih k v hv depth (hfree k v hv) (hnesting k v hv)

theorem isInt32_toInt (n : Int32) : isInt32 n.toInt := by
  have hleast := n.le_toInt
  have hgreatest := n.toInt_lt
  have hmin : Int32.minValue.toInt = -2147483648 := rfl
  have hmax : Int32.maxValue.toInt = 2147483647 := rfl
  simp only [isInt32, hmin, hmax, Bool.and_eq_true, decide_eq_true_eq]
  omega

theorem ofInt_toInt (n : Int32) : Scalar.ofInt n.toInt = .int n := by
  rw [Scalar.ofInt, if_pos (isInt32_toInt n), Int32.ofInt_toInt]

theorem ofJson_toJson (v : Value) : v.DistinctKeys → ofJson v.toJson = v := by
  induction v using Value.induct with
  | null => exact fun _ => rfl
  | scalar s =>
    intro _
    cases s with
    | int n => exact congrArg Value.scalar (ofInt_toInt n)
    | float x => rfl
    | string s => rfl
    | boolean b => rfl
  | list items ih =>
    intro hkeys
    rw [DistinctKeys, distinctKeysItems_iff] at hkeys
    rw [toJson, ofJson, itemsToJson_eq_map, itemsOfJson_eq_map, List.map_map]
    have hsame : items.map (ofJson ∘ toJson) = items.map id :=
      List.map_congr_left fun v hv => ih v hv (hkeys v hv)
    rw [hsame, List.map_id]
  | object fields ih =>
    rintro ⟨hkeys, hfields⟩
    rw [distinctKeysFields_iff] at hfields
    have hsame : fieldsOfJson (fieldsToJson fields) = fields := by
      rw [fieldsToJson_eq_map, fieldsOfJson_eq_map, List.map_map]
      refine Eq.trans (List.map_congr_left fun field hfield => ?_) (List.map_id fields)
      exact congrArg (Prod.mk field.1) (ih _ _ hfield (hfields _ _ hfield))
    rw [toJson, ofJson, hsame, Entries.ofList_of_nodup hkeys]

/-! ## From JSON to values and back -/

theorem map_fst_fieldsOfJson (members : List (String × Json)) :
    (fieldsOfJson members).map Prod.fst = members.map Prod.fst := by
  rw [fieldsOfJson_eq_map, List.map_map]
  rfl

theorem mem_of_mem_fields {key : String} {v : Value} {members : List (String × Json)}
    (h : (key, v) ∈ Entries.ofList (fieldsOfJson members)) : ∃ j, (key, j) ∈ members ∧ v = ofJson j := by
  have hfield := Entries.mem_of_mem_ofList h
  rw [fieldsOfJson_eq_map] at hfield
  obtain ⟨⟨k, j⟩, hmem, heq⟩ := List.mem_map.mp hfield
  obtain ⟨rfl, rfl⟩ := Prod.mk.inj heq
  exact ⟨j, hmem, rfl⟩

/-- Repeated members leave one field, in the place of the first and with the value of the last. -/
theorem ofJson_object (members : List (String × Json)) :
    ∃ fields, ofJson (.object members) = .object fields ∧
      fields.map Prod.fst = (members.map Prod.fst).eraseDups ∧
      ∀ key, Entries.get? key fields = (members.reverse.lookup key).map ofJson := by
  refine ⟨_, by rw [ofJson], ?_, fun key => ?_⟩
  · rw [Entries.map_fst_ofList, map_fst_fieldsOfJson]
  · rw [Entries.get?_ofList, fieldsOfJson_eq_map, ← List.map_reverse]
    exact Entries.get?_map ofJson key members.reverse

end Value

theorem Json.induct {P : Json → Prop} (null : P .null) (bool : ∀ b, P (.bool b)) (int : ∀ n, P (.int n))
    (float : ∀ x, P (.float x)) (string : ∀ s, P (.string s))
    (array : ∀ items, (∀ j ∈ items, P j) → P (.array items))
    (object : ∀ members, (∀ key j, (key, j) ∈ members → P j) → P (.object members)) (j : Json) : P j :=
  Json.rec (motive_1 := P) (motive_2 := fun items => ∀ j ∈ items, P j)
    (motive_3 := fun members => ∀ key j, (key, j) ∈ members → P j) (motive_4 := fun member => P member.2)
    null bool int float string array object (by simp)
    (fun j items hj hitems => List.forall_mem_cons.mpr ⟨hj, hitems⟩) (by simp)
    (fun member members hmember hmembers key j hmem => by
      rcases List.mem_cons.mp hmem with rfl | hmem
      · exact hmember
      · exact hmembers key j hmem)
    (fun _ _ h => h) j

namespace Value

theorem distinctKeys_ofJson (j : Json) : (ofJson j).DistinctKeys := by
  induction j using Json.induct with
  | null => trivial
  | bool b => trivial
  | int n => trivial
  | float x => trivial
  | string s => trivial
  | array items ih =>
    rw [ofJson, DistinctKeys, distinctKeysItems_iff, itemsOfJson_eq_map]
    exact List.forall_mem_map.mpr ih
  | object members ih =>
    rw [ofJson, DistinctKeys, distinctKeysFields_iff]
    refine ⟨Entries.nodup_keys_ofList _, fun key v hmem => ?_⟩
    obtain ⟨j, hj, rfl⟩ := mem_of_mem_fields hmem
    exact ih key j hj

theorem number_eq {source rest : List Char} {j : Json} (h : Json.number source = some (j, rest)) :
    (∃ x, j = .float x) ∨ ∃ n, j = .int n := by
  have hscaled (scaled : Option Float) (after : List Char)
      (heq : (scaled.map fun x => (Json.float x, after)) = some (j, rest)) : ∃ x, j = .float x := by
    obtain ⟨x, -, heq⟩ := Option.map_eq_some_iff.mp heq
    exact ⟨x, (Prod.mk.inj heq).1.symm⟩
  have hwhole (n : Int) (after : List Char) (heq : some (Json.int n, after) = some (j, rest)) :
      ∃ n, j = .int n := ⟨n, (Prod.mk.inj (Option.some.inj heq)).1.symm⟩
  unfold Json.number at h
  split at h
  · cases h
  · simp only at h
    split at h
    · cases h
    · split at h
      · exact .inl (hscaled _ _ h)
      · split at h <;> split at h
        · exact .inr (hwhole _ _ h)
        · exact .inl (hscaled _ _ h)
        · exact .inr (hwhole _ _ h)
        · exact .inl (hscaled _ _ h)

section

variable {fuel depth : Nat}

/-- Whether the reader gives, with `fuel` steps, nothing that nests deeper than it is told. -/
structure ReadsWithin (fuel : Nat) : Prop where
  value : ∀ {depth source j rest}, Json.value fuel depth source = some (j, rest) →
    (ofJson j).nesting ≤ depth
  items : ∀ {depth source js rest}, Json.items fuel depth source = some (js, rest) →
    ∀ j ∈ js, (ofJson j).nesting ≤ depth
  members : ∀ {depth source members rest}, Json.members fuel depth source = some (members, rest) →
    ∀ key j, (key, j) ∈ members → (ofJson j).nesting ≤ depth

theorem nesting_array {items : List Json} (h : ∀ j ∈ items, (ofJson j).nesting ≤ depth) :
    (ofJson (.array items)).nesting ≤ depth + 1 := by
  rw [ofJson, nesting, Nat.succ_le_succ_iff, itemsNesting_le, itemsOfJson_eq_map]
  exact List.forall_mem_map.mpr h

theorem nesting_object {members : List (String × Json)}
    (h : ∀ key j, (key, j) ∈ members → (ofJson j).nesting ≤ depth) :
    (ofJson (.object members)).nesting ≤ depth + 1 := by
  rw [ofJson, nesting, Nat.succ_le_succ_iff, fieldsNesting_le]
  intro key v hmem
  obtain ⟨j, hj, rfl⟩ := mem_of_mem_fields hmem
  exact h key j hj

theorem nesting_value_succ (ih : ReadsWithin fuel) {source rest : List Char} {j : Json}
    (h : Json.value (fuel + 1) depth source = some (j, rest)) : (ofJson j).nesting ≤ depth := by
  rw [Json.value] at h
  split at h
  case h_1 => cases h
  case h_2 | h_3 | h_4 | h_5 =>
    obtain ⟨_, _, heq⟩ := Option.map_eq_some_iff.mp h
    obtain ⟨rfl, rfl⟩ := Prod.mk.inj heq
    exact Nat.zero_le _
  · cases depth with
    | zero => cases h
    | succ depth =>
      simp only at h
      split at h
      · obtain ⟨rfl, rfl⟩ := Prod.mk.inj (Option.some.inj h)
        exact nesting_array (by simp)
      · obtain ⟨_, hitems, heq⟩ := Option.map_eq_some_iff.mp h
        obtain ⟨rfl, rfl⟩ := Prod.mk.inj heq
        exact nesting_array (ih.items hitems)
  · cases depth with
    | zero => cases h
    | succ depth =>
      simp only at h
      split at h
      · obtain ⟨rfl, rfl⟩ := Prod.mk.inj (Option.some.inj h)
        exact nesting_object (by simp)
      · obtain ⟨_, hmembers, heq⟩ := Option.map_eq_some_iff.mp h
        obtain ⟨rfl, rfl⟩ := Prod.mk.inj heq
        exact nesting_object (ih.members hmembers)
  · obtain ⟨_, rfl⟩ | ⟨_, rfl⟩ := number_eq h <;> exact Nat.zero_le _

theorem nesting_items_succ (ih : ReadsWithin fuel) {source rest : List Char} {js : List Json}
    (h : Json.items (fuel + 1) depth source = some (js, rest)) : ∀ j ∈ js, (ofJson j).nesting ≤ depth := by
  rw [Json.items] at h
  obtain ⟨⟨first, after⟩, hfirst, h⟩ := Option.bind_eq_some_iff.mp h
  simp only at h
  split at h
  · obtain ⟨⟨others, after⟩, hothers, h⟩ := Option.bind_eq_some_iff.mp h
    obtain ⟨rfl, rfl⟩ := Prod.mk.inj (Option.some.inj h)
    exact List.forall_mem_cons.mpr ⟨ih.value hfirst, ih.items hothers⟩
  · obtain ⟨rfl, rfl⟩ := Prod.mk.inj (Option.some.inj h)
    exact List.forall_mem_singleton.mpr (ih.value hfirst)
  · cases h

theorem nesting_members_succ (ih : ReadsWithin fuel) {source rest : List Char}
    {members : List (String × Json)} (h : Json.members (fuel + 1) depth source = some (members, rest)) :
    ∀ key j, (key, j) ∈ members → (ofJson j).nesting ≤ depth := by
  rw [Json.members] at h
  split at h
  · obtain ⟨⟨name, after⟩, -, h⟩ := Option.bind_eq_some_iff.mp h
    simp only at h
    split at h
    · obtain ⟨⟨first, after⟩, hfirst, h⟩ := Option.bind_eq_some_iff.mp h
      simp only at h
      split at h
      · obtain ⟨⟨others, after⟩, hothers, h⟩ := Option.bind_eq_some_iff.mp h
        obtain ⟨rfl, rfl⟩ := Prod.mk.inj (Option.some.inj h)
        intro key j hmem
        rcases List.mem_cons.mp hmem with heq | hmem
        · obtain ⟨rfl, rfl⟩ := Prod.mk.inj heq
          exact ih.value hfirst
        · exact ih.members hothers key j hmem
      · obtain ⟨rfl, rfl⟩ := Prod.mk.inj (Option.some.inj h)
        intro key j hmem
        obtain ⟨rfl, rfl⟩ := Prod.mk.inj (List.mem_singleton.mp hmem)
        exact ih.value hfirst
      · cases h
    · cases h
  · cases h

theorem readsWithin (fuel : Nat) : ReadsWithin fuel := by
  induction fuel with
  | zero =>
    constructor
    · intro depth source j rest h
      rw [Json.value] at h
      cases h
    · intro depth source js rest h
      rw [Json.items] at h
      cases h
    · intro depth source members rest h
      rw [Json.members] at h
      cases h
  | succ fuel ih => exact ⟨nesting_value_succ ih, nesting_items_succ ih, nesting_members_succ ih⟩

end

/-- What is read from a text is a value with distinct keys that does not nest too deep. -/
theorem of_ofJsonText {source : String} {v : Value} (h : ofJsonText source = some v) :
    v.DistinctKeys ∧ v.nesting ≤ Json.depthLimit := by
  obtain ⟨j, hread, rfl⟩ := Option.map_eq_some_iff.mp h
  obtain ⟨⟨j', rest⟩, hvalue, hend⟩ := Option.bind_eq_some_iff.mp hread
  simp only at hend
  split at hend
  · obtain rfl := Option.some.inj hend
    exact ⟨distinctKeys_ofJson j', (readsWithin _).value hvalue⟩
  · cases hend

theorem ofJsonText_jsonText {v : Value} (hkeys : v.DistinctKeys) (hfree : v.isFloatFree)
    (hnesting : v.nesting ≤ Json.depthLimit) : ofJsonText v.jsonText = some v := by
  rw [ofJsonText, jsonText, Json.read_text (readable_toJson v _ hfree hnesting), Option.map_some,
    ofJson_toJson v hkeys]

/-- A value without floats is read from its own text, and so is one that was read from any other text,
in which repeated keys had kept the place of the first and the value of the last. -/
theorem survives_jsonText :
    (∀ v : Value, v.DistinctKeys → v.isFloatFree → v.nesting ≤ 127 → ofJsonText v.jsonText = some v) ∧
    (∀ source w, ofJsonText source = some w → w.isFloatFree → ofJsonText w.jsonText = some w) ∧
    (∀ members, ∃ fields, ofJson (.object members) = .object fields ∧
      fields.map Prod.fst = (members.map Prod.fst).eraseDups ∧
      ∀ key, Entries.get? key fields = (members.reverse.lookup key).map ofJson) := by
  refine ⟨fun v hkeys hfree hnesting => ofJsonText_jsonText hkeys hfree hnesting, ?_, ofJson_object⟩
  intro source w hread hfree
  obtain ⟨hkeys, hnesting⟩ := of_ofJsonText hread
  exact ofJsonText_jsonText hkeys hfree hnesting

/-- An object in a list, with the least and the greatest whole number, and with a text that needs
escapes. -/
def sampleValue : Value :=
  .list [.object [("z", .int 2147483647), ("a\"", .string "line\n\\\x01"), ("", .null)],
    .int (-2147483648), .object [], .boolean true]

/-- An object in which a key is repeated, and stood first before another one. -/
def sampleRepeated : Json := .object [("a", .int 7), ("b", .array []), ("a", .string "\n")]

theorem readable_sampleRepeated : sampleRepeated.Readable Json.depthLimit := by
  refine .object fun key j hmem => ?_
  simp only [List.mem_cons, Prod.mk.injEq, List.not_mem_nil, or_false] at hmem
  obtain ⟨-, rfl⟩ | ⟨-, rfl⟩ | ⟨-, rfl⟩ := hmem
  · exact .int (by constructor <;> decide)
  · exact .array fun _ hmem => by cases hmem
  · exact .string _

theorem survives_jsonText_sampleValue :
    ofJsonText sampleValue.jsonText = some sampleValue ∧
      ofJsonText sampleRepeated.text = some (.object [("a", .string "\n"), ("b", .list [])]) ∧
      ofJsonText (Value.object [("a", .string "\n"), ("b", .list [])]).jsonText =
        some (.object [("a", .string "\n"), ("b", .list [])]) := by
  have hread : ofJsonText sampleRepeated.text = some (.object [("a", .string "\n"), ("b", .list [])]) := by
    rw [ofJsonText, Json.read_text readable_sampleRepeated]
    rfl
  have hkeys : sampleValue.DistinctKeys := by
    simp [sampleValue, Value.string, Value.int, Value.boolean, DistinctKeys, DistinctKeysItems,
      DistinctKeysFields]
  exact ⟨survives_jsonText.1 sampleValue hkeys rfl (by decide), hread,
    survives_jsonText.2.1 _ _ hread rfl⟩

end Value

end GraphQL
