import GraphQL.Proofs.Value.RoundTrip

/-! # Variables put in their place

A scalar with a reader of literals is given the literal with the values of its variables in their
place, a scalar without one is given the value that the literal stands for. Both are given the same
data.
-/

namespace GraphQL

/-- Whether no value in scope has an object with two fields of one key. -/
def Scope.DistinctKeys (scope : Scope) : Prop :=
  ∀ name v, scope.get? name = some v → v.DistinctKeys

theorem Scope.distinctKeys_of_values {scope : Scope}
    (hoperation : Value.DistinctKeysFields scope.operation)
    (hfragment : ∀ f ∈ scope.fragment, Value.DistinctKeysFields f.values) : scope.DistinctKeys := by
  have hlookup {o : Object} (ho : Value.DistinctKeysFields o) {name : String} {v : Value}
      (hv : o.get? name = some v) : v.DistinctKeys :=
    (Value.distinctKeysFields_iff o).mp ho name v (Entries.mem_of_get? hv)
  intro name v hv
  cases hf : scope.fragment with
  | none =>
    rw [get?, hf] at hv
    exact hlookup hoperation hv
  | some f =>
    simp only [get?, hf] at hv
    split at hv
    · exact hlookup (hfragment f hf) hv
    · exact hlookup hoperation hv

namespace Literal

variable {scope : Scope}

/-! ## Items and fields -/

theorem isConstItems_iff (items : List (Located Literal)) :
    isConstItems items ↔ ∀ l ∈ items, l.item.isConst := by
  induction items with
  | nil => simp [isConstItems]
  | cons l items ih => rw [isConstItems, Bool.and_eq_true, ih, List.forall_mem_cons]

theorem isConstFields_iff (fields : List (Located String × Located Literal)) :
    isConstFields fields ↔ ∀ f ∈ fields, f.2.item.isConst := by
  induction fields with
  | nil => simp [isConstFields]
  | cons f fields ih => rw [isConstFields, Bool.and_eq_true, ih, List.forall_mem_cons]

theorem filter_set_of_isConst {fields : List (Located String × Located Literal)}
    (h : ∀ f ∈ fields, f.2.item.isConst) : fields.filter (fun f => !f.2.item.isUnset scope) = fields :=
  List.filter_eq_self.mpr fun f hf => by rw [isUnset_of_isConst (h f hf), Bool.not_false]

theorem ofItems_eq_map (items : List Value) :
    ofItems items = items.map fun v => .nowhere (ofValue v) := by
  induction items with
  | nil => rfl
  | cons v items ih => rw [ofItems, ih, List.map_cons]

theorem ofFields_eq_map (fields : List (String × Value)) :
    ofFields fields = fields.map fun f => (.nowhere f.1, .nowhere (ofValue f.2)) := by
  induction fields with
  | nil => rfl
  | cons f fields ih => rw [ofFields, ih, List.map_cons]

theorem replaceInItems_eq_map (items : List (Located Literal)) :
    replaceInItems scope items = items.map (Located.map (replaceVariables scope)) := by
  induction items with
  | nil => rfl
  | cons l items ih => rw [replaceInItems, ih, List.map_cons, Located.map]

theorem replaceInFields_eq_map (fields : List (Located String × Located Literal)) :
    replaceInFields scope fields =
      (fields.filter fun f => !f.2.item.isUnset scope).map fun f =>
        (f.1, f.2.map (replaceVariables scope)) := by
  induction fields with
  | nil => rfl
  | cons f fields ih =>
    rw [replaceInFields]
    split
    · next hunset => rw [ih, List.filter_cons_of_neg (by simpa using hunset)]
    · next hset => rw [ih, List.filter_cons_of_pos (by simpa using hset), List.map_cons, Located.map]

theorem fieldsToValues_eq_map (fields : List (Located String × Located Literal)) :
    fieldsToValues scope fields =
      (fields.filter fun f => !f.2.item.isUnset scope).map fun f =>
        (f.1.item, f.2.item.toValue scope) := by
  induction fields with
  | nil => rfl
  | cons f fields ih =>
    rw [fieldsToValues]
    split
    · next hunset => rw [ih, List.filter_cons_of_neg (by simpa using hunset)]
    · next hset => rw [ih, List.filter_cons_of_pos (by simpa using hset), List.map_cons]

/-! ## Values written as literals -/

theorem isConst_ofValue (v : Value) : (ofValue v).isConst := by
  induction v using Value.induct with
  | null => rfl
  | scalar s => cases s <;> rfl
  | list items ih =>
    rw [ofValue, isConst, ofItems_eq_map, isConstItems_iff, List.forall_mem_map]
    exact ih
  | object fields ih =>
    rw [ofValue, isConst, ofFields_eq_map, isConstFields_iff, List.forall_mem_map]
    exact fun f hf => ih f.1 f.2 hf

theorem toValue_ofValue (v : Value) : v.DistinctKeys → (ofValue v).toValue scope = v := by
  induction v using Value.induct with
  | null => exact fun _ => rfl
  | scalar s =>
    intro _
    cases s with
    | int n => rw [ofValue, toValue, Int32.toInt_toInt64, Value.ofInt_toInt]
    | _ => rfl
  | list items ih =>
    intro hkeys
    rw [Value.DistinctKeys, Value.distinctKeysItems_iff] at hkeys
    rw [ofValue, toValue, ofItems_eq_map, itemsToValues_eq_map, List.map_map]
    have hsame : items.map (fun v => (ofValue v).toValue scope) = items.map id :=
      List.map_congr_left fun v hv => ih v hv (hkeys v hv)
    exact congrArg Value.list (hsame.trans (List.map_id items))
  | object fields ih =>
    rintro ⟨hkeys, hfields⟩
    rw [Value.distinctKeysFields_iff] at hfields
    have hconst : ∀ f ∈ ofFields fields, f.2.item.isConst := by
      rw [ofFields_eq_map, List.forall_mem_map]
      exact fun f _ => isConst_ofValue f.2
    have hsame : fieldsToValues scope (ofFields fields) = fields := by
      rw [fieldsToValues_eq_map, filter_set_of_isConst hconst, ofFields_eq_map, List.map_map]
      refine Eq.trans (List.map_congr_left fun f hf => ?_) (List.map_id fields)
      exact congrArg (Prod.mk f.1) (ih _ _ hf (hfields _ _ hf))
    rw [ofValue, toValue, hsame, Entries.ofList_of_nodup hkeys]

/-! ## Literals without their variables -/

theorem isConst_replaceVariables (l : Literal) : (l.replaceVariables scope).isConst := by
  induction l using Literal.induct with
  | «variable» name =>
    rw [replaceVariables]
    cases scope.get? name with
    | none => rfl
    | some v => exact isConst_ofValue v
  | list items ih =>
    rw [replaceVariables, isConst, replaceInItems_eq_map, isConstItems_iff, List.forall_mem_map]
    exact ih
  | object fields ih =>
    rw [replaceVariables, isConst, replaceInFields_eq_map, isConstFields_iff, List.forall_mem_map]
    exact fun f hf => ih f (List.mem_of_mem_filter hf)
  | _ => rfl

/-- Once its variables are replaced, a literal stands in every scope for the value that it stood
for. -/
theorem toValue_replaceVariables (hscope : scope.DistinctKeys) (other : Scope) (l : Literal) :
    (l.replaceVariables scope).toValue other = l.toValue scope := by
  induction l using Literal.induct with
  | «variable» name =>
    rw [replaceVariables, toValue]
    cases hvalue : scope.get? name with
    | none => rfl
    | some v => exact toValue_ofValue v (hscope name v hvalue)
  | list items ih =>
    rw [replaceVariables, toValue, toValue, replaceInItems_eq_map, itemsToValues_eq_map,
      itemsToValues_eq_map, List.map_map]
    exact congrArg Value.list (List.map_congr_left ih)
  | object fields ih =>
    -- What is left after the replacement has no variable, so that nothing more is left out.
    have hconst : ∀ f ∈ replaceInFields scope fields, f.2.item.isConst := by
      rw [replaceInFields_eq_map, List.forall_mem_map]
      exact fun f _ => isConst_replaceVariables f.2.item
    rw [replaceVariables, toValue, toValue, fieldsToValues_eq_map, filter_set_of_isConst hconst,
      replaceInFields_eq_map, fieldsToValues_eq_map, List.map_map]
    refine congrArg (fun es => Value.object (Entries.ofList es)) (List.map_congr_left fun f hf => ?_)
    exact congrArg (Prod.mk f.1.item) (ih f (List.mem_of_mem_filter hf))
  | _ => rfl

end Literal

/-- A scalar that reads literals as its values would read what they stand for. -/
def ScalarType.readingLiterals (t : ScalarType) (other : Scope) : ScalarType :=
  { t with literal := some fun l => t.input (l.toValue other) }

/-- A scalar that has no reader of literals. -/
def ScalarType.readingValues (t : ScalarType) : ScalarType := { t with literal := none }

/-- With its variables replaced, a literal has no variable and stands in every scope for what it
stood for, so that a reader of literals and a reader of values are given the same data. To both, a
variable without a value is null, also as an item of a list, and as a field of an object it is not
there. -/
theorem replaceVariables_gives_same_data (scope other : Scope) (hscope : scope.DistinctKeys)
    (l : Literal) :
    (l.replaceVariables scope).isConst ∧
    (l.replaceVariables scope).toValue other = l.toValue scope ∧
    (∀ t : ScalarType,
      (t.readingLiterals other).ofLiteral scope l = t.readingValues.ofLiteral scope l) ∧
    (∀ name, l = .variable name → scope.get? name = none →
      l.replaceVariables scope = .null ∧ l.toValue scope = .null) ∧
    (∀ items, l = .list items →
      l.replaceVariables scope = .list (items.map (Located.map (Literal.replaceVariables scope))) ∧
      l.toValue scope = .list (items.map fun item => item.item.toValue scope)) ∧
    ∀ fields, l = .object fields →
      ∃ present : List (Located String × Located Literal),
        present = fields.filter (fun f => !f.2.item.isUnset scope) ∧
        l.replaceVariables scope =
          .object (present.map fun f => (f.1, f.2.map (Literal.replaceVariables scope))) ∧
        l.toValue scope =
          .object (Entries.ofList (present.map fun f => (f.1.item, f.2.item.toValue scope))) := by
  have hvalue := l.toValue_replaceVariables hscope other
  refine ⟨l.isConst_replaceVariables, hvalue, fun t => ?_, ?_, ?_, ?_⟩
  · simp only [ScalarType.ofLiteral, ScalarType.readingLiterals, ScalarType.readingValues, hvalue]
  · rintro name rfl hnone
    simp [Literal.replaceVariables, Literal.toValue, hnone]
  · rintro items rfl
    rw [Literal.replaceVariables, Literal.toValue, Literal.replaceInItems_eq_map,
      Literal.itemsToValues_eq_map]
    exact ⟨rfl, rfl⟩
  · rintro fields rfl
    rw [Literal.replaceVariables, Literal.toValue, Literal.replaceInFields_eq_map,
      Literal.fieldsToValues_eq_map]
    exact ⟨_, rfl, rfl, rfl⟩

/-! ## A scope inside a fragment -/

/-- Inside a fragment that declares `x` and, without a value, `y`. -/
def sampleInner : Scope where
  operation := [("x", .int 1), ("y", .int 2), ("z", .list [.int 3, .null])]
  fragment := some ⟨["x", "y"], [("x", .object [("k", .list [.object [("k", .boolean true)]])])]⟩

/-- An object with a field written twice. -/
def sampleVariables : Literal :=
  .objectOf [("a", .variable "x"), ("b", .variable "y"),
    ("c", .listOf [.variable "y", .objectOf [("a", .variable "y")], .enum "z"]),
    ("a", .variable "z"), ("d", .variable "u")]

theorem sampleInner_distinctKeys : sampleInner.DistinctKeys :=
  Scope.distinctKeys_of_values (by simp [sampleInner, Value.DistinctKeysFields, Value.DistinctKeys,
    Value.DistinctKeysItems, Value.int]) fun f hf => by
      cases hf
      simp [Value.DistinctKeysFields, Value.DistinctKeys, Value.DistinctKeysItems, Value.boolean]

theorem replaceVariables_gives_same_data_sampleVariables :
    (sampleVariables.replaceVariables sampleInner).toValue .empty =
        .object [("a", .list [.int 3, .null]), ("c", .list [.null, .object [], .string "z"])] ∧
      (sampleVariables.replaceVariables sampleInner).isConst := by
  obtain ⟨hconst, hvalue, -⟩ :=
    replaceVariables_gives_same_data sampleInner .empty sampleInner_distinctKeys sampleVariables
  exact ⟨hvalue.trans rfl, hconst⟩

end GraphQL
