import GraphQL.Proofs.Coercion.Basic

/-! # Literals moved to variables

A constant literal stands for an external value. Sent as a variable, that value becomes what the
literal becomes in its place, unless a number in it is too large.
-/

namespace GraphQL

variable {σ : Type}

/-! ## Literals that can be moved -/

namespace Literal

mutual

/-- Whether no object of the literal has two fields with one name. -/
def DistinctKeys : Literal → Prop
  | .list items => DistinctKeysItems items
  | .object fields => (fields.map fun f => f.1.item).Nodup ∧ DistinctKeysFields fields
  | _ => True

def DistinctKeysItems : List (Located Literal) → Prop
  | [] => True
  | ⟨l, _⟩ :: rest => l.DistinctKeys ∧ DistinctKeysItems rest

def DistinctKeysFields : List (Located String × Located Literal) → Prop
  | [] => True
  | (_, ⟨l, _⟩) :: rest => l.DistinctKeys ∧ DistinctKeysFields rest

end

/-- Whether the numbers that a scalar reads from literals are numbers that it reads from values. An
ID has 32 bits as a value, and 64 bits as a literal; an infinite number is no value for a float. -/
def Fits (t : ScalarType) : Literal → Prop
  | .int n => (t = .id → isInt32 n.toInt) ∧ (t = .float → isFiniteFloat (.ofInt n.toInt))
  | .float x => t = .float → isFiniteFloat x
  | _ => True

section

variable (schema : Schema σ)

mutual

/-- Whether all numbers of a literal fit the scalars that read them, when the literal stands at a
place of the type `t`. -/
def Moves : Literal → TypeRef → Prop
  | .list items, t => ∀ item, t.item? = some item → ItemsMove items item
  | .object fields, t => ∀ o, schema.inputObject? t.innermost = some o → FieldsMove fields o
  | l, t => ∀ s, schema.type? t.innermost = some (.scalar s) → l.Fits s

def ItemsMove : List (Located Literal) → TypeRef → Prop
  | [], _ => True
  | ⟨l, _⟩ :: rest, item => l.Moves item ∧ ItemsMove rest item

def FieldsMove : List (Located String × Located Literal) → InputObjectType → Prop
  | [], _ => True
  | (key, ⟨l, _⟩) :: rest, o =>
    (∀ d ∈ o.fields.value, d.name = key.item → l.Moves d.type) ∧ FieldsMove rest o

end

end

end Literal

/-! ## Scalars -/

theorem toInt_ofInt_int32 {n : Int} (h : isInt32 n) : (Int32.ofInt n).toInt = n := by
  have hbounds : Int32.minValue.toInt ≤ n ∧ n ≤ Int32.maxValue.toInt := by simpa [isInt32] using h
  have hmin : Int32.minValue.toInt = -2147483648 := rfl
  have hmax : Int32.maxValue.toInt = 2147483647 := rfl
  apply Int32.toInt_ofInt_of_le <;> omega

/-- A number is the same float, whether it was narrowed before or not. -/
theorem float?_ofInt (n : Int) : (Scalar.ofInt n).float? = some (Float.ofInt n) := by
  unfold Scalar.ofInt
  split
  · next h => simp [Scalar.float?, toInt_ofInt_int32 h]
  · rfl

section

variable {scope : Scope} {l : Literal} {v : Value}

theorem intInput_of_literal (h : IntScalar.literal (l.replaceVariables scope) = .ok v)
    (hl : l.isVariable = false) : IntScalar.input (l.toValue scope) = .ok v := by
  cases l with
  | «variable» name => cases hl
  | int n =>
    simp only [Literal.replaceVariables, IntScalar.literal, refusal] at h
    split at h
    · next hn => simpa [Literal.toValue, Scalar.ofInt, hn, IntScalar.input] using h
    · cases h
  | _ => simp [Literal.replaceVariables, IntScalar.literal, refusal] at h

theorem floatInput_of_literal (h : FloatScalar.literal (l.replaceVariables scope) = .ok v)
    (hl : l.isVariable = false) (hfits : l.Fits .float) :
    FloatScalar.input (l.toValue scope) = .ok v := by
  cases l with
  | «variable» name => cases hl
  | int n =>
    have hfinite := hfits.2 rfl
    simpa [FloatScalar.input, Literal.toValue, Value.float?, Value.scalar?, float?_ofInt,
      hfinite, Literal.replaceVariables, FloatScalar.literal] using h
  | float x =>
    have hfinite := hfits rfl
    simpa [FloatScalar.input, Literal.toValue, Value.float, Value.float?, Value.scalar?,
      Scalar.float?, hfinite, Literal.replaceVariables, FloatScalar.literal] using h
  | _ => simp [Literal.replaceVariables, FloatScalar.literal, refusal] at h

theorem stringInput_of_literal (h : StringScalar.literal (l.replaceVariables scope) = .ok v)
    (hl : l.isVariable = false) : StringScalar.input (l.toValue scope) = .ok v := by
  cases l with
  | «variable» name => cases hl
  | string s => exact h
  | _ => simp [Literal.replaceVariables, StringScalar.literal, refusal] at h

theorem booleanInput_of_literal (h : BooleanScalar.literal (l.replaceVariables scope) = .ok v)
    (hl : l.isVariable = false) : BooleanScalar.input (l.toValue scope) = .ok v := by
  cases l with
  | «variable» name => cases hl
  | boolean b => exact h
  | _ => simp [Literal.replaceVariables, BooleanScalar.literal, refusal] at h

theorem idInput_of_literal (h : IDScalar.literal (l.replaceVariables scope) = .ok v)
    (hl : l.isVariable = false) (hfits : l.Fits .id) :
    IDScalar.input (l.toValue scope) = .ok v := by
  cases l with
  | «variable» name => cases hl
  | int n =>
    have hn := hfits.1 rfl
    have hvalue : (Literal.int n).toValue scope = .scalar (.int (Int32.ofInt n.toInt)) := by
      simp [Literal.toValue, Scalar.ofInt, hn]
    rw [hvalue, IDScalar.input, toInt_ofInt_int32 hn]
    exact h
  | string s => exact h
  | _ => simp [Literal.replaceVariables, IDScalar.literal, refusal] at h

theorem input_of_ofLiteral {t : ScalarType} (ht : t ∈ ScalarType.builtins ∨ t.literal = none)
    (hl : l.isVariable = false) (hfits : l.Fits t) (h : t.ofLiteral scope l = .ok v) :
    t.input (l.toValue scope) = .ok v := by
  have hread := mapError_eq_ok h
  rcases ht with ht | hnone
  · simp only [ScalarType.builtins, List.mem_cons, List.not_mem_nil, or_false] at ht
    rcases ht with rfl | rfl | rfl | rfl | rfl
    · exact intInput_of_literal hread hl
    · exact floatInput_of_literal hread hl hfits
    · exact stringInput_of_literal hread hl
    · exact booleanInput_of_literal hread hl
    · exact idInput_of_literal hread hl hfits
  · simpa [hnone] using hread

theorem enumInput_of_literal {t : EnumType} (h : t.ofLiteral l = .ok v) :
    t.input (l.toValue scope) = .accepted v := by
  unfold EnumType.ofLiteral at h
  split at h
  · next name =>
    have hvalue : ((Literal.enum name).toValue scope).string? = some name := rfl
    unfold EnumType.input
    rw [hvalue]
    split at h
    · next found hfound =>
      obtain rfl := Except.ok.inj h
      simp [hfound]
    · cases h
  · cases h

end

/-! ## Constant literals -/

section

variable {schema : Schema σ} {defaultOf : DefaultCoercion} {scope : Scope}

theorem distinctKeys_item {items : List (Located Literal)} (h : Literal.DistinctKeysItems items) :
    ∀ l ∈ items, l.item.DistinctKeys :=
  forall_mem_of_cons Literal.DistinctKeysItems (fun _ _ h => h) h

theorem distinctKeys_field {fields : List (Located String × Located Literal)}
    (h : Literal.DistinctKeysFields fields) : ∀ f ∈ fields, f.2.item.DistinctKeys :=
  forall_mem_of_cons Literal.DistinctKeysFields (fun _ _ h => h) h

theorem moves_item {items : List (Located Literal)} {item : TypeRef}
    (h : Literal.ItemsMove schema items item) : ∀ l ∈ items, l.item.Moves schema item :=
  forall_mem_of_cons (Literal.ItemsMove schema · item) (fun _ _ h => h) h

theorem moves_field {fields : List (Located String × Located Literal)} {o : InputObjectType}
    (h : Literal.FieldsMove schema fields o) :
    ∀ f ∈ fields, ∀ d ∈ o.fields.value, d.name = f.1.item → f.2.item.Moves schema d.type :=
  forall_mem_of_cons (Literal.FieldsMove schema · o) (fun _ _ h => h) h

theorem toValue_object {fields : List (Located String × Located Literal)}
    (hconst : Literal.isConstFields fields) (hkeys : (fields.map fun f => f.1.item).Nodup) :
    (Literal.object fields).toValue scope =
      .object ((fieldsByName fields).map fun e => (e.1, e.2.toValue scope)) := by
  have hfields : Literal.fieldsToValues scope fields =
      (fieldsByName fields).map fun e => (e.1, e.2.toValue scope) := by
    clear hkeys
    induction fields with
    | nil => rfl
    | cons f fields ih =>
      obtain ⟨hhead, hrest⟩ := Bool.and_eq_true_iff.mp hconst
      rw [Literal.fieldsToValues, if_neg (by simp [Literal.isUnset_of_isConst hhead]), ih hrest]
      rfl
  rw [Literal.toValue, hfields, Entries.ofList_of_nodup]
  simpa [fieldsByName, Function.comp_def] using hkeys

/-- Whether the value that a literal stands for becomes whatever the literal becomes. -/
def MovesTo (schema : Schema σ) (defaultOf : DefaultCoercion) (scope : Scope) (l : Literal) : Prop :=
  ∀ t v, l.Moves schema t → literalAs schema defaultOf scope l t = .ok (some v) →
    inputAs schema defaultOf (l.toValue scope) t = .accepted v

theorem inputOf_of_ofLiterals {o : InputObjectType}
    {fields : List (Located String × Located Literal)} {d : InputDefinition} {read : Option Value}
    {v : Value} (hd : d ∈ o.fields.value) (hconst : Literal.isConstFields fields)
    (ih : ∀ f ∈ fields, MovesTo schema defaultOf scope f.2.item)
    (hmoves : Literal.FieldsMove schema fields o)
    (hread : d.ofLiterals defaultOf (literalMembers schema defaultOf scope fields) = .ok read) :
    d.inputOf defaultOf (inputMembers schema defaultOf
      ((fieldsByName fields).map fun e => (e.1, e.2.toValue scope))) v = (read, []) := by
  have hget : (inputMembers schema defaultOf
      ((fieldsByName fields).map fun e => (e.1, e.2.toValue scope))).get? d.name =
        ((fieldsByName fields).get? d.name).map
          fun l t => inputAs schema defaultOf (l.toValue scope) t := by
    rw [get?_inputMembers, Entries.get?_map, Option.map_map]
    rfl
  rcases ofLiterals_cases hread with ⟨member, w, hmember, hw, rfl⟩ | ⟨hnone, homitted⟩
  · rw [get?_literalMembers] at hmember
    obtain ⟨l, hl, rfl⟩ := Option.map_eq_some_iff.mp hmember
    obtain ⟨f, hf, hname, rfl⟩ := mem_of_get?_fieldsByName hl
    have haccepted := ih f hf d.type w (moves_field hmoves f hf d hd hname.symm) hw
    simp [InputDefinition.inputOf, hget, hl, haccepted, Checked.accepted]
  · refine inputOf_of_omitted ?_ homitted
    rw [hget]
    cases hl : (fieldsByName fields).get? d.name with
    | none => rfl
    | some l =>
      have hunset := isUnset_of_literalAs
        (hnone _ (by rw [get?_literalMembers, hl]; rfl))
      obtain ⟨f, hf, -, rfl⟩ := mem_of_get?_fieldsByName hl
      simp [Literal.isUnset_of_isConst (Literal.isConst_field hconst f hf)] at hunset

theorem moves_objectLiteral {o : InputObjectType} {fields : List (Located String × Located Literal)}
    {read : InputDefinition → Option Value} (hconst : Literal.isConstFields fields)
    (ih : ∀ f ∈ fields, MovesTo schema defaultOf scope f.2.item)
    (hmoves : Literal.FieldsMove schema fields o)
    (hread : ReadsObject defaultOf scope o (literalMembers schema defaultOf scope fields) fields
      read) :
    let values : Object := (fieldsByName fields).map fun e => (e.1, e.2.toValue scope)
    o.input defaultOf (inputMembers schema defaultOf values) (.object values) =
      .accepted (.object (gathered (·.name) read o.fields.value)) := by
  intro values
  have hfields : ∀ d ∈ o.fields.value, d.inputOf defaultOf (inputMembers schema defaultOf values)
      (.object values) = (read d, []) :=
    fun d hd => inputOf_of_ofLiterals hd hconst ih hmoves (hread.fields d hd)
  have herrors : (o.input defaultOf (inputMembers schema defaultOf values)
      (.object values)).errors = [] := by
    refine (errors_inputObject_eq_nil_iff ..).mpr ⟨fun d hd => by rw [hfields d hd], ?_, ?_⟩
    · intro key hkey
      simp only [values, fieldsByName, List.map_map, List.mem_map, Function.comp_apply] at hkey
      obtain ⟨f, hf, rfl⟩ := hkey
      exact hread.known f hf
    · intro h
      obtain ⟨key, field, rfl, hnull⟩ := hread.oneOf h
      have hitem := Literal.isConst_field hconst (key, field) List.mem_cons_self
      have hvalue : (field.item.toValue scope).isNull = false :=
        Literal.toValue_isNull (Literal.isNull_of_isNullIn hnull)
          (Literal.isVariable_of_isConst hitem)
      simp [values, fieldsByName, oneOfErrors, hvalue]
  rw [Checked.accepted_of_errors herrors, value_inputObject,
    gathered_congr fun d hd => by rw [hfields d hd]]

theorem moves_literalNamed (hscalars : ∀ t, .scalar t ∈ schema.types →
      t ∈ ScalarType.builtins ∨ t.literal = none)
    (l : Literal) (values : Entries (TypeRef → Checked)) {name : String} {v : Value}
    {members : Entries (TypeRef → LiteralResult)} (hl : l.isVariable = false)
    (hfits : ∀ t, schema.type? name = some (.scalar t) → l.Fits t)
    (hobject : ∀ fields o read, l = .object fields → schema.type? name = some (.inputObject o) →
      ReadsObject defaultOf scope o members fields read →
      o.input defaultOf values (l.toValue scope) =
        .accepted (.object (gathered (·.name) read o.fields.value)))
    (h : literalNamed schema defaultOf scope members l name = .ok v) :
    inputNamed schema defaultOf values (l.toValue scope) name = .accepted v := by
  unfold literalNamed at h
  unfold inputNamed
  cases htype : schema.type? name with
  | none => simp [htype, CoercionProblem.refuse] at h
  | some found =>
    rw [htype] at h
    cases found with
    | scalar t =>
      have hread := input_of_ofLiteral (hscalars t (List.mem_of_find?_eq_some htype)) hl
        (hfits t htype) h
      simp only [hread]
    | enum t => exact enumInput_of_literal h
    | inputObject o =>
      obtain ⟨fields, read, rfl, hread, rfl⟩ := exists_of_objectLiteral h
      exact hobject fields o read rfl htype hread
    | _ => cases h

theorem accepted_items {items : List (Located Literal)} {item : TypeRef} {vs : List Value}
    (hconst : Literal.isConstItems items)
    (ih : ∀ l ∈ items, MovesTo schema defaultOf scope l.item)
    (hmoves : Literal.ItemsMove schema items item)
    (h : itemsOfLiterals item (literalItems schema defaultOf scope items) = .ok vs) :
    (items.map fun l => inputAs schema defaultOf (l.item.toValue scope) item) =
      vs.map Checked.accepted := by
  have hall := forall₂_of_itemsOfLiterals h
  rw [literalItems_eq_map, List.forall₂_map_left_iff] at hall
  rw [← List.forall₂_eq_eq_eq, List.forall₂_map_left_iff, List.forall₂_map_right_iff]
  refine ((List.forall₂_and_left _ _).mpr ⟨fun l hl => hl, hall⟩).imp ?_
  rintro l v ⟨hl, hread | ⟨hunset, -⟩⟩
  · exact ih l hl item v (moves_item hmoves l hl) hread
  · have hset := isUnset_of_literalAs hunset
    simp [Literal.isUnset_of_isConst (Literal.isConst_item hconst l hl)] at hset

theorem movesTo_list (hscalars : ∀ t, .scalar t ∈ schema.types →
      t ∈ ScalarType.builtins ∨ t.literal = none)
    {items : List (Located Literal)} (hconst : Literal.isConstItems items)
    (ih : ∀ l ∈ items, MovesTo schema defaultOf scope l.item) :
    MovesTo schema defaultOf scope (.list items) := by
  intro t v hmoves h
  unfold literalAs at h
  rw [Literal.toValue, Literal.itemsToValues_eq_map]
  split at h
  · next item hitem =>
    obtain ⟨vs, hvs, heq⟩ := map_eq_ok h
    obtain rfl := Option.some.inj heq
    have haccepted := accepted_items hconst ih (hmoves item hitem) hvs
    simp only [inputAs, hitem, inputItems_eq_map, List.map_map, Function.comp_def]
    rw [haccepted, Checked.ofItems_map_accepted]
  · next hitem =>
    obtain ⟨w, hw, heq⟩ := map_eq_ok h
    obtain rfl := Option.some.inj heq
    have hnamed := moves_literalNamed hscalars (.list items) [] rfl (fun _ _ => trivial)
      (by simp) hw
    rw [Literal.toValue, Literal.itemsToValues_eq_map] at hnamed
    simp only [inputAs, hitem]
    exact hnamed

theorem movesTo_object (hscalars : ∀ t, .scalar t ∈ schema.types →
      t ∈ ScalarType.builtins ∨ t.literal = none)
    {fields : List (Located String × Located Literal)} (hconst : Literal.isConstFields fields)
    (hkeys : (fields.map fun f => f.1.item).Nodup)
    (ih : ∀ f ∈ fields, MovesTo schema defaultOf scope f.2.item) :
    MovesTo schema defaultOf scope (.object fields) := by
  intro t v hmoves h
  unfold literalAs at h
  obtain ⟨w, hw, heq⟩ := exists_of_nested h
  obtain rfl := Option.some.inj heq
  have hvalue : (Literal.object fields).toValue scope =
      .object ((fieldsByName fields).map fun e => (e.1, e.2.toValue scope)) :=
    toValue_object hconst hkeys
  have hobject : ∀ fields' o read, Literal.object fields = .object fields' →
      schema.type? t.innermost = some (.inputObject o) →
      ReadsObject defaultOf scope o (literalMembers schema defaultOf scope fields) fields' read →
      o.input defaultOf (inputMembers schema defaultOf
          ((fieldsByName fields).map fun e => (e.1, e.2.toValue scope)))
        ((Literal.object fields).toValue scope) =
          .accepted (.object (gathered (·.name) read o.fields.value)) := by
    rintro _ o read heq ho hread
    obtain rfl := Literal.object.inj heq
    rw [hvalue]
    exact moves_objectLiteral hconst ih (hmoves o (by simp [Schema.inputObject?, ho])) hread
  have hnamed := moves_literalNamed hscalars (.object fields) _ rfl (fun _ _ => trivial)
    hobject hw
  rw [hvalue] at hnamed ⊢
  rw [inputAs, hnamed, Checked.nested_accepted]

/-- Sent as an external value, a constant literal becomes what it becomes in its place. -/
theorem movesTo (hscalars : ∀ t, .scalar t ∈ schema.types →
      t ∈ ScalarType.builtins ∨ t.literal = none)
    (l : Literal) (hconst : l.isConst) (hkeys : l.DistinctKeys) :
    MovesTo schema defaultOf scope l := by
  induction l using Literal.induct with
  | «variable» name => cases hconst
  | null =>
    intro t v hmoves h
    unfold literalAs at h
    rw [Literal.toValue, inputAs]
    split at h
    · cases h
    · next ht =>
      obtain rfl := Option.some.inj (Except.ok.inj h)
      rw [if_neg ht]
  | list items ih =>
    exact movesTo_list hscalars hconst fun l hl =>
      ih l hl (Literal.isConst_item hconst l hl) (distinctKeys_item hkeys l hl)
  | object fields ih =>
    exact movesTo_object hscalars hconst hkeys.1 fun f hf =>
      ih f hf (Literal.isConst_field hconst f hf) (distinctKeys_field hkeys.2 f hf)
  | _ =>
    intro t v hmoves h
    unfold literalAs at h
    obtain ⟨w, hw, heq⟩ := exists_of_nested h
    obtain rfl := Option.some.inj heq
    have hnamed := moves_literalNamed hscalars _ [] rfl (fun s hs => hmoves s hs) (by simp) hw
    exact (congrArg (Checked.nested t.listDepth) hnamed).trans (Checked.nested_accepted ..)

/-- A constant literal can be moved to a variable: where the literal is accepted, the value that it
stands for is accepted too, and becomes the same. -/
theorem coerceInput_of_coerceLiteral (hscalars : ∀ t, .scalar t ∈ schema.types →
      t ∈ ScalarType.builtins ∨ t.literal = none)
    {l : Literal} (hconst : l.isConst) (hkeys : l.DistinctKeys) {t : TypeRef} {v : Value}
    (hmoves : l.Moves schema t) (h : schema.coerceLiteral scope l t = .ok (some v)) :
    schema.coerceInput (l.toValue scope) t = .ok v :=
  Checked.toExcept_eq_ok.mpr (movesTo hscalars l hconst hkeys t v hmoves h)

end

theorem sampleInputs_scalars : ∀ t, .scalar t ∈ (sampleInputs : Schema σ).types →
    t ∈ ScalarType.builtins ∨ t.literal = none := by
  intro t ht
  rcases by simpa [sampleInputs] using ht with rfl | ht
  · exact .inr rfl
  · exact .inl ht

/-- `{ range: { moods: [GLAD, SAD] } }` -/
def samplePicked : Literal :=
  .objectOf [("range", .objectOf [("moods", .listOf [.enum "GLAD", .enum "SAD"])])]

theorem samplePicked_fits (schema : Schema σ) (t : TypeRef) : samplePicked.Moves schema t := by
  simp [samplePicked, Literal.objectOf, Literal.listOf, Located.nowhere, Literal.Moves,
    Literal.FieldsMove, Literal.ItemsMove, Literal.Fits]

theorem samplePicked_moves :
    (sampleInputs : Schema Unit).coerceInput (samplePicked.toValue .empty) (.named "Pick") =
      .ok (.object [("range", .object [("low", .int 0), ("moods", .list [.int 1, .int 0])])]) :=
  have hkeys : samplePicked.DistinctKeys := by
    simp [samplePicked, Literal.objectOf, Literal.listOf, Located.nowhere, Literal.DistinctKeys,
      Literal.DistinctKeysFields, Literal.DistinctKeysItems]
  coerceInput_of_coerceLiteral sampleInputs_scalars rfl hkeys (samplePicked_fits _ _) rfl

/-- An ID of more than 32 bits is accepted as a literal, and refused as the value of a variable. -/
theorem largeID_stays :
    (Literal.int 12345678901).isConst ∧ (Literal.int 12345678901).DistinctKeys ∧
      (sampleInputs : Schema Unit).coerceLiteral .empty (.int 12345678901) (.named "ID") =
        .ok (some (.string "12345678901")) ∧
      ((sampleInputs : Schema Unit).coerceInput ((Literal.int 12345678901).toValue .empty)
        (.named "ID")).toOption = none :=
  ⟨rfl, trivial, rfl, by decide +kernel⟩

example : ((sampleInputs : Schema Unit).coerceLiteral .empty (.float (1 / 0)) (.named "Float")).isOk ∧
    ((sampleInputs : Schema Unit).coerceInput ((Literal.float (1 / 0)).toValue .empty)
      (.named "Float")).toOption = none := by
  decide +kernel

end GraphQL
