import GraphQL.Coercion.ToLiteral
import GraphQL.Proofs.Coercion.ConstantLiterals
import GraphQL.Proofs.Coercion.Substitution
import GraphQL.Proofs.Coercion.VariableUse

/-! # Coerced values survive the trip through a literal

A coerced value can be written as a constant literal of its type, and that literal is coerced to the
same value again. Only the ID `-0` is lost, as it is taken for the number zero.
-/

namespace GraphQL

variable {σ : Type}

/-- Whether two values are the same, but for the order of fields, and for parts that are equal
without being the same, such as the two zeros of floats. -/
inductive Value.Equals : Value → Value → Prop
  | refl (v : Value) : Equals v v
  | equal {v w : Value} (h : v == w) : Equals v w
  | list {vs ws : List Value} (h : List.Forall₂ Equals vs ws) : Equals (.list vs) (.list ws)
  | object {fs gs : Object} (keys : ∀ key, (fs.get? key).isSome = (gs.get? key).isSome)
      (values : ∀ key v w, fs.get? key = some v → gs.get? key = some w → Equals v w) :
      Equals (.object fs) (.object gs)

/-- Whether `u` stands where a value of the type `t` has a value of a scalar. -/
inductive Schema.HoldsAt (schema : Schema σ) (s : ScalarType) (u : Value) :
    TypeRef → Value → Prop
  | here {t : TypeRef} {name : String} (ht : t.name? = some name)
      (hs : schema.type? name = some (.scalar s)) : HoldsAt schema s u t u
  | item {t item : TypeRef} {items : List Value} {v : Value} (ht : t.item? = some item)
      (hv : v ∈ items) (h : HoldsAt schema s u item v) : HoldsAt schema s u t (.list items)
  | field {t : TypeRef} {name : String} {o : InputObjectType} {d : InputDefinition}
      {fields : Object} {v : Value} (ht : t.name? = some name)
      (ho : schema.type? name = some (.inputObject o)) (hd : d ∈ o.fields.value)
      (hv : fields.get? d.name = some v) (h : HoldsAt schema s u d.type v) :
      HoldsAt schema s u t (.object fields)

/-- Whether a scalar takes values as they are, and leaves it to others to write them. -/
structure ScalarType.IsPlain (t : ScalarType) : Prop where
  input : t.input = .ok
  literal : t.literal = none
  toLiteral : t.toLiteral = none

theorem ScalarType.IsPlain.keepsNonNull {t : ScalarType} (h : t.IsPlain) : t.KeepsNonNull where
  input := fun v w hw hnull => by
    rw [h.input] at hw
    exact Except.ok.inj hw ▸ hnull
  literal := fun read _ _ hread => by simp [h.literal] at hread

/-- What a schema must keep so that its values can be written. -/
structure Schema.Writable (schema : Schema σ) : Prop where
  scalars : ∀ t, .scalar t ∈ schema.types → t ∈ ScalarType.builtins ∨ t.IsPlain
  enums : ∀ t, .enum t ∈ schema.types → ∀ v ∈ t.values.value, v.value.isNull = false
  names : ∀ t, .enum t ∈ schema.types → (t.values.value.map (·.name)).Nodup
  equals : ∀ t, .enum t ∈ schema.types → ∀ v ∈ t.values.value, v.value == v.value
  fields : ∀ t, .inputObject t ∈ schema.types → (t.fields.value.map (·.name)).Nodup
  oneOf : ∀ t, .inputObject t ∈ schema.types → t.isOneOf → ∀ d ∈ t.fields.value, d.default = none
  defaults : ∀ t, .inputObject t ∈ schema.types →
    ∀ d ∈ t.fields.value, d.default.all (·.isConst)

theorem Schema.Writable.sound {schema : Schema σ} (h : schema.Writable) : schema.Sound where
  scalars := fun t ht => (h.scalars t ht).imp_right ScalarType.IsPlain.keepsNonNull
  enums := h.enums
  fields := h.fields
  oneOf := h.oneOf
  defaults := h.defaults

/-! ## IDs that look like numbers -/

theorem digitChar_of_isDigit {c : Char} (h : c.isDigit) :
    c.toNat - '0'.toNat < 10 ∧ Nat.digitChar (c.toNat - '0'.toNat) = c := by
  obtain ⟨hlow, hhigh⟩ := Char.isDigit_iff_toNat.mp h
  have hnine : '9'.toNat = '0'.toNat + 9 := rfl
  have hsmall : c.toNat - '0'.toNat < 10 := by omega
  refine ⟨hsmall, Char.toNat_inj.mp ?_⟩
  rw [Nat.toNat_digitChar_of_lt_ten hsmall]
  exact Nat.add_sub_cancel' hlow

theorem toDigits_append_digits (digits : List Char) (n : Nat) (hn : 0 < n)
    (h : ∀ c ∈ digits, c.isDigit) : Nat.toDigits 10 n ++ digits =
      Nat.toDigits 10 (digits.foldl (fun n c => n * 10 + (c.toNat - '0'.toNat)) n) := by
  induction digits generalizing n with
  | nil => simp
  | cons c digits ih =>
    obtain ⟨hsmall, hc⟩ := digitChar_of_isDigit (h c List.mem_cons_self)
    have hnext := Nat.toDigits_append_toDigits (b := 10) (by decide) hn hsmall
    rw [Nat.toDigits_of_lt_base hsmall, hc, Nat.mul_comm] at hnext
    rw [List.foldl_cons, ← ih _ (by omega) fun d hd => h d (List.mem_cons_of_mem _ hd), ← hnext,
      List.append_assoc, List.singleton_append]

theorem toDigits_digitsValue {digits : List Char} (h : ∀ c ∈ digits, c.isDigit)
    (hne : digits ≠ []) (hzero : digits.head? = some '0' → digits.length = 1) :
    Nat.toDigits 10 (Decimal.digitsValue digits) = digits := by
  cases digits with
  | nil => exact absurd rfl hne
  | cons c digits =>
    obtain ⟨hsmall, hc⟩ := digitChar_of_isDigit (h c List.mem_cons_self)
    have hfirst : Nat.toDigits 10 (c.toNat - '0'.toNat) = [c] := by
      rw [Nat.toDigits_of_lt_base hsmall, hc]
    rw [Decimal.digitsValue, List.foldl_cons, Nat.zero_mul, Nat.zero_add]
    by_cases hpos : 0 < c.toNat - '0'.toNat
    · rw [← toDigits_append_digits digits _ hpos fun d hd => h d (List.mem_cons_of_mem _ hd), hfirst,
        List.singleton_append]
    · have hczero : c = '0' := by
        rw [← hc, Nat.eq_zero_of_not_pos hpos]
        rfl
      obtain rfl : digits = [] := by simpa [hczero] using hzero
      exact hfirst

/-- An ID that is taken for a whole number is how that number is written, but for `-0`. -/
theorem toString_of_wholeNumber? {s : String} {n : Int} (h : IDScalar.wholeNumber? s = some n)
    (hzero : s ≠ "-0") : toString n = s ∧ Decimal.isInt64 n := by
  have hspelled (digits : List Char)
      (hguard : ¬ (digits.isEmpty || !digits.all Char.isDigit ||
        (digits.head? == some '0' && digits.length != 1)) = true) :
      Nat.toDigits 10 (Decimal.digitsValue digits) = digits := by
    simp only [Bool.or_eq_true, not_or, Bool.and_eq_true, not_and] at hguard
    obtain ⟨⟨hne, hall⟩, hhead⟩ := hguard
    exact toDigits_digitsValue (by simpa using hall) (by simpa using hne) (by simpa using hhead)
  rw [← String.toList_inj, Json.toList_toString]
  unfold IDScalar.wholeNumber? at h
  split at h
  next negative digits hsplit =>
  split at h
  · cases h
  next hguard =>
  have hdigits := hspelled digits hguard
  split at hsplit
  · next rest htext =>
    obtain ⟨rfl, rfl⟩ := Prod.mk.inj hsplit
    have hpos : Decimal.digitsValue rest ≠ 0 := by
      intro hnone
      rw [hnone] at hdigits
      exact hzero (String.toList_inj.mp (htext.trans (congrArg _ hdigits.symm)))
    simp only [↓reduceIte, Option.ite_none_right_eq_some, Option.some.injEq] at h
    obtain ⟨hfits, rfl⟩ := h
    rw [if_pos (by omega), Int.natAbs_neg, Int.natAbs_natCast, hdigits, htext]
    exact ⟨rfl, hfits⟩
  · obtain ⟨rfl, rfl⟩ := Prod.mk.inj hsplit
    simp only [Bool.false_eq_true, ↓reduceIte, Option.ite_none_right_eq_some, Option.some.injEq] at h
    obtain ⟨hfits, rfl⟩ := h
    rw [if_neg (by omega), Int.natAbs_natCast, hdigits]
    exact ⟨rfl, hfits⟩

/-! ## Writing and reading leaves -/

theorem Literal.isNullIn_of_isConst {scope : Scope} {l : Literal} (h : l.isConst) :
    l.isNullIn scope = l.isNull := by
  cases l with
  | «variable» name => cases h
  | _ => rfl

theorem Literal.isNull_ofValue (v : Value) : (Literal.ofValue v).isNull = v.isNull := by
  cases v with
  | scalar s => cases s <;> rfl
  | _ => rfl

/-- What a scalar writes for a value is read as that value. -/
theorem ScalarType.Reads.written {s : ScalarType} {v : Value} (h : s.Reads v)
    (hs : s ∈ builtins ∨ s.IsPlain) (hkeys : v.DistinctKeys) (hID : s = .id → v ≠ .string "-0") :
    ∃ l, s.write v = some l ∧ l.isConst ∧ l.isNull = false ∧
      ∀ scope, s.ofLiteral scope l = .ok v := by
  cases h with
  | int n =>
    refine ⟨.int n.toInt64, rfl, rfl, rfl, fun scope => ?_⟩
    have hfits := Value.isInt32_toInt n
    simp [ofLiteral, ScalarType.int, Literal.replaceVariables, IntScalar.literal, hfits,
      Except.mapError, Value.int]
  | float x => exact ⟨.float x, rfl, rfl, rfl, fun _ => rfl⟩
  | string text => exact ⟨.string text, rfl, rfl, rfl, fun _ => rfl⟩
  | boolean b => exact ⟨.boolean b, rfl, rfl, rfl, fun _ => rfl⟩
  | id text =>
    cases hnumber : IDScalar.wholeNumber? text with
    | none =>
      refine ⟨.string text, ?_, rfl, rfl, fun _ => rfl⟩
      simp [write, ScalarType.id, IDScalar.toLiteral, Value.string, hnumber]
    | some n =>
      have hzero : text ≠ "-0" := by
        rintro rfl
        exact hID rfl rfl
      obtain ⟨hspelled, hfits⟩ := toString_of_wholeNumber? hnumber hzero
      refine ⟨.int (Int64.ofInt n), ?_, rfl, rfl, fun scope => ?_⟩
      · simp [write, ScalarType.id, IDScalar.toLiteral, Value.string, hnumber]
      · have hn : (Int64.ofInt n).toInt = n := by
          simp only [Decimal.isInt64, Bool.and_eq_true, decide_eq_true_eq] at hfits
          have hbelow := hfits.2
          simp only [Int64.toInt_maxValue] at hbelow
          exact Int64.toInt_ofInt_of_le hfits.1 (by omega)
        simp [ofLiteral, ScalarType.id, Literal.replaceVariables, IDScalar.literal, Except.mapError,
          hn, hspelled]
  | custom hcustom hnull =>
    have hplain := hs.resolve_left hcustom
    refine ⟨.ofValue v, ?_, Literal.isConst_ofValue v, ?_, fun scope => ?_⟩
    · rw [write, hplain.toLiteral]
    · rw [Literal.isNull_ofValue, hnull]
    · rw [ofLiteral, hplain.literal]
      simp only [hplain.input, Literal.toValue_ofValue v hkeys, Except.mapError]

section

variable (schema : Schema σ) (defaultOf : DefaultCoercion) (scope : Scope) {t : TypeRef}
  {name : String} {v : Value} {l : Literal}

theorem item?_of_name? (ht : t.name? = some name) :
    t.item? = none ∧ t.innermost = name ∧ t.listDepth = 0 := by
  cases t <;> cases ht <;> exact ⟨rfl, rfl, rfl⟩

theorem writeAs_of_name? (ht : t.name? = some name) (hnull : v.isNull = false) :
    ∃ members, (∀ fields, v = .object fields → members = some (writeMembers schema fields)) ∧
      writeAs schema v t = writeNamed schema members v name := by
  obtain ⟨hitem, rfl, -⟩ := item?_of_name? ht
  cases v with
  | null => cases hnull
  | list items => exact ⟨none, by simp, by simp only [writeAs, hitem]⟩
  | object fields => exact ⟨_, by simp, rfl⟩
  | scalar s => exact ⟨none, by simp, rfl⟩

theorem literalAs_of_name? (ht : t.name? = some name) (hnull : l.isNull = false)
    (hvariable : l.isVariable = false) :
    ∃ members, (∀ fields, l = .object fields →
        members = literalMembers schema defaultOf scope fields) ∧
      literalAs schema defaultOf scope l t =
        (literalNamed schema defaultOf scope members l name).map some := by
  obtain ⟨hitem, rfl, hdepth⟩ := item?_of_name? ht
  cases l with
  | null => cases hnull
  | «variable» name => cases hvariable
  | list items => exact ⟨[], by simp, by simp only [literalAs, hitem]⟩
  | object fields =>
    refine ⟨literalMembers schema defaultOf scope fields, fun _ h => Literal.object.inj h ▸ rfl, ?_⟩
    simp only [literalAs, hdepth]
    rfl
  | _ =>
    refine ⟨[], by simp, ?_⟩
    simp only [literalAs, hdepth]
    rfl

end

/-! ## Values that are restored -/

/-- Whether a value is written as a constant literal that is read as the value. -/
def Schema.Restores (schema : Schema σ) (t : TypeRef) (v : Value) : Prop :=
  ∃ l, writeAs schema v t = some l ∧ l.isConst ∧ (l.isNull → v.isNull) ∧
    ∀ defaultOf scope, ∃ w, literalAs schema defaultOf scope l t = .ok (some w) ∧ w.Equals v

section

variable {schema : Schema σ} {defaultOf : DefaultCoercion} {scope : Scope} {t item : TypeRef}
  {name : String} {v : Value}

theorem restores_null (ht : t.isNonNull = false) : schema.Restores t .null := by
  refine ⟨.null, ?_, rfl, fun _ => rfl, fun _ _ => ⟨.null, ?_, .refl _⟩⟩
  · simp [writeAs, ht]
  · simp [literalAs, ht]

theorem restores_scalar {s : ScalarType} (hs : s ∈ ScalarType.builtins ∨ s.IsPlain)
    (ht : t.name? = some name) (htype : schema.type? name = some (.scalar s)) (hv : s.Reads v)
    (hkeys : v.DistinctKeys) (hID : s = .id → v ≠ .string "-0") : schema.Restores t v := by
  obtain ⟨l, hwrite, hconst, hnull, hread⟩ := hv.written hs hkeys hID
  obtain ⟨members, -, hwritten⟩ := writeAs_of_name? schema ht hv.isNull
  refine ⟨l, ?_, hconst, by simp [hnull], fun defaultOf scope => ⟨v, ?_, .refl v⟩⟩
  · rw [hwritten, writeNamed, htype]
    exact hwrite
  · obtain ⟨members, -, hreads⟩ := literalAs_of_name? schema defaultOf scope ht hnull
      (Literal.isVariable_of_isConst hconst)
    rw [hreads, literalNamed, htype]
    simp only [hread, Except.map]

theorem restores_enum {e : EnumType} {found : EnumValue}
    (hnames : (e.values.value.map (·.name)).Nodup) (hequal : found.value == found.value)
    (ht : t.name? = some name) (htype : schema.type? name = some (.enum e))
    (hfound : found ∈ e.values.value) (hv : found.value.isNull = false) :
    schema.Restores t found.value := by
  obtain ⟨members, -, hwritten⟩ := writeAs_of_name? schema ht hv
  -- The value that is written may be another one, if it is equal.
  obtain ⟨seen, hseen⟩ : ∃ seen, e.seenAs? found.value = some seen :=
    Option.isSome_iff_exists.mp (List.find?_isSome.mpr ⟨found, hfound, hequal⟩)
  have hnamed : e.named? seen.name = some seen :=
    find?_of_nodup hnames (List.mem_of_find?_eq_some hseen)
  refine ⟨.enum seen.name, ?_, rfl, nofun, fun defaultOf scope => ⟨seen.value, ?_, .equal ?_⟩⟩
  · rw [hwritten, writeNamed, htype]
    simp only [hseen, Option.map_some]
  · obtain ⟨members, -, hreads⟩ := literalAs_of_name? schema defaultOf scope
      (l := .enum seen.name) ht rfl rfl
    rw [hreads, literalNamed, htype]
    simp only [EnumType.ofLiteral, hnamed, Except.map]
  · simpa using List.find?_some hseen

/-! ### Lists -/

theorem writeItems_eq_map (items : List Value) :
    writeItems schema items = items.map fun v t => writeAs schema v t := by
  induction items with
  | nil => rfl
  | cons v items ih => rw [writeItems, ih, List.map_cons]

theorem mapM_id_some {α : Type} (as : List α) : (as.map some).mapM id = some as := by
  induction as with
  | nil => rfl
  | cons a as ih =>
    rw [List.map_cons, List.mapM_cons, id, ih]
    rfl

theorem exists_itemsOfLiterals {members : List (TypeRef → LiteralResult)} {items : List Value}
    (h : List.Forall₂ (fun member v => ∃ w, member item = .ok (some w) ∧ w.Equals v) members items) :
    ∃ ws, itemsOfLiterals item members = .ok ws ∧ List.Forall₂ Value.Equals ws items := by
  induction h with
  | nil => exact ⟨[], rfl, .nil⟩
  | cons hv _ ih =>
    obtain ⟨w, hw, hsame⟩ := hv
    obtain ⟨ws, hws, hrest⟩ := ih
    refine ⟨w :: ws, ?_, .cons hsame hrest⟩
    rw [itemsOfLiterals, hw, hws]
    rfl

theorem restores_list {items : List Value} (ht : t.item? = some item)
    (h : ∀ v ∈ items, schema.Restores item v) : schema.Restores t (.list items) := by
  let lit (v : Value) : Literal := (writeAs schema v item).getD .null
  have hlit : ∀ v ∈ items, writeAs schema v item = some (lit v) := fun v hv => by
    obtain ⟨l, hl, -⟩ := h v hv
    simp [lit, hl]
  refine ⟨.listOf (items.map lit), ?_, ?_, nofun, fun defaultOf scope => ?_⟩
  · have hitems : items.map (fun v => writeAs schema v item) = (items.map lit).map some := by
      rw [List.map_map]
      exact List.map_congr_left hlit
    simp only [writeAs, ht, writeItems_eq_map, List.map_map, Function.comp_def, hitems]
    rw [← Function.comp_def, ← List.map_map, mapM_id_some, Option.map_some]
  · rw [Literal.listOf, Literal.isConst, Literal.isConstItems_iff, List.map_map, List.forall_mem_map]
    intro v hv
    obtain ⟨l, hl, hconst, -⟩ := h v hv
    simpa [lit, hl, Located.nowhere] using hconst
  · have hmembers : List.Forall₂
        (fun l v => ∃ w, literalAs schema defaultOf scope l item = .ok (some w) ∧ w.Equals v)
        (items.map lit) items := by
      rw [List.forall₂_map_left_iff, List.forall₂_same]
      intro v hv
      obtain ⟨l, hl, -, -, hread⟩ := h v hv
      simpa [lit, hl] using hread defaultOf scope
    have hmembers' : List.Forall₂ (fun member v => ∃ w, member item = .ok (some w) ∧ w.Equals v)
        (literalItems schema defaultOf scope ((items.map lit).map .nowhere)) items := by
      rw [literalItems_eq_map, List.map_map, List.forall₂_map_left_iff]
      exact hmembers
    obtain ⟨ws, hws, hsame⟩ := exists_itemsOfLiterals hmembers'
    refine ⟨.list ws, ?_, .list hsame⟩
    simp only [Literal.listOf, literalAs, ht, hws]
    rfl

/-! ### Objects -/

theorem get?_writeMembers (key : String) (fields : Object) :
    (writeMembers schema fields).get? key =
      (fields.get? key).map fun v t => writeAs schema v t := by
  have hmap : writeMembers schema fields = fields.map fun f => (f.1, fun t => writeAs schema f.2 t) := by
    induction fields with
    | nil => rfl
    | cons f fields ih => rw [writeMembers, ih, List.map_cons]
  rw [hmap]
  exact Entries.get?_map (fun v t => writeAs schema v t) key fields

/-- The literal of the field that is defined by `d`. -/
def fieldLiteral? (schema : Schema σ) (fields : Object) (d : InputDefinition) : Option Literal :=
  (fields.get? d.name).bind fun v => writeAs schema v d.type

/-- What is read from the literal of the field that is defined by `d`. -/
def fieldRead? (schema : Schema σ) (defaultOf : DefaultCoercion) (scope : Scope) (fields : Object)
    (d : InputDefinition) : Option Value :=
  (fieldLiteral? schema fields d).bind fun l =>
    (literalAs schema defaultOf scope l d.type).toOption.join

/-- The fields of a value of an input object type, where the values of the fields are restored. -/
structure RestoresFields (schema : Schema σ) (o : InputObjectType) (fields : Object) : Prop where
  names : (o.fields.value.map (·.name)).Nodup
  known : ∀ key ∈ fields.map Prod.fst, ∃ d ∈ o.fields.value, d.name = key
  values : ∀ d ∈ o.fields.value, ∀ v, fields.get? d.name = some v → schema.Restores d.type v
  given : ∀ d ∈ o.fields.value, d.type.isNonNull ∨ d.default.isSome → (fields.get? d.name).isSome
  oneOf : o.isOneOf → ∃ key v, fields = [(key, v)] ∧ v.isNull = false

namespace RestoresFields

variable {o : InputObjectType} {fields : Object} {d : InputDefinition}

theorem literal (h : RestoresFields schema o fields) (hd : d ∈ o.fields.value)
    (hv : fields.get? d.name = some v) :
    ∃ l, writeAs schema v d.type = some l ∧ fieldLiteral? schema fields d = some l ∧ l.isConst ∧
      (l.isNull → v.isNull) ∧ ∀ defaultOf scope, ∃ w,
        literalAs schema defaultOf scope l d.type = .ok (some w) ∧
          fieldRead? schema defaultOf scope fields d = some w ∧ w.Equals v := by
  obtain ⟨l, hl, hconst, hnull, hread⟩ := h.values d hd v hv
  have hliteral : fieldLiteral? schema fields d = some l := by simp [fieldLiteral?, hv, hl]
  refine ⟨l, hl, hliteral, hconst, hnull, fun defaultOf scope => ?_⟩
  obtain ⟨w, hw, hsame⟩ := hread defaultOf scope
  exact ⟨w, hw, by simp [fieldRead?, hliteral, hw, Except.toOption], hsame⟩

theorem missing (h : RestoresFields schema o fields) (hd : d ∈ o.fields.value)
    (hnone : fields.get? d.name = none) :
    fieldLiteral? schema fields d = none ∧ d.default = none ∧ d.type.isNonNull = false := by
  have hneedless := mt (h.given d hd) (by simp [hnone])
  rw [not_or] at hneedless
  exact ⟨by simp [fieldLiteral?, hnone], by simpa using hneedless.2, by simpa using hneedless.1⟩

theorem write (h : RestoresFields schema o fields) : o.write (writeMembers schema fields) =
    some (.objectOf (gathered (·.name) (fieldLiteral? schema fields) o.fields.value)) := by
  have hgiven : (o.fields.value.filterMap fun d => ((writeMembers schema fields).get? d.name).map
        fun member => (member d.type).map fun l => (d.name, l)) =
      (o.fields.value.filterMap fun d =>
        (fieldLiteral? schema fields d).map fun l => (d.name, l)).map some := by
    rw [List.map_filterMap]
    refine List.filterMap_congr fun d hd => ?_
    rw [get?_writeMembers]
    cases hv : fields.get? d.name with
    | none => simp [(h.missing hd hv).1]
    | some v =>
      obtain ⟨l, hl, hliteral, -⟩ := h.literal hd hv
      simp [hl, hliteral]
  rw [InputObjectType.write, hgiven, mapM_id_some, Option.map_some, gathered_of_nodup h.names]

theorem isConst (h : RestoresFields schema o fields) :
    (Literal.objectOf (gathered (·.name) (fieldLiteral? schema fields) o.fields.value)).isConst := by
  rw [Literal.objectOf, Literal.isConst, Literal.isConstFields_iff, List.forall_mem_map]
  rintro ⟨key, l⟩ hmem
  obtain ⟨d, hd, rfl, hl⟩ :=
    exists_of_get?_gathered (Entries.get?_of_mem (nodup_keys_gathered _ h.names) hmem)
  cases hv : fields.get? d.name with
  | none => simp [(h.missing hd hv).1] at hl
  | some v =>
    obtain ⟨l', -, hl', hconst, -⟩ := h.literal hd hv
    obtain rfl := Option.some.inj (hl'.symm.trans hl)
    exact hconst

theorem reads (h : RestoresFields schema o fields) (defaultOf : DefaultCoercion) (scope : Scope) :
    let written := (gathered (·.name) (fieldLiteral? schema fields) o.fields.value).map
      fun (k, l) => (Located.nowhere k, Located.nowhere l)
    ReadsObject defaultOf scope o (literalMembers schema defaultOf scope written) written
      (fieldRead? schema defaultOf scope fields) := by
  intro written
  have hwritten : fieldsByName written =
      gathered (·.name) (fieldLiteral? schema fields) o.fields.value := by
    rw [fieldsByName, List.map_map]
    exact List.map_id _
  refine ⟨?known, ?oneOf, fun d hd => ?fields⟩
  case known =>
    rw [List.forall_mem_map]
    rintro ⟨key, l⟩ hmem
    obtain ⟨d, hd, rfl, -⟩ :=
      exists_of_mem_keys_gathered h.names (List.mem_map_of_mem (f := Prod.fst) hmem)
    exact Option.isSome_of_eq_some (field?_of_mem h.names hd)
  case oneOf =>
    intro honeOf
    obtain ⟨key, v, rfl, hnull⟩ := h.oneOf honeOf
    obtain ⟨d, hd, rfl⟩ := h.known key List.mem_cons_self
    obtain ⟨l, -, hl, hconst, hkept, -⟩ := h.literal hd (v := v) (by simp [Entries.get?_cons])
    have honly : gathered (·.name) (fieldLiteral? schema [(d.name, v)]) o.fields.value =
        [(d.name, l)] := by
      refine Entries.eq_singleton (nodup_keys_gathered _ h.names) (fun key hkey => ?_)
        ((get?_gathered _ h.names hd).trans hl)
      obtain ⟨d', hd', rfl, hsome⟩ := exists_of_mem_keys_gathered h.names hkey
      by_contra hne
      simp [(h.missing hd' (by simp [Entries.get?_cons, hne])).1] at hsome
    refine ⟨.nowhere d.name, .nowhere l, by simp [written, honly], ?_⟩
    have hset : l.isNull = false := by
      by_contra hcontra
      simp [hkept (by simpa using hcontra)] at hnull
    exact Literal.isNullIn_of_isConst hconst ▸ hset
  case fields =>
    unfold InputDefinition.ofLiterals
    rw [get?_literalMembers, hwritten, get?_gathered _ h.names hd]
    cases hv : fields.get? d.name with
    | none =>
      obtain ⟨hnone, hdefault, hnull⟩ := h.missing hd hv
      simp only [fieldRead?, hnone, Option.map_none, hdefault, hnull]
      rfl
    | some v =>
      obtain ⟨l, -, hl, -, -, hread⟩ := h.literal hd hv
      obtain ⟨w, hw, hsame, -⟩ := hread defaultOf scope
      simp only [hl, Option.map_some, hw, hsame]
      rfl

theorem equals (h : RestoresFields schema o fields) (defaultOf : DefaultCoercion) (scope : Scope) :
    (Value.object (gathered (·.name) (fieldRead? schema defaultOf scope fields)
      o.fields.value)).Equals (.object fields) := by
  have hsame : ∀ d ∈ o.fields.value,
      (fieldRead? schema defaultOf scope fields d).isSome = (fields.get? d.name).isSome ∧
        ∀ v w, fieldRead? schema defaultOf scope fields d = some w → fields.get? d.name = some v →
          w.Equals v := by
    intro d hd
    cases hv : fields.get? d.name with
    | none => simp [fieldRead?, (h.missing hd hv).1]
    | some v =>
      obtain ⟨l, -, -, -, -, hread⟩ := h.literal hd hv
      obtain ⟨w, -, hw, hequals⟩ := hread defaultOf scope
      simp [hw, hequals]
  refine .object (fun key => ?_) fun key v w hv hw => ?_
  · by_cases hkey : ∃ d ∈ o.fields.value, d.name = key
    · obtain ⟨d, hd, rfl⟩ := hkey
      rw [get?_gathered _ h.names hd, (hsame d hd).1]
    · have hnone : fields.get? key = none :=
        Entries.get?_eq_none_iff.mpr fun hmem => hkey (h.known key hmem)
      have hunread : (gathered (·.name) (fieldRead? schema defaultOf scope fields)
          o.fields.value).get? key = none :=
        Option.eq_none_iff_forall_ne_some.mpr fun w hw =>
          have ⟨d, hd, hname, _⟩ := exists_of_get?_gathered hw
          hkey ⟨d, hd, hname⟩
      rw [hnone, hunread]
  · obtain ⟨d, hd, rfl, hread⟩ := exists_of_get?_gathered hv
    exact (hsame d hd).2 w v hread hw

theorem restores (h : RestoresFields schema o fields) (ht : t.name? = some name)
    (htype : schema.type? name = some (.inputObject o)) : schema.Restores t (.object fields) := by
  obtain ⟨members, hmembers, hwritten⟩ := writeAs_of_name? schema ht (v := .object fields) rfl
  refine ⟨_, ?_, h.isConst, nofun, fun defaultOf scope => ⟨_, ?_, h.equals defaultOf scope⟩⟩
  · rw [hwritten, hmembers fields rfl, writeNamed, htype]
    exact h.write
  · obtain ⟨members, hmembers, hreads⟩ := literalAs_of_name? schema defaultOf scope ht
      (l := .objectOf (gathered (·.name) (fieldLiteral? schema fields) o.fields.value)) rfl rfl
    rw [hreads, literalNamed, htype, hmembers _ rfl]
    exact congrArg (Except.map some) (h.reads defaultOf scope).ofLiteral_eq

end RestoresFields

theorem Schema.Suits.restores (hschema : schema.Writable) (h : schema.Suits t v)
    (hkeys : v.DistinctKeys) (hID : ¬ schema.HoldsAt .id (.string "-0") t v) :
    schema.Restores t v := by
  induction h with
  | null ht => exact restores_null ht
  | list ht _ ih =>
    rw [Value.DistinctKeys, Value.distinctKeysItems_iff] at hkeys
    exact restores_list ht fun v hv => ih v hv (hkeys v hv) fun h => hID (.item ht hv h)
  | scalar ht hs hv =>
    refine restores_scalar (hschema.scalars _ (Schema.mem_of_type? hs)) ht hs hv hkeys ?_
    rintro rfl rfl
    exact hID (.here ht hs)
  | enum ht he hfound hv =>
    have hmem := Schema.mem_of_type? he
    exact restores_enum (hschema.names _ hmem) (hschema.equals _ hmem _ hfound) ht he hfound hv
  | object ht ho _ known _ given oneOf ih =>
    have hfields := (Value.distinctKeysFields_iff _).mp hkeys.2
    refine RestoresFields.restores ⟨hschema.fields _ (Schema.mem_of_type? ho), known, ?_, given, oneOf⟩
      ht ho
    exact fun d hd v hv => ih d hd v hv (hfields _ v (Entries.mem_of_get? hv)) fun h =>
      hID (.field ht ho hd hv h)

/-- A coerced value can be written as a constant literal of its type, from which the same value is
read again, if no ID in it is `-0`. -/
theorem coerceInput_restored (hschema : schema.Writable) {given : Value}
    (h : schema.coerceInput given t = .ok v) (hkeys : v.DistinctKeys)
    (hID : ¬ schema.HoldsAt .id (.string "-0") t v) :
    ∃ l, writeAs schema v t = some l ∧ l.isConst ∧
      ∃ w, schema.coerceLiteral .empty l t = .ok (some w) ∧ w.Equals v := by
  have haccepted : inputAs schema schema.coerceDefault given t = .accepted v :=
    Checked.toExcept_eq_ok.mp h
  obtain ⟨hsuits, -⟩ := suits_inputAs hschema.sound (suitsDefaults hschema.sound) given t
    (by rw [haccepted]; rfl)
  rw [haccepted] at hsuits
  obtain ⟨l, hwrite, hconst, -, hread⟩ := hsuits.restores hschema hkeys hID
  exact ⟨l, hwrite, hconst, hread _ _⟩

end

/-! ## Values of a small schema -/

theorem sampleInputs_writable : (sampleInputs : Schema σ).Writable where
  scalars := by
    intro t ht
    rcases by simpa [sampleInputs] using ht with rfl | ht
    · exact .inr ⟨rfl, rfl, rfl⟩
    · exact .inl ht
  enums := sampleInputs_regular.enums
  names := by
    intro t ht
    obtain rfl : t = sampleMood := by simpa [sampleInputs] using ht
    decide
  equals := by
    intro t ht
    obtain rfl : t = sampleMood := by simpa [sampleInputs] using ht
    decide
  fields := sampleInputs_regular.fields
  oneOf := sampleInputs_regular.sound.oneOf
  defaults := sampleInputs_regular.defaults

/-- `{ range: { low: 0, moods: [1, 0] } }`, where `low` was left out. -/
def samplePickedValue : Value :=
  .object [("range", .object [("low", .int 0), ("moods", .list [.int 1, .int 0])])]

theorem samplePickedValue_restored :
    ∃ l, writeAs (sampleInputs : Schema Unit) samplePickedValue (.named "Pick") = some l ∧ l.isConst ∧
      ∃ w, (sampleInputs : Schema Unit).coerceLiteral .empty l (.named "Pick") = .ok (some w) ∧
        w.Equals samplePickedValue := by
  have hcoerced : (sampleInputs : Schema Unit).coerceInput
      (.object [("range", .object [("moods", .list [.string "GLAD", .string "SAD"])])])
      (.named "Pick") = .ok samplePickedValue := rfl
  refine coerceInput_restored sampleInputs_writable hcoerced ?_ ?_
  · simp [samplePickedValue, Value.DistinctKeys, Value.DistinctKeysFields, Value.DistinctKeysItems,
      Value.int]
  · intro h
    generalize hu : Value.string "-0" = u at h
    cases h with
    | here ht hs => cases ht; cases hs
    | field ht ho hd hv h =>
      cases ht
      cases ho
      simp [Entries.get?_cons, samplePick, Component.given] at hd hv
      obtain ⟨hname, rfl⟩ := hv
      obtain rfl | rfl := hd
      · simp at hname
      cases h with
      | here ht hs => cases ht; cases hs
      | field ht ho hd hv h =>
        cases ht
        cases ho
        simp [Entries.get?_cons, sampleRange, Component.given] at hd hv
        obtain rfl | rfl := hd
        · obtain rfl : _ = Value.int 0 := by simpa using hv.symm
          cases h with | here ht hs => cases ht; exact absurd (congrArg (Option.map (·.name)) hs) (by decide)
        · obtain rfl : _ = Value.list [.int 1, .int 0] := by simpa using hv.symm
          cases h with
          | here ht => cases ht
          | item ht hv h =>
            cases ht
            cases h with
            | here ht hs => cases ht; cases hs
            | item ht => cases ht
            | field ht ho => cases ht; cases ho

/-- The ID `-0` is written as the number zero, and read as the ID `0`. -/
theorem minusZero_lost :
    (sampleInputs : Schema Unit).Writable ∧
      (sampleInputs : Schema Unit).coerceInput (.string "-0") (.named "ID") = .ok (.string "-0") ∧
      writeAs (sampleInputs : Schema Unit) (.string "-0") (.named "ID") = some (.int 0) ∧
      (sampleInputs : Schema Unit).coerceLiteral .empty (.int 0) (.named "ID") =
        .ok (some (.string "0")) ∧
      ¬ (Value.string "0").Equals (.string "-0") := by
  refine ⟨sampleInputs_writable, rfl, rfl, rfl, fun h => ?_⟩
  generalize hv : Value.string "0" = v, hw : Value.string "-0" = w at h
  cases h with
  | refl => exact absurd (hv.trans hw.symm) (by simp [Value.string])
  | equal h =>
    subst hv hw
    exact absurd h (by decide)
  | list => cases hv
  | object => cases hv

end GraphQL
