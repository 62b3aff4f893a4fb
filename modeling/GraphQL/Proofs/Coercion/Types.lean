import GraphQL.Proofs.Coercion.Basic
import GraphQL.Schema.Check

/-! # Coerced values suit their types

What a resolver gets for an argument is a value of the declared type of the argument, whichever way
it was given: written in the document, as a variable, inside of another value, or as a default.
-/

namespace GraphQL

variable {σ : Type}

/-! ## Values of a type -/

/-- The values that a scalar may read. -/
inductive ScalarType.Reads : ScalarType → Value → Prop
  | int (n : Int32) : Reads .int (.int n)
  | float (x : Float) : Reads .float (.float x)
  | string (s : String) : Reads .string (.string s)
  | boolean (b : Bool) : Reads .boolean (.boolean b)
  | id (s : String) : Reads .id (.string s)
  | custom {t : ScalarType} {v : Value} (ht : t ∉ builtins) (hv : v.isNull = false) : Reads t v

/-- The coerced values of a type. -/
inductive Schema.Suits (schema : Schema σ) : TypeRef → Value → Prop
  | null {t : TypeRef} (ht : t.isNonNull = false) : Suits schema t .null
  | list {t item : TypeRef} {items : List Value} (ht : t.item? = some item)
      (hitems : ∀ v ∈ items, Suits schema item v) : Suits schema t (.list items)
  | scalar {t : TypeRef} {name : String} {s : ScalarType} {v : Value} (ht : t.name? = some name)
      (hs : schema.type? name = some (.scalar s)) (hv : s.Reads v) : Suits schema t v
  | enum {t : TypeRef} {name : String} {e : EnumType} {found : EnumValue}
      (ht : t.name? = some name) (he : schema.type? name = some (.enum e))
      (hfound : found ∈ e.values.value) (hv : found.value.isNull = false) :
      Suits schema t found.value
  | object {t : TypeRef} {name : String} {o : InputObjectType} {fields : Object}
      (ht : t.name? = some name) (ho : schema.type? name = some (.inputObject o))
      (keys : (fields.map Prod.fst).Nodup)
      (known : ∀ key ∈ fields.map Prod.fst, ∃ d ∈ o.fields.value, d.name = key)
      (values : ∀ d ∈ o.fields.value, ∀ v, fields.get? d.name = some v → Suits schema d.type v)
      (given : ∀ d ∈ o.fields.value, d.type.isNonNull ∨ d.default.isSome →
        (fields.get? d.name).isSome)
      (oneOf : o.isOneOf → ∃ key v, fields = [(key, v)] ∧ v.isNull = false) :
      Suits schema t (.object fields)

/-- What a resolver is promised about its arguments. -/
structure Schema.SuitsArguments (schema : Schema σ) (definitions : List InputDefinition)
    (arguments : Object) : Prop where
  keys : (arguments.map Prod.fst).Nodup
  known : ∀ key ∈ arguments.map Prod.fst, ∃ d ∈ definitions, d.name = key
  values : ∀ d ∈ definitions, ∀ v, arguments.get? d.name = some v → schema.Suits d.type v
  given : ∀ d ∈ definitions, d.type.isNonNull ∨ d.default.isSome → (arguments.get? d.name).isSome

section

variable {schema : Schema σ} {t t' : TypeRef} {v : Value}

theorem ScalarType.Reads.isNull {s : ScalarType} (h : s.Reads v) : v.isNull = false := by
  cases h with
  | custom ht hv => exact hv
  | _ => rfl

namespace Schema.Suits

theorem isNonNull (h : schema.Suits t v) (hnull : v.isNull) : t.isNonNull = false := by
  cases h with
  | null ht => exact ht
  | list => cases hnull
  | scalar ht hs hv => simp [hv.isNull] at hnull
  | enum ht he hfound hv => simp [hv] at hnull
  | object => cases hnull

theorem isNull (h : schema.Suits t v) (ht : t.isNonNull) : v.isNull = false := by
  by_contra hnull
  have hnullable := h.isNonNull (by simpa using hnull)
  simp [ht] at hnullable

theorem of_eq (h : schema.Suits t v) (hitem : t'.item? = t.item?) (hname : t'.name? = t.name?)
    (hnull : v.isNull → t'.isNonNull = false) : schema.Suits t' v := by
  cases h with
  | null ht => exact .null (hnull rfl)
  | list ht hitems => exact .list (hitem ▸ ht) hitems
  | scalar ht hs hv => exact .scalar (hname ▸ ht) hs hv
  | enum ht he hfound hv => exact .enum (hname ▸ ht) he hfound hv
  | object ht ho keys known values given oneOf =>
    exact .object (hname ▸ ht) ho keys known values given oneOf

theorem of_nullable (h : schema.Suits t.nullable v) (hnull : v.isNull → t.isNonNull = false) :
    schema.Suits t v :=
  h.of_eq (by cases t <;> rfl) (by cases t <;> rfl) hnull

theorem nested (h : schema.Suits (.nonNullNamed t.innermost) v) :
    schema.Suits t (t.listDepth.repeat (fun v => .list [v]) v) := by
  induction t with
  | named name => exact h.of_eq rfl rfl fun _ => rfl
  | nonNullNamed name => exact h
  | list t ih => exact .list rfl (by simpa using ih h)
  | nonNullList t ih => exact .list rfl (by simpa using ih h)

end Schema.Suits

theorem isNull_nested {n : Nat} (h : v.isNull = false) :
    (n.repeat (fun v => .list [v]) v).isNull = false := by
  cases n with
  | zero => exact h
  | succ n => rfl

end

/-! ## Schemas whose inputs can be trusted -/

/-- Whether a scalar never reads null where null was not given. -/
structure ScalarType.KeepsNonNull (t : ScalarType) : Prop where
  input : ∀ v w, t.input v = .ok w → v.isNull = false → w.isNull = false
  literal : ∀ read l w, t.literal = some read → read l = .ok w → l.isNull = false →
    w.isNull = false

/-- Whether a default has no variables. -/
def Default.isConst : Default → Bool
  | .value _ => true
  | .literal l => l.isConst

/-- What a schema must keep, apart from being valid, so that what is coerced suits its type. -/
structure Schema.Regular (schema : Schema σ) : Prop where
  valid : schema.problems = []
  scalars : ∀ t, .scalar t ∈ schema.types → t ∈ ScalarType.builtins ∨ t.KeepsNonNull
  enums : ∀ t, .enum t ∈ schema.types → ∀ v ∈ t.values.value, v.value.isNull = false
  fields : ∀ t, .inputObject t ∈ schema.types → (t.fields.value.map (·.name)).Nodup
  defaults : ∀ t, .inputObject t ∈ schema.types →
    ∀ d ∈ t.fields.value, d.default.all (·.isConst)

section

variable {schema : Schema σ}

theorem Schema.Regular.oneOf (hschema : schema.Regular) {o : InputObjectType}
    (ho : .inputObject o ∈ schema.types) (honeOf : o.isOneOf) {d : InputDefinition}
    (hd : d ∈ o.fields.value) : d.type.isNonNull = false ∧ d.default = none := by
  have hproblems := hschema.valid
  simp only [Schema.problems, List.append_eq_nil_iff, List.flatMap_eq_nil_iff] at hproblems
  have hobject : schema.inputObjectProblems o = [] := hproblems.1.2 _ ho
  simp only [Schema.inputObjectProblems, List.append_eq_nil_iff, List.flatMap_eq_nil_iff,
    honeOf, if_true] at hobject
  have hfield := (hobject.2 d hd).2
  simp only [Schema.oneOfProblems, List.append_eq_nil_iff] at hfield
  refine ⟨?_, ?_⟩
  · simpa using hfield.1
  · simpa using hfield.2

/-- What of a schema matters to values of its input types. -/
structure Schema.Sound (schema : Schema σ) : Prop where
  scalars : ∀ t, .scalar t ∈ schema.types → t ∈ ScalarType.builtins ∨ t.KeepsNonNull
  enums : ∀ t, .enum t ∈ schema.types → ∀ v ∈ t.values.value, v.value.isNull = false
  fields : ∀ t, .inputObject t ∈ schema.types → (t.fields.value.map (·.name)).Nodup
  oneOf : ∀ t, .inputObject t ∈ schema.types → t.isOneOf → ∀ d ∈ t.fields.value, d.default = none
  defaults : ∀ t, .inputObject t ∈ schema.types →
    ∀ d ∈ t.fields.value, d.default.all (·.isConst)

theorem Schema.Regular.sound (hschema : schema.Regular) : schema.Sound where
  scalars := hschema.scalars
  enums := hschema.enums
  fields := hschema.fields
  oneOf := fun _ ho honeOf _ hd => (hschema.oneOf ho honeOf hd).2
  defaults := hschema.defaults

/-! ## Scalars and enums -/

theorem reads_intInput {v w : Value} (h : IntScalar.input v = .ok w) :
    ScalarType.int.Reads w := by
  unfold IntScalar.input at h
  split at h
  · obtain rfl := Except.ok.inj h
    exact .int _
  · unfold IntScalar.ofFloat refusal at h
    split at h
    · cases h
    · split at h
      · obtain rfl := Except.ok.inj h
        exact .int _
      · cases h
  · cases h

theorem reads_floatInput {v w : Value} (h : FloatScalar.input v = .ok w) :
    ScalarType.float.Reads w := by
  unfold FloatScalar.input refusal at h
  split at h
  · split at h
    · obtain rfl := Except.ok.inj h
      exact .float _
    · cases h
  · cases h

theorem reads_stringInput {v w : Value} (h : StringScalar.input v = .ok w) :
    ScalarType.string.Reads w := by
  unfold StringScalar.input refusal at h
  split at h
  · obtain rfl := Except.ok.inj h
    exact .string _
  · cases h

theorem reads_booleanInput {v w : Value} (h : BooleanScalar.input v = .ok w) :
    ScalarType.boolean.Reads w := by
  unfold BooleanScalar.input refusal at h
  split at h
  · obtain rfl := Except.ok.inj h
    exact .boolean _
  · cases h

theorem reads_idInput {v w : Value} (h : IDScalar.input v = .ok w) : ScalarType.id.Reads w := by
  unfold IDScalar.input refusal at h
  split at h
  · obtain rfl := Except.ok.inj h
    exact .id _
  · obtain rfl := Except.ok.inj h
    exact .id _
  · split at h
    · obtain rfl := Except.ok.inj h
      exact .id _
    · cases h
  · cases h

theorem reads_of_input {t : ScalarType} (ht : t ∈ ScalarType.builtins ∨ t.KeepsNonNull)
    {v w : Value} (hv : v.isNull = false) (h : t.input v = .ok w) : t.Reads w := by
  by_cases hbuiltin : t ∈ ScalarType.builtins
  · simp only [ScalarType.builtins, List.mem_cons, List.not_mem_nil, or_false] at hbuiltin
    rcases hbuiltin with rfl | rfl | rfl | rfl | rfl
    · exact reads_intInput h
    · exact reads_floatInput h
    · exact reads_stringInput h
    · exact reads_booleanInput h
    · exact reads_idInput h
  · exact .custom hbuiltin ((ht.resolve_left hbuiltin).input v w h hv)

theorem reads_intLiteral {l : Literal} {w : Value} (h : IntScalar.literal l = .ok w) :
    ScalarType.int.Reads w := by
  unfold IntScalar.literal refusal at h
  split at h
  · split at h
    · obtain rfl := Except.ok.inj h
      exact .int _
    · cases h
  · cases h

theorem reads_floatLiteral {l : Literal} {w : Value} (h : FloatScalar.literal l = .ok w) :
    ScalarType.float.Reads w := by
  unfold FloatScalar.literal refusal at h
  split at h
  · obtain rfl := Except.ok.inj h
    exact .float _
  · obtain rfl := Except.ok.inj h
    exact .float _
  · cases h

theorem reads_stringLiteral {l : Literal} {w : Value} (h : StringScalar.literal l = .ok w) :
    ScalarType.string.Reads w := by
  unfold StringScalar.literal refusal at h
  split at h
  · obtain rfl := Except.ok.inj h
    exact .string _
  · cases h

theorem reads_booleanLiteral {l : Literal} {w : Value} (h : BooleanScalar.literal l = .ok w) :
    ScalarType.boolean.Reads w := by
  unfold BooleanScalar.literal refusal at h
  split at h
  · obtain rfl := Except.ok.inj h
    exact .boolean _
  · cases h

theorem reads_idLiteral {l : Literal} {w : Value} (h : IDScalar.literal l = .ok w) :
    ScalarType.id.Reads w := by
  unfold IDScalar.literal refusal at h
  split at h
  · obtain rfl := Except.ok.inj h
    exact .id _
  · obtain rfl := Except.ok.inj h
    exact .id _
  · cases h

theorem reads_of_literal {t : ScalarType} (ht : t ∈ ScalarType.builtins ∨ t.KeepsNonNull)
    {read : Literal → Except FieldError Value} (hread : t.literal = some read) {l : Literal}
    {w : Value} (hl : l.isNull = false) (h : read l = .ok w) : t.Reads w := by
  by_cases hbuiltin : t ∈ ScalarType.builtins
  · simp only [ScalarType.builtins, List.mem_cons, List.not_mem_nil, or_false] at hbuiltin
    rcases hbuiltin with rfl | rfl | rfl | rfl | rfl <;> obtain rfl := Option.some.inj hread
    · exact reads_intLiteral h
    · exact reads_floatLiteral h
    · exact reads_stringLiteral h
    · exact reads_booleanLiteral h
    · exact reads_idLiteral h
  · exact .custom hbuiltin ((ht.resolve_left hbuiltin).literal read l w hread h hl)

theorem reads_ofLiteral {t : ScalarType} (ht : t ∈ ScalarType.builtins ∨ t.KeepsNonNull)
    {scope : Scope} {l : Literal} {w : Value} (hnull : l.isNull = false)
    (hvariable : l.isVariable = false) (h : t.ofLiteral scope l = .ok w) : t.Reads w := by
  unfold ScalarType.ofLiteral at h
  have hresult := mapError_eq_ok h
  split at hresult
  · next read hread =>
    exact reads_of_literal ht hread (Literal.replaceVariables_isNull hnull hvariable) hresult
  · exact reads_of_input ht (Literal.toValue_isNull hnull hvariable) hresult

theorem exists_of_enumInput {t : EnumType} {v : Value} (h : (t.input v).errors = []) :
    ∃ found ∈ t.values.value, (t.input v).value = found.value := by
  unfold EnumType.input at h ⊢
  split at h
  · cases h
  · split at h
    · next found hfound => exact ⟨found, List.mem_of_find?_eq_some hfound, by simp [*, Checked.accepted]⟩
    · cases h

theorem exists_of_enumLiteral {t : EnumType} {l : Literal} {w : Value}
    (h : t.ofLiteral l = .ok w) : ∃ found ∈ t.values.value, w = found.value := by
  unfold EnumType.ofLiteral at h
  split at h
  · split at h
    · next found hfound => exact ⟨found, List.mem_of_find?_eq_some hfound, (Except.ok.inj h).symm⟩
    · cases h
  · cases h

/-! ## Input objects -/

/-- Whether the defaults of the fields of input objects become values of the types of the fields. -/
def Schema.SuitsDefaults (schema : Schema σ) (defaultOf : DefaultCoercion) : Prop :=
  ∀ o, .inputObject o ∈ schema.types → ∀ d ∈ o.fields.value, ∀ default v,
    d.default = some default → defaultOf default d.type = .ok v → schema.Suits d.type v

variable {defaultOf : DefaultCoercion}

/-- An object gathered from the fields of an input object type suits the type when what is given
suits the fields and the rest is omitted, which for a one-of type is all but one of them. -/
theorem suits_gathered (hschema : schema.Sound) (hdefaults : schema.SuitsDefaults defaultOf)
    {name : String} {o : InputObjectType} {given : InputDefinition → Option Value}
    (ho : schema.type? name = some (.inputObject o))
    (hgiven : ∀ d ∈ o.fields.value,
      (∃ v, given d = some v ∧ schema.Suits d.type v) ∨ d.Omitted defaultOf (given d))
    (honeOf : o.isOneOf → ∃ d ∈ o.fields.value, (∃ v, given d = some v ∧ v.isNull = false) ∧
      ∀ d' ∈ o.fields.value, d'.name ≠ d.name → d'.Omitted defaultOf (given d')) :
    schema.Suits (.nonNullNamed name) (.object (gathered (·.name) given o.fields.value)) := by
  have hmem := Schema.mem_of_type? ho
  have hfields := hschema.fields o hmem
  have hkeys := nodup_keys_gathered given hfields
  refine .object rfl ho hkeys ?known ?values ?given ?oneOf
  case known =>
    intro key hkey
    obtain ⟨d, hd, rfl, -⟩ := exists_of_mem_keys_gathered hfields hkey
    exact ⟨d, hd, rfl⟩
  case values =>
    intro d hd v hv
    rw [get?_gathered given hfields hd] at hv
    rcases hgiven d hd with ⟨w, hw, hsuits⟩ | ⟨default, w, hdefault, hw, heq⟩ | ⟨-, -, hnone⟩
    · obtain rfl := Option.some.inj (hw.symm.trans hv)
      exact hsuits
    · obtain rfl := Option.some.inj (heq.symm.trans hv)
      exact hdefaults o hmem d hd default w hdefault hw
    · simp [hnone] at hv
  case given =>
    intro d hd hneeded
    rw [get?_gathered given hfields hd]
    rcases hgiven d hd with ⟨w, hw, -⟩ | ⟨_, w, -, -, hw⟩ | ⟨hdefault, hnull, -⟩
    · simp [hw]
    · simp [hw]
    · simp [hdefault, hnull] at hneeded
  case oneOf =>
    intro h
    obtain ⟨d, hd, ⟨v, hv, hnull⟩, hrest⟩ := honeOf h
    have hget := (get?_gathered given hfields hd).trans hv
    refine ⟨d.name, v, Entries.eq_singleton hkeys (fun key hkey => ?_) hget, hnull⟩
    obtain ⟨d', hd', rfl, hsome⟩ := exists_of_mem_keys_gathered hfields hkey
    by_contra hne
    rcases hrest d' hd' hne with ⟨default, _, hdefault, -⟩ | ⟨-, -, hnone⟩
    · simp [hschema.oneOf o hmem h d' hd'] at hdefault
    · simp [hnone] at hsome

/-! ## External values -/

/-- Whether a value, as any type it is accepted for, suits that type, and is null only if it was. -/
def InputSuits (schema : Schema σ) (defaultOf : DefaultCoercion) (v : Value) : Prop :=
  ∀ t, (inputAs schema defaultOf v t).errors = [] →
    schema.Suits t (inputAs schema defaultOf v t).value ∧
      ((inputAs schema defaultOf v t).value.isNull → v.isNull)

theorem exists_of_oneOfErrors {o : InputObjectType} {fields : Object}
    (h : oneOfErrors o fields = []) : ∃ key v, fields = [(key, v)] ∧ v.isNull = false := by
  unfold oneOfErrors at h
  split at h
  · next key v =>
    refine ⟨key, v, rfl, ?_⟩
    by_contra hnull
    simp [hnull] at h
  · cases h

theorem suits_inputObject (hschema : schema.Sound) (hdefaults : schema.SuitsDefaults defaultOf)
    {name : String} {o : InputObjectType} (ho : schema.type? name = some (.inputObject o))
    {fields : Object} (ih : ∀ key v, (key, v) ∈ fields → InputSuits schema defaultOf v)
    (h : (o.input defaultOf (inputMembers schema defaultOf fields) (.object fields)).errors = []) :
    schema.Suits (.nonNullNamed name)
      (o.input defaultOf (inputMembers schema defaultOf fields) (.object fields)).value := by
  obtain ⟨hread, hknown, honeOf⟩ := (errors_inputObject_eq_nil_iff ..).mp h
  -- What is given for a field is coerced as one of the values that the object has.
  have hmember : ∀ {d : InputDefinition} {member : TypeRef → Checked},
      (inputMembers schema defaultOf fields).get? d.name = some member →
      (member d.type).errors = [] → ∃ v, fields.get? d.name = some v ∧
        schema.Suits d.type (member d.type).value ∧ ((member d.type).value.isNull → v.isNull) := by
    intro d member hget herrors
    rw [get?_inputMembers] at hget
    obtain ⟨v, hv, rfl⟩ := Option.map_eq_some_iff.mp hget
    exact ⟨v, hv, ih _ v (Entries.mem_of_get? hv) d.type herrors⟩
  rw [value_inputObject]
  refine suits_gathered hschema hdefaults ho (fun d hd => ?_) fun h => ?_
  · rcases inputOf_cases (hread d hd) with ⟨member, hget, herrors, hvalue⟩ | ⟨-, homitted⟩
    · obtain ⟨v, -, hsuits, -⟩ := hmember hget herrors
      exact .inl ⟨_, hvalue, hsuits⟩
    · exact .inr homitted
  · obtain ⟨key, v, rfl, hnull⟩ := exists_of_oneOfErrors (honeOf h)
    obtain ⟨d, hd⟩ := Option.isSome_iff_exists.mp (hknown key List.mem_cons_self)
    have hname : d.name = key := by simpa using List.find?_some hd
    subst hname
    refine ⟨d, List.mem_of_find?_eq_some hd, ?_, fun d' hd' hne => ?_⟩
    · rcases inputOf_cases (hread d (List.mem_of_find?_eq_some hd)) with
        ⟨member, hget, herrors, hvalue⟩ | ⟨hnone, -⟩
      · obtain ⟨w, hw, -, hkept⟩ := hmember hget herrors
        rw [Entries.get?_cons, if_pos rfl] at hw
        obtain rfl := Option.some.inj hw
        refine ⟨_, hvalue, ?_⟩
        by_contra hcontra
        simp [hkept (by simpa using hcontra)] at hnull
      · simp [get?_inputMembers, Entries.get?_cons] at hnone
    · rcases inputOf_cases (hread d' hd') with ⟨member, hget, -, -⟩ | ⟨-, homitted⟩
      · simp [get?_inputMembers, Entries.get?_cons, hne] at hget
      · exact homitted

theorem suits_inputNamed (hschema : schema.Sound) (hdefaults : schema.SuitsDefaults defaultOf)
    {v : Value} {members : Entries (TypeRef → Checked)} {name : String} (hv : v.isNull = false)
    (hmembers : ∀ fields, v = .object fields → members = inputMembers schema defaultOf fields ∧
      ∀ key w, (key, w) ∈ fields → InputSuits schema defaultOf w)
    (h : (inputNamed schema defaultOf members v name).errors = []) :
    schema.Suits (.nonNullNamed name) (inputNamed schema defaultOf members v name).value := by
  unfold inputNamed at h ⊢
  cases htype : schema.type? name with
  | none => simp [htype, Checked.refused] at h
  | some found =>
    rw [htype] at h
    cases found with
    | scalar t =>
      cases hread : t.input v with
      | error e => simp [hread, Checked.refused] at h
      | ok w =>
        simp only [hread, Checked.accepted]
        exact .scalar rfl htype (reads_of_input (hschema.scalars t (Schema.mem_of_type? htype)) hv hread)
    | enum t =>
      obtain ⟨found, hfound, hvalue⟩ := exists_of_enumInput h
      dsimp only
      rw [hvalue]
      exact .enum rfl htype hfound (hschema.enums t (Schema.mem_of_type? htype) found hfound)
    | inputObject o =>
      cases v with
      | object fields =>
        obtain ⟨rfl, ih⟩ := hmembers fields rfl
        exact suits_inputObject hschema hdefaults htype ih h
      | _ => simp [InputObjectType.input, Checked.refused] at h
    | _ => simp [Checked.refused] at h

theorem suits_nested_inputNamed {v : Value} {members : Entries (TypeRef → Checked)} {t : TypeRef}
    (h : schema.Suits (.nonNullNamed t.innermost)
      (inputNamed schema defaultOf members v t.innermost).value)
    (herrors : (inputNamed schema defaultOf members v t.innermost).errors = []) :
    schema.Suits t ((inputNamed schema defaultOf members v t.innermost).nested t.listDepth).value ∧
      ((inputNamed schema defaultOf members v t.innermost).nested t.listDepth).value.isNull =
        false := by
  rw [Checked.accepted_of_errors herrors, Checked.nested_accepted]
  exact ⟨h.nested, isNull_nested (h.isNull rfl)⟩

/-- External values become values of the types they are accepted for. -/
theorem suits_inputAs (hschema : schema.Sound) (hdefaults : schema.SuitsDefaults defaultOf)
    (v : Value) : InputSuits schema defaultOf v := by
  induction v using Value.induct with
  | null =>
    intro t h
    unfold inputAs at h ⊢
    split at h
    · cases h
    · next ht =>
      rw [if_neg ht]
      exact ⟨.null (by simpa using ht), fun _ => rfl⟩
  | scalar s =>
    intro t h
    unfold inputAs at h ⊢
    rw [Checked.errors_nested] at h
    have hnamed := suits_inputNamed hschema hdefaults rfl (by simp) h
    obtain ⟨hsuits, hnull⟩ := suits_nested_inputNamed hnamed h
    exact ⟨hsuits, by simp [hnull]⟩
  | list items ih =>
    intro t h
    unfold inputAs at h ⊢
    cases hitem : t.item? with
    | some item =>
      simp only [hitem] at h ⊢
      have herrors := Checked.errors_of_ofItems h
      rw [Checked.ofItems_accepted herrors]
      refine ⟨.list hitem fun w hw => ?_, fun hnull => nomatch hnull⟩
      simp only [inputItems_eq_map, List.map_map, List.mem_map, Function.comp_apply,
        forall_exists_index, and_imp, forall_apply_eq_imp_iff₂] at hw herrors
      obtain ⟨v, hv, rfl⟩ := hw
      exact (ih v hv item (herrors v hv)).1
    | none =>
      simp only [hitem] at h ⊢
      have hnamed := suits_inputNamed hschema hdefaults rfl (by simp) h
      have hnested := suits_nested_inputNamed hnamed h
      rw [listDepth_of_item? hitem] at hnested
      exact ⟨hnested.1, fun hnull => nomatch hnested.2.symm.trans hnull⟩
  | object fields ih =>
    intro t h
    unfold inputAs at h ⊢
    rw [Checked.errors_nested] at h
    have hnamed := suits_inputNamed hschema hdefaults rfl
      (fun _ heq => Value.object.inj heq ▸ ⟨rfl, ih⟩) h
    obtain ⟨hsuits, hnull⟩ := suits_nested_inputNamed hnamed h
    exact ⟨hsuits, by simp [hnull]⟩

end

end GraphQL
