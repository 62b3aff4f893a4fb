import GraphQL.Proofs.Execution.Process.Effects
import GraphQL.Proofs.Coercion.Basic

/-! # What a valid schema vouches for

The types that a valid schema names for its fields give outputs, and those that it names for
arguments and input fields take inputs. So no coercion on behalf of the schema ever finds that a
type takes no inputs, however deep in a value, a literal or a default it gets.
-/

namespace GraphQL

variable {σ : Type}

/-! ## The types that a schema refers to -/

/-- The fields of an object or interface. -/
def TypeDefinition.fields : TypeDefinition σ → List (FieldDefinition σ)
  | .object t => t.fields.value
  | .interface t => t.fields.value
  | _ => []

/-- The arguments and input fields of a type. -/
def TypeDefinition.inputs : TypeDefinition σ → List InputDefinition
  | .inputObject t => t.fields.value
  | t => t.fields.flatMap (·.arguments)

namespace Schema

variable (schema : Schema σ)

/-- All arguments and input fields of a schema. -/
def inputs : List InputDefinition :=
  schema.types.flatMap (·.inputs) ++ schema.directives.flatMap (·.arguments)

def takesInput (t : TypeRef) : Bool := (schema.type? t.innermost).any (·.isInput)

def givesOutput (t : TypeRef) : Bool := (schema.type? t.innermost).any (·.isOutput)

variable {schema} {t : TypeRef} {d : TypeDefinition σ}

theorem takesInput_of_problems {place : Coordinate} (h : schema.inputTypeProblems place t = []) :
    schema.takesInput t := by
  unfold inputTypeProblems at h
  unfold takesInput
  split at h
  · cases h
  · next d hd =>
    split at h
    · next hinput => simpa [hd] using hinput
    · cases h

theorem givesOutput_of_problems {place : Coordinate} (h : schema.outputTypeProblems place t = []) :
    schema.givesOutput t := by
  unfold outputTypeProblems at h
  unfold givesOutput
  split at h
  · cases h
  · next d hd =>
    split at h
    · next houtput => simpa [hd] using houtput
    · cases h

theorem takesInput_eq_false (hscalar : ∀ s, schema.type? t.innermost ≠ some (.scalar s))
    (henum : ∀ s, schema.type? t.innermost ≠ some (.enum s))
    (hobject : ∀ s, schema.type? t.innermost ≠ some (.inputObject s)) :
    schema.takesInput t = false := by
  unfold takesInput
  cases htype : schema.type? t.innermost with
  | none => rfl
  | some d =>
    cases d with
    | scalar s => exact (hscalar s htype).elim
    | enum s => exact (henum s htype).elim
    | inputObject s => exact (hobject s htype).elim
    | _ => rfl

theorem field_of_problems {type : String} {fields : List (FieldDefinition σ)}
    (h : schema.fieldsProblems type fields = []) {field : FieldDefinition σ}
    (hfield : field ∈ fields) :
    schema.givesOutput field.type ∧ ∀ a ∈ field.arguments, schema.takesInput a.type := by
  simp only [fieldsProblems, List.append_eq_nil_iff, List.flatMap_eq_nil_iff] at h
  obtain ⟨i, hi⟩ := List.mem_iff_getElem?.mp hfield
  have hproblems := h.2 (field, i) (List.mk_mem_zipIdx_iff_getElem?.mpr hi)
  simp only [fieldProblems, List.append_eq_nil_iff, List.flatMap_eq_nil_iff] at hproblems
  obtain ⟨⟨-, houtput⟩, harguments⟩ := hproblems
  exact ⟨givesOutput_of_problems houtput, fun a ha => takesInput_of_problems (harguments a ha)⟩

theorem typeProblems_of_valid (h : schema.problems = []) (hd : d ∈ schema.types) :
    schema.typeProblems d = [] := by
  simp only [problems, List.append_eq_nil_iff, List.flatMap_eq_nil_iff] at h
  exact h.1.2 d hd

theorem takesInput_of_mem_inputs (h : schema.problems = []) {a : InputDefinition}
    (ha : a ∈ schema.inputs) : schema.takesInput a.type := by
  rcases List.mem_append.mp ha with ha | ha
  · obtain ⟨d, hd, ha⟩ := List.mem_flatMap.mp ha
    have hproblems := typeProblems_of_valid h hd
    cases d with
    | object t =>
      obtain ⟨field, hfield, ha⟩ := List.mem_flatMap.mp ha
      exact (field_of_problems (List.append_eq_nil_iff.mp hproblems).1 hfield).2 a ha
    | interface t =>
      obtain ⟨field, hfield, ha⟩ := List.mem_flatMap.mp ha
      exact (field_of_problems (List.append_eq_nil_iff.mp hproblems).1 hfield).2 a ha
    | inputObject t =>
      have hproblems : schema.inputObjectProblems t = [] := hproblems
      simp only [inputObjectProblems, List.append_eq_nil_iff, List.flatMap_eq_nil_iff] at hproblems
      exact takesInput_of_problems (hproblems.2 a ha).1
    | _ => cases ha
  · obtain ⟨d, hd, ha⟩ := List.mem_flatMap.mp ha
    simp only [problems, List.append_eq_nil_iff, List.flatMap_eq_nil_iff] at h
    have hproblems : schema.directiveProblems d = [] := h.2 d hd
    exact takesInput_of_problems (List.flatMap_eq_nil_iff.mp hproblems a ha)

theorem givesOutput_of_field? (h : schema.problems = []) {object : ObjectType σ}
    (hobject : schema.Owns object) {name : String} {field : FieldDefinition σ}
    (hfield : object.field? name = some field) : schema.givesOutput field.type := by
  have hproblems := typeProblems_of_valid h hobject
  have hmem : field ∈ object.fields.value := List.mem_of_find?_eq_some hfield
  exact (field_of_problems (List.append_eq_nil_iff.mp hproblems).1 hmem).1

theorem mem_inputs_of_field {o : InputObjectType} {name : String} {a : InputDefinition}
    (ho : schema.type? name = some (.inputObject o)) (ha : a ∈ o.fields.value) :
    a ∈ schema.inputs :=
  List.mem_append_left _ (List.mem_flatMap.mpr ⟨_, mem_of_type? ho, ha⟩)

end Schema

/-! ## Blame -/

/-- The name of a type that a problem blames for taking no inputs. -/
def CoercionProblem.blamed? : CoercionProblem → Option String
  | .notInputType name => some name
  | .invalidArgument _ _ problem => problem.blamed?
  | _ => none

/-- The name of a type that was found to take no inputs while a variable was coerced. -/
def VariableProblem.blamed? : VariableProblem → Option String
  | .invalidDefault _ problem => problem.blamed?
  | .invalid _ e => e.problem.blamed?
  | _ => none

/-- Whether a problem about a value of a type blames no other type, and that type only if it takes
no inputs. -/
def Schema.Fair (schema : Schema σ) (t : TypeRef) (problem : CoercionProblem) : Prop :=
  ∀ name, problem.blamed? = some name → name = t.innermost ∧ schema.takesInput t = false

/-- Whether coercing the defaults of input fields blames no type. -/
def Schema.FairDefaults (schema : Schema σ) (defaultOf : DefaultCoercion) : Prop :=
  ∀ d ∈ schema.inputs, ∀ given ∈ d.default, ∀ e,
    defaultOf given d.type = .error e → e.problem.blamed? = none

namespace Schema

variable {schema : Schema σ} {t : TypeRef} {problem : CoercionProblem}

theorem fair_of_none (h : problem.blamed? = none) : schema.Fair t problem :=
  fun _ hname => nomatch h.symm.trans hname

theorem Fair.none (h : schema.Fair t problem) (ht : schema.takesInput t) :
    problem.blamed? = none := by
  cases hblamed : problem.blamed? with
  | none => rfl
  | some name => exact nomatch ht.symm.trans (h name hblamed).2

theorem Fair.of_item (h : schema.Fair t problem) {list : TypeRef} (hitem : list.item? = some t) :
    schema.Fair list problem := by
  cases list <;> cases hitem <;> exact h

end Schema

section

variable {schema : Schema σ} {defaultOf : DefaultCoercion} {scope : Scope} {t : TypeRef}
  (hinputs : ∀ d ∈ schema.inputs, schema.takesInput d.type)
  (hdefaults : schema.FairDefaults defaultOf)

/-! ## External values -/

theorem fair_enumInput {t : EnumType} {v : Value} {e : CoercionError}
    (he : e ∈ (t.input v).errors) : e.problem.blamed? = none := by
  unfold EnumType.input at he
  split at he
  · obtain rfl := List.mem_singleton.mp he
    rfl
  · split at he
    · cases he
    · obtain rfl := List.mem_singleton.mp he
      rfl

include hdefaults in
theorem fair_inputOf {d : InputDefinition} (hd : d ∈ schema.inputs)
    {members : Entries (TypeRef → Checked)}
    (hmembers : ∀ member, members.get? d.name = some member →
      ∀ e ∈ (member d.type).errors, e.problem.blamed? = none)
    {v : Value} {e : CoercionError} (he : e ∈ (d.inputOf defaultOf members v).2) :
    e.problem.blamed? = none := by
  unfold InputDefinition.inputOf at he
  split at he
  · next member hmember =>
    obtain ⟨inner, hinner, rfl⟩ := List.mem_map.mp he
    exact hmembers member hmember inner hinner
  · split at he
    · next given hgiven =>
      split at he
      · cases he
      · next e hrefused =>
        obtain rfl := List.mem_singleton.mp he
        exact hdefaults d hd given hgiven e hrefused
    · split at he
      · obtain rfl := List.mem_singleton.mp he
        rfl
      · cases he

include hdefaults in
theorem fair_inputObject {o : InputObjectType} (ho : ∀ d ∈ o.fields.value, d ∈ schema.inputs)
    {members : Entries (TypeRef → Checked)}
    (hmembers : ∀ d ∈ o.fields.value, ∀ member, members.get? d.name = some member →
      ∀ e ∈ (member d.type).errors, e.problem.blamed? = none)
    {v : Value} {e : CoercionError} (he : e ∈ (o.input defaultOf members v).errors) :
    e.problem.blamed? = none := by
  cases v with
  | object fields =>
    obtain ⟨d, hd, he⟩ | ⟨key, hproblem⟩ | ⟨key, hproblem⟩ | hproblem := mem_errors_inputObject he
    · exact fair_inputOf hdefaults (ho d hd) (hmembers d hd) he
    all_goals rw [hproblem]; rfl
  | _ =>
    obtain rfl := List.mem_singleton.mp he
    rfl

include hinputs hdefaults in
theorem fair_inputNamed {members : Entries (TypeRef → Checked)}
    (hmembers : ∀ key member, members.get? key = some member →
      ∀ t, ∀ e ∈ (member t).errors, schema.Fair t e.problem)
    {v : Value} {e : CoercionError}
    (he : e ∈ (inputNamed schema defaultOf members v t.innermost).errors) :
    schema.Fair t e.problem := by
  unfold inputNamed at he
  split at he
  · split at he
    · cases he
    · obtain rfl := List.mem_singleton.mp he
      exact Schema.fair_of_none rfl
  · exact Schema.fair_of_none (fair_enumInput he)
  · next o ho =>
    have hmem {d : InputDefinition} (hd : d ∈ o.fields.value) := Schema.mem_inputs_of_field ho hd
    refine Schema.fair_of_none (fair_inputObject hdefaults (fun d hd => hmem hd) ?_ he)
    intro d hd member hmember e he
    exact (hmembers d.name member hmember d.type e he).none (hinputs d (hmem hd))
  · next hscalar henum hobject =>
    obtain rfl := List.mem_singleton.mp he
    intro name hname
    obtain rfl := Option.some.inj hname
    exact ⟨rfl, Schema.takesInput_eq_false hscalar henum hobject⟩

include hinputs hdefaults in
theorem fair_inputAs (v : Value) (t : TypeRef) {e : CoercionError}
    (he : e ∈ (inputAs schema defaultOf v t).errors) : schema.Fair t e.problem := by
  induction v using Value.induct generalizing t e with
  | null =>
    unfold inputAs at he
    split at he
    · obtain rfl := List.mem_singleton.mp he
      exact Schema.fair_of_none rfl
    · cases he
  | scalar s =>
    unfold inputAs at he
    rw [Checked.errors_nested] at he
    exact fair_inputNamed hinputs hdefaults (by simp) he
  | list items ih =>
    unfold inputAs at he
    split at he
    · next item hitem =>
      obtain ⟨c, i, hc, inner, hinner, rfl⟩ := Checked.mem_errors_ofItems.mp he
      have hmem := List.mem_of_getElem? hc
      rw [inputItems_eq_map, List.map_map] at hmem
      obtain ⟨v, hv, rfl⟩ := List.mem_map.mp hmem
      exact (ih v hv item hinner).of_item hitem
    · exact fair_inputNamed hinputs hdefaults (by simp) he
  | object fields ih =>
    unfold inputAs at he
    rw [Checked.errors_nested] at he
    refine fair_inputNamed hinputs hdefaults (fun key member hmember t e he => ?_) he
    rw [get?_inputMembers] at hmember
    obtain ⟨v, hv, rfl⟩ := Option.map_eq_some_iff.mp hmember
    exact ih key v (Entries.mem_of_get? hv) t he

/-! ## Literals -/

theorem fair_scalarLiteral {t : ScalarType} {l : Literal} {e : CoercionError}
    (h : t.ofLiteral scope l = .error e) : e.problem.blamed? = none := by
  obtain ⟨_, -, rfl⟩ := mapError_eq_error h
  rfl

theorem fair_enumLiteral {t : EnumType} {l : Literal} {e : CoercionError}
    (h : t.ofLiteral l = .error e) : e.problem.blamed? = none := by
  unfold EnumType.ofLiteral CoercionProblem.refuse at h
  split at h
  · split at h
    · cases h
    · obtain rfl := Except.error.inj h
      rfl
  · obtain rfl := Except.error.inj h
    rfl

theorem fair_checkOneOf {o : InputObjectType} {fields : List (Located String × Located Literal)}
    {e : CoercionError} (h : checkOneOf scope o fields = .error e) : e.problem.blamed? = none := by
  unfold checkOneOf CoercionProblem.refuse at h
  split at h
  · split at h
    · obtain rfl := Except.error.inj h
      rfl
    · cases h
  · obtain rfl := Except.error.inj h
    rfl

include hdefaults in
theorem fair_ofLiterals {d : InputDefinition} (hd : d ∈ schema.inputs)
    {members : Entries (TypeRef → LiteralResult)}
    (hmembers : ∀ member, members.get? d.name = some member →
      ∀ e, member d.type = .error e → e.problem.blamed? = none)
    {e : CoercionError} (h : d.ofLiterals defaultOf members = .error e) :
    e.problem.blamed? = none := by
  unfold InputDefinition.ofLiterals at h
  extract_lets completed at h
  have homitted {given : Option Value} (h : completed given = .error e) :
      e.problem.blamed? = none := by
    dsimp only [completed] at h
    split at h
    · cases h
    · next default hdefault =>
      rcases bind_eq_error h with hrefused | ⟨v, -, h⟩
      · exact hdefaults d hd default hdefault e hrefused
      · cases h
    · split at h
      · obtain rfl := Except.error.inj h
        rfl
      · cases h
  cases hmember : members.get? d.name with
  | none =>
    rw [hmember] at h
    rcases bind_eq_error h with hgiven | ⟨given, -, h⟩
    · cases hgiven
    · exact homitted h
  | some member =>
    rw [hmember] at h
    rcases bind_eq_error h with hgiven | ⟨given, -, h⟩
    · exact hmembers member hmember e hgiven
    · exact homitted h

include hdefaults in
theorem fair_fieldsOfLiterals {members : Entries (TypeRef → LiteralResult)}
    {definitions : List InputDefinition} (hinputs : ∀ d ∈ definitions, d ∈ schema.inputs)
    (hmembers : ∀ d ∈ definitions, ∀ member, members.get? d.name = some member →
      ∀ e, member d.type = .error e → e.problem.blamed? = none)
    {coerced : Object} {e : CoercionError}
    (h : fieldsOfLiterals defaultOf members definitions coerced = .error e) :
    e.problem.blamed? = none := by
  induction definitions generalizing coerced with
  | nil => cases h
  | cons d definitions ih =>
    obtain ⟨hd, hinputs⟩ := List.forall_mem_cons.mp hinputs
    obtain ⟨hmember, hmembers⟩ := List.forall_mem_cons.mp hmembers
    unfold fieldsOfLiterals at h
    rcases bind_eq_error h with hfield | ⟨read, -, h⟩
    · exact fair_ofLiterals hdefaults hd hmember hfield
    · split at h <;> exact ih hinputs hmembers h

include hdefaults in
theorem fair_objectLiteral {o : InputObjectType} (ho : ∀ d ∈ o.fields.value, d ∈ schema.inputs)
    {members : Entries (TypeRef → LiteralResult)}
    (hmembers : ∀ d ∈ o.fields.value, ∀ member, members.get? d.name = some member →
      ∀ e, member d.type = .error e → e.problem.blamed? = none)
    {l : Literal} {e : CoercionError} (h : o.ofLiteral defaultOf scope members l = .error e) :
    e.problem.blamed? = none := by
  have hfields (h : (fieldsOfLiterals defaultOf members o.fields.value [] >>= fun fields =>
      pure (Value.object fields)) = .error e) : e.problem.blamed? = none := by
    rcases bind_eq_error h with h | ⟨_, -, h⟩
    · exact fair_fieldsOfLiterals hdefaults ho hmembers h
    · cases h
  unfold InputObjectType.ofLiteral at h
  split at h
  · split at h
    · obtain rfl := Except.error.inj h
      rfl
    · split at h
      · rcases bind_eq_error h with h | ⟨_, -, h⟩
        · exact fair_checkOneOf h
        · exact hfields h
      · exact hfields h
  · obtain rfl := Except.error.inj h
    rfl

include hinputs hdefaults in
theorem fair_literalNamed {members : Entries (TypeRef → LiteralResult)}
    (hmembers : ∀ key member, members.get? key = some member →
      ∀ t e, member t = .error e → schema.Fair t e.problem)
    {l : Literal} {e : CoercionError}
    (h : literalNamed schema defaultOf scope members l t.innermost = .error e) :
    schema.Fair t e.problem := by
  unfold literalNamed at h
  split at h
  · exact Schema.fair_of_none (fair_scalarLiteral h)
  · exact Schema.fair_of_none (fair_enumLiteral h)
  · next o ho =>
    have hmem {d : InputDefinition} (hd : d ∈ o.fields.value) := Schema.mem_inputs_of_field ho hd
    refine Schema.fair_of_none (fair_objectLiteral hdefaults (fun d hd => hmem hd) ?_ h)
    intro d hd member hmember e he
    exact (hmembers d.name member hmember d.type e he).none (hinputs d (hmem hd))
  · next hscalar henum hobject =>
    obtain rfl := Except.error.inj h
    intro name hname
    obtain rfl := Option.some.inj hname
    exact ⟨rfl, Schema.takesInput_eq_false hscalar henum hobject⟩

theorem fair_itemsOfLiterals {members : List (TypeRef → LiteralResult)}
    (hmembers : ∀ member ∈ members, ∀ e, member t = .error e → schema.Fair t e.problem)
    {e : CoercionError} (h : itemsOfLiterals t members = .error e) : schema.Fair t e.problem := by
  induction members with
  | nil => cases h
  | cons member members ih =>
    obtain ⟨hmember, hmembers⟩ := List.forall_mem_cons.mp hmembers
    unfold itemsOfLiterals at h
    rcases bind_eq_error h with hfirst | ⟨read, -, h⟩
    · exact hmember e hfirst
    · split at h
      · rcases bind_eq_error h with hrest | ⟨_, -, h⟩
        · exact ih hmembers hrest
        · cases h
      · split at h
        · obtain rfl := Except.error.inj h
          exact Schema.fair_of_none rfl
        · rcases bind_eq_error h with hrest | ⟨_, -, h⟩
          · exact ih hmembers hrest
          · cases h

include hinputs hdefaults in
theorem fair_literalAs (l : Literal) (t : TypeRef) {e : CoercionError}
    (h : literalAs schema defaultOf scope l t = .error e) : schema.Fair t e.problem := by
  induction l using Literal.induct generalizing t e with
  | «variable» name =>
    unfold literalAs CoercionProblem.refuse at h
    split at h
    · cases h
    · split at h
      · obtain rfl := Except.error.inj h
        exact Schema.fair_of_none rfl
      · cases h
  | null =>
    unfold literalAs CoercionProblem.refuse at h
    split at h
    · obtain rfl := Except.error.inj h
      exact Schema.fair_of_none rfl
    · cases h
  | list items ih =>
    unfold literalAs at h
    split at h
    · next item hitem =>
      refine (fair_itemsOfLiterals (fun member hmember e he => ?_) (map_eq_error h)).of_item hitem
      rw [literalItems_eq_map] at hmember
      obtain ⟨l, hl, rfl⟩ := List.mem_map.mp hmember
      exact ih l hl item he
    · exact fair_literalNamed hinputs hdefaults (by simp) (map_eq_error h)
  | object fields ih =>
    unfold literalAs at h
    refine fair_literalNamed hinputs hdefaults ?_ (map_eq_error h)
    intro key member hmember t e he
    rw [get?_literalMembers] at hmember
    obtain ⟨l, hl, rfl⟩ := Option.map_eq_some_iff.mp hmember
    obtain ⟨f, hf, -, rfl⟩ := mem_of_get?_fieldsByName hl
    exact ih f hf t he
  | _ =>
    unfold literalAs at h
    exact fair_literalNamed hinputs hdefaults (by simp) (map_eq_error h)

end

/-! ## Defaults -/

namespace Schema

/-- Everything that is wrong with a default that is coerced by a chain of at most `n` more
defaults. Of a value, only one counts in the end. -/
def defaultErrors (schema : Schema σ) (n : Nat) : Default → TypeRef → List CoercionError
  | .value v, t => (inputAs schema (schema.defaultWithin n) v t).errors
  | .literal l, t =>
    match literalAs schema (schema.defaultWithin n) .empty l t with
    | .ok _ => []
    | .error e => [e]

variable {schema : Schema σ}

theorem mem_defaultErrors {n : Nat} {given : Default} {t : TypeRef} {e : CoercionError}
    (h : schema.defaultWithin (n + 1) given t = .error e) : e ∈ schema.defaultErrors n given t := by
  cases given with
  | value v =>
    simp only [defaultWithin] at h
    split at h
    · cases h
    · next hrefusal =>
      obtain rfl := Except.error.inj h
      exact Checked.mem_of_refusal? hrefusal
  | literal l =>
    rcases bind_eq_error h with hread | ⟨_, -, h⟩
    · rw [defaultErrors, hread]
      exact List.mem_singleton_self e
    · cases h

variable (hinputs : ∀ d ∈ schema.inputs, schema.takesInput d.type)

include hinputs

theorem fair_defaultErrors {n : Nat} (hdefaults : schema.FairDefaults (schema.defaultWithin n))
    {given : Default} {t : TypeRef} {e : CoercionError} (he : e ∈ schema.defaultErrors n given t) :
    schema.Fair t e.problem := by
  cases given with
  | value v => exact fair_inputAs hinputs hdefaults v t he
  | literal l =>
    rw [defaultErrors] at he
    split at he
    · cases he
    · next hread =>
      obtain rfl := List.mem_singleton.mp he
      exact fair_literalAs hinputs hdefaults l t hread

/-- However long the chain of defaults may get, no type is blamed. -/
theorem fair_defaultWithin (n : Nat) : schema.FairDefaults (schema.defaultWithin n) := by
  induction n with
  | zero =>
    intro d hd given hgiven e h
    obtain rfl := Except.error.inj h
    rfl
  | succ n ih =>
    intro d hd given hgiven e h
    exact (fair_defaultErrors hinputs ih (mem_defaultErrors h)).none (hinputs d hd)

theorem fair_coerceDefault : schema.FairDefaults schema.coerceDefault :=
  fair_defaultWithin hinputs _

theorem fair_coerceLiteral {scope : Scope} {l : Literal} {t : TypeRef} {e : CoercionError}
    (h : schema.coerceLiteral scope l t = .error e) : schema.Fair t e.problem :=
  fair_literalAs hinputs (fair_coerceDefault hinputs) l t h

/-! ## Variables -/

theorem fair_coerceVariable {values : Object} {d : VariableDefinition}
    {problems : List VariableProblem} (h : schema.coerceVariable values d = .error problems)
    {problem : VariableProblem} (hproblem : problem ∈ problems) : problem.blamed? = none := by
  simp only [coerceVariable] at h
  split at h
  · -- The variable is not of an input type.
    obtain rfl := Except.error.inj h
    obtain rfl := List.mem_singleton.mp hproblem
    rfl
  · next htype =>
    have htype : schema.takesInput d.type.item := by simpa [takesInput] using htype
    split at h
    · -- Its default is used.
      obtain ⟨e, hread, rfl⟩ := mapError_eq_error h
      obtain rfl := List.mem_singleton.mp hproblem
      exact (fair_coerceLiteral hinputs hread).none htype
    · -- It has neither an input nor a default.
      split at h
      · obtain rfl := Except.error.inj h
        obtain rfl := List.mem_singleton.mp hproblem
        rfl
      · cases h
    · -- Its input is used.
      split at h
      · obtain rfl := Except.error.inj h
        obtain rfl := List.mem_singleton.mp hproblem
        rfl
      · split at h
        · cases h
        · next v _ _ _ errors hread =>
          obtain rfl := Except.error.inj h
          obtain ⟨e, he, rfl⟩ := List.mem_map.mp hproblem
          unfold coerceInput Checked.toExcept at hread
          split at hread
          · cases hread
          · obtain rfl := Except.error.inj hread
            exact (fair_inputAs hinputs (fair_coerceDefault hinputs) v _ he).none htype

/-! ## Arguments -/

theorem fair_missingArgument {d : InputDefinition} (hd : d ∈ schema.inputs)
    {unset : Option String} {span : Span} {e : ArgumentError}
    (h : schema.missingArgument d unset span = .error e) : e.item.problem.blamed? = none := by
  unfold missingArgument at h
  split at h
  · next given hgiven =>
    split at h
    · cases h
    · next hread =>
      obtain rfl := Except.error.inj h
      exact fair_coerceDefault hinputs d hd given hgiven _ hread
  · split at h
    · split at h <;> obtain rfl := Except.error.inj h <;> rfl
    · cases h

theorem fair_givenArgument {scope : Scope} {d : InputDefinition} (hd : d ∈ schema.inputs)
    {l : Located Literal} {e : ArgumentError} (h : schema.givenArgument scope d l = .error e) :
    e.item.problem.blamed? = none := by
  unfold givenArgument at h
  split at h
  · obtain rfl := Except.error.inj h
    rfl
  · split at h
    · cases h
    · next hread =>
      obtain rfl := Except.error.inj h
      exact (fair_coerceLiteral hinputs hread).none (hinputs d hd)

theorem fair_coerceArgument {scope : Scope} {arguments : Option Arguments} {span : Span}
    {d : InputDefinition} (hd : d ∈ schema.inputs) {e : ArgumentError}
    (h : schema.coerceArgument scope arguments span d = .error e) :
    e.item.problem.blamed? = none := by
  unfold coerceArgument at h
  split at h
  · exact fair_missingArgument hinputs hd h
  · split at h
    · split at h
      · exact fair_missingArgument hinputs hd h
      · exact fair_givenArgument hinputs hd h
    · exact fair_givenArgument hinputs hd h

theorem fair_coerceArguments {scope : Scope} {arguments : Option Arguments} {span : Span}
    {definitions : List InputDefinition} (hdefinitions : ∀ d ∈ definitions, d ∈ schema.inputs)
    {e : ArgumentError} (h : schema.coerceArguments scope arguments span definitions = .error e) :
    e.item.problem.blamed? = none := by
  unfold coerceArguments at h
  generalize ([] : Object) = coerced at h
  induction definitions generalizing coerced with
  | nil => cases h
  | cons d definitions ih =>
    obtain ⟨hd, hdefinitions⟩ := List.forall_mem_cons.mp hdefinitions
    rw [List.foldlM_cons] at h
    rcases bind_eq_error h with hfirst | ⟨coerced', -, h⟩
    · rcases bind_eq_error hfirst with hread | ⟨read, -, hrest⟩
      · exact fair_coerceArgument hinputs hd hread
      · split at hrest <;> cases hrest
    · exact ih hdefinitions coerced' h

end Schema

/-! ## All coercions -/

/-- Whether no coercion on behalf of a schema finds that a type takes no inputs. -/
structure Schema.BlamesNoType (schema : Schema σ) : Prop where
  ofVariables : ∀ values d problems, schema.coerceVariable values d = .error problems →
    ∀ problem ∈ problems, problem.blamed? = none
  ofFields : ∀ t ∈ schema.types, ∀ field ∈ t.fields, ∀ scope arguments span e,
    schema.coerceArguments scope arguments span field.arguments = .error e →
      e.item.problem.blamed? = none
  ofDirectives : ∀ d ∈ schema.directives, ∀ scope node e,
    schema.coerceDirective scope d node = .error e → e.item.problem.blamed? = none
  /-- The errors of defaults that are used by other defaults are among these. -/
  ofDefaults : ∀ d ∈ schema.inputs, ∀ given ∈ d.default,
    ∀ n, ∀ e ∈ schema.defaultErrors n given d.type, e.problem.blamed? = none
  /-- A literal that is given to a variable of a fragment may be of any declared type. -/
  ofFragmentVariables : ∀ scope l (t : TypeRef) e, schema.coerceLiteral scope l t = .error e →
    ∀ name, e.problem.blamed? = some name → name = t.innermost ∧ schema.takesInput t = false

theorem blamesNoType_of_valid {schema : Schema σ} (h : schema.problems = []) :
    schema.BlamesNoType := by
  have hinputs : ∀ d ∈ schema.inputs, schema.takesInput d.type := fun d hd =>
    Schema.takesInput_of_mem_inputs h hd
  refine ⟨?_, ?_, ?_, ?_, ?_⟩
  · exact fun values d problems hd problem => Schema.fair_coerceVariable hinputs hd
  · intro t ht field hfield scope arguments span e
    refine Schema.fair_coerceArguments hinputs fun d hd => ?_
    refine List.mem_append_left _ (List.mem_flatMap.mpr ⟨t, ht, ?_⟩)
    cases t with
    | object o => exact List.mem_flatMap.mpr ⟨field, hfield, hd⟩
    | interface i => exact List.mem_flatMap.mpr ⟨field, hfield, hd⟩
    | _ => cases hfield
  · intro d hd scope node e
    refine Schema.fair_coerceArguments hinputs fun a ha => ?_
    exact List.mem_append_right _ (List.mem_flatMap.mpr ⟨d, hd, ha⟩)
  · intro d hd given _ n e he
    have hdefaults := Schema.fair_defaultWithin hinputs n
    exact (Schema.fair_defaultErrors hinputs hdefaults he).none (hinputs d hd)
  · exact fun scope l t e he => Schema.fair_coerceLiteral hinputs he

end GraphQL
