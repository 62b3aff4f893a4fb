import GraphQL.Proofs.Coercion.Basic
import GraphQL.Proofs.Lexeme.Tokens

/-! # The limit of variable errors

The limit only cuts off what is reported. Whatever it is, the errors are the first ones of those
that there are without a limit, and the coerced variables do not depend on it.
-/

namespace GraphQL

variable {σ : Type} {schema : Schema σ} {inputs coerced : Object} {limit : Nat}
  {definitions : List VariableDefinition} {reported errors : List ExecutionError}

/-! ## Errors -/

/-- The errors up to the limit, and that there were more. -/
theorem reportWithin_eq (h : reported.length ≤ limit) :
    reportWithin limit reported errors =
      if limit < (reported ++ errors).length then
        .error ((reported ++ errors).take limit ++ [tooManyErrors])
      else .ok (reported ++ errors) := by
  induction errors generalizing reported with
  | nil => rw [List.append_nil, reportWithin, if_neg (Nat.not_lt.mpr h)]
  | cons e errors ih =>
    unfold reportWithin
    have lengths : (reported ++ e :: errors).length = reported.length + errors.length + 1 := by
      simp only [List.length_append, List.length_cons]
      omega
    split
    case isTrue full =>
      have exact : reported.length = limit := Nat.le_antisymm h full
      rw [if_pos (by omega), ← exact, List.take_left]
    case isFalse room =>
      rw [ih (by rw [List.length_append, List.length_singleton]; omega), List.append_assoc]
      rfl

namespace Schema

/-- What is wrong with one variable. -/
def variableErrors (schema : Schema σ) (inputs : Object) (d : VariableDefinition) :
    List ExecutionError :=
  match schema.coerceVariable inputs d with
  | .ok _ => []
  | .error problems => problems.map d.error

/-- The value of a variable, if it has one and nothing is wrong with it. -/
def variableValue? (schema : Schema σ) (inputs : Object) (d : VariableDefinition) : Option Value :=
  (schema.coerceVariable inputs d).toOption.join

theorem variableErrors_of_ok {d : VariableDefinition} {read : Option Value}
    (h : schema.coerceVariable inputs d = .ok read) : schema.variableErrors inputs d = [] := by
  rw [variableErrors, h]

theorem variableErrors_of_error {d : VariableDefinition} {problems : List VariableProblem}
    (h : schema.coerceVariable inputs d = .error problems) :
    schema.variableErrors inputs d = problems.map d.error := by
  rw [variableErrors, h]

/-- What there is with no limit, cut off at the limit. -/
def cutAt (limit : Nat) (errors : List ExecutionError) (coerced : Object) :
    Except (List ExecutionError) Object :=
  if limit < errors.length then .error (errors.take limit ++ [tooManyErrors])
  else if errors.isEmpty then .ok coerced
  else .error errors

/-- The variables with a value, added one after the other. -/
def addVariables (schema : Schema σ) (inputs : Object) (definitions : List VariableDefinition)
    (coerced : Object) : Object :=
  (definitions.filterMap fun d =>
    (schema.variableValue? inputs d).map fun v => (d.name.item, v)).foldl
      (fun es (k, v) => Entries.insert k v es) coerced

theorem addVariables_of_none {d : VariableDefinition} (h : schema.variableValue? inputs d = none) :
    schema.addVariables inputs (d :: definitions) coerced =
      schema.addVariables inputs definitions coerced := by
  rw [addVariables, List.filterMap_cons_none (by rw [h]; rfl), ← addVariables]

theorem addVariables_of_some {d : VariableDefinition} {v : Value}
    (h : schema.variableValue? inputs d = some v) :
    schema.addVariables inputs (d :: definitions) coerced =
      schema.addVariables inputs definitions (coerced.insert d.name.item v) := by
  rw [addVariables, List.filterMap_cons_some (by rw [h]; rfl), List.foldl_cons, ← addVariables]

theorem coerceVariablesFrom_eq (h : reported.length ≤ limit) :
    schema.coerceVariablesFrom inputs limit definitions coerced reported =
      cutAt limit (reported ++ definitions.flatMap (schema.variableErrors inputs))
        (schema.addVariables inputs definitions coerced) := by
  -- Induction on the definitions: what was reported before stays the front of all errors.
  induction definitions generalizing coerced reported with
  | nil =>
    rw [coerceVariablesFrom, List.flatMap_nil, List.append_nil, cutAt, if_neg (Nat.not_lt.mpr h)]
    rfl
  | cons d definitions ih =>
    rw [coerceVariablesFrom, List.flatMap_cons]
    cases hd : schema.coerceVariable inputs d with
    | ok read =>
      have hvalue : schema.variableValue? inputs d = read := by rw [variableValue?, hd]; rfl
      rw [variableErrors_of_ok hd, List.nil_append]
      cases read with
      | none => rw [addVariables_of_none hvalue, ← ih h]
      | some v => rw [addVariables_of_some hvalue, ← ih h]
    | error problems =>
      have hvalue : schema.variableValue? inputs d = none := by rw [variableValue?, hd]; rfl
      rw [variableErrors_of_error hd, ← List.append_assoc, addVariables_of_none hvalue]
      dsimp only
      rw [reportWithin_eq h]
      by_cases full : limit < (reported ++ problems.map d.error).length
      · rw [if_pos full, cutAt, if_pos (by rw [List.length_append]; omega),
          List.take_append_of_le_length (Nat.le_of_lt full)]
      · rw [if_neg full, ← ih (Nat.not_lt.mp full)]

theorem coerceVariables_eq (schema : Schema σ) (definitions : List VariableDefinition)
    (inputs : Object) (limit : Nat) :
    schema.coerceVariables definitions inputs limit =
      cutAt limit (definitions.flatMap (schema.variableErrors inputs))
        (gathered (·.name.item) (schema.variableValue? inputs) definitions) :=
  coerceVariablesFrom_eq (Nat.zero_le limit)

theorem coerceVariables_ne_nil
    (h : schema.coerceVariables definitions inputs limit = .error errors) : errors ≠ [] := by
  rw [coerceVariables_eq] at h
  unfold cutAt at h
  split at h
  · obtain rfl := Except.error.inj h
    simp
  · split at h
    · cases h
    · next hne =>
      obtain rfl := Except.error.inj h
      simpa using hne

theorem exists_of_variableValue? {d : VariableDefinition} {v : Value}
    (h : schema.variableValue? inputs d = some v) :
    schema.coerceVariable inputs d = .ok (some v) := by
  obtain ⟨read, hread, rfl⟩ : ∃ read, (schema.coerceVariable inputs d).toOption = some read ∧
      read = some v := by simpa [variableValue?, Option.join_eq_some_iff] using h
  exact toOption_eq_some hread

theorem exists_of_coerceVariables
    (h : schema.coerceVariables definitions inputs limit = .ok coerced) {name : String} {v : Value}
    (hv : coerced.get? name = some v) :
    ∃ d ∈ definitions, d.name.item = name ∧ schema.coerceVariable inputs d = .ok (some v) := by
  rw [coerceVariables_eq] at h
  unfold cutAt at h
  split at h
  · cases h
  · split at h
    · obtain rfl := Except.ok.inj h
      obtain ⟨d, hd, hname, hvalue⟩ := exists_of_get?_gathered hv
      exact ⟨d, hd, hname, exists_of_variableValue? hvalue⟩
    · cases h

end Schema

/-! ## Values -/

theorem Literal.isVariable_of_isUnset {scope : Scope} {l : Literal} (h : l.isUnset scope) :
    l.isVariable := by
  cases l with
  | «variable» name => rfl
  | _ => cases h

namespace Schema

theorem coerceVariable_ne_nil {d : VariableDefinition} {problems : List VariableProblem}
    (h : schema.coerceVariable inputs d = .error problems) : problems ≠ [] := by
  unfold coerceVariable at h
  dsimp only at h
  split at h
  · cases h
    simp
  · split at h
    · obtain ⟨e, -, rfl⟩ := mapError_eq_error h
      simp
    · split at h <;> cases h
      simp
    · split at h
      · cases h
        simp
      · split at h
        · cases h
        · next es hes =>
          cases h
          simpa using (Checked.toExcept_eq_error.mp hes).2

theorem coerceVariable_cases {d : VariableDefinition} {read : Option Value}
    (hdefault : ∀ l, d.default = some l → l.item.isVariable = false)
    (h : schema.coerceVariable inputs d = .ok read) :
    ((inputs.get? d.name.item).isSome || d.default.isSome) = read.isSome ∧
      (read = none → d.type.item.isNonNull = false ∧ d.default = none) := by
  unfold coerceVariable at h
  dsimp only at h
  split at h
  · cases h
  · split at h
    case h_1 l hgiven hl =>
      -- No input, but a default; a constant literal is not unset.
      cases read with
      | some v => simp [hl]
      | none =>
        have unset := isUnset_of_literalAs (mapError_eq_ok h)
        have isVariable := Literal.isVariable_of_isUnset unset
        rw [hdefault l hl] at isVariable
        cases isVariable
    case h_2 hgiven hl =>
      -- Neither an input nor a default.
      split at h
      · cases h
      · next hnull =>
        cases h
        simp_all
    case h_3 v hgiven =>
      -- An input.
      split at h
      · cases h
      · split at h <;> cases h
        simp [hgiven]

theorem exists_of_variableErrors {d : VariableDefinition}
    (h : schema.variableErrors inputs d = []) :
    schema.coerceVariable inputs d = .ok (schema.variableValue? inputs d) := by
  cases hd : schema.coerceVariable inputs d with
  | ok read => rw [variableValue?, hd]; rfl
  | error problems =>
    rw [variableErrors_of_error hd, List.map_eq_nil_iff] at h
    exact absurd h (coerceVariable_ne_nil hd)

theorem keys_gathered_variables
    (hdefaults : ∀ d ∈ definitions, ∀ l, d.default = some l → l.item.isVariable = false)
    (herrors : ∀ d ∈ definitions, schema.variableErrors inputs d = []) :
    (gathered (·.name.item) (schema.variableValue? inputs) definitions).keys =
      ((definitions.filter fun d => (inputs.get? d.name.item).isSome || d.default.isSome).map
        (·.name.item)).eraseDups := by
  rw [Entries.keys, gathered, Entries.map_fst_ofList, map_fst_pieces]
  congr 2
  refine List.filter_congr fun d hd => ?_
  exact (coerceVariable_cases (hdefaults d hd) (exists_of_variableErrors (herrors d hd))).1.symm

end Schema

/-! ## Defaults of documents -/

namespace Grammar

theorem Many.exists_of_mem {α : Type} {rule : Production α} {tokens : List Token} {trees : List α}
    (h : Many rule tokens trees) {tree : α} (hmem : tree ∈ trees) : ∃ used, rule used tree := by
  induction h with
  | nil => cases hmem
  | @cons first _ _ _ hfirst _ ih =>
    rcases List.mem_cons.mp hmem with rfl | hmem
    · exact ⟨first, hfirst⟩
    · exact ih hmem

theorem VariableDefinition.isVariable_default {tokens : List Token}
    {d : GraphQL.VariableDefinition} (h : Grammar.VariableDefinition tokens d)
    {l : Located GraphQL.Literal} (hl : d.default = some l) : l.item.isVariable = false := by
  obtain ⟨-, hdefault, -⟩ := h
  cases hdefault with
  | none => cases hl
  | some hdefault =>
    cases hl
    obtain ⟨hliteral⟩ := hdefault
    cases hliteral with
    | «variable» hconst => cases hconst
    | _ => rfl

theorem Definition.exists_of_variableList {tokens : List Token} {o : Operation}
    (h : Grammar.Definition tokens (.operation o)) {d : GraphQL.VariableDefinition}
    (hd : d ∈ o.variableList) : ∃ used, Grammar.VariableDefinition used d := by
  cases h with
  | shorthand => cases hd
  | operation _ hdeclared =>
    cases hdeclared with
    | none => cases hd
    | some hdeclared =>
      obtain ⟨hall⟩ := hdeclared
      exact hall.many.exists_of_mem hd

end Grammar

theorem Literal.isVariable_bare (l : Literal) : l.bare.isVariable = l.isVariable := by
  cases l <;> rfl

theorem Operation.variableList_bare (o : Operation) :
    o.bare.variableList = o.variableList.map VariableDefinition.bare := by
  obtain ⟨_, _, _, declared, _, _⟩ := o
  cases declared <;> rfl

theorem isVariable_default_of_read {source : String} {document : Document} {o : Operation}
    {d : VariableDefinition} {l : Located Literal} (h : Document.read source = .ok document)
    (ho : .operation o ∈ document) (hd : d ∈ o.variableList) (hl : d.default = some l) :
    l.item.isVariable = false := by
  obtain ⟨⟨document', rest⟩, hrun, rfl⟩ := map_eq_ok h
  unfold Read.run at hrun
  dsimp only at hrun ho
  split at hrun
  · cases hrun
  next hlexed =>
    obtain ⟨used, -, -, hderived⟩ := (@Read.document_reads Read.any _).ok
      (Lexeme.ended_read hlexed) (Nat.le_refl _) (fun _ _ => trivial) hrun
    obtain ⟨_, hdefinition⟩ := hderived.many.exists_of_mem (List.mem_map_of_mem ho)
    have hbare : d.bare ∈ o.bare.variableList := by
      rw [Operation.variableList_bare]
      exact List.mem_map_of_mem hd
    obtain ⟨_, hvariable⟩ := Grammar.Definition.exists_of_variableList hdefinition hbare
    have hdefault : d.bare.default = some (.nowhere l.item.bare) := by
      rw [VariableDefinition.bare, hl]
      rfl
    rw [← Literal.isVariable_bare]
    exact hvariable.isVariable_default hdefault

/-! ## The limit -/

namespace Schema

/-- Below the limit nothing depends on it: there are errors, or else the variables that were given
or have a default, in the order of their definitions. At the limit the first errors are followed by
one that says that there are more. The defaults that a source can hold are no variables. -/
theorem coerceVariables_limited (schema : Schema σ) (definitions : List VariableDefinition)
    (inputs : Object) :
    ∃ errors coerced,
      (∀ limit, errors.length ≤ limit → schema.coerceVariables definitions inputs limit =
        if errors.isEmpty then .ok coerced else .error errors) ∧
      (∀ limit, limit < errors.length → schema.coerceVariables definitions inputs limit =
        .error (errors.take limit ++ [tooManyErrors])) ∧
      (errors = [] →
        (∀ name v, coerced.get? name = some v → ∃ d ∈ definitions, d.name.item = name ∧
          schema.coerceVariable inputs d = .ok (some v)) ∧
        ((∀ d ∈ definitions, ∀ l, d.default = some l → l.item.isVariable = false) →
          coerced.keys = ((definitions.filter fun d =>
            (inputs.get? d.name.item).isSome || d.default.isSome).map (·.name.item)).eraseDups ∧
          ∀ d ∈ definitions, d.name.item ∉ coerced.keys →
            d.type.item.isNonNull = false ∧ d.default = none)) ∧
      ∀ source document o, Document.read source = .ok document → .operation o ∈ document →
        ∀ d ∈ o.variableList, ∀ l, d.default = some l → l.item.isVariable = false := by
  refine ⟨definitions.flatMap (schema.variableErrors inputs),
    gathered (·.name.item) (schema.variableValue? inputs) definitions, fun limit hle => ?_,
    fun limit hlt => ?_, fun hnone => ⟨fun name v hv => ?_, fun hdefaults => ?_⟩,
    fun source document o hread ho d hd l => isVariable_default_of_read hread ho hd⟩
  · rw [coerceVariables_eq, cutAt, if_neg (Nat.not_lt.mpr hle)]
  · rw [coerceVariables_eq, cutAt, if_pos hlt]
  · obtain ⟨d, hd, hname, hvalue⟩ := exists_of_get?_gathered hv
    exact ⟨d, hd, hname, exists_of_variableValue? hvalue⟩
  · have herrors := List.flatMap_eq_nil_iff.mp hnone
    have hkeys := keys_gathered_variables hdefaults herrors
    refine ⟨hkeys, fun d hd habsent => ?_⟩
    obtain ⟨hsome, hnothing⟩ :=
      coerceVariable_cases (hdefaults d hd) (exists_of_variableErrors (herrors d hd))
    rw [hkeys, List.mem_eraseDups, List.mem_map] at habsent
    refine hnothing (Option.not_isSome_iff_eq_none.mp fun hvalue => habsent ⟨d, ?_, rfl⟩)
    exact List.mem_filter.mpr ⟨hd, hsome.trans hvalue⟩

/-- A variable of the type `Int!`. -/
def sampleNeeded (name : String) : VariableDefinition :=
  ⟨.nowhere name, .nowhere (.nonNullNamed "Int"), none, []⟩

example :
    ((sampleInputs : Schema Unit).coerceVariables [sampleNeeded "a", sampleNeeded "b"] [] 1).mapError
      (·.map (·.message)) =
    .error ["Variable \"$a\" of required type \"Int!\" was not provided.", tooManyErrors.message] := by
  rfl

end Schema

end GraphQL
