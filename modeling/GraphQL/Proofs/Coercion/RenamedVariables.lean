import Mathlib.Data.List.Find
import Mathlib.Data.Set.Function
import GraphQL.Proofs.Coercion.Substitution

/-! # Renaming the variables of fragments

A literal with other names for its variables is coerced to the same value in a scope that knows the
values by the new names.
-/

namespace GraphQL

variable {σ : Type}

/-! ## Literals with other names for variables -/

namespace Literal

mutual

/-- The literal with other names for its variables. -/
def renamed (vars : String → String) : Literal → Literal
  | .variable name => .variable (vars name)
  | .list items => .list (renamedItems vars items)
  | .object fields => .object (renamedFields vars fields)
  | l => l

def renamedItems (vars : String → String) : List (Located Literal) → List (Located Literal)
  | [] => []
  | ⟨l, span⟩ :: rest => ⟨l.renamed vars, span⟩ :: renamedItems vars rest

def renamedFields (vars : String → String) :
    List (Located String × Located Literal) → List (Located String × Located Literal)
  | [] => []
  | (key, ⟨l, span⟩) :: rest => (key, ⟨l.renamed vars, span⟩) :: renamedFields vars rest

end

mutual

/-- The names of the variables in a literal. -/
def variableNames : Literal → List String
  | .variable name => [name]
  | .list items => namesInItems items
  | .object fields => namesInFields fields
  | _ => []

def namesInItems : List (Located Literal) → List String
  | [] => []
  | ⟨l, _⟩ :: rest => l.variableNames ++ namesInItems rest

def namesInFields : List (Located String × Located Literal) → List String
  | [] => []
  | (_, ⟨l, _⟩) :: rest => l.variableNames ++ namesInFields rest

end

variable {vars : String → String} {scope scope' : Scope}

theorem renamedItems_eq_map (items : List (Located Literal)) :
    renamedItems vars items = items.map (Located.map (renamed vars)) := by
  induction items with
  | nil => rfl
  | cons l items ih => rw [renamedItems, ih, List.map_cons, Located.map]

theorem renamedFields_eq_map (fields : List (Located String × Located Literal)) :
    renamedFields vars fields = fields.map fun f => (f.1, f.2.map (renamed vars)) := by
  induction fields with
  | nil => rfl
  | cons f fields ih => rw [renamedFields, ih, List.map_cons, Located.map]

theorem mem_variableNames_list {items : List (Located Literal)} {l : Located Literal} (hl : l ∈ items)
    {name : String} (h : name ∈ l.item.variableNames) : name ∈ (list items).variableNames := by
  rw [variableNames]
  induction items with
  | nil => cases hl
  | cons first items ih =>
    rw [namesInItems, List.mem_append]
    rcases List.mem_cons.mp hl with rfl | hl
    · exact .inl h
    · exact .inr (ih hl)

theorem mem_variableNames_object {fields : List (Located String × Located Literal)}
    {f : Located String × Located Literal} (hf : f ∈ fields) {name : String}
    (h : name ∈ f.2.item.variableNames) : name ∈ (object fields).variableNames := by
  rw [variableNames]
  induction fields with
  | nil => cases hf
  | cons first fields ih =>
    rw [namesInFields, List.mem_append]
    rcases List.mem_cons.mp hf with rfl | hf
    · exact .inl h
    · exact .inr (ih hf)

/-- Whether a scope gives the variables of a literal, under their new names, the values that another
scope gives them. -/
def Follows (vars : String → String) (scope scope' : Scope) (l : Literal) : Prop :=
  ∀ name ∈ l.variableNames, scope'.get? (vars name) = scope.get? name

theorem Follows.item {items : List (Located Literal)} (h : (list items).Follows vars scope scope') :
    ∀ l ∈ items, l.item.Follows vars scope scope' :=
  fun _ hl name hname => h name (mem_variableNames_list hl hname)

theorem Follows.field {fields : List (Located String × Located Literal)}
    (h : (object fields).Follows vars scope scope') :
    ∀ f ∈ fields, f.2.item.Follows vars scope scope' :=
  fun _ hf name hname => h name (mem_variableNames_object hf hname)

theorem Follows.variable {name : String} (h : (Literal.variable name).Follows vars scope scope') :
    scope'.get? (vars name) = scope.get? name := h name (List.mem_singleton_self name)

theorem isUnset_renamed {l : Literal} (h : l.Follows vars scope scope') :
    (l.renamed vars).isUnset scope' = l.isUnset scope := by
  cases l with
  | «variable» name => rw [renamed, isUnset, Scope.isUnset, h.variable, isUnset, Scope.isUnset]
  | _ => rfl

theorem isNullIn_renamed {l : Literal} (h : l.Follows vars scope scope') :
    (l.renamed vars).isNullIn scope' = l.isNullIn scope := by
  cases l with
  | «variable» name => rw [renamed, isNullIn, h.variable, isNullIn]
  | _ => rfl

theorem filter_renamed {fields : List (Located String × Located Literal)}
    (h : ∀ f ∈ fields, f.2.item.Follows vars scope scope') :
    (fields.map fun f => (f.1, f.2.map (renamed vars))).filter (fun f => !f.2.item.isUnset scope') =
      (fields.filter fun f => !f.2.item.isUnset scope).map fun f => (f.1, f.2.map (renamed vars)) := by
  rw [List.filter_map]
  congr 1
  exact List.filter_congr fun f hf => congrArg (! ·) (isUnset_renamed (h f hf))

theorem toValue_renamed (l : Literal) :
    l.Follows vars scope scope' → (l.renamed vars).toValue scope' = l.toValue scope := by
  induction l using Literal.induct with
  | «variable» name =>
    intro h
    rw [renamed, toValue, h.variable, toValue]
  | list items ih =>
    intro h
    rw [renamed, toValue, renamedItems_eq_map, itemsToValues_eq_map, List.map_map, toValue,
      itemsToValues_eq_map]
    exact congrArg Value.list (List.map_congr_left fun l hl => ih l hl (h.item l hl))
  | object fields ih =>
    intro h
    rw [renamed, toValue, renamedFields_eq_map, fieldsToValues_eq_map, filter_renamed h.field,
      List.map_map, toValue, fieldsToValues_eq_map]
    refine congrArg (fun es => Value.object (Entries.ofList es)) (List.map_congr_left fun f hf => ?_)
    have hf := List.mem_of_mem_filter hf
    exact congrArg (Prod.mk f.1.item) (ih f hf (h.field f hf))
  | _ => exact fun _ => rfl

theorem replaceVariables_renamed (l : Literal) : l.Follows vars scope scope' →
    (l.renamed vars).replaceVariables scope' = l.replaceVariables scope := by
  induction l using Literal.induct with
  | «variable» name =>
    intro h
    rw [renamed, replaceVariables, h.variable, replaceVariables]
  | list items ih =>
    intro h
    rw [renamed, replaceVariables, renamedItems_eq_map, replaceInItems_eq_map, List.map_map,
      replaceVariables, replaceInItems_eq_map]
    exact congrArg Literal.list (List.map_congr_left fun l hl =>
      congrArg (Located.mk · l.span) (ih l hl (h.item l hl)))
  | object fields ih =>
    intro h
    rw [renamed, replaceVariables, renamedFields_eq_map, replaceInFields_eq_map, filter_renamed h.field,
      List.map_map, replaceVariables, replaceInFields_eq_map]
    refine congrArg Literal.object (List.map_congr_left fun f hf => ?_)
    have hf := List.mem_of_mem_filter hf
    exact congrArg (fun l => (f.1, Located.mk l f.2.span)) (ih f hf (h.field f hf))
  | _ => exact fun _ => rfl

end Literal

/-! ## Coercing renamed literals -/

section

variable {ε α : Type}

/-- An attempt without the reason for which it fails. -/
abbrev withoutReason (x : Except ε α) : Except Unit α := x.mapError fun _ => ()

variable {schema : Schema σ} {defaultOf : DefaultCoercion} {vars : String → String}
  {scope scope' : Scope}

theorem ofLiterals_renamed {fields : List (Located String × Located Literal)}
    (h : ∀ f ∈ fields, ∀ t,
      withoutReason (literalAs schema defaultOf scope' (f.2.item.renamed vars) t) =
        withoutReason (literalAs schema defaultOf scope f.2.item t)) (d : InputDefinition) :
    withoutReason (d.ofLiterals defaultOf
        (literalMembers schema defaultOf scope' (Literal.renamedFields vars fields))) =
      withoutReason (d.ofLiterals defaultOf (literalMembers schema defaultOf scope fields)) := by
  have hfields : fieldsByName (Literal.renamedFields vars fields) =
      (fieldsByName fields).map fun e => (e.1, e.2.renamed vars) := by
    rw [Literal.renamedFields_eq_map, fieldsByName, fieldsByName, List.map_map, List.map_map]
    rfl
  unfold InputDefinition.ofLiterals
  rw [get?_literalMembers, get?_literalMembers, hfields, Entries.get?_map]
  cases hget : Entries.get? d.name (fieldsByName fields) with
  | none => rfl
  | some l =>
    obtain ⟨f, hf, -, rfl⟩ := mem_of_get?_fieldsByName hget
    exact mapError_bind_congr (h f hf d.type) fun _ => rfl

theorem fieldsOfLiterals_congr {members members' : Entries (TypeRef → LiteralResult)}
    (h : ∀ d : InputDefinition, withoutReason (d.ofLiterals defaultOf members') =
      withoutReason (d.ofLiterals defaultOf members))
    (definitions : List InputDefinition) (coerced : Object) :
    withoutReason (fieldsOfLiterals defaultOf members' definitions coerced) =
      withoutReason (fieldsOfLiterals defaultOf members definitions coerced) := by
  induction definitions generalizing coerced with
  | nil => rfl
  | cons d definitions ih =>
    refine mapError_bind_congr (h d) fun given => ?_
    cases given <;> exact ih _

theorem itemsOfLiterals_renamed {items : List (Located Literal)} {item : TypeRef}
    (h : ∀ l ∈ items, withoutReason (literalAs schema defaultOf scope' (l.item.renamed vars) item) =
      withoutReason (literalAs schema defaultOf scope l.item item)) :
    withoutReason (itemsOfLiterals item
        (literalItems schema defaultOf scope' (Literal.renamedItems vars items))) =
      withoutReason (itemsOfLiterals item (literalItems schema defaultOf scope items)) := by
  induction items with
  | nil => rfl
  | cons l items ih =>
    obtain ⟨hfirst, hrest⟩ := List.forall_mem_cons.mp h
    refine mapError_bind_congr hfirst fun given => ?_
    cases given with
    | some v => exact mapError_bind_congr (ih hrest) fun _ => rfl
    | none =>
      dsimp only
      split
      · rfl
      · exact mapError_bind_congr (ih hrest) fun _ => rfl

theorem checkOneOf_renamed {o : InputObjectType} {fields : List (Located String × Located Literal)}
    (h : ∀ f ∈ fields, f.2.item.Follows vars scope scope') :
    checkOneOf scope' o (Literal.renamedFields vars fields) = checkOneOf scope o fields := by
  match fields with
  | [] => rfl
  | [(key, field)] =>
    have hnull := Literal.isNullIn_renamed (h _ List.mem_cons_self)
    simp only [Literal.renamedFields, checkOneOf, hnull]
  | _ :: _ :: _ => rfl

theorem objectLiteral_renamed {o : InputObjectType} {fields : List (Located String × Located Literal)}
    (h : ∀ f ∈ fields, f.2.item.Follows vars scope scope')
    (hread : ∀ f ∈ fields, ∀ t,
      withoutReason (literalAs schema defaultOf scope' (f.2.item.renamed vars) t) =
        withoutReason (literalAs schema defaultOf scope f.2.item t)) :
    withoutReason (o.ofLiteral defaultOf scope'
        (literalMembers schema defaultOf scope' (Literal.renamedFields vars fields))
        (.object (Literal.renamedFields vars fields))) =
      withoutReason (o.ofLiteral defaultOf scope (literalMembers schema defaultOf scope fields)
        (.object fields)) := by
  have hunknown : (Literal.renamedFields vars fields).find? (fun f => (o.field? f.1.item).isNone) =
      (fields.find? fun f => (o.field? f.1.item).isNone).map fun f =>
        (f.1, f.2.map (Literal.renamed vars)) := by
    rw [Literal.renamedFields_eq_map, List.find?_map]
    rfl
  have hfields := fieldsOfLiterals_congr (ofLiterals_renamed hread) o.fields.value []
  simp only [InputObjectType.ofLiteral, hunknown, checkOneOf_renamed h]
  cases fields.find? fun f => (o.field? f.1.item).isNone with
  | some f => rfl
  | none =>
    have hobject := mapError_bind_congr hfields fun coerced => (rfl :
      (Except.ok (Value.object coerced)).mapError (fun _ : CoercionError => ()) = _)
    dsimp only [Option.map_none]
    split
    · exact mapError_bind_congr rfl fun _ => hobject
    · exact hobject

theorem literalNamed_renamed {members members' : Entries (TypeRef → LiteralResult)} {l : Literal}
    (h : l.Follows vars scope scope') {name : String}
    (hobject : ∀ o : InputObjectType,
      withoutReason (o.ofLiteral defaultOf scope' members' (l.renamed vars)) =
        withoutReason (o.ofLiteral defaultOf scope members l)) :
    withoutReason (literalNamed schema defaultOf scope' members' (l.renamed vars) name) =
      withoutReason (literalNamed schema defaultOf scope members l name) := by
  unfold literalNamed
  split
  · unfold ScalarType.ofLiteral
    rw [Literal.replaceVariables_renamed l h, Literal.toValue_renamed l h]
  · cases l <;> rfl
  · exact hobject _
  · rfl

/-- Renaming the variables of a literal leaves it to be read as before, but for the messages of
errors. -/
theorem literalAs_renamed (l : Literal) (h : l.Follows vars scope scope') (t : TypeRef) :
    withoutReason (literalAs schema defaultOf scope' (l.renamed vars) t) =
      withoutReason (literalAs schema defaultOf scope l t) := by
  induction l using Literal.induct generalizing t with
  | «variable» name =>
    unfold Literal.renamed literalAs
    rw [h.variable]
  | null => rfl
  | list items ih =>
    have hitems (item : TypeRef) := itemsOfLiterals_renamed fun l hl => ih l hl (h.item l hl) item
    unfold Literal.renamed literalAs
    split
    · exact mapError_map_congr (hitems _) _
    · exact mapError_map_congr (literalNamed_renamed h fun _ => rfl) _
  | object fields ih =>
    unfold Literal.renamed literalAs
    exact mapError_map_congr (literalNamed_renamed h fun o =>
      objectLiteral_renamed h.field fun f hf => ih f hf (h.field f hf)) _
  | _ => exact mapError_map_congr (literalNamed_renamed h fun _ => rfl) _

end

/-! ## Arguments -/

/-- Arguments with other names for themselves and for the variables in their values. -/
def Arguments.renamed (names vars : String → String) (arguments : Arguments) : Arguments :=
  arguments.map (List.map fun a => ⟨a.name.map names, a.value.map (Literal.renamed vars)⟩)

/-- The names of the variables in the values of arguments. -/
def Arguments.variableNames (arguments : Arguments) : List String :=
  arguments.item.flatMap (·.value.item.variableNames)

section

variable {schema : Schema σ} {names vars : String → String} {scope scope' : Scope}

theorem Arguments.get?_renamed {arguments : Arguments} {name : String}
    (h : ∀ a ∈ arguments.item, names a.name.item = names name → a.name.item = name) :
    (arguments.renamed names vars).get? (names name) =
      (arguments.get? name).map (Located.map (Literal.renamed vars)) := by
  have hsame : arguments.item.find? ((fun a : Argument => decide (a.name.item = names name)) ∘
        fun a => ⟨a.name.map names, a.value.map (Literal.renamed vars)⟩) =
      arguments.item.find? fun a => decide (a.name.item = name) :=
    List.find?_congr fun a ha => decide_eq_decide.mpr ⟨h a ha, congrArg names⟩
  rw [Arguments.get?, renamed, Located.map, List.find?_map, hsame, Arguments.get?, Option.map_map,
    Option.map_map]
  rfl

/-- Whether the values of all arguments follow the new names of variables. -/
def Arguments.Follow (vars : String → String) (scope scope' : Scope) (arguments : Option Arguments) :
    Prop :=
  ∀ name ∈ (arguments.map Arguments.variableNames).getD [], scope'.get? (vars name) = scope.get? name

theorem Arguments.Follow.value {arguments : Option Arguments}
    (h : Arguments.Follow vars scope scope' arguments) {name : String} {l : Located Literal}
    (hl : arguments.bind (·.get? name) = some l) : l.item.Follows vars scope scope' := by
  obtain ⟨args, rfl, hl⟩ := Option.bind_eq_some_iff.mp hl
  obtain ⟨a, ha, rfl⟩ := Option.map_eq_some_iff.mp hl
  exact fun name hname => h name (List.mem_flatMap.mpr ⟨a, List.mem_of_find?_eq_some ha, hname⟩)

theorem missingArgument_span (d : InputDefinition) (unset unset' : Option String) (span : Span) :
    (schema.missingArgument d unset span).mapError Located.span =
      (schema.missingArgument d unset' span).mapError Located.span := by
  unfold Schema.missingArgument
  split
  · rfl
  · split
    · cases unset <;> cases unset' <;> rfl
    · rfl

theorem givenArgument_renamed (d : InputDefinition) {l : Located Literal}
    (h : l.item.Follows vars scope scope') :
    (schema.givenArgument scope' d (l.map (Literal.renamed vars))).mapError Located.span =
      (schema.givenArgument scope d l).mapError Located.span := by
  have hread : withoutReason (schema.coerceLiteral scope' (l.item.renamed vars) d.type) =
      withoutReason (schema.coerceLiteral scope l.item d.type) := literalAs_renamed l.item h d.type
  simp only [Schema.givenArgument, Located.map, Literal.isNullIn_renamed h]
  split
  · rfl
  · obtain ⟨e, e', hl, hl', -⟩ | ⟨v, hl, hl'⟩ := cases_of_mapError_eq hread
    · rw [hl, hl']
      rfl
    · rw [hl, hl']

theorem coerceArgument_renamed {arguments : Option Arguments}
    (h : Arguments.Follow vars scope scope' arguments) (span : Span) (d : InputDefinition) :
    (schema.coerceArgument scope' (arguments.map (·.renamed id vars)) span d).mapError Located.span =
      (schema.coerceArgument scope arguments span d).mapError Located.span := by
  have hget : (arguments.map (·.renamed id vars)).bind (·.get? d.name) =
      (arguments.bind (·.get? d.name)).map (Located.map (Literal.renamed vars)) := by
    cases arguments with
    | none => rfl
    | some arguments =>
      exact (Arguments.get?_renamed fun _ _ h => h :
        (arguments.renamed id vars).get? (id d.name) = _)
  unfold Schema.coerceArgument
  rw [hget]
  cases hl : arguments.bind (·.get? d.name) with
  | none => rfl
  | some l =>
    have hl := h.value hl
    obtain ⟨l, lspan⟩ := l
    have hgiven : (schema.givenArgument scope' d _).mapError _ =
        (schema.givenArgument scope d _).mapError _ := givenArgument_renamed d hl
    -- Only a variable can stand for an argument that is not given.
    cases l with
    | «variable» name =>
      have hunset := Literal.isUnset_renamed hl
      simp only [Literal.isUnset, Literal.renamed] at hunset
      simp only [Option.map_some, Located.map, Literal.renamed, hunset]
      split
      · exact missingArgument_span d _ _ lspan
      · exact hgiven
    | _ => exact hgiven

theorem coerceArguments_renamed {arguments : Option Arguments}
    (h : Arguments.Follow vars scope scope' arguments) (span : Span)
    (definitions : List InputDefinition) :
    (schema.coerceArguments scope' (arguments.map (·.renamed id vars)) span definitions).mapError
        Located.span =
      (schema.coerceArguments scope arguments span definitions).mapError Located.span := by
  unfold Schema.coerceArguments
  generalize ([] : Object) = coerced
  induction definitions generalizing coerced with
  | nil => rfl
  | cons d definitions ih =>
    rw [List.foldlM_cons, List.foldlM_cons]
    refine mapError_bind_congr (mapError_bind_congr (coerceArgument_renamed h span d) fun v => ?_) ih
    rfl

theorem literalValue?_renamed {l : Literal} (h : l.Follows vars scope scope') (t : TypeRef) :
    schema.literalValue? scope' (l.renamed vars) t = schema.literalValue? scope l t := by
  have hread : withoutReason (schema.coerceLiteral scope' (l.renamed vars) t) =
      withoutReason (schema.coerceLiteral scope l t) := literalAs_renamed l h t
  unfold Schema.literalValue?
  obtain ⟨e, e', hl, hl', -⟩ | ⟨v, hl, hl'⟩ := cases_of_mapError_eq hread <;> rw [hl, hl']

end

/-! ## Variables of fragments -/

def VariableDefinition.renamed (names : String → String) (d : VariableDefinition) : VariableDefinition :=
  { d with name := d.name.map names }

theorem lookup_map_keys {α : Type} {names : String → String} {key : String} {es : List (String × α)}
    (h : ∀ e ∈ es, names e.1 = names key → e.1 = key) :
    (es.map fun e => (names e.1, e.2)).lookup (names key) = es.lookup key := by
  induction es with
  | nil => rfl
  | cons e es ih =>
    obtain ⟨k, v⟩ := e
    obtain ⟨hfirst, hrest⟩ := List.forall_mem_cons.mp h
    rw [List.map_cons, List.lookup_cons, List.lookup_cons, ih hrest]
    by_cases hkey : key = k
    · simp [hkey]
    · have hother : names key ≠ names k := fun hsame => hkey (hfirst hsame.symm).symm
      rw [beq_eq_false_iff_ne.mpr hkey, beq_eq_false_iff_ne.mpr hother]

section

variable {schema : Schema σ} {names vars : String → String} {scope scope' : Scope} {known : Set String}
  (hnames : Set.InjOn names known) {arguments : Option Arguments}
  (harguments : Arguments.Follow vars scope scope' arguments)
  (hgiven : ∀ args ∈ arguments, ∀ a ∈ args.item, a.name.item ∈ known)

include hnames harguments hgiven

theorem fragmentVariable?_renamed {d : VariableDefinition} (hd : d.name.item ∈ known) :
    schema.fragmentVariable? scope' (arguments.map (·.renamed names vars)) (d.renamed names) =
      schema.fragmentVariable? scope arguments d := by
  have hget : (arguments.map (·.renamed names vars)).bind (·.get? (names d.name.item)) =
      (arguments.bind (·.get? d.name.item)).map (Located.map (Literal.renamed vars)) := by
    cases arguments with
    | none => rfl
    | some args =>
      exact Arguments.get?_renamed fun a ha => hnames (hgiven args rfl a ha) hd
  have hvalue : ((arguments.bind (·.get? d.name.item)).map (Located.map (Literal.renamed vars))).bind
        (fun l => schema.literalValue? scope' l.item d.type.item) =
      (arguments.bind (·.get? d.name.item)).bind
        fun l => schema.literalValue? scope l.item d.type.item := by
    cases hl : arguments.bind (·.get? d.name.item) with
    | none => rfl
    | some l => exact literalValue?_renamed (harguments.value hl) d.type.item
  unfold Schema.fragmentVariable? VariableDefinition.renamed
  dsimp only [Located.map] at hget hvalue ⊢
  rw [hget, hvalue]

variable {definitions : List VariableDefinition} (hdefinitions : ∀ d ∈ definitions, d.name.item ∈ known)

include hdefinitions

theorem coerceFragmentVariables_renamed {name : String} (hname : name ∈ known) :
    let inner := schema.coerceFragmentVariables scope definitions arguments
    let inner' := schema.coerceFragmentVariables scope'
      (definitions.map (VariableDefinition.renamed names)) (arguments.map (·.renamed names vars))
    inner'.declares (names name) = inner.declares name ∧
      inner'.values.get? (names name) = inner.values.get? name := by
  intro inner inner'
  constructor
  · have hmem : (names name ∈ (definitions.map (VariableDefinition.renamed names)).map (·.name.item)) ↔
        name ∈ definitions.map (·.name.item) := by
      simp only [List.map_map, List.mem_map, Function.comp_apply, VariableDefinition.renamed, Located.map]
      exact exists_congr fun d => and_congr_right fun hd => (hnames.eq_iff (hdefinitions d hd) hname)
    unfold FragmentVariables.declares
    rw [Bool.eq_iff_iff, List.contains_iff_mem, List.contains_iff_mem]
    exact hmem
  · have hvalues : (definitions.map (VariableDefinition.renamed names)).filterMap
          (fun d => (schema.fragmentVariable? scope' (arguments.map (·.renamed names vars)) d).map
            fun v => (d.name.item, v)) =
        (definitions.filterMap fun d => (schema.fragmentVariable? scope arguments d).map
          fun v => (d.name.item, v)).map fun e => (names e.1, e.2) := by
      rw [List.filterMap_map, List.map_filterMap]
      refine List.filterMap_congr fun d hd => ?_
      rw [Function.comp_apply, fragmentVariable?_renamed hnames harguments hgiven (hdefinitions d hd),
        Option.map_map]
      rfl
    change Entries.get? _ (Entries.ofList _) = Entries.get? _ (Entries.ofList _)
    rw [hvalues, Entries.get?_ofList, Entries.get?_ofList, ← List.map_reverse]
    refine lookup_map_keys fun e he => ?_
    obtain ⟨d, hd, he⟩ := List.mem_filterMap.mp (List.mem_reverse.mp he)
    obtain ⟨v, -, rfl⟩ := Option.map_eq_some_iff.mp he
    exact hnames (hdefinitions d hd) hname

end

end GraphQL
