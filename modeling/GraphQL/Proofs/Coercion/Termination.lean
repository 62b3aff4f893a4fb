import GraphQL.Proofs.Coercion.Basic
import GraphQL.Proofs.Execution.Collection.Inlining

/-! # Coercing comes to an end

Coercing an item or a field of a value goes on with less than the value. For a field that is left out
it goes on with the default of the field, which may be anything, and may leave out fields in turn. So
coercing ends where no default needs itself, directly or through the defaults that it needs.
-/

namespace GraphQL

variable {σ : Type}

/-! ## Attempts that end -/

/-- Whether coercing ended, well or badly. -/
def Concludes {α : Type} (r : Except CoercionError α) : Prop :=
  ∀ e, r = .error e → e.isEndless = false

/-- Whether coercing in two ways ended with the same. -/
structure ConcludesAs {α : Type} (r r' : Except CoercionError α) : Prop where
  same : r = r'
  concludes : Concludes r

namespace ConcludesAs

variable {α β : Type}

theorem ok (a : α) : ConcludesAs (.ok a) (.ok a) := ⟨rfl, fun _ h => nomatch h⟩

theorem error {e : CoercionError} (h : e.isEndless = false) :
    ConcludesAs (.error e : Except CoercionError α) (.error e) := by
  refine ⟨rfl, fun e' he => ?_⟩
  obtain rfl := Except.error.inj he
  exact h

theorem refuse {problem : CoercionProblem} (h : problem.isEndless = false) :
    ConcludesAs (problem.refuse : Except CoercionError α) problem.refuse := error h

theorem map {r r' : Except CoercionError α} (h : ConcludesAs r r') (f : α → β) :
    ConcludesAs (r.map f) (r'.map f) :=
  ⟨congrArg (·.map f) h.same, fun e he => h.concludes e (map_eq_error he)⟩

theorem bind {r r' : Except CoercionError α} {f f' : α → Except CoercionError β}
    (h : ConcludesAs r r') (hf : ∀ a, r = .ok a → ConcludesAs (f a) (f' a)) :
    ConcludesAs (r >>= f) (r' >>= f') := by
  obtain ⟨rfl, hconcludes⟩ := h
  cases r with
  | error e => exact ⟨rfl, fun e' he => hconcludes e' (congrArg Except.error (Except.error.inj he))⟩
  | ok a => exact hf a rfl

end ConcludesAs

namespace Checked

/-- Whether checking in two ways ended with the same. -/
structure ConcludesAs (c c' : Checked) : Prop where
  same : c = c'
  concludes : ∀ e ∈ c.errors, e.isEndless = false

theorem concludesAs_accepted (v : Value) : (accepted v).ConcludesAs (accepted v) :=
  ⟨rfl, fun _ h => nomatch h⟩

theorem concludesAs_refused {problem : CoercionProblem} {v : Value} (h : problem.isEndless = false) :
    (refused problem v).ConcludesAs (refused problem v) := by
  refine ⟨rfl, fun e he => ?_⟩
  obtain rfl := List.mem_singleton.mp he
  exact h

theorem ConcludesAs.nested {c c' : Checked} (h : c.ConcludesAs c') (n : Nat) :
    (c.nested n).ConcludesAs (c'.nested n) := by
  obtain ⟨rfl, hconcludes⟩ := h
  exact ⟨rfl, by rwa [errors_nested]⟩

theorem concludesAs_ofItems {α : Type} {as : List α} {check check' : α → Checked}
    (h : ∀ a ∈ as, (check a).ConcludesAs (check' a)) :
    (ofItems (as.map check)).ConcludesAs (ofItems (as.map check')) := by
  refine ⟨congrArg ofItems (List.map_congr_left fun a ha => (h a ha).same), fun e he => ?_⟩
  obtain ⟨c, i, hc, inner, hinner, rfl⟩ := mem_errors_ofItems.mp he
  obtain ⟨a, ha, rfl⟩ := List.mem_map.mp (List.mem_of_getElem? hc)
  exact (h a ha).concludes inner hinner

end Checked

/-! ## What a default needs -/

/-- A default and the type of what it is the default of. -/
structure TypedDefault where
  given : Default
  type : TypeRef

def InputDefinition.typedDefault? (d : InputDefinition) : Option TypedDefault :=
  d.default.map fun given => { given, type := d.type }

namespace Schema

variable (schema : Schema σ)

/-- The defaults that are coerced when a value is: those of the fields that are left out by the
value or by one inside of it. -/
inductive ValueNeeds : Value → TypeRef → TypedDefault → Prop
  | item {items v t item need} (ht : t.item? = some item) (hv : v ∈ items)
    (h : ValueNeeds v item need) : ValueNeeds (.list items) t need
  | given {fields t o d v need} (ho : schema.inputObject? t.innermost = some o)
    (hd : d ∈ o.fields.value) (hv : Entries.get? d.name fields = some v)
    (h : ValueNeeds v d.type need) : ValueNeeds (.object fields) t need
  | omitted {fields t o d need} (ho : schema.inputObject? t.innermost = some o)
    (hd : d ∈ o.fields.value) (hnone : Entries.get? d.name fields = none)
    (hneed : d.typedDefault? = some need) : ValueNeeds (.object fields) t need

/-- The defaults that may be coerced when a literal is. A variable without a value leaves its field
out. -/
inductive LiteralNeeds (scope : Scope) : Literal → TypeRef → TypedDefault → Prop
  | item {items l t item need} (ht : t.item? = some item) (hl : l ∈ items)
    (h : LiteralNeeds scope l.item item need) : LiteralNeeds scope (.list items) t need
  | given {fields t o d l need} (ho : schema.inputObject? t.innermost = some o)
    (hd : d ∈ o.fields.value) (hl : Entries.get? d.name (fieldsByName fields) = some l)
    (h : LiteralNeeds scope l d.type need) : LiteralNeeds scope (.object fields) t need
  | omitted {fields t o d need} (ho : schema.inputObject? t.innermost = some o)
    (hd : d ∈ o.fields.value)
    (hunset : ∀ l, Entries.get? d.name (fieldsByName fields) = some l → l.isUnset scope)
    (hneed : d.typedDefault? = some need) : LiteralNeeds scope (.object fields) t need

/-- The defaults that may be coerced when a default is. -/
inductive Needs : TypedDefault → TypedDefault → Prop
  | value {v t need} (h : schema.ValueNeeds v t need) : Needs ⟨.value v, t⟩ need
  | literal {l t need} (h : schema.LiteralNeeds .empty l t need) : Needs ⟨.literal l, t⟩ need

/-- The defaults that may be coerced when something is as a value of a type. -/
inductive TypeNeeds : TypeRef → TypedDefault → Prop
  | item {t item need} (ht : t.item? = some item) (h : TypeNeeds item need) : TypeNeeds t need
  | given {t o d need} (ho : schema.inputObject? t.innermost = some o) (hd : d ∈ o.fields.value)
    (h : TypeNeeds d.type need) : TypeNeeds t need
  | omitted {t o d need} (ho : schema.inputObject? t.innermost = some o) (hd : d ∈ o.fields.value)
    (hneed : d.typedDefault? = some need) : TypeNeeds t need

/-- The defaults of the fields of all input objects. -/
def fieldDefaults : List TypedDefault := schema.types.flatMap fun
  | .inputObject o => o.fields.value.filterMap (·.typedDefault?)
  | _ => []

variable {schema}

theorem ValueNeeds.ofType {v : Value} {t : TypeRef} {need : TypedDefault}
    (h : schema.ValueNeeds v t need) : schema.TypeNeeds t need := by
  induction h with
  | item ht _ _ ih => exact .item ht ih
  | given ho hd _ _ ih => exact .given ho hd ih
  | omitted ho hd _ hneed => exact .omitted ho hd hneed

theorem LiteralNeeds.ofType {scope : Scope} {l : Literal} {t : TypeRef} {need : TypedDefault}
    (h : schema.LiteralNeeds scope l t need) : schema.TypeNeeds t need := by
  induction h with
  | item ht _ _ ih => exact .item ht ih
  | given ho hd _ _ ih => exact .given ho hd ih
  | omitted ho hd _ hneed => exact .omitted ho hd hneed

theorem Needs.ofType {d need : TypedDefault} (h : schema.Needs d need) :
    schema.TypeNeeds d.type need := by
  cases h with
  | value h => exact h.ofType
  | literal h => exact h.ofType

theorem type?_of_inputObject? {name : String} {o : InputObjectType}
    (h : schema.inputObject? name = some o) : schema.type? name = some (.inputObject o) := by
  unfold inputObject? at h
  split at h
  · next ho =>
    obtain rfl := Option.some.inj h
    exact ho
  · cases h

theorem TypeNeeds.mem_fieldDefaults {t : TypeRef} {need : TypedDefault}
    (h : schema.TypeNeeds t need) : need ∈ schema.fieldDefaults := by
  induction h with
  | item _ _ ih | given _ _ _ ih => exact ih
  | omitted ho hd hneed =>
    have ho := mem_of_type? (type?_of_inputObject? ho)
    exact List.mem_flatMap.mpr ⟨_, ho, List.mem_filterMap.mpr ⟨_, hd, hneed⟩⟩

variable (schema) in
theorem length_fieldDefaults : schema.fieldDefaults.length ≤ schema.inputFieldCount := by
  have hcount (types : List (TypeDefinition σ)) (count : Nat) :
      count + (types.flatMap fun
        | .inputObject o => o.fields.value.filterMap (·.typedDefault?)
        | _ => []).length ≤
      types.foldl (fun count t => match t with
        | .inputObject o => count + o.fields.value.length
        | _ => count) count := by
    induction types generalizing count with
    | nil => exact Nat.le_refl _
    | cons t types ih =>
      cases t with
      | inputObject o =>
        have hfields := o.fields.value.length_filterMap_le (·.typedDefault?)
        have hrest := ih (count + o.fields.value.length)
        simp only [List.flatMap_cons, List.length_append, List.foldl_cons]
        omega
      | _ => exact ih count
  have h := hcount schema.types 0
  rwa [Nat.zero_add] at h

end Schema

/-! ## Ranked types -/

namespace Schema

/-- Whether input objects hold fields of types of at most their rank only, and defaults for fields of
types of lower rank only. -/
def ranksDefaults (schema : Schema σ) (rank : String → Nat) : Bool :=
  schema.types.all fun
    | .inputObject o => o.fields.value.all fun d =>
      rank d.type.innermost < rank o.name || d.default.isNone && rank d.type.innermost == rank o.name
    | _ => true

variable {schema : Schema σ} {rank : String → Nat} {t : TypeRef} {o : InputObjectType}
  {d : InputDefinition} {need : TypedDefault}

theorem innermost_of_item? {item : TypeRef} (h : t.item? = some item) :
    item.innermost = t.innermost := by
  cases t <;> cases h <;> rfl

theorem rank_field (h : schema.ranksDefaults rank) (ho : schema.inputObject? t.innermost = some o)
    (hd : d ∈ o.fields.value) : rank d.type.innermost < rank t.innermost ∨
      d.default = none ∧ rank d.type.innermost = rank t.innermost := by
  have htype := type?_of_inputObject? ho
  have hfound := List.find?_some htype
  have hname : o.name = t.innermost := of_decide_eq_true hfound
  have hfields := List.all_eq_true.mp h _ (mem_of_type? htype)
  simpa [hname] using List.all_eq_true.mp hfields d hd

theorem TypeNeeds.rank_lt (h : schema.ranksDefaults rank) (hneed : schema.TypeNeeds t need) :
    rank need.type.innermost < rank t.innermost := by
  induction hneed with
  | item ht _ ih => rwa [innermost_of_item? ht] at ih
  | given ho hd _ ih =>
    rcases rank_field h ho hd with hlt | ⟨-, heq⟩
    · exact ih.trans hlt
    · rwa [heq] at ih
  | omitted ho hd hneed =>
    obtain ⟨given, hgiven, rfl⟩ := Option.map_eq_some_iff.mp hneed
    rcases rank_field h ho hd with hlt | ⟨hnone, -⟩
    · exact hlt
    · cases hgiven.symm.trans hnone

/-- Types can be recursive as long as the defaults are of lower types. -/
theorem acyclic_of_ranksDefaults (rank : String → Nat) (h : schema.ranksDefaults rank)
    (d : TypedDefault) : ¬ Relation.TransGen schema.Needs d d :=
  acyclic_of_rank (fun d => rank d.type.innermost) (fun _ _ hneed => hneed.ofType.rank_lt h) d

end Schema

/-! ## Coercing with what is needed -/

/-- Whether two ways to coerce a default end with the same. -/
def AgreeOn (defaultOf defaultOf' : DefaultCoercion) (need : TypedDefault) : Prop :=
  ConcludesAs (defaultOf need.given need.type) (defaultOf' need.given need.type)

theorem InputDefinition.typedDefault?_of_default {d : InputDefinition} {given : Default}
    (h : d.default = some given) : d.typedDefault? = some ⟨given, d.type⟩ := by
  rw [typedDefault?, h, Option.map_some]

section

variable {schema : Schema σ} {defaultOf defaultOf' : DefaultCoercion}

variable (defaultOf defaultOf') in
/-- Whether two ways to coerce a field of an object end with the same. -/
structure FieldConcludesAs (members members' : Entries (TypeRef → Checked)) (v : Value)
    (d : InputDefinition) : Prop where
  same : d.inputOf defaultOf members v = d.inputOf defaultOf' members' v
  concludes : ∀ e ∈ (d.inputOf defaultOf members v).2, e.isEndless = false

theorem inputOf_concludes {fields : Object} {v : Value} {d : InputDefinition}
    (hgiven : ∀ w, Entries.get? d.name fields = some w →
      (inputAs schema defaultOf w d.type).ConcludesAs (inputAs schema defaultOf' w d.type))
    (homitted : Entries.get? d.name fields = none → ∀ need, d.typedDefault? = some need →
      AgreeOn defaultOf defaultOf' need) :
    FieldConcludesAs defaultOf defaultOf' (inputMembers schema defaultOf fields)
      (inputMembers schema defaultOf' fields) v d := by
  cases hget : Entries.get? d.name fields with
  | some w =>
    obtain ⟨hsame, hconcludes⟩ := hgiven w hget
    constructor <;> simp only [InputDefinition.inputOf, get?_inputMembers, hget, Option.map_some]
    · rw [hsame]
    · exact List.forall_mem_map.mpr hconcludes
  | none =>
    cases hdefault : d.default with
    | some given =>
      obtain ⟨hsame, hconcludes⟩ := homitted hget _ (InputDefinition.typedDefault?_of_default hdefault)
      dsimp only at hsame hconcludes
      constructor <;> simp only [InputDefinition.inputOf, get?_inputMembers, hget, Option.map_none, hdefault]
      · rw [hsame]
      · cases hgiven : defaultOf given d.type with
        | ok w => exact fun _ he => nomatch he
        | error e => exact List.forall_mem_singleton.mpr (hconcludes e hgiven)
    | none =>
      constructor <;> simp only [InputDefinition.inputOf, get?_inputMembers, hget, Option.map_none, hdefault]
      split
      · exact List.forall_mem_singleton.mpr rfl
      · exact fun _ he => nomatch he

theorem inputObject_concludes {o : InputObjectType} {members members' : Entries (TypeRef → Checked)}
    {v : Value} (h : ∀ fields, v = .object fields → ∀ d ∈ o.fields.value,
      FieldConcludesAs defaultOf defaultOf' members members' v d) :
    (o.input defaultOf members v).ConcludesAs (o.input defaultOf' members' v) := by
  cases v with
  | object fields =>
    have hfield := h fields rfl
    have hknown : (o.fields.value.map fun d => (d.name, d.inputOf defaultOf members (.object fields))) =
        o.fields.value.map fun d => (d.name, d.inputOf defaultOf' members' (.object fields)) :=
      List.map_congr_left fun d hd => by rw [(hfield d hd).same]
    refine ⟨by simp only [InputObjectType.input, hknown], fun e he => ?_⟩
    obtain ⟨d, hd, he⟩ | ⟨key, hproblem⟩ | ⟨key, hproblem⟩ | hproblem := mem_errors_inputObject he
    · exact (hfield d hd).concludes e he
    all_goals rw [CoercionError.isEndless, hproblem]; rfl
  | _ => exact Checked.concludesAs_refused rfl

theorem inputNamed_concludes {members members' : Entries (TypeRef → Checked)} {v : Value}
    {name : String} (h : ∀ o, schema.inputObject? name = some o → ∀ fields, v = .object fields →
      ∀ d ∈ o.fields.value, FieldConcludesAs defaultOf defaultOf' members members' v d) :
    (inputNamed schema defaultOf members v name).ConcludesAs
      (inputNamed schema defaultOf' members' v name) := by
  unfold inputNamed
  split
  · split
    · exact Checked.concludesAs_accepted _
    · exact Checked.concludesAs_refused rfl
  · unfold EnumType.input
    split
    · exact Checked.concludesAs_refused rfl
    · split
      · exact Checked.concludesAs_accepted _
      · exact Checked.concludesAs_refused rfl
  · next o ho => exact inputObject_concludes (h o (by rw [Schema.inputObject?, ho]))
  · exact Checked.concludesAs_refused rfl

theorem inputAs_concludes {v : Value} {t : TypeRef}
    (h : ∀ need, schema.ValueNeeds v t need → AgreeOn defaultOf defaultOf' need) :
    (inputAs schema defaultOf v t).ConcludesAs (inputAs schema defaultOf' v t) := by
  induction v using Value.induct generalizing t with
  | null =>
    unfold inputAs
    split
    · exact Checked.concludesAs_refused rfl
    · exact Checked.concludesAs_accepted _
  | scalar s =>
    unfold inputAs
    refine (inputNamed_concludes fun _ _ _ hv => ?_).nested _
    cases hv
  | list items ih =>
    unfold inputAs
    split
    · next item hitem =>
      simp only [inputItems_eq_map, List.map_map]
      exact Checked.concludesAs_ofItems fun v hv =>
        ih v hv fun need hneed => h need (.item hitem hv hneed)
    · refine inputNamed_concludes fun _ _ _ hv => ?_
      cases hv
  | object fields ih =>
    unfold inputAs
    refine (inputNamed_concludes fun o ho _ _ d hd => inputOf_concludes ?_ ?_).nested _
    · exact fun w hw => ih d.name w (Entries.mem_of_get? hw) fun need hneed =>
        h need (.given ho hd hw hneed)
    · exact fun hnone need hneed => h need (.omitted ho hd hnone hneed)

/-! ## Literals -/

variable {scope : Scope}

theorem omitted_concludes {d : InputDefinition}
    (h : ∀ need, d.typedDefault? = some need → AgreeOn defaultOf defaultOf' need) :
    ConcludesAs (d.ofLiterals defaultOf []) (d.ofLiterals defaultOf' []) := by
  unfold InputDefinition.ofLiterals
  refine (ConcludesAs.ok none).bind fun given hgiven => ?_
  obtain rfl := Except.ok.inj hgiven
  cases hdefault : d.default with
  | some default =>
    have hneed := h _ (InputDefinition.typedDefault?_of_default hdefault)
    exact hneed.bind fun v _ => .ok (some v)
  | none =>
    dsimp only
    split
    · exact .refuse rfl
    · exact .ok none

theorem ofLiterals_concludes {fields : List (Located String × Located Literal)} {d : InputDefinition}
    (hgiven : ∀ l, Entries.get? d.name (fieldsByName fields) = some l →
      ConcludesAs (literalAs schema defaultOf scope l d.type) (literalAs schema defaultOf' scope l d.type))
    (homitted : (∀ l, Entries.get? d.name (fieldsByName fields) = some l → l.isUnset scope) →
      ∀ need, d.typedDefault? = some need → AgreeOn defaultOf defaultOf' need) :
    ConcludesAs (d.ofLiterals defaultOf (literalMembers schema defaultOf scope fields))
      (d.ofLiterals defaultOf' (literalMembers schema defaultOf' scope fields)) := by
  unfold InputDefinition.ofLiterals
  rw [get?_literalMembers, get?_literalMembers]
  cases hget : Entries.get? d.name (fieldsByName fields) with
  | some l =>
    refine (hgiven l hget).bind fun given hread => ?_
    cases given with
    | some v => exact .ok (some v)
    | none =>
      -- Only a variable without a value is read as nothing; its field counts as left out.
      refine omitted_concludes (homitted fun other hother => ?_)
      obtain rfl := Option.some.inj (hget.symm.trans hother)
      exact isUnset_of_literalAs hread
  | none => exact omitted_concludes (homitted fun l hl => nomatch hget.symm.trans hl)

theorem fieldsOfLiterals_concludes {members members' : Entries (TypeRef → LiteralResult)}
    {definitions : List InputDefinition} {coerced : Object} (h : ∀ d ∈ definitions,
      ConcludesAs (d.ofLiterals defaultOf members) (d.ofLiterals defaultOf' members')) :
    ConcludesAs (fieldsOfLiterals defaultOf members definitions coerced)
      (fieldsOfLiterals defaultOf' members' definitions coerced) := by
  induction definitions generalizing coerced with
  | nil => exact .ok coerced
  | cons d definitions ih =>
    obtain ⟨hfirst, hrest⟩ := List.forall_mem_cons.mp h
    unfold fieldsOfLiterals
    refine hfirst.bind fun given _ => ?_
    cases given <;> exact ih hrest

theorem itemsOfLiterals_concludes {item : TypeRef} {α : Type} {as : List α}
    {read read' : α → TypeRef → LiteralResult}
    (h : ∀ a ∈ as, ConcludesAs (read a item) (read' a item)) :
    ConcludesAs (itemsOfLiterals item (as.map read)) (itemsOfLiterals item (as.map read')) := by
  induction as with
  | nil => exact .ok []
  | cons a as ih =>
    obtain ⟨hfirst, hrest⟩ := List.forall_mem_cons.mp h
    refine hfirst.bind fun given _ => ?_
    cases given with
    | some v => exact (ih hrest).bind fun vs _ => .ok (v :: vs)
    | none =>
      dsimp only
      split
      · exact .refuse rfl
      · exact (ih hrest).bind fun vs _ => .ok (Value.null :: vs)

theorem checkOneOf_concludes (o : InputObjectType) (fields : List (Located String × Located Literal)) :
    ConcludesAs (checkOneOf scope o fields) (checkOneOf scope o fields) := by
  unfold checkOneOf
  split
  · split
    · exact .refuse rfl
    · exact .ok ()
  · exact .refuse rfl

theorem objectLiteral_concludes {o : InputObjectType}
    {members members' : Entries (TypeRef → LiteralResult)} {l : Literal}
    (h : ∀ fields, l = .object fields → ∀ d ∈ o.fields.value,
      ConcludesAs (d.ofLiterals defaultOf members) (d.ofLiterals defaultOf' members')) :
    ConcludesAs (o.ofLiteral defaultOf scope members l) (o.ofLiteral defaultOf' scope members' l) := by
  unfold InputObjectType.ofLiteral
  split
  · next fields =>
    have hfields : ConcludesAs (fieldsOfLiterals defaultOf members o.fields.value [])
        (fieldsOfLiterals defaultOf' members' o.fields.value []) :=
      fieldsOfLiterals_concludes (h fields rfl)
    have hobject := hfields.bind fun out _ => .ok (Value.object out)
    split
    · exact .refuse rfl
    · split
      · exact (checkOneOf_concludes o fields).bind fun _ _ => hobject
      · exact hobject
  · exact .refuse rfl

theorem literalNamed_concludes {members members' : Entries (TypeRef → LiteralResult)} {l : Literal}
    {name : String} (h : ∀ o, schema.inputObject? name = some o → ∀ fields, l = .object fields →
      ∀ d ∈ o.fields.value,
        ConcludesAs (d.ofLiterals defaultOf members) (d.ofLiterals defaultOf' members')) :
    ConcludesAs (literalNamed schema defaultOf scope members l name)
      (literalNamed schema defaultOf' scope members' l name) := by
  unfold literalNamed
  split
  · refine ⟨rfl, fun e he => ?_⟩
    obtain ⟨refusal, -, rfl⟩ := mapError_eq_error he
    rfl
  · unfold EnumType.ofLiteral
    split
    · split
      · exact .ok _
      · exact .refuse rfl
    · exact .refuse rfl
  · next o ho => exact objectLiteral_concludes (h o (by rw [Schema.inputObject?, ho]))
  · exact .refuse rfl

theorem literalAs_concludes {l : Literal} {t : TypeRef}
    (h : ∀ need, schema.LiteralNeeds scope l t need → AgreeOn defaultOf defaultOf' need) :
    ConcludesAs (literalAs schema defaultOf scope l t) (literalAs schema defaultOf' scope l t) := by
  induction l using Literal.induct generalizing t with
  | «variable» name =>
    unfold literalAs
    split
    · exact .ok none
    · split
      · exact .refuse rfl
      · exact .ok _
  | null =>
    unfold literalAs
    split
    · exact .refuse rfl
    · exact .ok _
  | list items ih =>
    unfold literalAs
    split
    · next item hitem =>
      simp only [literalItems_eq_map]
      refine (itemsOfLiterals_concludes fun l hl => ?_).map _
      exact ih l hl fun need hneed => h need (.item hitem hl hneed)
    · refine (literalNamed_concludes fun _ _ _ hl => ?_).map _
      cases hl
  | object fields ih =>
    unfold literalAs
    refine (literalNamed_concludes fun o ho _ _ d hd => ofLiterals_concludes ?_ ?_).map _
    · intro l hl
      obtain ⟨f, hf, -, rfl⟩ := mem_of_get?_fieldsByName hl
      exact ih f hf fun need hneed => h need (.given ho hd hl hneed)
    · exact fun hunset need hneed => h need (.omitted ho hd hunset hneed)
  | _ =>
    unfold literalAs
    refine (literalNamed_concludes fun _ _ _ hl => ?_).map _
    cases hl

end

/-! ## Chains of defaults -/

namespace Schema

variable {schema : Schema σ} {n m : Nat} {d : TypedDefault}

theorem defaultWithin_concludes (h : ∀ need, schema.Needs d need →
      AgreeOn (schema.defaultWithin n) (schema.defaultWithin m) need) :
    AgreeOn (schema.defaultWithin (n + 1)) (schema.defaultWithin (m + 1)) d := by
  obtain ⟨given, t⟩ := d
  cases given with
  | value v =>
    obtain ⟨hsame, hconcludes⟩ := inputAs_concludes fun need hneed => h need (.value hneed)
    unfold AgreeOn
    simp only [defaultWithin, ← hsame]
    split
    · exact .ok _
    · next e he => exact .error (hconcludes e (Checked.mem_of_refusal? he))
  | literal l =>
    have hread := literalAs_concludes fun need hneed => h need (.literal hneed)
    exact hread.bind fun read _ => .ok (read.getD .null)

theorem agreeOn_of_rank {rank : TypedDefault → Nat}
    (hrank : ∀ d need, schema.Needs d need → rank need < rank d) (hle : n ≤ m) (hd : rank d < n) :
    AgreeOn (schema.defaultWithin n) (schema.defaultWithin m) d := by
  induction n generalizing m d with
  | zero => exact absurd hd (Nat.not_lt_zero _)
  | succ n ih =>
    cases m with
    | zero => exact absurd hle (Nat.not_succ_le_zero n)
    | succ m =>
      refine defaultWithin_concludes fun need hneed => ih (Nat.le_of_succ_le_succ hle) ?_
      exact Nat.lt_of_lt_of_le (hrank d need hneed) (Nat.le_of_lt_succ hd)

theorem agreeOn_of_acyclic (hacyclic : ∀ d, ¬ Relation.TransGen schema.Needs d d)
    (hn : schema.inputFieldCount < n) (d : TypedDefault) :
    AgreeOn schema.coerceDefault (schema.defaultWithin n) d := by
  obtain ⟨rank, hbound, hrank⟩ := exists_rank schema.fieldDefaults hacyclic
  have hfalls (d need : TypedDefault) (hneed : schema.Needs d need) : rank need < rank d :=
    hrank d need hneed hneed.ofType.mem_fieldDefaults
  cases n with
  | zero => exact absurd hn (Nat.not_lt_zero _)
  | succ n =>
    refine defaultWithin_concludes fun need hneed =>
      agreeOn_of_rank hfalls (Nat.le_of_lt_succ hn) ?_
    calc rank need < schema.fieldDefaults.length := hbound need hneed.ofType.mem_fieldDefaults
      _ ≤ schema.inputFieldCount := schema.length_fieldDefaults

/-- Where no default needs itself, all coercing ends, and no chain of defaults is longer than there
are input fields. -/
theorem coercion_ends (hacyclic : ∀ d, ¬ Relation.TransGen schema.Needs d d) :
    (∀ given t, Concludes (schema.coerceDefault given t)) ∧
    (∀ v t errors, schema.coerceInput v t = .error errors → ∀ e ∈ errors, e.isEndless = false) ∧
    (∀ scope l t, Concludes (schema.coerceLiteral scope l t)) ∧
    ∀ n, schema.inputFieldCount < n → schema.defaultWithin n = schema.coerceDefault := by
  have hdefault (d : TypedDefault) : AgreeOn schema.coerceDefault schema.coerceDefault d :=
    agreeOn_of_acyclic hacyclic (Nat.lt_succ_self _) d
  refine ⟨fun given t => (hdefault ⟨given, t⟩).concludes, fun v t errors h e he => ?_, ?_, ?_⟩
  · unfold coerceInput Checked.toExcept at h
    split at h
    · cases h
    · obtain rfl := Except.error.inj h
      exact (inputAs_concludes fun need _ => hdefault need).concludes e he
  · exact fun scope l t => (literalAs_concludes fun need _ => hdefault need).concludes
  · intro n hn
    funext given t
    exact (agreeOn_of_acyclic hacyclic hn ⟨given, t⟩).same.symm

end Schema

/-- Trees with defaults for what hangs on them. -/
def sampleTree : InputObjectType where
  name := "Tree"
  fields := .given [
    { name := "left", type := .named "Tree" }, { name := "right", type := .named "Tree" },
    { name := "leaf", type := .named "Leaf", default := some (.value (.object [])) }]

def sampleLeaf : InputObjectType where
  name := "Leaf"
  fields := .given [{ name := "size", type := .named "Int", default := some (.value (.int 1)) }]

/-- A schema of some input objects. -/
def sampleInputsOf (inputs : List InputObjectType)
    (hnames : ("Query" :: inputs.map (·.name) ++ ScalarType.builtins.map (·.name)).Nodup) :
    Schema σ where
  description := none
  queryType := "Query"
  mutationType := none
  subscriptionType := none
  types := .object { name := "Query", fields := .given [{ name := "name", type := .named "String" }] }
    :: inputs.map .inputObject ++ ScalarType.builtins.map .scalar
  directives := DirectiveDefinition.builtins
  types_nodup := by
    rw [List.map_append, List.map_cons, List.map_map, List.map_map]
    exact hnames
  directives_nodup := DirectiveDefinition.builtins_names_nodup

def sampleTrees : Schema σ := sampleInputsOf [sampleTree, sampleLeaf] (by decide)

theorem sampleTrees_acyclic (d : TypedDefault) :
    ¬ Relation.TransGen (sampleTrees : Schema σ).Needs d d := by
  let rank (name : String) : Nat := if name = "Tree" then 2 else if name = "Leaf" then 1 else 0
  exact Schema.acyclic_of_ranksDefaults rank rfl d

theorem sampleTrees_ends :
    (sampleTrees : Schema Unit).problems = [] ∧
    (∀ d, ¬ Relation.TransGen (sampleTrees : Schema Unit).Needs d d) ∧
    (∀ given t, Concludes ((sampleTrees : Schema Unit).coerceDefault given t)) ∧
    (sampleTrees : Schema Unit).coerceInput (.object [("left", .object [])]) (.named "Tree") =
      .ok (.object [("left", .object [("leaf", .object [("size", .int 1)])]),
        ("leaf", .object [("size", .int 1)])]) :=
  ⟨by decide +kernel, sampleTrees_acyclic, (Schema.coercion_ends sampleTrees_acyclic).1, rfl⟩

/-! ## Defaults that need themselves -/

namespace Checked

theorem exists_refusal? {c : Checked} (h : ∃ e ∈ c.errors, e.isEndless) :
    ∃ e, c.refusal? = some e ∧ e.isEndless := by
  obtain ⟨e, he⟩ := Option.isSome_iff_exists.mp (List.find?_isSome.mpr h)
  exact ⟨e, by rw [refusal?, he, Option.some_or], List.find?_some he⟩

end Checked

namespace Schema

variable {schema : Schema σ} {defaultOf : DefaultCoercion} {d need : TypedDefault}

/-- Whether coercing a default that is a value always coerces another default. -/
def NeedsByValue (schema : Schema σ) (d need : TypedDefault) : Prop :=
  ∃ v, d.given = .value v ∧ schema.ValueNeeds v d.type need

theorem exists_endless_of_field {fields : Object} {t : TypeRef} {o : InputObjectType}
    {d : InputDefinition} (ho : schema.inputObject? t.innermost = some o) (hd : d ∈ o.fields.value)
    {e : CoercionError} (hendless : e.isEndless)
    (he : e ∈ (d.inputOf defaultOf (inputMembers schema defaultOf fields) (.object fields)).2) :
    ∃ e ∈ (inputAs schema defaultOf (.object fields) t).errors, e.isEndless := by
  refine ⟨e, ?_, hendless⟩
  unfold inputAs inputNamed
  rw [Checked.errors_nested, type?_of_inputObject? ho]
  exact List.mem_append_left _ (List.mem_flatMap.mpr ⟨_, List.mem_map.mpr ⟨d, hd, rfl⟩, he⟩)

/-- A value that needs a default without an end has none itself: what else is wrong with it stops
nothing. -/
theorem ValueNeeds.exists_endless {v : Value} {t : TypeRef} (h : schema.ValueNeeds v t need)
    (hneed : ∃ e, defaultOf need.given need.type = .error e ∧ e.isEndless) :
    ∃ e ∈ (inputAs schema defaultOf v t).errors, e.isEndless := by
  induction h with
  | @item items v t item need ht hv _ ih =>
    obtain ⟨e, he, hendless⟩ := ih hneed
    have hchecked : inputAs schema defaultOf v item ∈ items.map (inputAs schema defaultOf · item) :=
      List.mem_map_of_mem hv
    obtain ⟨i, hi⟩ := Checked.exists_error_of_item hchecked he
    refine ⟨e.below (.index i), ?_, hendless⟩
    unfold inputAs
    simp only [ht, inputItems_eq_map, List.map_map]
    exact hi
  | @given fields t o d v need ho hd hv _ ih =>
    obtain ⟨e, he, hendless⟩ := ih hneed
    refine exists_endless_of_field ho hd (e := e.below (.key d.name)) hendless ?_
    simp only [InputDefinition.inputOf, get?_inputMembers, hv, Option.map_some]
    exact List.mem_map_of_mem he
  | @omitted fields t o d need ho hd hnone hd' =>
    obtain ⟨e, he, hendless⟩ := hneed
    obtain ⟨given, hgiven, rfl⟩ := Option.map_eq_some_iff.mp hd'
    refine exists_endless_of_field ho hd
      (e := { problem := e.problem, value := some (.object fields) }) hendless ?_
    simp only [InputDefinition.inputOf, get?_inputMembers, hnone, Option.map_none, hgiven, he]
    exact List.mem_singleton_self _

theorem exists_endless_of_itself (h : Relation.TransGen schema.NeedsByValue d d) (n : Nat) :
    ∃ e, schema.defaultWithin n d.given d.type = .error e ∧ e.isEndless := by
  induction n generalizing d with
  | zero => exact ⟨_, rfl, rfl⟩
  | succ n ih =>
    -- The first default on the way back to `d` needs itself too, by the same way.
    obtain ⟨need, ⟨v, hv, hneed⟩, hback⟩ := Relation.TransGen.head'_iff.mp h
    have hitself : Relation.TransGen schema.NeedsByValue need need := .tail' hback ⟨v, hv, hneed⟩
    obtain ⟨e, he, hendless⟩ := Checked.exists_refusal? (hneed.exists_endless (ih hitself))
    refine ⟨e, ?_, hendless⟩
    rw [hv]
    simp only [defaultWithin, he]

end Schema

def sampleNext : InputDefinition where
  name := "next"
  type := .named "Ring"
  default := some (.value (.object []))

/-- An input object that by default goes on with another one. -/
def sampleRing : InputObjectType where
  name := "Ring"
  fields := .given [sampleNext]

def sampleRings : Schema σ := sampleInputsOf [sampleRing] (by decide)

theorem sampleRings_needs : (sampleRings : Schema σ).ValueNeeds (.object []) (.named "Ring")
    ⟨.value (.object []), .named "Ring"⟩ :=
  .omitted (o := sampleRing) (d := sampleNext) rfl List.mem_cons_self rfl rfl

/-- The schema is valid, and yet an empty object is coerced without end. -/
theorem sampleRings_endless :
    (sampleRings : Schema Unit).problems = [] ∧
      ∀ n, ∃ e ∈ (inputAs (sampleRings : Schema Unit) ((sampleRings : Schema Unit).defaultWithin n)
        (.object []) (.named "Ring")).errors, e.isEndless := by
  refine ⟨by decide +kernel, fun n => sampleRings_needs.exists_endless ?_⟩
  exact Schema.exists_endless_of_itself (.single ⟨_, rfl, sampleRings_needs⟩) n

end GraphQL
