import Mathlib.Data.Option.Basic
import GraphQL.Proofs.Coercion.ErrorLimit
import GraphQL.Proofs.Coercion.Types

/-! # Variables where they may be used

A variable may be used where its declared type allows it. Literals that keep to this become values
of their types, and so arguments suit their definitions wherever their values come from.
-/

namespace GraphQL

variable {σ : Type}

/-! ## Where variables may be used -/

/-- Whether all values of a type may stand where values of another type are expected. -/
def TypeRef.isUsableAs : TypeRef → TypeRef → Bool
  | nonNullNamed a, nonNullNamed b => a = b
  | nonNullNamed a, named b => a = b
  | named a, named b => a = b
  | nonNullList a, nonNullList b => a.isUsableAs b
  | nonNullList a, list b => a.isUsableAs b
  | list a, list b => a.isUsableAs b
  | _, _ => false

namespace VariableDefinition

def hasNonNullDefault (d : VariableDefinition) : Bool := d.default.any fun l => !l.item.isNull

/-- Whether the variable may be used at a place of a type, where the place has a default or not. A
default, of the variable or of the place, stands in for null. -/
def isUsableAt (d : VariableDefinition) (place : TypeRef) (hasDefault : Bool) : Bool :=
  if place.isNonNull && !d.type.item.isNonNull then
    (d.hasNonNullDefault || hasDefault) && d.type.item.isUsableAs place.nullable
  else d.type.item.isUsableAs place

end VariableDefinition

/-- The variables declared by an operation, and by the fragment that is looked at. -/
structure Declarations where
  operation : List VariableDefinition
  fragment : Option (List VariableDefinition) := none

/-- The declarations that a variable may mean. Those of a fragment hide those of the operation. -/
def Declarations.named (ds : Declarations) (name : String) : List VariableDefinition :=
  let visible := match ds.fragment with
    | some own => if own.any (·.name.item = name) then own else ds.operation
    | none => ds.operation
  visible.filter (·.name.item = name)

section

variable (schema : Schema σ) (ds : Declarations)

namespace Literal

mutual

/-- Whether each variable of a literal may be used where it stands, when the literal stands at a
place of the type `t`. What is inside of a custom scalar may be anything. -/
def usesVariables : Literal → TypeRef → Bool → Bool
  | .variable name, t, hasDefault => (ds.named name).all (·.isUsableAt t hasDefault)
  | .list items, t, _ => t.item?.all fun item => itemsUseVariables items item
  | .object fields, t, _ =>
    (schema.inputObject? t.innermost).all fun o => fieldsUseVariables fields o
  | _, _, _ => true

def itemsUseVariables : List (Located Literal) → TypeRef → Bool
  | [], _ => true
  | ⟨l, _⟩ :: rest, item => l.usesVariables item false && itemsUseVariables rest item

def fieldsUseVariables : List (Located String × Located Literal) → InputObjectType → Bool
  | [], _ => true
  | (key, ⟨l, _⟩) :: rest, o =>
    ((o.field? key.item).all fun d => l.usesVariables d.type d.default.isSome)
      && fieldsUseVariables rest o

end

end Literal

/-- Whether each variable may be used in the argument called `name`, which has the type `t`. -/
def argumentUsesVariables (arguments : Option Arguments) (name : String) (t : TypeRef)
    (hasDefault : Bool) : Bool :=
  (arguments.bind (·.get? name)).all fun l => l.item.usesVariables schema ds t hasDefault

end

/-- The scopes that arise from some declarations: in an operation, from what is sent with a request,
and in a fragment from the arguments of its spread. -/
inductive Schema.Binds (schema : Schema σ) : Declarations → Scope → Prop
  | operation {definitions : List VariableDefinition} {inputs values : Object} {limit : Nat}
      (h : schema.coerceVariables definitions inputs limit = .ok values) :
      Binds schema ⟨definitions, none⟩ ⟨values, none⟩
  | fragment {ds : Declarations} {scope : Scope} {definitions : List VariableDefinition}
      {arguments : Option Arguments} (h : Binds schema ds scope)
      (huses : ∀ d ∈ definitions, argumentUsesVariables schema ds arguments d.name.item d.type.item
        d.default.isSome) :
      Binds schema ⟨ds.operation, some definitions⟩
        ⟨scope.operation, some (schema.coerceFragmentVariables scope definitions arguments)⟩

/-! ## Variables suit the places where they may be used -/

section

variable {schema : Schema σ}

namespace Schema.Suits

theorem mapItems {a b : TypeRef} {v : Value} (h : schema.Suits (.list a) v)
    (hitems : ∀ {w}, schema.Suits a w → schema.Suits b w) : schema.Suits (.list b) v := by
  cases h with
  | null ht => exact .null rfl
  | list hitem hall =>
    obtain rfl := Option.some.inj hitem
    exact .list rfl fun w hw => hitems (hall w hw)
  | scalar hname => cases hname
  | enum hname => cases hname
  | object hname => cases hname

theorem isUsableAs {t t' : TypeRef} {v : Value} (h : schema.Suits t v) (ht : t.isUsableAs t') :
    schema.Suits t' v := by
  fun_induction TypeRef.isUsableAs t t' generalizing v with
  | case1 a b =>
    obtain rfl : a = b := by simpa using ht
    exact h
  | case2 a b =>
    obtain rfl : a = b := by simpa using ht
    exact h.of_eq rfl rfl fun _ => rfl
  | case3 a b =>
    obtain rfl : a = b := by simpa using ht
    exact h
  | case4 a b ih =>
    have hlist : schema.Suits (.list a) v := h.of_eq rfl rfl fun _ => rfl
    exact (hlist.mapItems fun hw => ih hw ht).of_eq rfl rfl (by simp [h.isNull rfl])
  | case5 a b ih =>
    have hlist : schema.Suits (.list a) v := h.of_eq rfl rfl fun _ => rfl
    exact hlist.mapItems fun hw => ih hw ht
  | case6 a b ih => exact h.mapItems fun hw => ih hw ht
  | case7 => cases ht

end Schema.Suits

theorem isUsableAs_nullable {t t' : TypeRef} (h : t.isUsableAs t') : t.isUsableAs t'.nullable := by
  cases t <;> cases t' <;> simp_all [TypeRef.isUsableAs, TypeRef.nullable]

theorem Schema.Suits.isUsableAt {d : VariableDefinition} {place : TypeRef} {hasDefault : Bool}
    {v : Value} (h : schema.Suits d.type.item v) (hd : d.isUsableAt place hasDefault)
    (hnull : v.isNull → place.isNonNull = false) : schema.Suits place v := by
  have hfits : d.type.item.isUsableAs place.nullable := by
    unfold VariableDefinition.isUsableAt at hd
    split at hd
    · exact (Bool.and_eq_true_iff.mp hd).2
    · exact isUsableAs_nullable hd
  exact (h.isUsableAs hfits).of_nullable hnull

/-- Whether each value of a scope suits one of the declarations that its variable may mean. -/
def Schema.SuitsScope (schema : Schema σ) (ds : Declarations) (scope : Scope) : Prop :=
  ∀ name v, scope.get? name = some v → ∃ d ∈ ds.named name, schema.Suits d.type.item v

/-! ## Literals -/

variable {defaultOf : DefaultCoercion} {ds : Declarations} {scope : Scope}

/-- Whether a literal, at any place where its variables may be used, becomes a value that suits the
place, and that is null only if the literal is. -/
def LiteralSuits (schema : Schema σ) (defaultOf : DefaultCoercion) (ds : Declarations)
    (scope : Scope) (l : Literal) : Prop :=
  ∀ t hasDefault v, l.usesVariables schema ds t hasDefault →
    literalAs schema defaultOf scope l t = .ok (some v) →
    schema.Suits t v ∧ (v.isNull → l.isNullIn scope)

theorem usesVariables_item {items : List (Located Literal)} {item : TypeRef}
    (h : Literal.itemsUseVariables schema ds items item) :
    ∀ l ∈ items, l.item.usesVariables schema ds item false :=
  forall_mem_of_cons (Literal.itemsUseVariables schema ds · item)
    (fun _ _ => Bool.and_eq_true_iff.mp) h

theorem usesVariables_field {fields : List (Located String × Located Literal)} {o : InputObjectType}
    (h : Literal.fieldsUseVariables schema ds fields o) :
    ∀ f ∈ fields, ∀ d, o.field? f.1.item = some d →
      f.2.item.usesVariables schema ds d.type d.default.isSome :=
  forall_mem_of_cons (Literal.fieldsUseVariables schema ds · o) (fun f rest h => by
    obtain ⟨hhead, hrest⟩ := Bool.and_eq_true_iff.mp h
    exact ⟨fun d hd => by simpa [hd] using hhead, hrest⟩) h

theorem field?_of_mem {o : InputObjectType} (hfields : (o.fields.value.map (·.name)).Nodup)
    {d : InputDefinition} (hd : d ∈ o.fields.value) : o.field? d.name = some d :=
  find?_of_nodup hfields hd

theorem suits_objectLiteral (hschema : schema.Sound) (hdefaults : schema.SuitsDefaults defaultOf)
    {name : String} {o : InputObjectType} (ho : schema.type? name = some (.inputObject o))
    {fields : List (Located String × Located Literal)} {read : InputDefinition → Option Value}
    (ih : ∀ f ∈ fields, LiteralSuits schema defaultOf ds scope f.2.item)
    (huses : Literal.fieldsUseVariables schema ds fields o)
    (hread : ReadsObject defaultOf scope o (literalMembers schema defaultOf scope fields) fields
      read) :
    schema.Suits (.nonNullNamed name) (.object (gathered (·.name) read o.fields.value)) := by
  have hfields := hschema.fields o (Schema.mem_of_type? ho)
  -- What is given for a field is one of the literals that the object has.
  have hmember : ∀ {d : InputDefinition} {member : TypeRef → LiteralResult} {v : Value},
      d ∈ o.fields.value →
      (literalMembers schema defaultOf scope fields).get? d.name = some member →
      member d.type = .ok (some v) → ∃ f ∈ fields, f.1.item = d.name ∧
        schema.Suits d.type v ∧ (v.isNull → f.2.item.isNullIn scope) := by
    intro d member v hd hget hv
    rw [get?_literalMembers] at hget
    obtain ⟨l, hl, rfl⟩ := Option.map_eq_some_iff.mp hget
    obtain ⟨f, hf, hname, rfl⟩ := mem_of_get?_fieldsByName hl
    have hfield : o.field? f.1.item = some d := hname ▸ field?_of_mem hfields hd
    exact ⟨f, hf, hname, ih f hf d.type _ v (usesVariables_field huses f hf d hfield) hv⟩
  refine suits_gathered hschema hdefaults ho (fun d hd => ?_) fun h => ?_
  · rcases ofLiterals_cases (hread.fields d hd) with ⟨member, v, hget, hv, hvalue⟩ | ⟨-, homitted⟩
    · obtain ⟨f, -, -, hsuits, -⟩ := hmember hd hget hv
      exact .inl ⟨v, hvalue, hsuits⟩
    · exact .inr homitted
  · obtain ⟨key, field, rfl, hnull⟩ := hread.oneOf h
    obtain ⟨d, hfield⟩ := Option.isSome_iff_exists.mp (hread.known (key, field) List.mem_cons_self)
    have hd := List.mem_of_find?_eq_some hfield
    have hname : d.name = key.item := by simpa using List.find?_some hfield
    refine ⟨d, hd, ?_, fun d' hd' hne => ?_⟩
    · rcases ofLiterals_cases (hread.fields d hd) with
        ⟨member, v, hget, hv, hvalue⟩ | ⟨hnone, -⟩
      · obtain ⟨f, hf, -, -, hkept⟩ := hmember hd hget hv
        obtain rfl := List.mem_singleton.mp hf
        refine ⟨v, hvalue, ?_⟩
        by_contra hcontra
        simp [hkept (by simpa using hcontra)] at hnull
      · have hunset := hnone (fun t => literalAs schema defaultOf scope field.item t)
          (by simp [get?_literalMembers, fieldsByName, Entries.get?_cons, hname])
        simp [Literal.isNullIn_of_isUnset (isUnset_of_literalAs hunset)] at hnull
    · rcases ofLiterals_cases (hread.fields d' hd') with ⟨member, v, hget, -, -⟩ | ⟨-, homitted⟩
      · simp [get?_literalMembers, fieldsByName, Entries.get?_cons, ← hname, hne] at hget
      · exact homitted

/-- What is known of the fields of a literal that is to become a value of a named type. -/
def PartsSuit (schema : Schema σ) (defaultOf : DefaultCoercion) (ds : Declarations)
    (scope : Scope) (members : Entries (TypeRef → LiteralResult)) (l : Literal) (name : String) :
    Prop :=
  ∀ fields o, l = .object fields → schema.type? name = some (.inputObject o) →
    members = literalMembers schema defaultOf scope fields ∧
    (∀ f ∈ fields, LiteralSuits schema defaultOf ds scope f.2.item) ∧
    Literal.fieldsUseVariables schema ds fields o

variable (ds) in
theorem partsSuit_of_ne {members : Entries (TypeRef → LiteralResult)} {l : Literal} {name : String}
    (h : ∀ fields, l ≠ .object fields) : PartsSuit schema defaultOf ds scope members l name :=
  fun fields _ heq => absurd heq (h fields)

theorem suits_literalNamed (hschema : schema.Sound) (hdefaults : schema.SuitsDefaults defaultOf)
    {l : Literal} {members : Entries (TypeRef → LiteralResult)} {name : String} {v : Value}
    (hnull : l.isNull = false) (hvariable : l.isVariable = false)
    (hparts : PartsSuit schema defaultOf ds scope members l name)
    (h : literalNamed schema defaultOf scope members l name = .ok v) :
    schema.Suits (.nonNullNamed name) v := by
  unfold literalNamed at h
  cases htype : schema.type? name with
  | none => simp [htype, CoercionProblem.refuse] at h
  | some found =>
    rw [htype] at h
    cases found with
    | scalar t =>
      exact .scalar rfl htype
        (reads_ofLiteral (hschema.scalars t (Schema.mem_of_type? htype)) hnull hvariable h)
    | enum t =>
      obtain ⟨found, hfound, rfl⟩ := exists_of_enumLiteral h
      exact .enum rfl htype hfound (hschema.enums t (Schema.mem_of_type? htype) found hfound)
    | inputObject o =>
      obtain ⟨fields, read, rfl, hread, rfl⟩ := exists_of_objectLiteral h
      obtain ⟨rfl, ih, huses⟩ := hparts fields o rfl htype
      exact suits_objectLiteral hschema hdefaults htype ih huses hread
    | _ => cases h

theorem suits_nested_literalNamed (hschema : schema.Sound)
    (hdefaults : schema.SuitsDefaults defaultOf) {l : Literal}
    {members : Entries (TypeRef → LiteralResult)} {t : TypeRef} {v : Value}
    (hnull : l.isNull = false) (hvariable : l.isVariable = false)
    (hparts : PartsSuit schema defaultOf ds scope members l t.innermost)
    (h : LiteralResult.nested t.listDepth
      (literalNamed schema defaultOf scope members l t.innermost) = .ok (some v)) :
    schema.Suits t v ∧ (v.isNull → l.isNullIn scope) := by
  obtain ⟨w, hw, heq⟩ := exists_of_nested h
  obtain rfl := Option.some.inj heq
  have hsuits := suits_literalNamed hschema hdefaults hnull hvariable hparts hw
  exact ⟨hsuits.nested, by simp [isNull_nested (hsuits.isNull rfl)]⟩

theorem suits_variable (hscope : schema.SuitsScope ds scope) (name : String) :
    LiteralSuits schema defaultOf ds scope (.variable name) := by
  intro t hasDefault v huses h
  unfold literalAs at h
  split at h
  · cases h
  · next w hw =>
    split at h
    · cases h
    · next hnull =>
      obtain rfl := Option.some.inj (Except.ok.inj h)
      obtain ⟨d, hd, hsuits⟩ := hscope name w hw
      refine ⟨hsuits.isUsableAt (List.all_eq_true.mp huses d hd) ?_, ?_⟩
      · simpa using hnull
      · simp [Literal.isNullIn, hw]

theorem suits_list (hschema : schema.Sound) (hdefaults : schema.SuitsDefaults defaultOf)
    {items : List (Located Literal)}
    (ih : ∀ l ∈ items, LiteralSuits schema defaultOf ds scope l.item) :
    LiteralSuits schema defaultOf ds scope (.list items) := by
  intro t hasDefault v huses h
  unfold literalAs at h
  split at h
  · next item hitem =>
    obtain ⟨vs, hvs, heq⟩ := map_eq_ok h
    obtain rfl := Option.some.inj heq
    refine ⟨.list hitem fun w hw => ?_, fun hnull => by cases hnull⟩
    have hall := forall₂_of_itemsOfLiterals hvs
    rw [literalItems_eq_map, List.forall₂_map_left_iff] at hall
    obtain ⟨l, hl, hread⟩ := exists_of_forall₂ hall hw
    rcases hread with hread | ⟨-, hnull, rfl⟩
    · have huse := usesVariables_item (by simpa [Literal.usesVariables, hitem] using huses) l hl
      exact (ih l hl item false w huse hread).1
    · exact .null hnull
  · next hitem =>
    obtain ⟨w, hw, heq⟩ := map_eq_ok h
    obtain rfl := Option.some.inj heq
    have hparts : PartsSuit schema defaultOf ds scope [] (.list items) t.innermost :=
      partsSuit_of_ne ds (by simp)
    have hsuits := suits_literalNamed hschema hdefaults rfl rfl hparts hw
    have hnested := hsuits.nested
    rw [listDepth_of_item? hitem] at hnested
    exact ⟨hnested, by simp [hsuits.isNull rfl]⟩

theorem suits_object (hschema : schema.Sound) (hdefaults : schema.SuitsDefaults defaultOf)
    {fields : List (Located String × Located Literal)}
    (ih : ∀ f ∈ fields, LiteralSuits schema defaultOf ds scope f.2.item) :
    LiteralSuits schema defaultOf ds scope (.object fields) := by
  intro t hasDefault v huses h
  have hparts : PartsSuit schema defaultOf ds scope (literalMembers schema defaultOf scope fields)
      (.object fields) t.innermost := by
    rintro _ o heq ho
    obtain rfl := Literal.object.inj heq
    refine ⟨rfl, ih, ?_⟩
    simpa [Literal.usesVariables, Schema.inputObject?, ho] using huses
  exact suits_nested_literalNamed hschema hdefaults rfl rfl hparts h

/-- Literals become values of the types of their places. -/
theorem suits_literalAs (hschema : schema.Sound) (hdefaults : schema.SuitsDefaults defaultOf)
    (hscope : schema.SuitsScope ds scope) (l : Literal) :
    LiteralSuits schema defaultOf ds scope l := by
  induction l using Literal.induct with
  | «variable» name => exact suits_variable hscope name
  | null =>
    intro t hasDefault v huses h
    unfold literalAs at h
    split at h
    · cases h
    · next ht =>
      obtain rfl := Option.some.inj (Except.ok.inj h)
      exact ⟨.null (by simpa using ht), fun _ => rfl⟩
  | list items ih => exact suits_list hschema hdefaults ih
  | object fields ih => exact suits_object hschema hdefaults ih
  | _ =>
    intro t hasDefault v huses h
    exact suits_nested_literalNamed hschema hdefaults rfl rfl
      (partsSuit_of_ne ds (by simp)) h

/-! ## Defaults -/

theorem usesVariables_undeclared (l : Literal) :
    ∀ t hasDefault, l.usesVariables schema ⟨[], none⟩ t hasDefault := by
  induction l using Literal.induct with
  | «variable» name => exact fun _ _ => rfl
  | list items ih =>
    have hitems : ∀ item, Literal.itemsUseVariables schema ⟨[], none⟩ items item := by
      intro item
      induction items with
      | nil => rfl
      | cons l items ihItems =>
        rw [List.forall_mem_cons] at ih
        exact Bool.and_eq_true_iff.mpr ⟨ih.1 item false, ihItems ih.2⟩
    intro t hasDefault
    unfold Literal.usesVariables
    cases t.item? with
    | none => rfl
    | some item => exact hitems item
  | object fields ih =>
    have hfields : ∀ o, Literal.fieldsUseVariables schema ⟨[], none⟩ fields o := by
      intro o
      induction fields with
      | nil => rfl
      | cons f fields ihFields =>
        rw [List.forall_mem_cons] at ih
        refine Bool.and_eq_true_iff.mpr ⟨?_, ihFields ih.2⟩
        cases o.field? f.1.item with
        | none => rfl
        | some d => exact ih.1 d.type d.default.isSome
    intro t hasDefault
    unfold Literal.usesVariables
    cases schema.inputObject? t.innermost with
    | none => rfl
    | some o => exact hfields o
  | _ => exact fun _ _ => rfl

theorem suits_literalAs_empty (hschema : schema.Sound)
    (hdefaults : schema.SuitsDefaults defaultOf) {l : Literal} {t : TypeRef} {v : Value}
    (h : literalAs schema defaultOf .empty l t = .ok (some v)) : schema.Suits t v :=
  have hscope : schema.SuitsScope ⟨[], none⟩ .empty := fun _ _ h => nomatch h
  (suits_literalAs hschema hdefaults hscope l t false v (usesVariables_undeclared l t false) h).1

theorem suits_defaultWithin (hschema : schema.Sound) (n : Nat) {default : Default} {t : TypeRef}
    {v : Value} (hconst : default.isConst) (h : schema.defaultWithin n default t = .ok v) :
    schema.Suits t v := by
  induction n generalizing default t v with
  | zero => cases h
  | succ n ih =>
    have hdefaults : schema.SuitsDefaults (schema.defaultWithin n) := by
      intro o ho d hd default v hdefault hv
      have hconst := hschema.defaults o ho d hd
      rw [hdefault] at hconst
      exact ih hconst hv
    unfold Schema.defaultWithin at h
    cases default with
    | value given =>
      dsimp only at h
      split at h
      · next hnone =>
        obtain rfl := Except.ok.inj h
        exact (suits_inputAs hschema hdefaults given t (Checked.refusal?_eq_none.mp hnone)).1
      · cases h
    | literal l =>
      obtain ⟨read, hread, h⟩ := bind_eq_ok h
      obtain rfl := Except.ok.inj h
      cases read with
      | some v => exact suits_literalAs_empty hschema hdefaults hread
      | none =>
        have hunset := isUnset_of_literalAs hread
        simp [Literal.isUnset_of_isConst hconst] at hunset

theorem suits_coerceDefault (hschema : schema.Sound) {default : Default} {t : TypeRef} {v : Value}
    (hconst : default.isConst) (h : schema.coerceDefault default t = .ok v) : schema.Suits t v :=
  suits_defaultWithin hschema _ hconst h

theorem suitsDefaults (hschema : schema.Sound) : schema.SuitsDefaults schema.coerceDefault := by
  intro o ho d hd default v hdefault hv
  have hconst := hschema.defaults o ho d hd
  rw [hdefault] at hconst
  exact suits_coerceDefault hschema hconst hv

/-! ## Variables -/

theorem suits_coerceVariable (hschema : schema.Sound) {inputs : Object} {d : VariableDefinition}
    {v : Value} (h : schema.coerceVariable inputs d = .ok (some v)) :
    schema.Suits d.type.item v := by
  unfold Schema.coerceVariable at h
  dsimp only at h
  split at h
  · cases h
  · split at h
    · exact suits_literalAs_empty hschema (suitsDefaults hschema) (mapError_eq_ok h)
    · split at h <;> cases h
    · split at h
      · cases h
      · split at h
        · next coerced hcoerced =>
          obtain rfl := Option.some.inj (Except.ok.inj h)
          have haccepted := Checked.toExcept_eq_ok.mp hcoerced
          have hsuits := suits_inputAs hschema (suitsDefaults hschema) _ d.type.item
            (by rw [haccepted, Checked.accepted])
          rw [haccepted] at hsuits
          exact hsuits.1
        · cases h

theorem suits_coerceVariables (hschema : schema.Sound) {definitions : List VariableDefinition}
    {inputs values : Object} {limit : Nat}
    (h : schema.coerceVariables definitions inputs limit = .ok values) (name : String) (v : Value)
    (hv : values.get? name = some v) :
    ∃ d ∈ definitions, d.name.item = name ∧ schema.Suits d.type.item v := by
  obtain ⟨d, hd, hname, hread⟩ := Schema.exists_of_coerceVariables h hv
  exact ⟨d, hd, hname, suits_coerceVariable hschema hread⟩

theorem suits_fragmentVariable? (hschema : schema.Sound) (hscope : schema.SuitsScope ds scope)
    {arguments : Option Arguments} {d : VariableDefinition} {v : Value}
    (huses : argumentUsesVariables schema ds arguments d.name.item d.type.item d.default.isSome)
    (h : schema.fragmentVariable? scope arguments d = some v) : schema.Suits d.type.item v := by
  have hliteral : ∀ {scope : Scope} {l : Literal} {t : TypeRef},
      schema.literalValue? scope l t = some v → schema.coerceLiteral scope l t = .ok (some v) := by
    intro scope l t h
    unfold Schema.literalValue? at h
    split at h
    · next hread => rw [hread, h]
    · cases h
  unfold Schema.fragmentVariable? at h
  dsimp only at h
  rcases (Option.orElse_eq_some _ _ _).mp h with hgiven | ⟨-, hdefault⟩
  · obtain ⟨l, hl, hread⟩ := Option.bind_eq_some_iff.mp hgiven
    rw [argumentUsesVariables, hl] at huses
    exact (suits_literalAs hschema (suitsDefaults hschema) hscope l.item d.type.item _ v huses
      (hliteral hread)).1
  · obtain ⟨l, -, hread⟩ := Option.bind_eq_some_iff.mp hdefault
    exact suits_literalAs_empty hschema (suitsDefaults hschema) (hliteral hread)

theorem suitsScope_of_binds (hschema : schema.Sound) (h : schema.Binds ds scope) :
    schema.SuitsScope ds scope ∧
      schema.SuitsScope ⟨ds.operation, none⟩ ⟨scope.operation, none⟩ := by
  induction h with
  | @operation definitions inputs values limit h =>
    have hscope : schema.SuitsScope ⟨definitions, none⟩ ⟨values, none⟩ := by
      intro name v hv
      obtain ⟨d, hd, hname, hsuits⟩ := suits_coerceVariables hschema h name v hv
      exact ⟨d, List.mem_filter.mpr ⟨hd, by simpa using hname⟩, hsuits⟩
    exact ⟨hscope, hscope⟩
  | @fragment ds scope definitions arguments h huses ih =>
    refine ⟨fun name v hv => ?_, ih.2⟩
    have hdeclares : (definitions.any fun d => d.name.item = name) =
        (definitions.map (·.name.item)).contains name := by
      rw [Bool.eq_iff_iff]
      simp only [List.any_eq_true, decide_eq_true_eq, List.contains_iff_mem, List.mem_map]
    unfold Scope.get? at hv
    simp only [FragmentVariables.declares, Schema.coerceFragmentVariables, ← hdeclares] at hv
    unfold Declarations.named
    simp only
    split at hv
    · next hown =>
      rw [if_pos hown]
      obtain ⟨d, hd, rfl, hread⟩ := exists_of_get?_gathered hv
      exact ⟨d, List.mem_filter.mpr ⟨hd, by simp⟩,
        suits_fragmentVariable? hschema ih.1 (huses d hd) hread⟩
    · next hown =>
      rw [if_neg hown]
      exact ih.2 name v hv

/-! ## Arguments -/

theorem omitted_of_missingArgument {d : InputDefinition} {unset : Option String} {span : Span}
    {read : Option Value} (h : schema.missingArgument d unset span = .ok read) :
    d.Omitted schema.coerceDefault read := by
  unfold Schema.missingArgument at h
  cases hdefault : d.default with
  | some default =>
    simp only [hdefault] at h
    split at h
    · next v hv => exact .inl ⟨default, v, hdefault, hv, (Except.ok.inj h).symm⟩
    · cases h
  | none =>
    simp only [hdefault] at h
    split at h
    · split at h <;> cases h
    · next hnull => exact .inr ⟨hdefault, by simpa using hnull, (Except.ok.inj h).symm⟩

/-- What an argument is: the literal that is given, unless it is a variable without a value. -/
theorem coerceArgument_cases {arguments : Option Arguments} {span : Span} {d : InputDefinition}
    {read : Option Value} (h : schema.coerceArgument scope arguments span d = .ok read) :
    (∃ l v, arguments.bind (·.get? d.name) = some l ∧
        schema.coerceLiteral scope l.item d.type = .ok (some v) ∧ read = some v) ∨
      d.Omitted schema.coerceDefault read := by
  have hgiven : ∀ {l : Located Literal}, l.item.isUnset scope = false →
      schema.givenArgument scope d l = .ok read →
      ∃ v, schema.coerceLiteral scope l.item d.type = .ok (some v) ∧ read = some v := by
    intro l hset h
    unfold Schema.givenArgument at h
    split at h
    · cases h
    · split at h
      · next v hv =>
        obtain rfl := Except.ok.inj h
        cases v with
        | some v => exact ⟨v, hv, rfl⟩
        | none => simp [isUnset_of_literalAs hv] at hset
      · cases h
  unfold Schema.coerceArgument at h
  split at h
  · exact .inr (omitted_of_missingArgument h)
  · next l hl =>
    split at h
    · next name hname =>
      -- A variable counts as no argument while it is unset.
      split at h
      · exact .inr (omitted_of_missingArgument h)
      · next hset =>
        obtain ⟨v, hv⟩ := hgiven (by simpa [hname, Literal.isUnset] using hset) h
        exact .inl ⟨l, v, hl, hv⟩
    · next hvariable =>
      have hset : l.item.isUnset scope = false := by
        cases hitem : l.item with
        | «variable» name => exact absurd hitem (hvariable name)
        | _ => rfl
      obtain ⟨v, hv⟩ := hgiven hset h
      exact .inl ⟨l, v, hl, hv⟩

theorem coerceArguments_eq_foldlM (arguments : Option Arguments) (span : Span)
    (definitions : List InputDefinition) :
    schema.coerceArguments scope arguments span definitions =
      definitions.foldlM (gathering (·.name) (schema.coerceArgument scope arguments span)) [] := by
  unfold Schema.coerceArguments
  congr 1
  funext es d
  unfold gathering
  cases schema.coerceArgument scope arguments span d with
  | error e => rfl
  | ok read => cases read <;> rfl

/-- The arguments that are coerced for a field or directive are what its definitions promise: they
are of their types, none has an unknown name, and those that have to be there are. -/
theorem coerceArguments_suit (hschema : schema.Regular) {definitions : List InputDefinition}
    (hnames : (definitions.map (·.name)).Nodup)
    (hconst : ∀ d ∈ definitions, d.default.all (·.isConst)) (hbinds : schema.Binds ds scope)
    {arguments : Option Arguments} {span : Span} {result : Object}
    (huses : ∀ d ∈ definitions,
      argumentUsesVariables schema ds arguments d.name d.type d.default.isSome)
    (h : schema.coerceArguments scope arguments span definitions = .ok result) :
    schema.SuitsArguments definitions result := by
  have hscope := (suitsScope_of_binds hschema.sound hbinds).1
  rw [coerceArguments_eq_foldlM] at h
  obtain ⟨given, hgiven, rfl⟩ := exists_of_foldlM_gathering h
  have hget : ∀ d ∈ definitions, (gathered (·.name) given definitions).get? d.name = given d :=
    fun d hd => get?_gathered given hnames hd
  refine ⟨nodup_keys_gathered given hnames, fun key hkey => ?_, fun d hd v hv => ?_, fun d hd hneeded => ?_⟩
  · obtain ⟨d, hd, rfl, -⟩ := exists_of_mem_keys_gathered hnames hkey
    exact ⟨d, hd, rfl⟩
  · rw [hget d hd] at hv
    rcases coerceArgument_cases (hgiven d hd) with ⟨l, w, hl, hread, heq⟩ | homitted
    · obtain rfl := Option.some.inj (heq.symm.trans hv)
      have huses := huses d hd
      rw [argumentUsesVariables, hl] at huses
      exact (suits_literalAs hschema.sound (suitsDefaults hschema.sound) hscope l.item d.type _ _ huses hread).1
    · rcases homitted with ⟨default, w, hdefault, hw, heq⟩ | ⟨-, -, hnone⟩
      · obtain rfl := Option.some.inj (heq.symm.trans hv)
        have hconst := hconst d hd
        rw [hdefault] at hconst
        exact suits_coerceDefault hschema.sound hconst hw
      · simp [hnone] at hv
  · rw [hget d hd]
    rcases coerceArgument_cases (hgiven d hd) with ⟨_, w, -, -, hw⟩ | ⟨_, w, -, -, hw⟩ |
      ⟨hdefault, hnull, -⟩
    · simp [hw]
    · simp [hw]
    · simp [hdefault, hnull] at hneeded

end

/-! ## Arguments of a small schema -/

theorem sampleInputs_regular : (sampleInputs : Schema σ).Regular where
  valid := rfl
  scalars := by
    intro t ht
    rcases by simpa [sampleInputs] using ht with rfl | ht
    · exact .inr ⟨fun v w h hv => Except.ok.inj h ▸ hv, fun _ _ _ h => nomatch h⟩
    · exact .inl ht
  enums := by
    intro t ht
    obtain rfl : t = sampleMood := by simpa [sampleInputs] using ht
    simp [sampleMood, Component.given, Value.int, Value.isNull]
  fields := by
    intro t ht
    rcases by simpa [sampleInputs] using ht with rfl | rfl <;> decide
  defaults := by
    intro t ht
    rcases by simpa [sampleInputs] using ht with rfl | rfl <;> decide

/-- `(pick: Pick!, limit: Int! = 10, extra: Any)` -/
def sampleArguments : List InputDefinition := [
  { name := "pick", type := .nonNullNamed "Pick" },
  { name := "limit", type := .nonNullNamed "Int", default := some (.literal (.int 10)) },
  { name := "extra", type := .named "Any" }]

def sampleVariable (name : String) (t : TypeRef) (default : Option Literal) : VariableDefinition :=
  ⟨.nowhere name, .nowhere t, default.map .nowhere, []⟩

def sampleArgument (name : String) (l : Literal) : Argument := ⟨.nowhere name, .nowhere l⟩

/-- `$mood: Mood!, $limit: Int` -/
def sampleDeclared : List VariableDefinition := [
  sampleVariable "mood" (.nonNullNamed "Mood") none,
  sampleVariable "limit" (.named "Int") none]

/-- `$moods: [Mood!]` -/
def sampleOwn : List VariableDefinition :=
  [sampleVariable "moods" (.list (.nonNullNamed "Mood")) (some (.enum "SAD"))]

/-- `(moods: [$mood])` -/
def sampleSpreadArguments : Option Arguments :=
  some (.nowhere [sampleArgument "moods" (.listOf [.variable "mood"])])

/-- `(pick: { range: { moods: $moods } }, limit: $limit, extra: { a: [$mood] })` -/
def sampleGiven : Option Arguments :=
  some (.nowhere [
    sampleArgument "pick" (.objectOf [("range", .objectOf [("moods", .variable "moods")])]),
    sampleArgument "limit" (.variable "limit"),
    sampleArgument "extra" (.objectOf [("a", .listOf [.variable "mood"])])])

/-- Where the fragment is spread in an operation that is sent `{ mood: GLAD }`. -/
def sampleScope : Scope :=
  ⟨[("mood", .int 1)], some ((sampleInputs : Schema Unit).coerceFragmentVariables
    ⟨[("mood", .int 1)], none⟩ sampleOwn sampleSpreadArguments)⟩

theorem sampleScope_bound :
    (sampleInputs : Schema Unit).Binds ⟨sampleDeclared, some sampleOwn⟩ sampleScope :=
  have hsent : (sampleInputs : Schema Unit).coerceVariables sampleDeclared
      [("mood", .string "GLAD")] 10 = .ok [("mood", .int 1)] := rfl
  .fragment (.operation hsent) (by decide +kernel)

/-- `{ pick: { range: { low: 0, moods: [GLAD] } }, limit: 10, extra: { a: [GLAD] } }` -/
def sampleCoerced : Object := [
  ("pick", .object [("range", .object [("low", .int 0), ("moods", .list [.int 1])])]),
  ("limit", .int 10), ("extra", .object [("a", .list [.int 1])])]

theorem sampleArguments_suit :
    (sampleInputs : Schema Unit).coerceArguments sampleScope sampleGiven default sampleArguments =
      .ok sampleCoerced ∧
    (sampleInputs : Schema Unit).SuitsArguments sampleArguments sampleCoerced := by
  have hread : (sampleInputs : Schema Unit).coerceArguments sampleScope sampleGiven default
      sampleArguments = .ok sampleCoerced := rfl
  have huses : ∀ d ∈ sampleArguments, argumentUsesVariables (sampleInputs : Schema Unit)
      ⟨sampleDeclared, some sampleOwn⟩ sampleGiven d.name d.type d.default.isSome := by
    decide +kernel
  exact ⟨hread, coerceArguments_suit sampleInputs_regular (by decide) (by decide)
    sampleScope_bound huses hread⟩

end GraphQL
