import GraphQL.Proofs.Execution.Process.Effects
import GraphQL.Proofs.Execution.Delivery.Jobs
import GraphQL.Proofs.Execution.Collection.Reach

/-! # Which object types belong to a type

A schema tells in three ways whether an object type belongs to another type: the possible types of the
type list it, its name is possible there, and fragments on the type apply to it. No two types have one
name, so the three agree. Hence an object type that was found by its membership check is one that the
executor accepts, and an object sees the fragments on the types that it belongs to, and no others.
-/

namespace GraphQL

open Completing (failed)

variable {σ : Type}

/-! ## Types and their members -/

namespace Schema

variable {schema : Schema σ} {t : TypeDefinition σ} {object : ObjectType σ} {name : String}

/-- Whether an object type is among the possible types of the type called `name`. -/
def Belongs (schema : Schema σ) (object : ObjectType σ) (name : String) : Prop :=
  ∃ t, schema.type? name = some t ∧ object ∈ schema.possibleTypes t

theorem type?_of_mem (ht : t ∈ schema.types) : schema.type? t.name = some t :=
  find?_of_nodup schema.types_nodup ht

theorem eq_of_name_eq {u : TypeDefinition σ} (ht : t ∈ schema.types) (hu : u ∈ schema.types)
    (hname : t.name = u.name) : t = u :=
  List.inj_on_of_nodup_map schema.types_nodup ht hu hname

theorem object?_eq_some_iff :
    schema.object? name = some object ↔ schema.Owns object ∧ object.name = name := by
  constructor
  · intro h
    obtain ⟨t, ht, hobject⟩ := Option.bind_eq_some_iff.mp h
    have hname : t.name = name := by simpa using List.find?_some ht
    cases t with
    | object o =>
      obtain rfl : o = object := Option.some.inj hobject
      exact ⟨mem_of_type? ht, hname⟩
    | _ => cases hobject
  · rintro ⟨howns, rfl⟩
    exact Option.bind_eq_some_iff.mpr ⟨_, type?_of_mem howns, rfl⟩

theorem mem_objects_iff : object ∈ schema.objects ↔ schema.Owns object :=
  ⟨owns_of_mem_objects, fun h => List.mem_filterMap.mpr ⟨_, h, rfl⟩⟩

theorem Owns.eq {other : ObjectType σ} (h : schema.Owns object) (hother : schema.Owns other)
    (hname : object.name = other.name) : object = other :=
  TypeDefinition.object.inj (eq_of_name_eq h hother hname)

theorem mem_possibleTypes_interface {i : InterfaceType σ} :
    object ∈ schema.possibleTypes (.interface i) ↔
      schema.Owns object ∧ object.implements i.name := by
  simp only [possibleTypes, List.mem_flatMap, List.mem_map, List.mem_filter, ObjectType.implements,
    List.any_eq_true]
  constructor
  · rintro ⟨o, ho, interface, hinterface, rfl⟩
    exact ⟨owns_of_mem_objects ho, interface, hinterface⟩
  · rintro ⟨howns, interface, hinterface⟩
    exact ⟨object, mem_objects_iff.mpr howns, interface, hinterface, rfl⟩

theorem mem_possibleTypes_union {u : UnionType σ} :
    object ∈ schema.possibleTypes (.union u) ↔
      schema.Owns object ∧ object.name ∈ u.members.value := by
  simp only [possibleTypes, List.mem_filterMap, object?_eq_some_iff]
  constructor
  · rintro ⟨name, hname, howns, rfl⟩
    exact ⟨howns, hname⟩
  · rintro ⟨howns, hname⟩
    exact ⟨object.name, hname, howns, rfl⟩

theorem mem_possibleTypes_iff (ht : t ∈ schema.types) (howns : schema.Owns object) :
    object ∈ schema.possibleTypes t ↔ schema.isPossibleType t object.name := by
  cases t with
  | interface i =>
    rw [mem_possibleTypes_interface]
    simp only [isPossibleType, List.any_eq_true, Bool.and_eq_true, decide_eq_true_eq]
    constructor
    · rintro ⟨-, himplements⟩
      exact ⟨object, mem_objects_iff.mpr howns, rfl, himplements⟩
    · rintro ⟨o, ho, hname, himplements⟩
      obtain rfl := (owns_of_mem_objects ho).eq howns hname
      exact ⟨howns, himplements⟩
  | union u => simp [mem_possibleTypes_union, isPossibleType, howns]
  | object o =>
    simp only [possibleTypes, List.mem_singleton, isPossibleType, decide_eq_true_eq]
    exact ⟨fun h => h ▸ rfl, fun h => (Owns.eq ht howns h).symm⟩
  | scalar | enum | inputObject => simp [possibleTypes, isPossibleType]

theorem conditionApplies_iff (howns : schema.Owns object) :
    schema.conditionApplies name object ↔ schema.Belongs object name := by
  unfold conditionApplies Belongs
  cases ht : schema.type? name with
  | none =>
    have hne : name ≠ object.name := by
      rintro rfl
      have hobject : schema.type? object.name = some (.object object) := type?_of_mem howns
      cases ht.symm.trans hobject
    simp [hne]
  | some t =>
    have hmem : t ∈ schema.types := mem_of_type? ht
    have hname : t.name = name := by simpa using List.find?_some ht
    by_cases hself : name = object.name
    · obtain rfl : t = .object object := eq_of_name_eq hmem howns (hname.trans hself)
      simp [hself, possibleTypes]
    · have habstract : object ∈ schema.possibleTypes t → t.isAbstract := by
        cases t with
        | object o =>
          rintro h
          obtain rfl := List.mem_singleton.mp h
          exact (hself hname.symm).elim
        | interface | union => exact fun _ => rfl
        | scalar | enum | inputObject => exact fun h => by cases h
      simp only [hself, decide_false, Bool.false_or, Bool.and_eq_true, Option.some.injEq,
        exists_eq_left', ← mem_possibleTypes_iff hmem howns]
      exact ⟨fun h => h.2, fun h => ⟨habstract h, h⟩⟩

theorem belongs_iff (ht : t ∈ schema.types) :
    schema.Belongs object t.name ↔ object ∈ schema.possibleTypes t := by
  simp [Belongs, type?_of_mem ht]

end Schema

/-! ## Values that do not name their type -/

theorem FieldPlan.runtimeObject_of_mem {schema : Schema σ} {t : TypeDefinition σ}
    {object : ObjectType σ} (ht : t ∈ schema.types) (h : object ∈ schema.possibleTypes t)
    (plan : FieldPlan σ) (path : Path) :
    plan.runtimeObject path schema t (some object.name) = .ok object := by
  have howns := Schema.owns_of_possibleTypes ht h
  have htype : schema.type? object.name = some (.object object) := Schema.type?_of_mem howns
  have hpossible := (Schema.mem_possibleTypes_iff ht howns).mp h
  simp only [FieldPlan.runtimeObject, htype, hpossible, if_true]

namespace Process

variable {ρ : Type} {info : FieldInfo} {value : HostValue}

/-- Finds the first of the object types whose membership check accepts a value, as the type itself. -/
def firstAccepting (info : FieldInfo) (value : HostValue)
    (k : Except FieldError (Option (ObjectType σ)) → Process σ ρ) :
    List (ObjectType σ) → Process σ ρ
  | [] => k (.ok none)
  | object :: rest =>
    match object.isTypeOf with
    | none => firstAccepting info value k rest
    | some check =>
      call check ⟨info, value, object.name⟩ info.path fun
        | .error e => k (.error e)
        | .ok true => k (.ok (some object))
        | .ok false => firstAccepting info value k rest

/-- To go on with the name of the first member is to go on with the member, if what is done with the
name of each is what is done with it. -/
theorem firstMember_eq {k : Except FieldError (Option String) → Process σ ρ}
    {k' : Except FieldError (Option (ObjectType σ)) → Process σ ρ} {objects : List (ObjectType σ)}
    (herror : ∀ e, k (.error e) = k' (.error e)) (hnone : k (.ok none) = k' (.ok none))
    (hsome : ∀ object ∈ objects, k (.ok (some object.name)) = k' (.ok (some object))) :
    firstMember info value k objects = firstAccepting info value k' objects := by
  induction objects with
  | nil => exact hnone
  | cons object rest ih =>
    obtain ⟨hobject, hrest⟩ := List.forall_mem_cons.mp hsome
    unfold firstMember firstAccepting
    cases object.isTypeOf with
    | none => exact ih hrest
    | some check =>
      dsimp only
      congr 1
      funext answer
      cases answer with
      | error e => exact herror e
      | ok isMember =>
        cases isMember with
        | true => exact hobject
        | false => exact ih hrest

theorem defaultType_eq {schema : Schema σ} {t : TypeDefinition σ}
    {k : Except FieldError (Option String) → Process σ ρ}
    {k' : Except FieldError (Option (ObjectType σ)) → Process σ ρ} (hvalue : statedType value = none)
    (herror : ∀ e, k (.error e) = k' (.error e)) (hnone : k (.ok none) = k' (.ok none))
    (hsome : ∀ object ∈ schema.possibleTypes t, k (.ok (some object.name)) = k' (.ok (some object))) :
    defaultType schema t info value k = firstAccepting info value k' (schema.possibleTypes t) := by
  unfold defaultType
  rw [hvalue]
  exact firstMember_eq herror hnone hsome

end Process

section

variable (ctx : ExecutionContext σ) (complete : Completer σ) (plan : FieldPlan σ) (t : TypeDefinition σ)
  (path : Path) (value : HostValue)

/-- Completes a value of an interface or union as an object of the first possible type whose membership
check accepts it. It fails only where a check does, or where none accepts the value. -/
def completeAccepted : Completing σ :=
  Process.firstAccepting (plan.info ctx path) value (fun
    | .error e => failed (plan.error path e)
    | .ok none => failed (plan.problem path (.unresolvedType t.name plan.coordinate))
    | .ok (some object) => completeObject ctx complete plan object path value)
    (ctx.schema.possibleTypes t)

/-- Completes a value for which the host has chosen a type, or has left the choice to the membership
checks. -/
def completeChosen : Except FieldError TypeChoice → Completing σ
  | .error e => failed (plan.error path e)
  | .ok .unknown => failed (plan.problem path (.unresolvedType t.name plan.coordinate))
  | .ok .byDefault => completeAccepted ctx complete plan t path value
  | .ok (.named name) =>
    match plan.runtimeObject path ctx.schema t (some name) with
    | .error e => failed e
    | .ok object => completeObject ctx complete plan object path value

variable {ctx t value}

/-- What the membership checks find is never rejected. -/
theorem completeAbstract_eq (ht : t ∈ ctx.schema.types) (hvalue : Process.statedType value = none) :
    completeAbstract ctx complete plan t path value =
      (Process.ownTypeResolver t <|> ctx.typeResolver).elim
        (completeAccepted ctx complete plan t path value) fun resolver =>
          Process.call resolver ⟨plan.info ctx path, value, t.name⟩ path
            (completeChosen ctx complete plan t path value) := by
  have hfound (object : ObjectType σ) (hobject : object ∈ ctx.schema.possibleTypes t) :
      plan.runtimeObject path ctx.schema t (some object.name) = .ok object :=
    FieldPlan.runtimeObject_of_mem ht hobject plan path
  unfold completeAbstract Process.resolveType
  cases Process.ownTypeResolver t <|> ctx.typeResolver with
  | none =>
    refine Process.defaultType_eq hvalue (fun _ => rfl) rfl fun object hobject => ?_
    simp only [hfound object hobject]
  | some resolver =>
    dsimp only [Option.elim]
    congr 1
    funext answer
    cases answer with
    | error e => rfl
    | ok choice =>
      cases choice with
      | unknown | named => rfl
      | byDefault =>
        refine Process.defaultType_eq hvalue (fun _ => rfl) rfl fun object hobject => ?_
        simp only [hfound object hobject]

end

/-! ## The fragments that an object sees -/

namespace CollectionContext

variable {ctx : CollectionContext σ} {fragmentVariables : Option FragmentVariables}
  {selections : List Selection} {s s' : Collecting}

/-- Whether a selection shows a field to the object, itself or through fragments on types that the
object belongs to. -/
inductive Shows (ctx : CollectionContext σ) :
    Option FragmentVariables → Selection → FieldUse → Prop
  | field {fragmentVariables span head selections}
    (h : ctx.isExcluded fragmentVariables head.directives = false) :
    Shows ctx fragmentVariables (.field span head selections)
      ⟨⟨head, span, selections⟩, fragmentVariables⟩
  | inline {fragmentVariables span head selections x u}
    (h : ctx.isExcluded fragmentVariables head.directives = false)
    (hbelongs : ∀ t, head.typeCondition = some t → ctx.schema.Belongs ctx.object t.item)
    (hx : x ∈ selections) (hrest : Shows ctx fragmentVariables x u) :
    Shows ctx fragmentVariables (.inline span head selections) u
  | spread {fragmentVariables span spread f x u}
    (h : ctx.isExcluded fragmentVariables spread.directives = false)
    (hf : findFragment ctx.fragments spread.name.item = some f)
    (hbelongs : ctx.schema.Belongs ctx.object f.typeCondition.item) (hx : x ∈ f.selections)
    (hrest : Shows ctx (ctx.variablesIn fragmentVariables f spread) x u) :
    Shows ctx fragmentVariables (.spread span spread) u

/-- How collecting deals with a fragment that is not left out: it goes on inside of it if the object
belongs to the type that the fragment is on, and passes over it otherwise. -/
structure SeesWhatBelongs (ctx : CollectionContext σ) : Prop where
  inline : ∀ enter fragmentVariables span head selections s t,
    ctx.isExcluded fragmentVariables head.directives = false → head.typeCondition = some t →
    (ctx.schema.Belongs ctx.object t.item →
      ctx.collectSelection enter fragmentVariables (.inline span head selections) s =
        deferring (ctx.deferLabel? fragmentVariables head.directives)
          (ctx.collectAll enter fragmentVariables selections) s) ∧
    (¬ ctx.schema.Belongs ctx.object t.item →
      ctx.collectSelection enter fragmentVariables (.inline span head selections) s = some s)
  spread : ∀ enter fragmentVariables span (spread : Spread) s f,
    ctx.isExcluded fragmentVariables spread.directives = false → spread.name.item ∉ s.visited →
    findFragment ctx.fragments spread.name.item = some f →
    (ctx.schema.Belongs ctx.object f.typeCondition.item →
      ctx.collectSelection enter fragmentVariables (.spread span spread) s =
        deferring (ctx.deferLabel? fragmentVariables spread.directives)
          (enter f.selections (ctx.variablesIn fragmentVariables f spread))
          (entering (ctx.deferLabel? fragmentVariables spread.directives) spread.name.item s)) ∧
    (¬ ctx.schema.Belongs ctx.object f.typeCondition.item →
      ctx.collectSelection enter fragmentVariables (.spread span spread) s =
        some (entering (ctx.deferLabel? fragmentVariables spread.directives) spread.name.item s))

section

variable (howns : ctx.schema.Owns ctx.object)

include howns

theorem SeesWhatBelongs.of_owns : ctx.SeesWhatBelongs where
  inline enter fragmentVariables span head selections s t hincluded ht := by
    rw [← Schema.conditionApplies_iff howns]
    unfold collectSelection
    rw [hincluded, ht, Option.any_some, Bool.false_or]
    exact ⟨fun h => by simp [h], fun h => by simp [h]⟩
  spread enter fragmentVariables span spread s f hincluded hfirst hf := by
    rw [← Schema.conditionApplies_iff howns]
    unfold collectSelection collectSpread
    have hskip : (ctx.isExcluded fragmentVariables spread.directives
        || s.visited.contains spread.name.item) = false := by simp [hincluded, hfirst]
    simp only [hskip, hf]
    exact ⟨fun h => by simp only [h]; rfl, fun h => by simp only [h]; rfl⟩

omit howns in
theorem found_entering (label : Option (Option String)) (name : String) (s : Collecting) :
    (entering label name s).found = s.found := by
  unfold entering
  split <;> rfl

theorem Opens.belongs {head : InlineHead} (h : ctx.Opens fragmentVariables head) :
    ∀ t, head.typeCondition = some t → ctx.schema.Belongs ctx.object t.item :=
  fun t ht => (Schema.conditionApplies_iff howns).mp (h.applies t ht)

theorem belongs_of_fragment? {name : String} {f : Fragment} (h : ctx.fragment? name = some f) :
    findFragment ctx.fragments name = some f ∧ ctx.schema.Belongs ctx.object f.typeCondition.item := by
  obtain ⟨hf, happlies⟩ := Option.filter_eq_some_iff.mp h
  exact ⟨hf, (Schema.conditionApplies_iff howns).mp happlies⟩

theorem shows_opened {head : InlineHead} {span : Span} {u : FieldUse}
    (h : ctx.Opens fragmentVariables head) :
    (∃ x ∈ selections, ctx.Shows fragmentVariables x u) →
      ctx.Shows fragmentVariables (.inline span head selections) u := by
  rintro ⟨x, hx, hshown⟩
  exact .inline h.included (h.belongs howns) hx hshown

theorem shows_spread {span : Span} {spread : Spread} {f : Fragment} {u : FieldUse}
    (h : ctx.Spreads fragmentVariables s spread (some f)) :
    (∃ x ∈ f.selections, ctx.Shows (ctx.variablesIn fragmentVariables f spread) x u) →
      ctx.Shows fragmentVariables (.spread span spread) u := by
  rintro ⟨x, hx, hshown⟩
  obtain ⟨hf, hbelongs⟩ := belongs_of_fragment? howns h.found.symm
  exact .spread h.included hf hbelongs hx hshown

theorem Collects.shown (h : ctx.Collects fragmentVariables selections s s') {u : FieldUse}
    (hu : s'.found.Has u) : s.found.Has u ∨ ∃ x ∈ selections, ctx.Shows fragmentVariables x u := by
  have hcons {s s₁ : Collecting} {x : Selection} {rest : List Selection}
      {fragmentVariables : Option FragmentVariables}
      (hfirst : s₁.found.Has u → s.found.Has u ∨ ctx.Shows fragmentVariables x u)
      (h : s₁.found.Has u ∨ ∃ y ∈ rest, ctx.Shows fragmentVariables y u) :
      s.found.Has u ∨ ∃ y ∈ x :: rest, ctx.Shows fragmentVariables y u := by
    rw [List.exists_mem_cons_iff]
    exact h.elim (fun h => (hfirst h).imp_right .inl) fun h => .inr (.inr h)
  have hdeferred {s s₁ : Collecting} {label : Option String} {x : Selection}
      {fragmentVariables : Option FragmentVariables}
      (hinner : s₁.found.Has u → Collected.empty.Has u ∨ ctx.Shows fragmentVariables x u)
      (h : (s.found.defer label s₁.found).Has u) : s.found.Has u ∨ ctx.Shows fragmentVariables x u :=
    (Collected.has_defer.mp h).imp_right fun h => (hinner h).resolve_left Collected.not_has_empty
  induction h with
  | nil => exact .inl hu
  | skip _ _ ih => exact (ih hu).imp_right fun ⟨x, hx, h⟩ => ⟨x, List.mem_cons_of_mem _ hx, h⟩
  | field h _ ih =>
    refine hcons (fun hfound => ?_) (ih hu)
    rcases Collected.has_add.mp hfound with rfl | hfound
    · exact .inr (.field h)
    · exact .inl hfound
  | inline h _ _ _ ihInner ih =>
    exact hcons (fun hfound => (ihInner hfound).imp_right (shows_opened howns h)) (ih hu)
  | inlineDeferred h _ _ _ ihInner ih =>
    exact hcons (hdeferred fun hfound => (ihInner hfound).imp_right (shows_opened howns h)) (ih hu)
  | nothing _ _ ih =>
    refine hcons (fun hfound => .inl ?_) (ih hu)
    rwa [found_entering] at hfound
  | spread h _ _ _ ihInner ih =>
    exact hcons (fun hfound => (ihInner hfound).imp_right (shows_spread howns h)) (ih hu)
  | spreadDeferred h _ _ _ ihInner ih =>
    exact hcons (hdeferred fun hfound => (ihInner hfound).imp_right (shows_spread howns h)) (ih hu)

theorem CollectsUses.shown {uses : List FieldUse} (h : ctx.CollectsUses uses s s') {u : FieldUse}
    (hu : s'.found.Has u) : s.found.Has u ∨
      ∃ use ∈ uses, ∃ x ∈ use.node.selections, ctx.Shows use.fragmentVariables x u := by
  induction h with
  | nil => exact .inl hu
  | cons h _ ih =>
    rw [List.exists_mem_cons_iff, ← or_assoc]
    exact (ih hu).imp_left (h.shown howns)

theorem Shows.reaches (hvariables : ∀ f ∈ ctx.fragments, f.variableDefinitions = none) {x : Selection}
    {u : FieldUse} (h : ctx.Shows none x u) : ctx.Reaches x u := by
  generalize hnone : (none : Option FragmentVariables) = fragmentVariables at h
  induction h with
  | field h =>
    subst hnone
    exact .field h
  | inline h hbelongs hx _ ih =>
    subst hnone
    refine .inline ⟨h, fun t ht => ?_⟩ hx (ih rfl)
    exact (Schema.conditionApplies_iff howns).mpr (hbelongs t ht)
  | @spread _ _ spread f _ _ h hf hbelongs hx _ ih =>
    subst hnone
    have hfragment : ctx.fragment? spread.name.item = some f :=
      Option.filter_eq_some_iff.mpr ⟨hf, (Schema.conditionApplies_iff howns).mpr hbelongs⟩
    exact .spread h hfragment hx (ih (variablesIn_none hvariables hfragment none spread).symm)

end

end CollectionContext

/-! ## Objects of abstract fields -/

/-- The three ways in which a schema tells which object types belong to a type agree. So what the
membership checks find for a value of an interface or union is never rejected; and every object of the
schema sees the fragments on types that it belongs to and no others, in each step of collecting, and so
in all that is collected below a field. -/
theorem membership_agrees (ctx : ExecutionContext σ) :
    (∀ t ∈ ctx.schema.types, ∀ object, ctx.schema.Owns object →
      (object ∈ ctx.schema.possibleTypes t ↔ ctx.schema.isPossibleType t object.name) ∧
      (object ∈ ctx.schema.possibleTypes t ↔ ctx.schema.conditionApplies t.name object)) ∧
    (∀ complete plan path value, ∀ t ∈ ctx.schema.types, Process.statedType value = none →
      completeAbstract ctx complete plan t path value =
        (Process.ownTypeResolver t <|> ctx.typeResolver).elim
          (completeAccepted ctx complete plan t path value) fun resolver =>
            Process.call resolver ⟨plan.info ctx path, value, t.name⟩ path
              (completeChosen ctx complete plan t path value)) ∧
    ∀ object, ctx.schema.Owns object →
      (∀ condition,
        ctx.schema.conditionApplies condition object ↔ ctx.schema.Belongs object condition) ∧
      (ctx.collection object).SeesWhatBelongs ∧
      ∀ uses collected, ctx.subfields object uses = some collected → ∀ u,
        (collected.Has u → ∃ use ∈ uses, ∃ x ∈ use.node.selections,
          (ctx.collection object).Shows use.fragmentVariables x u) ∧
        ((∀ f ∈ ctx.fragments, f.variableDefinitions = none) →
          (∀ use ∈ uses, use.fragmentVariables = none) →
          (collected.Has u ↔ ∃ use ∈ uses, ∃ x ∈ use.node.selections,
            (ctx.collection object).Shows none x u)) := by
  refine ⟨fun t ht object howns => ?_, fun complete plan path value t ht =>
    completeAbstract_eq complete plan path ht, fun object howns => ?_⟩
  · have happlies : ctx.schema.conditionApplies t.name object ↔ object ∈ ctx.schema.possibleTypes t :=
      (Schema.conditionApplies_iff howns).trans (Schema.belongs_iff ht)
    exact ⟨Schema.mem_possibleTypes_iff ht howns, happlies.symm⟩
  · have hown : (ctx.collection object).schema.Owns (ctx.collection object).object := howns
    refine ⟨fun condition => Schema.conditionApplies_iff howns, .of_owns hown, ?_⟩
    intro uses collected h u
    obtain ⟨visited, hcollects⟩ := CollectionContext.collects_of_collectSubfields h
    have hshown (hu : collected.Has u) := (hcollects.shown hown hu).resolve_left Collected.not_has_empty
    refine ⟨hshown, fun hvariables huses => ⟨fun hu => ?_, ?_⟩⟩
    · obtain ⟨use, huse, x, hx, hshows⟩ := hshown hu
      exact ⟨use, huse, x, hx, huses use huse ▸ hshows⟩
    · rintro ⟨use, huse, x, hx, hshows⟩
      refine (ctx.has_subfields hvariables huses h).mpr ⟨use, huse, x, hx, ?_⟩
      exact hshows.reaches hown hvariables

/-! ## A schema of animals and gifts -/

def sampleNamedFields : Component (List (FieldDefinition σ)) :=
  .given [{ name := "name", type := .named "String" }]

def sampleDog : ObjectType σ where
  name := "Dog"
  fields := sampleNamedFields
  interfaces := .given ["Animal"]

def sampleStone : ObjectType σ where
  name := "Stone"
  fields := sampleNamedFields

def sampleAnimal : TypeDefinition σ := .interface { name := "Animal", fields := sampleNamedFields }

def sampleGift : TypeDefinition σ := .union { name := "Gift", members := .given ["Stone", "Dog"] }

/-- Dogs are animals; dogs and stones are gifts. -/
def sampleGifts : Schema σ where
  description := none
  queryType := "Dog"
  mutationType := none
  subscriptionType := none
  types := .object sampleDog :: .object sampleStone :: sampleAnimal :: sampleGift ::
    ScalarType.builtins.map .scalar
  directives := DirectiveDefinition.builtins
  types_nodup := by
    change ("Dog" :: "Stone" :: "Animal" :: "Gift" :: ScalarType.builtins.map (·.name)).Nodup
    decide
  directives_nodup := DirectiveDefinition.builtins_names_nodup

def sampleGiving : ExecutionContext Unit where
  schema := sampleGifts
  fragments := []
  operation := sampleOperation
  variableValues := []
  root := .null
  fieldResolver := none
  typeResolver := none
  subscriber := none
  bounds := ⟨5, 5, 50⟩

/-- `... on <condition> { name }` -/
def sampleOn (condition : String) : Selection :=
  .inline default ⟨some (sampleText condition), []⟩ [sampleField "name" []]

/-- `gift { ... on Animal { name } ... on Gift { name } }` -/
def sampleGiftUse : FieldUse :=
  ⟨⟨⟨none, sampleText "gift", none, []⟩, default, [sampleOn "Animal", sampleOn "Gift"]⟩, none⟩

theorem sampleGifts_agree :
    sampleGiving.schema.problems = [] ∧
    sampleDog ∈ sampleGiving.schema.possibleTypes sampleAnimal ∧
    sampleGiving.schema.conditionApplies "Animal" sampleDog ∧
    sampleStone ∉ sampleGiving.schema.possibleTypes sampleAnimal ∧
    ¬ sampleGiving.schema.conditionApplies "Animal" sampleStone ∧
    (∀ complete plan, completeAbstract sampleGiving complete plan sampleGift .root (.data (.object [])) =
      completeAccepted sampleGiving complete plan sampleGift .root (.data (.object []))) ∧
    ∃ collected, sampleGiving.subfields sampleStone [sampleGiftUse] = some collected ∧
      collected.Has (sampleUse "name") ∧
      (sampleGiving.collection sampleStone).Shows none (sampleOn "Gift") (sampleUse "name") := by
  obtain ⟨hways, haccepted, hsees⟩ := membership_agrees sampleGiving
  have hanimal : sampleAnimal ∈ sampleGiving.schema.types := by simp [sampleGiving, sampleGifts]
  have hgift : sampleGift ∈ sampleGiving.schema.types := by simp [sampleGiving, sampleGifts]
  have hdog : sampleGiving.schema.Owns sampleDog := by simp [Schema.Owns, sampleGiving, sampleGifts]
  have hstone : sampleGiving.schema.Owns sampleStone := by simp [Schema.Owns, sampleGiving, sampleGifts]
  obtain ⟨hdogPossible, hdogApplies⟩ := hways _ hanimal _ hdog
  obtain ⟨hstonePossible, hstoneApplies⟩ := hways _ hanimal _ hstone
  have hdogMember : sampleDog ∈ sampleGiving.schema.possibleTypes sampleAnimal :=
    hdogPossible.mpr (by decide)
  have hstoneMember : sampleStone ∉ sampleGiving.schema.possibleTypes sampleAnimal :=
    fun h => absurd (hstonePossible.mp h) (by decide)
  refine ⟨by decide +kernel, hdogMember, hdogApplies.mp hdogMember, hstoneMember,
    fun h => hstoneMember (hstoneApplies.mpr h), fun complete plan => ?_, ?_⟩
  · exact haccepted complete plan .root _ _ hgift rfl
  · obtain ⟨happlies, -, hcollects⟩ := hsees sampleStone hstone
    refine ⟨_, rfl, ?_⟩
    have hfound := (hcollects [sampleGiftUse] _ rfl (sampleUse "name")).2
      (by simp [sampleGiving]) (by simp [sampleGiftUse])
    have hhas := Collected.Has.group (c := ⟨[("name", [sampleUse "name"])], []⟩)
      List.mem_cons_self (List.mem_cons_self (a := sampleUse "name"))
    obtain ⟨use, huse, x, hx, hshows⟩ := hfound.mp hhas
    obtain rfl := List.mem_singleton.mp huse
    refine ⟨hhas, ?_⟩
    rcases List.mem_pair.mp hx with rfl | rfl
    · cases hshows with
      | inline _ hbelongs => exact absurd ((happlies "Animal").mpr (hbelongs _ rfl)) (by decide)
    · exact hshows

end GraphQL
