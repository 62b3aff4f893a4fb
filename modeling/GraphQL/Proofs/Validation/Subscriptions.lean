import Mathlib.Data.List.Perm.Subperm
import GraphQL.Proofs.Execution.Collection.Termination
import GraphQL.Proofs.Coercion.VariableUse
import GraphQL.Proofs.Validation.Walk

/-! # What validated subscriptions select

A subscription is checked before its variables are known, so conditions on variables count as absent
then. Where nothing is deferred and fragments have no variables of their own, whatever is selected
later was selected by the check.
-/

namespace GraphQL

variable {σ : Type}

/-! ## Conditions -/

/-- Whether `@skip` and `@include` are what they are by default. -/
structure Schema.ReadsConditions (schema : Schema σ) : Prop where
  skipped : schema.directive? "skip" = some .skipIf
  included : schema.directive? "include" = some .includeIf
  boolean : schema.type? "Boolean" = some (.scalar .boolean)

section

variable {schema : Schema σ}

theorem coerceLiteral_boolean (hboolean : schema.type? "Boolean" = some (.scalar .boolean))
    (scope : Scope) (b : Bool) :
    schema.coerceLiteral scope (.boolean b) (.nonNullNamed "Boolean") =
      .ok (some (.boolean b)) := by
  simp [Schema.coerceLiteral, literalAs, literalNamed, TypeRef.innermost, TypeRef.listDepth,
    hboolean, ScalarType.ofLiteral, ScalarType.boolean, Literal.replaceVariables,
    BooleanScalar.literal, LiteralResult.nested, Except.map, Except.mapError, Nat.repeat]

theorem boolean_of_coerceLiteral (hboolean : schema.type? "Boolean" = some (.scalar .boolean))
    {l : Literal} {v : Value}
    (h : schema.coerceLiteral .empty l (.nonNullNamed "Boolean") = .ok (some v)) :
    ∃ b, l = .boolean b ∧ v = .boolean b := by
  have hnamed : ∀ {members : Entries (TypeRef → LiteralResult)} {l : Literal} {w : Value},
      literalNamed schema schema.coerceDefault .empty members l "Boolean" = .ok w →
      BooleanScalar.literal (l.replaceVariables .empty) = .ok w := by
    intro members l w h
    simp only [literalNamed, hboolean, ScalarType.ofLiteral, ScalarType.boolean] at h
    exact mapError_eq_ok h
  unfold Schema.coerceLiteral literalAs at h
  cases l with
  | «variable» name => cases h
  | null => cases h
  | list items =>
    obtain ⟨w, hw, -⟩ := map_eq_ok h
    cases hnamed hw
  | boolean b =>
    obtain ⟨w, hw, heq⟩ := exists_of_nested h
    obtain rfl := Except.ok.inj (hnamed hw)
    exact ⟨b, rfl, Option.some.inj heq⟩
  | _ =>
    obtain ⟨w, hw, -⟩ := exists_of_nested h
    cases hnamed hw

theorem coerceArguments_singleton (scope : Scope) (arguments : Option Arguments) (span : Span)
    (d : InputDefinition) :
    schema.coerceArguments scope arguments span [d] =
      (schema.coerceArgument scope arguments span d).map fun read =>
        (read.map fun v => (d.name, v)).toList := by
  rw [coerceArguments_eq_foldlM, List.foldlM_cons, gathering]
  cases schema.coerceArgument scope arguments span d with
  | error e => rfl
  | ok read => cases read <;> rfl

/-- Whether an argument is a condition that has to be given. -/
structure InputDefinition.IsCondition (d : InputDefinition) : Prop where
  type : d.type = .nonNullNamed "Boolean"
  default : d.default = none

/-- A condition that is known without variables is a literal, and so it is the same with them. -/
theorem coerceArgument_condition (hboolean : schema.type? "Boolean" = some (.scalar .boolean))
    {d : InputDefinition} (hd : d.IsCondition) {arguments : Option Arguments} {span : Span}
    {read : Option Value} (h : schema.coerceArgument .empty arguments span d = .ok read) :
    ∃ b, read = some (.boolean b) ∧
      ∀ scope, schema.coerceArgument scope arguments span d = .ok (some (.boolean b)) := by
  rcases coerceArgument_cases h with ⟨l, v, hl, hv, rfl⟩ | ⟨_, _, hdefault, -⟩ | ⟨-, hnull, -⟩
  · rw [hd.type] at hv
    obtain ⟨b, hliteral, rfl⟩ := boolean_of_coerceLiteral hboolean hv
    refine ⟨b, rfl, fun scope => ?_⟩
    unfold Schema.coerceArgument Schema.givenArgument
    simp only [hl, hliteral, hd.type, coerceLiteral_boolean hboolean]
    rfl
  · simp [hd.default] at hdefault
  · simp [hd.type, TypeRef.isNonNull] at hnull

end

namespace CollectionContext

variable {ctx : CollectionContext σ}

/-- The condition of a directive that has one. -/
def condition? (ctx : CollectionContext σ) (fragmentVariables : Option FragmentVariables)
    (directives : List (Located Directive)) (name : String) : Option Bool := do
  let args ← ctx.directiveArguments? fragmentVariables directives name
  (← args.get? "if").boolean?

/-- The same context before any variable has a value. -/
def unbound (ctx : CollectionContext σ) : CollectionContext σ := { ctx with variableValues := [] }

theorem isExcluded_eq (fragmentVariables : Option FragmentVariables)
    (directives : List (Located Directive)) :
    ctx.isExcluded fragmentVariables directives =
      (ctx.condition? fragmentVariables directives "skip" == some true ||
        ctx.condition? fragmentVariables directives "include" == some false) := rfl

theorem condition?_of_unbound (hboolean : ctx.schema.type? "Boolean" = some (.scalar .boolean))
    {name : String} {definition : DirectiveDefinition} {d : InputDefinition}
    (hdefinition : ctx.schema.directive? name = some definition)
    (harguments : definition.arguments = [d]) (hd : d.IsCondition)
    {directives : List (Located Directive)} {b : Bool}
    (h : ctx.unbound.condition? none directives name = some b) :
    ctx.condition? none directives name = some b := by
  unfold condition? directiveArguments? at h ⊢
  cases hnode : findDirective directives name with
  | none => simp [hnode] at h
  | some node =>
    have hschema : ctx.unbound.schema = ctx.schema := rfl
    have hscope : ctx.unbound.scope none = .empty := rfl
    simp only [hnode, hschema, hscope, hdefinition, Option.bind_eq_bind, Option.bind_some,
      Schema.coerceDirective, harguments, coerceArguments_singleton] at h ⊢
    cases hread : ctx.schema.coerceArgument .empty node.item.arguments node.span d with
    | error e => simp [hread, Except.map, Except.toOption] at h
    | ok read =>
      obtain ⟨b', rfl, hall⟩ := coerceArgument_condition hboolean hd hread
      rw [hread] at h
      rw [hall]
      exact h

theorem isExcluded_of_unbound (hschema : ctx.schema.ReadsConditions)
    {directives : List (Located Directive)} (h : ctx.isExcluded none directives = false) :
    ctx.unbound.isExcluded none directives = false := by
  by_contra hexcluded
  have hexcluded : ctx.unbound.isExcluded none directives = true := by simpa using hexcluded
  rw [isExcluded_eq, Bool.or_eq_true, beq_iff_eq, beq_iff_eq] at hexcluded
  rw [isExcluded_eq, Bool.or_eq_false_iff, beq_eq_false_iff_ne, beq_eq_false_iff_ne] at h
  rcases hexcluded with hskip | hinclude
  · exact h.1 (condition?_of_unbound hschema.boolean hschema.skipped rfl ⟨rfl, rfl⟩ hskip)
  · exact h.2 (condition?_of_unbound hschema.boolean hschema.included rfl ⟨rfl, rfl⟩ hinclude)

theorem Reaches.unbind (hschema : ctx.schema.ReadsConditions) {x : Selection} {u : FieldUse}
    (h : ctx.Reaches x u) : ctx.unbound.Reaches x u := by
  induction h with
  | field h => exact .field (isExcluded_of_unbound hschema h)
  | inline h hx _ ih => exact .inline ⟨isExcluded_of_unbound hschema h.included, h.applies⟩ hx ih
  | spread h hf hx _ ih => exact .spread (isExcluded_of_unbound hschema h) hf hx ih

end CollectionContext

/-! ## Selections that are not deferred -/

namespace Selection

mutual

/-- Whether no fragment is deferred, as far as the fields of one object are concerned. -/
def isPrompt : Selection → Bool
  | .field _ _ _ => true
  | .spread _ s => (findDirective s.directives "defer").isNone
  | .inline _ head selections =>
    (findDirective head.directives "defer").isNone && arePrompt selections

def arePrompt : List Selection → Bool
  | [] => true
  | selection :: rest => selection.isPrompt && arePrompt rest

end

end Selection

namespace CollectionContext

variable {ctx : CollectionContext σ}

/-- Whether fragments neither defer anything nor declare variables. -/
def PlainFragments (fragments : List Fragment) : Prop :=
  ∀ f ∈ fragments, f.variableDefinitions = none ∧ Selection.arePrompt f.selections

theorem Collects.deferred_eq (hfragments : PlainFragments ctx.fragments)
    {fragmentVariables : Option FragmentVariables} {selections : List Selection} {s s' : Collecting}
    (h : ctx.Collects fragmentVariables selections s s') (hprompt : Selection.arePrompt selections) :
    s'.found.deferred = s.found.deferred := by
  have hfragment {name : String} {f : Fragment}
      (h : some f = (findFragment ctx.fragments name).filter fun f =>
        ctx.schema.conditionApplies f.typeCondition.item ctx.object) :
      Selection.arePrompt f.selections :=
    (hfragments f (mem_of_findFragment (Option.filter_eq_some_iff.mp h.symm).1)).2
  induction h with
  | nil => rfl
  | skip _ _ ih => exact ih (Bool.and_eq_true_iff.mp hprompt).2
  | field _ _ ih => exact ih (Bool.and_eq_true_iff.mp hprompt).2
  | inline _ _ _ _ ihInner ih =>
    obtain ⟨hfirst, hrest⟩ := Bool.and_eq_true_iff.mp hprompt
    rw [ih hrest, ihInner (Bool.and_eq_true_iff.mp hfirst).2]
  | inlineDeferred _ hlabel _ _ _ _ =>
    obtain ⟨hfirst, -⟩ := Bool.and_eq_true_iff.mp hprompt
    simp [deferLabel?_none (Bool.and_eq_true_iff.mp hfirst).1] at hlabel
  | nothing _ _ ih =>
    rw [ih (Bool.and_eq_true_iff.mp hprompt).2]
    unfold entering
    split <;> rfl
  | spread h _ _ _ ihInner ih =>
    rw [ih (Bool.and_eq_true_iff.mp hprompt).2, ihInner (hfragment h.found)]
    rfl
  | spreadDeferred _ hlabel _ _ _ _ =>
    obtain ⟨hfirst, -⟩ := Bool.and_eq_true_iff.mp hprompt
    simp [deferLabel?_none hfirst] at hlabel

theorem not_postpones {selections : List Selection} (hprompt : Selection.arePrompt selections)
    (name : String) : ¬ ctx.Postpones selections name := by
  rintro ⟨-, spread, hspread, -, fragmentVariables, -, hlabel⟩
  suffices h : (findDirective spread.directives "defer").isNone by
    simp [deferLabel?_none h] at hlabel
  induction selections using Selection.induct with
  | nil => cases hspread
  | field span head selections rest _ ih => exact ih (Bool.and_eq_true_iff.mp hprompt).2 hspread
  | spread span spread rest ih =>
    obtain ⟨hfirst, hrest⟩ := Bool.and_eq_true_iff.mp hprompt
    rcases List.mem_cons.mp hspread with rfl | hspread
    · simpa [Selection.isPrompt] using hfirst
    · exact ih hrest hspread
  | inline span head selections rest ihInner ih =>
    obtain ⟨hfirst, hrest⟩ := Bool.and_eq_true_iff.mp hprompt
    rcases List.mem_append.mp hspread with hspread | hspread
    · exact ihInner (Bool.and_eq_true_iff.mp hfirst).2 hspread
    · exact ih hrest hspread

theorem descends_of_plain (hfragments : PlainFragments ctx.fragments) : ctx.Descends (fun _ => 0) 0 := by
  have hnever (name other : String) : ¬ ctx.PostponesIn name other := by
    rintro ⟨f, hf, hother⟩
    have hmem := mem_of_findFragment (Option.filter_eq_some_iff.mp hf).1
    exact not_postpones (hfragments f hmem).2 other hother
  exact ⟨fun name other h => absurd h (hnever name other), fun name other h => absurd h (hnever name other)⟩

theorem exists_collectFields (hfragments : PlainFragments ctx.fragments) {depth : Nat}
    {selections : List Selection} (hprompt : Selection.arePrompt selections)
    (hdepth : ctx.fragments.length < depth) :
    ∃ collected, ctx.collectFields depth selections = some collected := by
  have hleft : ctx.unvisited [] ≤ ctx.fragments.length := List.countP_le_length
  obtain ⟨s, hs⟩ := succeeds_collectWithin (descends_of_plain hfragments) depth selections none .start 0
    (fun name h => absurd h (not_postpones hprompt name)) (Nat.le_refl _)
    (by simpa [Collecting.start] using Nat.lt_of_le_of_lt hleft hdepth)
  exact ⟨s.found, by simp [collectFields, hs]⟩

end CollectionContext

/-! ## What is collected later was collected before -/

namespace CollectionContext

variable {ctx : CollectionContext σ}

/-- A use that is collected with some values of the variables is collected, under the same key,
before they have any. -/
theorem exists_group_of_unbound (hschema : ctx.schema.ReadsConditions)
    (hfragments : PlainFragments ctx.fragments) {depth checkDepth : Nat}
    {selections : List Selection} (hprompt : Selection.arePrompt selections)
    {collected known : Collected} (h : ctx.collectFields depth selections = some collected)
    (hknown : ctx.unbound.collectFields checkDepth selections = some known) {key : String}
    {uses : List FieldUse} (hgroup : (key, uses) ∈ collected.groups) {use : FieldUse}
    (huse : use ∈ uses) :
    ∃ others, (key, others) ∈ known.groups ∧ use ∈ others := by
  have hvariables : ∀ f ∈ ctx.fragments, f.variableDefinitions = none :=
    fun f hf => (hfragments f hf).1
  obtain ⟨visited, hcollects⟩ := collects_of_collectFields h
  obtain ⟨visited₀, hcollects₀⟩ := collects_of_collectFields hknown
  obtain ⟨x, hx, hreaches⟩ := (hcollects.explored hvariables).has_iff.mp (.group hgroup huse)
  have hreaches := hreaches.unbind hschema
  have hfragments₀ : PlainFragments ctx.unbound.fragments := hfragments
  have hvariables₀ : ∀ f ∈ ctx.unbound.fragments, f.variableDefinitions = none := hvariables
  have hdeferred : known.deferred = [] := hcollects₀.deferred_eq hfragments₀ hprompt
  cases (hcollects₀.explored hvariables₀).has_iff.mpr ⟨x, hx, hreaches⟩ with
  | deferred hfragment => simp [hdeferred] at hfragment
  | @group _ key' others _ hgroup' huse' =>
    have hkey : use.node.responseKey = key := ((hcollects.grouped .empty).uses hgroup).2 use huse
    have hkey' : use.node.responseKey = key' :=
      ((hcollects₀.grouped .empty).uses hgroup').2 use huse'
    obtain rfl := hkey.symm.trans hkey'
    exact ⟨others, hgroup', huse'⟩

end CollectionContext

/-! ## What the rules find -/

theorem enters_operation {d : Document} {o : Operation} (ho : o ∈ d.operations) :
    ⟨true, .operation o⟩ ∈ d.visits := by
  obtain ⟨definition, hdefinition, hmatch⟩ := List.mem_filterMap.mp ho
  cases definition with
  | fragment f => cases hmatch
  | operation o' =>
    obtain rfl := Option.some.inj hmatch
    have hvisit : (⟨true, .operation o'⟩ : VisitEvent) ∈ Definition.visits (.operation o') :=
      List.mem_cons_self
    exact List.mem_cons_of_mem _
      (List.mem_append_left _ (List.mem_flatMap.mpr ⟨_, hdefinition, hvisit⟩))

theorem checkSubscription_of_validate {schema : Schema σ} {depth : Nat} {d : Document}
    (h : validate schema depth d = some []) {o : Operation} (ho : o ∈ d.operations) :
    Rule.checkSubscription ⟨schema, d.fragments, depth⟩ o = some [] := by
  have hwalk := walk_of_validate h
  have hrule : Rule.singleFieldSubscriptions ∈ (RuleSet.ofRules Rule.all).map Prod.fst := by decide
  obtain ⟨memory, memory', hfollow⟩ := RuleSet.walk_nil hwalk (enters_operation ho) hrule
  obtain ⟨errors, herrors, heq⟩ := Option.map_eq_some_iff.mp hfollow
  rw [herrors, (Prod.mk.inj heq).2]

theorem rootFieldErrors_nil {name : Option String} {groups : FieldGroups}
    (h : Rule.rootFieldErrors name groups = []) :
    groups.length ≤ 1 ∧ ∀ key use uses, (key, use :: uses) ∈ groups →
      use.node.name.item.startsWith "__" = false := by
  obtain ⟨hlength, hnames⟩ := List.append_eq_nil_iff.mp h
  refine ⟨?_, fun key use uses hgroup => ?_⟩
  · by_contra hlong
    rw [if_pos (by omega)] at hlength
    cases hlength
  · have hgood := List.filter_eq_nil_iff.mp (List.map_eq_nil_iff.mp hnames) _ hgroup
    simpa using hgood

/-! ## Subscriptions -/

/-- Whether fields that are reached under one response key are one field. -/
def CollectionContext.Merges (ctx : CollectionContext σ) (selections : List Selection) : Prop :=
  ∀ x ∈ selections, ∀ y ∈ selections, ∀ u v, ctx.Reaches x u → ctx.Reaches y v →
    u.node.responseKey = v.node.responseKey → u.node.name.item = v.node.name.item

/-- A subscription of a document in which nothing is found has at most one root field, whatever the
values of its variables are, and that field is not one of introspection. This needs that nothing is
deferred, that fragments have no variables, and that fields with one response key are one field. -/
theorem subscription_hasOneField {schema : Schema σ} (hschema : schema.ReadsConditions)
    {d : Document} {checkDepth : Nat} (hvalid : validate schema checkDepth d = some [])
    {o : Operation} (ho : o ∈ d.operations) (hkind : o.kind = .subscription)
    {object : ObjectType σ} (hroot : schema.root? .subscription = some object)
    (hfragments : CollectionContext.PlainFragments d.fragments)
    (hprompt : Selection.arePrompt o.selections)
    (hmerges : CollectionContext.Merges ⟨schema, d.fragments, [], object⟩ o.selections)
    (values : Object) {depth : Nat} (hdepth : d.fragments.length < depth) :
    ∃ collected, CollectionContext.collectFields ⟨schema, d.fragments, values, object⟩ depth
        o.selections = some collected ∧
      collected.groups.length ≤ 1 ∧
      ∀ key uses, (key, uses) ∈ collected.groups →
        ∀ use ∈ uses, use.node.name.item.startsWith "__" = false := by
  let ctx : CollectionContext σ := ⟨schema, d.fragments, values, object⟩
  have hcheck := checkSubscription_of_validate hvalid ho
  simp only [Rule.checkSubscription, hkind, hroot] at hcheck
  obtain ⟨known, hknown, hcheck⟩ := Option.bind_eq_some_iff.mp hcheck
  obtain ⟨hone, hnames⟩ := rootFieldErrors_nil (Option.some.inj hcheck)
  have hcollects : ∃ collected, ctx.collectFields depth o.selections = some collected :=
    CollectionContext.exists_collectFields hfragments hprompt hdepth
  obtain ⟨collected, hcollected⟩ := hcollects
  have hgroups := fun key uses (hgroup : (key, uses) ∈ collected.groups) use (huse : use ∈ uses) =>
    CollectionContext.exists_group_of_unbound hschema hfragments hprompt hcollected hknown hgroup huse
  obtain ⟨_, hcollects⟩ := CollectionContext.collects_of_collectFields hcollected
  obtain ⟨_, hcollects₀⟩ := CollectionContext.collects_of_collectFields hknown
  have hgrouped : collected.Grouped := hcollects.grouped .empty
  refine ⟨collected, hcollected, ?_, fun key uses hgroup use huse => ?_⟩
  · have hkeys : collected.groups.map Prod.fst ⊆ known.groups.map Prod.fst := by
      intro key hkey
      obtain ⟨⟨_, uses⟩, hgroup, rfl⟩ := List.mem_map.mp hkey
      obtain ⟨use, huse⟩ := List.exists_mem_of_ne_nil _ (hgrouped.uses hgroup).1
      obtain ⟨others, hothers, _⟩ := hgroups _ uses hgroup use huse
      exact List.mem_map.mpr ⟨_, hothers, rfl⟩
    have hlength := (hgrouped.keys.subperm hkeys).length_le
    rw [List.length_map, List.length_map] at hlength
    omega
  · obtain ⟨others, hothers, huse'⟩ := hgroups key uses hgroup use huse
    cases others with
    | nil => cases huse'
    | cons first others =>
      have hreached : ∀ u ∈ first :: others, u.node.responseKey = key ∧
          ∃ x ∈ o.selections,
            CollectionContext.Reaches ⟨schema, d.fragments, [], object⟩ x u := fun u hu =>
        ⟨((hcollects₀.grouped .empty).uses hothers).2 u hu,
          (hcollects₀.explored fun f hf => (hfragments f hf).1).has_iff.mp (.group hothers hu)⟩
      obtain ⟨hkey, x, hx, hreaches⟩ := hreached use huse'
      obtain ⟨hkey', y, hy, hreaches'⟩ := hreached first List.mem_cons_self
      rw [hmerges x hx y hy use first hreaches hreaches' (hkey.trans hkey'.symm)]
      exact hnames key first others hothers

/-! ## Small subscriptions -/

def sampleFeed : ObjectType σ where
  name := "Subscription"
  fields := .given [
    { name := "message", type := .named "String" },
    { name := "other", type := .named "String" }]

def sampleFeeds : Schema σ where
  description := none
  queryType := "Query"
  mutationType := none
  subscriptionType := some "Subscription"
  types := [
    .object { name := "Query", fields := .given [{ name := "name", type := .named "String" }] },
    .object sampleFeed] ++ ScalarType.builtins.map .scalar
  directives := DirectiveDefinition.builtins
  types_nodup := by
    change (["Query", "Subscription"] ++ ScalarType.builtins.map (·.name)).Nodup
    decide
  directives_nodup := DirectiveDefinition.builtins_names_nodup

def sampleSubscription (selections : List Selection) : Operation where
  span := default
  kind := .subscription
  name := none
  variableDefinitions := some (.nowhere [sampleVariable "x" (.nonNullNamed "Boolean") none])
  directives := []
  selections

def sampleMessage (name : String) : Selection := .field default ⟨none, .nowhere name, none, []⟩ []

/-- The directive called `name` with `(if: $x)`. -/
def sampleIf (name : String) : Located Directive :=
  .nowhere ⟨.nowhere name, some (.nowhere [sampleArgument "if" (.variable "x")])⟩

/-- `fragment Messages on Subscription { message }` -/
def sampleMessages : Fragment :=
  ⟨default, .nowhere "Messages", none, .nowhere "Subscription", [], [sampleMessage "message"]⟩

/-- `subscription($x: Boolean!) { ...Messages @include(if: $x) message }` -/
def sampleIncluding : Operation :=
  sampleSubscription
    [.spread default ⟨.nowhere "Messages", none, [sampleIf "include"]⟩, sampleMessage "message"]

theorem sampleIncluding_reaches {x : Selection} (hx : x ∈ sampleIncluding.selections)
    {u : FieldUse} (h : CollectionContext.Reaches
      ⟨(sampleFeeds : Schema Unit), [sampleMessages], [], sampleFeed⟩ x u) :
    u.node.name.item = "message" := by
  have hfield : ∀ {u : FieldUse}, CollectionContext.Reaches
      ⟨(sampleFeeds : Schema Unit), [sampleMessages], [], sampleFeed⟩ (sampleMessage "message") u →
      u.node.name.item = "message" := by
    intro u h
    cases h
    rfl
  simp only [sampleIncluding, sampleSubscription, List.mem_cons, List.not_mem_nil, or_false] at hx
  rcases hx with rfl | rfl
  · cases h with
    | spread _ hf hx hrest =>
      obtain rfl := List.mem_singleton.mp (Option.some.inj hf ▸ hx)
      exact hfield hrest
  · exact hfield h

theorem sampleIncluding_hasOneField :
    validate (sampleFeeds : Schema Unit) 9 [.operation sampleIncluding, .fragment sampleMessages] =
        some [] ∧
      ∃ collected, CollectionContext.collectFields
          ⟨(sampleFeeds : Schema Unit), [sampleMessages], [("x", .boolean true)], sampleFeed⟩ 9
          sampleIncluding.selections = some collected ∧
        collected.groups.length ≤ 1 ∧
        ∀ key uses, (key, uses) ∈ collected.groups →
          ∀ use ∈ uses, use.node.name.item.startsWith "__" = false := by
  have hvalid : validate (sampleFeeds : Schema Unit) 9
      [.operation sampleIncluding, .fragment sampleMessages] = some [] := by decide +kernel
  have hfragments : CollectionContext.PlainFragments
      (Document.fragments [.operation sampleIncluding, .fragment sampleMessages]) := by
    intro f hf
    obtain rfl := List.mem_singleton.mp hf
    exact ⟨rfl, rfl⟩
  refine ⟨hvalid, subscription_hasOneField ⟨rfl, rfl, rfl⟩ hvalid List.mem_cons_self rfl rfl
    hfragments rfl ?_ [("x", .boolean true)] (by decide)⟩
  intro x hx y hy u v hu hv _
  rw [sampleIncluding_reaches hx hu, sampleIncluding_reaches hy hv]

/-- `subscription($x: Boolean!) { message ... @defer(if: $x) { other } }` -/
def sampleDeferring : Operation :=
  sampleSubscription
    [sampleMessage "message", .inline default ⟨none, [sampleIf "defer"]⟩ [sampleMessage "other"]]

/-- A fragment whose `@defer` has a variable as its condition counts as deferred in the check, and
adds a second root field when the variable turns out to be false. -/
theorem sampleDeferring_twoFields :
    validate (sampleFeeds : Schema Unit) 9 [.operation sampleDeferring] = some [] ∧
      (sampleFeeds : Schema Unit).coerceVariables sampleDeferring.variableList
        [("x", .boolean false)] 9 = .ok [("x", .boolean false)] ∧
      (CollectionContext.collectFields
          ⟨(sampleFeeds : Schema Unit), [], [("x", .boolean false)], sampleFeed⟩ 9
          sampleDeferring.selections).map (fun collected => collected.groups.map Prod.fst) =
        some ["message", "other"] :=
  ⟨by decide +kernel, rfl, by decide +kernel⟩

end GraphQL
