import GraphQL.Proofs.Execution.Completion.CleanData
import GraphQL.Proofs.Execution.Timing.Responses

/-! # Parts of work

When some of a request is delivered later, its executor completes a part of what it would complete at
once: the same fields of the same objects with the same values, but fewer of them at a time.
-/

namespace GraphQL

open Process

variable {σ : Type} {I J : World σ → Prop} {ctx : ExecutionContext σ} {root : ObjectType σ}

namespace ExecutionContext

/-- The arguments of a field where it is used, if they are valid. -/
def argumentsAt (ctx : ExecutionContext σ) (field : FieldDefinition σ) (use : FieldUse) :
    Option Object :=
  (ctx.schema.coerceArguments ⟨ctx.variableValues, use.fragmentVariables⟩ use.node.arguments
    use.node.span field.arguments).toOption

/-- Whether fields that share a response key on one object ask the same. -/
def Consistent (ctx : ExecutionContext σ) (root : ObjectType σ) : Prop :=
  ∀ path object collected key uses, Declared ctx root path (.fields object collected) →
    (key, uses) ∈ collected.groups → ∀ use ∈ uses, ∀ use' ∈ uses,
      use.node.name.item = use'.node.name.item ∧
      ∀ field, object.field? use.node.name.item = some field →
        ctx.argumentsAt field use = ctx.argumentsAt field use'

end ExecutionContext

/-! ## Work and its parts -/

namespace Work

/-- Whether work is about a use of a field. -/
def Selects : Work σ → FieldUse → Prop
  | fields _ _ collected, u => collected.Has u
  | field _ _ uses, u => u ∈ uses
  | value plan _ _, u => u ∈ plan.uses

/-- Whether work is about the same values, up to timing. -/
inductive Alike : Work σ → Work σ → Prop
  | fields {object source source' collected collected'} (h : source.timeless = source'.timeless) :
    Alike (.fields object source collected) (.fields object source' collected')
  | field {object source source' uses uses'} (h : source.timeless = source'.timeless) :
    Alike (.field object source uses) (.field object source' uses')
  | value {plan plan' t v v'} (h : v.timeless = v'.timeless) :
    Alike (.value plan t v) (.value plan' t v')

/-- Whether some work is a part of other work on the plain document. -/
structure PartOf (work whole : Work σ) : Prop where
  alike : work.Alike whole
  selects : ∀ u, work.Selects u → u.fragmentVariables = none ∧ whole.Selects u.plain

/-- Whether work is declared at a path. -/
def Declared (ctx : ExecutionContext σ) (root : ObjectType σ) (path : Path) : Work σ → Prop
  | fields object _ collected => GraphQL.Declared ctx root path (.fields object collected)
  | field object _ uses => ∃ above key i collected, path = above.key key i ∧
    GraphQL.Declared ctx root above (.fields object collected) ∧
    collected.groups[i]? = some (key, uses)
  | value plan t _ => GraphQL.Declared ctx root path (.value plan.uses t)

end Work

def Place.Selects : Place σ → FieldUse → Prop
  | fields _ collected, u => collected.Has u
  | value uses _, u => u ∈ uses

theorem Declared.unbound (hvariables : ∀ f ∈ ctx.fragments, f.variableDefinitions = none)
    {path : Path} {place : Place σ} (h : Declared ctx root path place) :
    ∀ u, place.Selects u → u.fragmentVariables = none := by
  induction h with
  | root hcollected =>
    exact fun u hu => ((ExecutionContext.has_rootFields hvariables hcollected).mp hu).unbound
  | deferred _ hfragment ih => exact fun u hu => ih u (.deferred hfragment hu)
  | field _ hgroup _ ih => exact fun u hu => ih u (.group (List.mem_of_getElem? hgroup) hu)
  | item _ _ _ ih => exact ih
  | object _ _ _ hcollected ih =>
    intro u hu
    obtain ⟨_, -, hselects⟩ := (ExecutionContext.has_subfields hvariables ih hcollected).mp hu
    exact hselects.unbound

/-! ## Fields -/

section

variable {object : ObjectType σ} {source source' : HostValue} {collected collected' : Collected}
  {key : String} {uses uses' : List FieldUse}

theorem eq_of_mem_groups (h : collected.Grouped) (hgroup : (key, uses) ∈ collected.groups)
    (hgroup' : (key, uses') ∈ collected.groups) : uses = uses' :=
  congrArg Prod.snd (List.inj_on_of_nodup_map h.keys hgroup hgroup' rfl)

theorem mem_group_of_has (h : collected.Grouped) (hdeferred : collected.deferred = [])
    {u : FieldUse} (hu : collected.Has u) :
    ∃ uses, (u.node.responseKey, uses) ∈ collected.groups ∧ u ∈ uses := by
  cases hu with
  | group hgroup huse =>
    obtain rfl := (h.uses hgroup).2 _ huse
    exact ⟨_, hgroup, huse⟩
  | deferred hfragment => simp [hdeferred] at hfragment

namespace Work.PartOf

theorem exists_group
    (h : (Work.fields object source collected).PartOf (.fields object source' collected'))
    (hgrouped : collected.Grouped) (hgrouped' : collected'.Grouped)
    (hdeferred : collected'.deferred = []) (hgroup : (key, uses) ∈ collected.groups) :
    ∃ uses', (key, uses') ∈ collected'.groups ∧
      (Work.field object source uses).PartOf (.field object source' uses') := by
  obtain ⟨hne, hkeys⟩ := hgrouped.uses hgroup
  obtain ⟨first, hfirst⟩ := List.exists_mem_of_ne_nil uses hne
  obtain ⟨uses', hgroup', -⟩ :=
    mem_group_of_has hgrouped' hdeferred (h.selects first (.group hgroup hfirst)).2
  change (first.node.responseKey, uses') ∈ _ at hgroup'
  rw [hkeys first hfirst] at hgroup'
  have hsource : source.timeless = source'.timeless := by
    cases h.alike with
    | fields h => exact h
  refine ⟨uses', hgroup', .field hsource, fun u hu => ?_⟩
  obtain ⟨hunbound, hhas⟩ := h.selects u (.group hgroup hu)
  obtain ⟨others, hothers, hmem⟩ := mem_group_of_has hgrouped' hdeferred hhas
  change (u.node.responseKey, others) ∈ _ at hothers
  rw [hkeys u hu] at hothers
  exact ⟨hunbound, eq_of_mem_groups hgrouped' hothers hgroup' ▸ hmem⟩

end Work.PartOf

end

/-! ## Values of fields -/

section

variable (hI : Calm I) (hJ : Calm J) (hctx : ctx.Steady View.source)

/-- All uses of a field on one object ask the same as the one that counts. -/
theorem Work.PartOf.same_arguments {object : ObjectType σ} {source source' : HostValue}
    {use use' : FieldUse} {others others' : List FieldUse} {path' : Path}
    (hconsistent : ctx.plain.Consistent root)
    (h : (Work.field object source (use :: others)).PartOf (.field object source' (use' :: others')))
    (hwhole : (Work.field object source' (use' :: others')).Declared ctx.plain root path') :
    use.node.name.item = use'.node.name.item ∧
      ∀ field, object.field? use.node.name.item = some field →
        ctx.argumentsAt field use = ctx.plain.argumentsAt field use' := by
  obtain ⟨above, key, i, collected, rfl, hplace, hgroup⟩ := hwhole
  exact hconsistent _ _ _ _ _ hplace (List.mem_of_getElem? hgroup) use.plain
    (h.selects use List.mem_cons_self).2 use' List.mem_cons_self

theorem argumentsAt_of_arguments {plan : FieldPlan σ} {path : Path} {args : Object}
    (h : plan.arguments ctx path = .ok args) : ctx.argumentsAt plan.field plan.use = some args := by
  unfold FieldPlan.arguments at h
  unfold ExecutionContext.argumentsAt
  change (Schema.coerceArguments _ (plan.scope ctx) _ _ _).toOption = _
  cases hargs : ctx.schema.coerceArguments (plan.scope ctx) plan.node.arguments plan.node.span
    plan.field.arguments with
  | error e => simp [hargs, Except.mapError] at h
  | ok found =>
    obtain rfl : found = args := by simpa [hargs, Except.mapError] using h
    simp [FieldPlan.node] at hargs
    rw [hargs]
    rfl

include hI hJ hctx

theorem resolved_same {parent : ObjectType σ} {field : FieldDefinition σ} {use use' : FieldUse}
    {others others' : List FieldUse} {source source' v v' : HostValue} {path path' : Path}
    (hparent : ctx.schema.Owns parent) {name : String} (hfield : parent.field? name = some field)
    (harguments : ctx.argumentsAt field use = ctx.plain.argumentsAt field use')
    (hsource : source.timeless = source'.timeless)
    (hv : Resolved I ctx ⟨parent, field, use, others⟩ source path (.ok v))
    (hv' : Resolved J ctx.plain ⟨parent, field, use', others'⟩ source' path' (.ok v')) :
    v.timeless = v'.timeless := by
  rcases resolved_cases hI hv with ⟨e, -, he⟩ | ⟨args, hargs, hv⟩
  · cases he
  rcases resolved_cases hJ hv' with ⟨e, -, he⟩ | ⟨args', hargs', hv'⟩
  · cases he
  obtain rfl : args = args' := by
    have hsame := (argumentsAt_of_arguments hargs).symm.trans
      (harguments.trans (argumentsAt_of_arguments hargs'))
    exact Option.some.inj hsame
  rcases hv with ⟨hnone, hv⟩ | ⟨resolver, y, hresolver, hy, hv⟩ <;>
    rcases hv' with ⟨hnone', hv'⟩ | ⟨resolver', y', hresolver', hy', hv'⟩
  · rw [Except.ok.inj hv, Except.ok.inj hv', ← defaultFieldValue_timeless source, hsource,
      defaultFieldValue_timeless]
  · cases hnone.symm.trans hresolver'
  · cases hresolver.symm.trans hnone'
  · obtain rfl := Option.some.inj (hresolver.symm.trans hresolver')
    have hsteady := (hctx.anywhere fun _ => True).ofField hparent hfield hresolver
    have hagree := called_agree hI hJ hsteady trivial trivial
      (by simp only [View.source, FieldPlan.info, hsource]) hy hy'
    cases y with
    | error e => cases hv
    | ok y =>
      cases y' with
      | error e => cases hv'
      | ok y' =>
        obtain rfl := Except.ok.inj hv
        obtain rfl := Except.ok.inj hv'
        exact Except.ok.inj hagree

/-- The value of a field is the same whether or not other uses of the field are left for later. -/
theorem Work.PartOf.value {object : ObjectType σ} {source source' v v' : HostValue}
    {use use' : FieldUse} {others others' : List FieldUse} {field field' : FieldDefinition σ}
    {path path' : Path} (hconsistent : ctx.plain.Consistent root)
    (howns : ctx.schema.Owns root)
    (h : (Work.field object source (use :: others)).PartOf (.field object source' (use' :: others')))
    (hwhole : (Work.field object source' (use' :: others')).Declared ctx.plain root path')
    (hfield : object.field? use.node.name.item = some field)
    (hfield' : object.field? use'.node.name.item = some field')
    (hv : Resolved I ctx ⟨object, field, use, others⟩ source path (.ok v))
    (hv' : Resolved J ctx.plain ⟨object, field', use', others'⟩ source' path' (.ok v')) :
    field = field' ∧ (Work.value ⟨object, field, use, others⟩ field.type v).PartOf
      (.value ⟨object, field', use', others'⟩ field.type v') := by
  obtain ⟨hname, harguments⟩ := h.same_arguments hconsistent hwhole
  obtain rfl : field = field' := Option.some.inj (hfield.symm.trans (hname ▸ hfield'))
  have hsource : source.timeless = source'.timeless := by
    cases h.alike with
    | field h => exact h
  obtain ⟨_, _, _, _, -, hplace, -⟩ := hwhole
  have howned : ctx.plain.schema.Owns object := hplace.owns howns
  have hsame := resolved_same hI hJ hctx howned hfield (harguments field hfield) hsource hv hv'
  exact ⟨rfl, .value hsame, h.selects⟩

end

/-! ## Objects -/

theorem runtimeObject_spec {plan : FieldPlan σ} {path : Path} {schema : Schema σ}
    {t : TypeDefinition σ} {found : Option String} {object : ObjectType σ}
    (h : plan.runtimeObject path schema t found = .ok object) :
    found.bind schema.type? = some (.object object) := by
  unfold FieldPlan.runtimeObject at h
  split at h
  · cases h
  · split at h
    · cases h
    · next o ho =>
      split at h
      · obtain rfl := Except.ok.inj h
        exact ho
      · cases h
    · cases h

theorem Schema.Allows.eq {schema : Schema σ} {name : String} {object object' : ObjectType σ}
    (h : schema.Allows name object) (hdeclared : schema.type? name = some (.object object')) :
    object = object' := by
  obtain ⟨t, ht, hpossible, hobject⟩ := h
  obtain rfl := Option.some.inj (ht.symm.trans hdeclared)
  have hname : object'.name = object.name := by simpa [Schema.isPossibleType] using hpossible
  have hdeclaredName : object'.name = name := type?_eq_some hdeclared
  rw [← hname, hdeclaredName, hdeclared] at hobject
  exact (TypeDefinition.object.inj (Option.some.inj hobject)).symm

theorem Schema.Allows.not_leaf {schema : Schema σ} {name : String} {object : ObjectType σ}
    (h : schema.Allows name object) :
    (∀ t, schema.type? name ≠ some (.scalar t)) ∧ ∀ t, schema.type? name ≠ some (.enum t) := by
  obtain ⟨t, ht, hpossible, -⟩ := h
  constructor <;> intro s hs <;> obtain rfl := Option.some.inj (ht.symm.trans hs) <;>
    simp [Schema.isPossibleType] at hpossible

section

variable (hI : Calm I) (hJ : Calm J) (hctx : ctx.Steady View.source)

include hI hJ hctx

theorem chosen_same {plan plan' : FieldPlan σ} {path path' : Path} {v v' : HostValue} {name : String}
    {object object' : ObjectType σ} (hv : v.timeless = v'.timeless)
    (h : Chosen I ctx plan path v name object)
    (h' : Chosen J ctx.plain plan' path' v' name object') : object = object' := by
  have hallows : ctx.schema.Allows name object := h.allows
  have hallows' : ctx.schema.Allows name object' := h'.allows
  cases h with
  | declared hdeclared => exact (hallows'.eq hdeclared).symm
  | resolved ht hfound hobject =>
    cases h' with
    | declared hdeclared => exact hallows.eq hdeclared
    | resolved ht' hfound' hobject' =>
      obtain rfl := Option.some.inj (ht.symm.trans ht')
      have hview (type : String) :
          View.source.type ⟨plan.info ctx path, v, type⟩ =
            View.source.type ⟨plan'.info ctx.plain path', v', type⟩ := by
        simp only [View.source, hv]
      obtain rfl := Except.ok.inj (typed_agree hI hJ trivial trivial
        (hctx.anywhere fun _ => True) ⟨rfl, rfl, rfl⟩ (Schema.mem_of_type? ht) hv hview hfound hfound')
      have hsame := (runtimeObject_spec hobject).symm.trans (runtimeObject_spec hobject')
      exact TypeDefinition.object.inj (Option.some.inj hsame)

end

variable (hvariables : ∀ f ∈ ctx.fragments, f.variableDefinitions = none)

include hvariables

theorem Work.PartOf.subfields {plan plan' : FieldPlan σ} {t : TypeRef} {v v' : HostValue}
    {path' : Path} {object : ObjectType σ} {collected collected' : Collected}
    (h : (Work.value plan t v).PartOf (.value plan' t v'))
    (hwhole : (Work.value plan' t v').Declared ctx.plain root path')
    (hcollected : ctx.subfields object plan.uses = some collected)
    (hcollected' : ctx.plain.subfields object plan'.uses = some collected') :
    (Work.fields object v collected).PartOf (.fields object v' collected') where
  alike := by
    cases h.alike with
    | value h => exact .fields h
  selects u hu := by
    have hunbound := fun use huse => (h.selects use huse).1
    obtain ⟨use, huse, hselects⟩ :=
      (ExecutionContext.has_subfields hvariables hunbound hcollected).mp hu
    have hvariables' := ExecutionContext.variableDefinitions_plain hvariables
    refine ⟨hselects.unbound, ?_⟩
    exact (ExecutionContext.has_subfields hvariables' (hwhole.unbound hvariables') hcollected').mpr
      ⟨use.plain, (h.selects use huse).2, hselects.plain⟩

theorem exists_use_of_subfields {plan : FieldPlan σ} {t : TypeRef} {v : HostValue}
    {path : Path} {object : ObjectType σ} {collected : Collected}
    (hwhole : (Work.value plan t v).Declared ctx.plain root path)
    (hcollected : ctx.plain.subfields object plan.uses = some collected) {u : FieldUse}
    (hu : collected.Has u) :
    ∃ use ∈ plan.uses, ctx.plain.Selects object use.node.selections u := by
  have hvariables' := ExecutionContext.variableDefinitions_plain hvariables
  exact (ExecutionContext.has_subfields hvariables' (hwhole.unbound hvariables') hcollected).mp hu

theorem exists_has_of_subfields {plan : FieldPlan σ} {object : ObjectType σ} {collected : Collected}
    (hunbound : ∀ use ∈ plan.uses, use.fragmentVariables = none)
    (hcollected : ctx.subfields object plan.uses = some collected) {use u' : FieldUse}
    (huse : use ∈ plan.uses) (hu : ctx.plain.Selects object use.plain.node.selections u') :
    ∃ u, collected.Has u ∧ u.plain = u' := by
  obtain ⟨u, hselects, rfl⟩ := ExecutionContext.Selects.of_plain hu
  exact ⟨u, (ExecutionContext.has_subfields hvariables hunbound hcollected).mpr
    ⟨use, huse, hselects⟩, rfl⟩

end GraphQL
