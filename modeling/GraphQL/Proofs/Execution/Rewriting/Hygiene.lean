import GraphQL.Proofs.Execution.Collection.FragmentScopes
import GraphQL.Proofs.Execution.Rewriting.Transparency
import GraphQL.Proofs.Coercion.VariableUse

/-! # Variables of fragments are hygienic

The name of a variable that a fragment declares is nobody's business but the fragment's own. Where it is
given a name that the document does not have, inside of the fragment and in the arguments of its spreads,
the document answers the same.
-/

namespace GraphQL

variable {σ : Type}

/-! ## Fields whose variables have other names -/

section

variable {t : VariableRenaming} {values : Object} {plan plan' : FieldPlan σ}

theorem view_argumentError {α : Type} {x x' : Except ArgumentError α} (path : Path)
    (h : x.mapError Located.span = x'.mapError Located.span) :
    (x.mapError (·.at path)).mapError ExecutionError.withoutMessage =
      (x'.mapError (·.at path)).mapError ExecutionError.withoutMessage := by
  have hview (y : Except ArgumentError α) :
      (y.mapError (·.at path)).mapError ExecutionError.withoutMessage =
        (y.mapError Located.span).mapError fun span => ⟨[span.start], path, .ofMessage ""⟩ := by
    cases y <;> rfl
  rw [hview, hview, h]

namespace FieldPlan

variable (h : plan.Resembles (.ofRenaming t values) plan')

include h

theorem use_renames : plan.use.Renames t values plan'.use := (List.forall₂_cons.mp h.uses).1

theorem error_renamed (path : Path) (e : FieldError) : plan.error path e = plan'.error path e := by
  have hspans : plan.uses.map (·.node.span.start) = plan'.uses.map (·.node.span.start) := by
    have huses : List.Forall₂ (FieldUse.Renames t values) plan.uses plan'.uses := h.uses
    generalize plan.uses = uses, plan'.uses = uses' at huses ⊢
    induction huses with
    | nil => rfl
    | cons huse _ ih =>
      cases huse
      exact congrArg (_ :: ·) ih
  exact congrArg (ExecutionError.mk · path e) hspans

end FieldPlan

end

section

variable {t : VariableRenaming} {ctx : ExecutionContext σ} {plan plan' : FieldPlan σ}
  (h : plan.Resembles (.ofRenaming t ctx.variableValues) plan') (path : Path)

include h

theorem FieldPlan.arguments_renamed :
    (plan.arguments ctx path).mapError ExecutionError.withoutMessage =
      (plan'.arguments (ctx.rewrite t.rewriting) path).mapError ExecutionError.withoutMessage := by
  have huse := FieldPlan.use_renames h
  unfold FieldPlan.arguments FieldPlan.scope FieldPlan.node
  rw [← h.field]
  generalize plan.use = use, plan'.use = use' at huse ⊢
  obtain ⟨hfollows, hhead, -⟩ := huse
  have harguments := Arguments.follow_of_fresh hfollows fun hmem => hhead (List.mem_append_left _ hmem)
  exact view_argumentError path (coerceArguments_renamed harguments _ _).symm

theorem FieldPlan.streaming_renamed :
    (plan.streaming path ctx).mapError ExecutionError.withoutMessage =
      (plan'.streaming path (ctx.rewrite t.rewriting)).mapError ExecutionError.withoutMessage := by
  have huse := FieldPlan.use_renames h
  have hproblem : plan.problem path .negativeInitialCount =
      plan'.problem path .negativeInitialCount := FieldPlan.error_renamed h path _
  unfold FieldPlan.streaming FieldPlan.scope FieldPlan.node
  rw [hproblem]
  generalize plan.use = use, plan'.use = use' at huse ⊢
  obtain @⟨node, fv, fv', vars, hfollows, hhead, -⟩ := huse
  have hfound : findDirective (node.renamed t vars).directives "stream" =
      (findDirective node.directives "stream").map (Located.map (Directive.renamed vars)) :=
    findDirective_renamed vars node.directives "stream"
  have hdirectives : t.new ∉ namesInDirectives node.directives := fun hmem =>
    hhead (List.mem_append_right _ hmem)
  dsimp only [ExecutionContext.rewrite] at hfound ⊢
  rw [hfound]
  cases hnode : findDirective node.directives "stream" with
  | none => rfl
  | some directive =>
    cases ctx.schema.directive? "stream" with
    | none => rfl
    | some definition =>
      have hcoerced := coerceDirective_renamed ctx.schema hfollows hdirectives
        (List.mem_of_find?_eq_some hnode) definition
      exact mapError_bind_congr (view_argumentError path hcoerced.symm) fun _ => rfl

end

/-- The fields that are executed are the same, where no name is taken by the new one. -/
theorem faithful_renaming {t : VariableRenaming} {ctx : ExecutionContext σ}
    (hfragments : t.Applies ctx.fragments) (hnew : t.new ∉ Selection.namesInAll ctx.operation.selections) :
    t.rewriting.Faithful (.ofRenaming t ctx.variableValues) ctx where
  name huses := by
    cases huses with
    | nil => rfl
    | cons huse _ =>
      cases huse
      rfl
  error h path e := congrArg ExecutionError.withoutMessage (FieldPlan.error_renamed h path e)
  arguments h path := FieldPlan.arguments_renamed h path
  streaming h path := FieldPlan.streaming_renamed h path
  rootFields object := CollectionContext.collectFields_renamed
    ⟨ctx.schema, ctx.fragments, ctx.variableValues, object⟩ hfragments _ hnew
  subfields huses object := CollectionContext.collectSubfields_renamed
    ⟨ctx.schema, ctx.fragments, ctx.variableValues, object⟩ hfragments _ huses

/-! ## Responses -/

namespace Request

/-- The same request with another name for a variable of a fragment. -/
def renamed (t : VariableRenaming) (r : Request σ) : Request σ :=
  { r with document := r.document.rewrite t.rewriting }

/-- Whatever the callbacks make of the source and the arguments of a field, its name and its place, a
request is answered the same when a variable that a fragment declares is given a name that the document
does not have: in the variables and the selections of the fragment, in the arguments of its spreads, and
nowhere else. All payloads have the same data, and the same errors in the same order, but for their
messages. So a variable of a fragment is not seen outside of it, and no other one of its name inside. -/
theorem fragmentVariables_hygienic {r : Request σ} (hcallbacks : r.OverlooksDocument)
    {t : VariableRenaming} {f : Fragment} (hf : findFragment r.document.fragments t.fragment = some f)
    (hold : t.old ∈ VariableDefinition.namesOf f.variableDefinitions)
    (hnew : t.new ∉ r.document.variableNames) (w : World σ) :
    Option.Rel (fun answer answer' =>
        answer.1.SameUpTo ExecutionError.withoutMessage answer'.1 ∧ answer.2 = answer'.2)
      (r.executeIncrementally w) ((r.renamed t).executeIncrementally w) ∧
    (r.execute w).map (Prod.map (ExecutionResult.mapErrors ExecutionError.withoutMessage) id) =
      ((r.renamed t).execute w).map
        (Prod.map (ExecutionResult.mapErrors ExecutionError.withoutMessage) id) := by
  have hfragments : t.Applies r.document.fragments := by
    refine ⟨fun g hg => Option.some.inj (hf.symm.trans hg) ▸ hold, fun g hg hmem => hnew ?_⟩
    exact List.mem_append_right _ (List.mem_flatMap.mpr ⟨g, hg, hmem⟩)
  have hoperations : ∀ o ∈ r.document.operations, t.new ∉ Selection.namesInAll o.selections :=
    fun o ho hmem => hnew <| List.mem_append_left _ <|
      List.mem_flatMap.mpr ⟨o, ho, List.mem_append_right _ hmem⟩
  -- Fields see the values that variables are coerced to. A request that is refused has none.
  have hfaithful : ∃ values, ∀ ctx root, r.prepare = .ok (ctx, root) →
      t.rewriting.Faithful (.ofRenaming t values) ctx := by
    cases hprepare : r.prepare with
    | error e => exact ⟨[], fun _ _ hctx => by cases hctx⟩
    | ok prepared =>
      refine ⟨prepared.1.variableValues, fun ctx root hctx => ?_⟩
      obtain rfl := Except.ok.inj hctx
      obtain ⟨operation, values, hoperation, -, rfl⟩ := exists_of_prepare hprepare
      exact faithful_renaming hfragments (hoperations operation (mem_of_chooseOperation hoperation))
  obtain ⟨values, hfaithful⟩ := hfaithful
  exact ⟨executeIncrementally_rewrite hcallbacks hfaithful w, execute_rewrite hcallbacks hfaithful w⟩

end Request

/-! ## A request with variables of the same name -/

/-- `@include(if: $shown)` -/
def sampleShown : Located Directive :=
  sampleText ⟨sampleText "include", some (.nowhere [sampleArgument "if" (.variable "shown")])⟩

/-- `query ($shown: Boolean) { ...Outer(shown: true) }`, sent `{ shown: false }`, where `Outer` declares
`$shown` itself, and is `{ name @include(if: $shown) ...Inner }`. `Inner` does not declare it, and is
`{ friend @include(if: $shown) { name } }`. -/
def sampleShadowing : Request Unit where
  schema := sampleSpreads.schema
  document := [
    .operation { sampleOperation with
      variableDefinitions := some (.nowhere [sampleVariable "shown" (.named "Boolean") none])
      selections := [.spread default
        ⟨sampleText "Outer", some (.nowhere [sampleArgument "shown" (.boolean true)]), []⟩] },
    .fragment { sampleFragment "Outer" [sampleField "name" [sampleShown], sampleSpread "Inner"] with
      variableDefinitions := some (.nowhere [sampleVariable "shown" (.named "Boolean") none]) },
    .fragment (sampleFragment "Inner" [
      .field default ⟨none, sampleText "friend", none, [sampleShown]⟩ [sampleField "name" []]])]
  variableValues := [("shown", .boolean false)]
  fieldResolver := some shyResolver
  bounds := ⟨5, 5, 50⟩

theorem sampleShadowing_renamed :
    ∃ result result' v, sampleShadowing.execute sampleWorld = some (result, v) ∧
      (sampleShadowing.renamed ⟨"Outer", "shown", "seen"⟩).execute sampleWorld = some (result', v) ∧
      (result.data.map (·.map Prod.fst), result.errors.map (·.path.segments)) =
        (some ["name"], [[.key "name"]]) ∧
      result'.mapErrors ExecutionError.withoutMessage =
        result.mapErrors ExecutionError.withoutMessage := by
  have hanswered : (sampleShadowing.execute sampleWorld).any fun (result, _) =>
      (result.data.map (·.map Prod.fst), result.errors.map (·.path.segments)) =
        (some ["name"], [[.key "name"]]) := by decide +kernel
  obtain ⟨⟨result, v⟩, h, hresult⟩ := (Option.any_eq_true _ _).mp hanswered
  have hcallbacks : sampleShadowing.OverlooksDocument :=
    ⟨sampleSpreads_overlooksDocument.schema, sampleSpreads_overlooksDocument.fieldResolver, nofun⟩
  obtain ⟨-, hsame⟩ := Request.fragmentVariables_hygienic hcallbacks
    (t := ⟨"Outer", "shown", "seen"⟩) rfl (by decide) (by decide) sampleWorld
  rw [h] at hsame
  obtain ⟨⟨result', v'⟩, h', hrenamed⟩ := Option.map_eq_some_iff.mp hsame.symm
  obtain ⟨hresult', hv⟩ := Prod.mk.inj hrenamed
  obtain rfl : v' = v := hv
  exact ⟨result, result', v', h, h', of_decide_eq_true hresult, hresult'⟩

end GraphQL
