import GraphQL.Proofs.Execution.Collection.Mirroring
import GraphQL.Proofs.Execution.Rewriting.Requests

/-! # Fragments are transparent

A document answers the same when fragments are written where they are spread. As a field may then be
selected at one place several times, only the locations of errors may come again.
-/

namespace GraphQL

variable {σ : Type}

/-! ## Errors without repeated locations -/

/-- The same error, but each location only once. -/
def ExecutionError.distinct (e : ExecutionError) : ExecutionError :=
  { e with locations := e.locations.eraseDups }

def ExecutionResult.distinct (r : ExecutionResult) : ExecutionResult :=
  { r with errors := r.errors.map ExecutionError.distinct }

/-! ## Fields that are selected again -/

/-- Uses of a field where fragments are inlined are the same, and some of them again. -/
def Likeness.ofInlining (fragments : List Fragment) (rank : String → Nat) (depth : Nat) : Likeness where
  uses uses uses' := Echoes (uses.map (FieldUse.inlined fragments depth)) uses' ∧
    ∀ use ∈ uses, use.Inlinable fragments rank depth
  view := ExecutionError.distinct
  path_view _ := rfl

section

variable {fragments : List Fragment} {rank : String → Nat} {depth : Nat}

theorem Collected.Mirrors.resembles {c c' : Collected}
    (h : c.Mirrors (FieldUse.inlined fragments depth) c')
    (hinlinable : ∀ use, c.Has use → use.Inlinable fragments rank depth) :
    c.Resembles (.ofInlining fragments rank depth) c' := by
  refine .intro ?_ (by rw [h.deferred, h.deferred']; exact .nil)
  have hgroups : ∀ group ∈ c.groups, ∀ use ∈ group.2, use.Inlinable fragments rank depth :=
    fun group hgroup use huse => hinlinable use (.group hgroup huse)
  exact ((List.forall₂_and_left _ _).mpr ⟨hgroups, h.groups⟩).imp fun _ _ h => ⟨h.2.1, h.2.2, h.1⟩

namespace FieldPlan

theorem streaming_of_plain {plan : FieldPlan σ} {ctx : ExecutionContext σ} {path : Path}
    (h : plainDirectives plan.node.directives = plan.node.directives) :
    plan.streaming path ctx = .ok none := by
  rw [streaming, findDirective_of_plain h (.inr rfl)]

variable {plan plan' : FieldPlan σ} (h : plan.Resembles (.ofInlining fragments rank depth) plan')

include h

theorem use_of_inlined : plan'.use = plan.use.inlined fragments depth := Option.some.inj h.uses.1.head?

theorem error_of_inlined (path : Path) (e : FieldError) :
    (plan.error path e).distinct = (plan'.error path e).distinct := by
  have hlocations := (h.uses.1.map (·.node.span.start)).eraseDups
  rw [List.map_map] at hlocations
  exact congrArg (ExecutionError.mk · path e) hlocations.symm

theorem arguments_of_inlined (t : Rewriting) (ctx : ExecutionContext σ) (path : Path) :
    plan.arguments ctx path = plan'.arguments (ctx.rewrite t) path := by
  unfold FieldPlan.arguments scope node
  rw [use_of_inlined h, h.field]
  rfl

theorem streaming_of_inlined (ctx ctx' : ExecutionContext σ) (path : Path) :
    plan.streaming path ctx = .ok none ∧ plan'.streaming path ctx' = .ok none := by
  have hplain := (h.uses.2 plan.use List.mem_cons_self).plain
  have hplain' : plainDirectives plan'.node.directives = plan'.node.directives := by
    rw [node, use_of_inlined h]
    exact hplain
  exact ⟨streaming_of_plain hplain, streaming_of_plain hplain'⟩

end FieldPlan

end

section

variable {ctx : ExecutionContext σ} {rank : String → Nat} {depth : Nat}
  (hfragments : Layered ctx.fragments rank) (hdepth : depth < ctx.bounds.fragments)

include hfragments hdepth

theorem mirrors_rootFields (h : Ranked ctx.fragments rank depth ctx.operation.selections)
    (object : ObjectType σ) :
    ∃ c c', ctx.rootFields object = some c ∧
      (ctx.rewrite (inlining ctx.fragments depth)).rootFields object = some c' ∧
      c.Mirrors (FieldUse.inlined ctx.fragments depth) c' ∧
      ∀ use, c.Has use → use.Inlinable ctx.fragments rank depth :=
  CollectionContext.mirrors_collectFields hfragments hdepth h _

theorem mirrors_subfields {uses uses' : List FieldUse}
    (h : (Likeness.ofInlining ctx.fragments rank depth).uses uses uses') (object : ObjectType σ) :
    ∃ c c', ctx.subfields object uses = some c ∧
      (ctx.rewrite (inlining ctx.fragments depth)).subfields object uses' = some c' ∧
      c.Mirrors (FieldUse.inlined ctx.fragments depth) c' ∧
      ∀ use, c.Has use → use.Inlinable ctx.fragments rank depth :=
  CollectionContext.mirrors_collectSubfields hfragments hdepth h.1 h.2 _

/-- Inlining keeps which fields are executed, if fragments are entered as deep as they are inside of one
another. -/
theorem faithful_inlining (hoperation : Ranked ctx.fragments rank depth ctx.operation.selections) :
    (inlining ctx.fragments depth).Faithful (.ofInlining ctx.fragments rank depth) ctx where
  name huses := by
    have hhead := congrArg (Option.map fun use : FieldUse => use.node.name.item) huses.1.head?
    rw [List.head?_map, Option.map_map] at hhead
    exact hhead.symm
  error := FieldPlan.error_of_inlined
  arguments hplan path := congrArg _ (FieldPlan.arguments_of_inlined hplan _ ctx path)
  streaming hplan path := by
    obtain ⟨hstreaming, hstreaming'⟩ := FieldPlan.streaming_of_inlined hplan ctx
      (ctx.rewrite (inlining ctx.fragments depth)) path
    rw [hstreaming, hstreaming']
  rootFields object := by
    obtain ⟨c, c', hc, hc', hmirrors, hinlinable⟩ :=
      mirrors_rootFields hfragments hdepth hoperation object
    rw [hc, hc']
    exact .some (hmirrors.resembles hinlinable)
  subfields huses object := by
    obtain ⟨c, c', hc, hc', hmirrors, hinlinable⟩ :=
      mirrors_subfields hfragments hdepth huses object
    rw [hc, hc']
    exact .some (hmirrors.resembles hinlinable)

end

/-! ## Responses -/

namespace Request

/-- The same request with inline fragments for all spreads. -/
def inlined (r : Request σ) : Request σ := { r with document := r.document.inlined }

/-- Whatever the callbacks make of the source and the arguments of a field, its name and its place, a
request without incremental delivery is answered the same when fragments are written where they are
spread: with the same data, the same keys in the same order, and the same errors in the same order. Only
the locations of errors may come again. Fragments have to be entered as deep as they are inside of one
another. -/
theorem execute_inlined {r : Request σ} (hcallbacks : r.OverlooksDocument)
    (hplain : r.document.plain = r.document) (hinlinable : r.document.Inlinable)
    (hbound : r.document.fragments.length < r.bounds.fragments) (w : World σ) :
    (r.inlined.execute w).map (Prod.map ExecutionResult.distinct id) =
      (r.execute w).map (Prod.map ExecutionResult.distinct id) := by
  obtain ⟨rank, hlayered, hranked⟩ := hinlinable.layered hplain
  refine (execute_rewrite (t := inlining r.document.fragments r.document.fragments.length)
    (L := .ofInlining r.document.fragments rank r.document.fragments.length) hcallbacks
    (fun ctx root hprepare => ?_) w).symm
  obtain ⟨operation, values, hoperation, -, hctx⟩ := exists_of_prepare hprepare
  have hfragments : r.document.fragments = ctx.fragments := by rw [hctx]
  have hbounds : r.bounds = ctx.bounds := by rw [hctx]
  have hranked : Ranked r.document.fragments rank r.document.fragments.length
      ctx.operation.selections := by
    rw [hctx]
    exact hranked operation (mem_of_chooseOperation hoperation)
  rw [hfragments] at hlayered hranked hbound ⊢
  exact faithful_inlining hlayered (hbounds ▸ hbound) hranked

end Request

/-! ## A request with a fragment that is spread again -/

/-- Objects with a name and a friend. -/
def sampleFriendType : ObjectType σ where
  name := "Query"
  fields := .given [
    { name := "name", type := .named "String" },
    { name := "friend", type := .named "Query" }]

/-- Answers a friend with a name, but no name to those who have none. -/
def shyResolver : FieldResolver Unit := fun request _ _ =>
  let found : Except FieldError HostValue :=
    match request.info.fieldName, request.source.dataField? "name" with
    | "friend", _ => .ok (.data (.object [("name", .string "Bob")]))
    | _, some name => .ok (.data name)
    | _, none => .error (.ofMessage "Not today")
  ⟨.ready found, (), []⟩

/-- `{ ...Named ...Known }`, where `Known` is `{ ...Named friend { ...Named } }` and `Named` is
`{ name }`. -/
def sampleSpreads : Request Unit where
  schema := { (sampleSchema : Schema Unit) with
    types := .object sampleFriendType :: ScalarType.builtins.map .scalar
    types_nodup := by
      change ("Query" :: ScalarType.builtins.map (·.name)).Nodup
      decide }
  document := [
    .operation { sampleOperation with selections := [sampleSpread "Named", sampleSpread "Known"] },
    .fragment (sampleFragment "Known" [
      sampleSpread "Named",
      .field default ⟨none, sampleText "friend", none, []⟩ [sampleSpread "Named"]]),
    .fragment (sampleFragment "Named" [sampleField "name" []])]
  fieldResolver := some shyResolver
  bounds := ⟨5, 5, 50⟩

theorem sampleSpreads_inlinable : sampleSpreads.document.Inlinable where
  known := by decide
  acyclic := by
    refine acyclic_of_rank (fun name => if name = "Known" then 1 else 0) ?_
    rintro name other ⟨f, hf, hother⟩
    obtain rfl := name_of_findFragment hf
    have hmem : f ∈ [_, _] := mem_of_findFragment hf
    rcases List.mem_pair.mp hmem with rfl | rfl
    · have hother : other ∈ ["Named", "Named"] := hother
      obtain rfl : other = "Named" := by simpa using hother
      decide
    · cases hother
  unbound := by simp [sampleSpreads, Document.fragments, sampleFragment]

theorem sampleSpreads_overlooksDocument : sampleSpreads.OverlooksDocument where
  schema := {
    fields := by
      intro object howns name field hfield resolver hresolver
      obtain rfl : object = sampleFriendType := by simpa [Schema.Owns, sampleSpreads] using howns
      have hmem : field ∈ sampleFriendType.fields.value := List.mem_of_find?_eq_some hfield
      simp only [sampleFriendType, Component.given, List.mem_cons, List.not_mem_nil, or_false] at hmem
      rcases hmem with rfl | rfl <;> cases hresolver
    types := by
      intro t ht resolver hresolver
      simp only [sampleSpreads, List.mem_cons, List.mem_map] at ht
      rcases ht with rfl | ⟨_, -, rfl⟩ <;> cases hresolver
    members := by
      intro object howns check hcheck
      obtain rfl : object = sampleFriendType := by simpa [Schema.Owns, sampleSpreads] using howns
      cases hcheck }
  fieldResolver := by
    rintro _ ⟨⟩ request request' h
    have hname : request.info.fieldName = request'.info.fieldName := by
      change request.withoutDocument.info.fieldName = request'.withoutDocument.info.fieldName
      rw [h]
    have hsource : request.source = request'.source := by
      change request.withoutDocument.source = request'.withoutDocument.source
      rw [h]
    funext signal state
    simp only [shyResolver, hname, hsource]
  typeResolver resolver hresolver := nomatch hresolver

theorem sampleSpreads_inlined :
    ∃ result result' v, sampleSpreads.execute sampleWorld = some (result, v) ∧
      sampleSpreads.inlined.execute sampleWorld = some (result', v) ∧
      result.errors.map (·.locations.length) = [1] ∧
      result'.errors.map (·.locations.length) = [2] ∧ result'.distinct = result.distinct := by
  have hanswered : (sampleSpreads.execute sampleWorld).any fun (result, _) =>
      result.errors.map (·.locations.length) = [1] := by decide +kernel
  have hanswered' : (sampleSpreads.inlined.execute sampleWorld).any fun (result, _) =>
      result.errors.map (·.locations.length) = [2] := by decide +kernel
  obtain ⟨⟨result, v⟩, h, hlocations⟩ := (Option.any_eq_true _ _).mp hanswered
  obtain ⟨⟨result', v'⟩, h', hlocations'⟩ := (Option.any_eq_true _ _).mp hanswered'
  have hsame := Request.execute_inlined sampleSpreads_overlooksDocument rfl sampleSpreads_inlinable
    (by decide) sampleWorld
  rw [h, h'] at hsame
  obtain ⟨hresult, hv⟩ := Prod.mk.inj (Option.some.inj hsame)
  obtain rfl : v' = v := hv
  exact ⟨result, result', v', h, h', of_decide_eq_true hlocations, of_decide_eq_true hlocations', hresult⟩

end GraphQL
