import Mathlib.Data.List.Forall2
import GraphQL.Proofs.Execution.Process.Effects
import GraphQL.Proofs.Execution.Completion.Errors
import GraphQL.Proofs.Execution.Rewriting.Basic

/-! # Requests that resemble one another

A request whose document was rewritten may come to the same response, up to what one looks at of the
errors. What is compared on the way there are collected fields, plans, jobs and reports.
-/

namespace GraphQL

variable {σ α β ι κ : Type}

/-! ## Callbacks that overlook the document -/

/-- What a callback is told besides the document. -/
def FieldInfo.withoutDocument (info : FieldInfo) : FieldInfo :=
  { info with nodes := [], operation := default, fragments := [] }

theorem FieldInfo.path_eq {info info' : FieldInfo} (h : info.withoutDocument = info'.withoutDocument) :
    info.path = info'.path := by
  have hpath : info.withoutDocument.path = info'.withoutDocument.path := by rw [h]
  exact hpath

def FieldRequest.withoutDocument (request : FieldRequest) : FieldRequest :=
  { request with info := request.info.withoutDocument }

def TypeRequest.withoutDocument (request : TypeRequest) : TypeRequest :=
  { request with info := request.info.withoutDocument }

/-- Whether what a callback does depends only on what it looks at. -/
def Callback.LooksAt (look : ι → κ) (callback : Callback σ ι α) : Prop :=
  ∀ request request', look request = look request' → callback request = callback request'

/-- Whether all callbacks of a request overlook the document, as functions of the source, the arguments
and the name of a field do. -/
abbrev Request.OverlooksDocument (r : Request σ) : Prop :=
  r.Heeds (Callback.LooksAt FieldRequest.withoutDocument)
    (Callback.LooksAt TypeRequest.withoutDocument) (Callback.LooksAt TypeRequest.withoutDocument)

abbrev ExecutionContext.OverlooksDocument (ctx : ExecutionContext σ) : Prop :=
  ctx.Heeds (Callback.LooksAt FieldRequest.withoutDocument)
    (Callback.LooksAt TypeRequest.withoutDocument) (Callback.LooksAt TypeRequest.withoutDocument)

/-! ## Members side by side -/

theorem rel_find? {R : α → β → Prop} {p : α → Bool} {q : β → Bool} (hpq : ∀ x y, R x y → p x = q y)
    {l : List α} {l' : List β} (h : List.Forall₂ R l l') : Option.Rel R (l.find? p) (l'.find? q) := by
  induction h with
  | nil => exact .none
  | @cons x y _ _ hxy _ ih =>
    rw [List.find?_cons, List.find?_cons, hpq x y hxy]
    split
    · exact .some hxy
    · exact ih

theorem rel_bind {R : α → β → Prop} {S : ι → κ → Prop} {x : Option α} {x' : Option β}
    {k : α → Option ι} {k' : β → Option κ} (hx : Option.Rel R x x')
    (hk : ∀ a b, R a b → Option.Rel S (k a) (k' b)) : Option.Rel S (x.bind k) (x'.bind k') := by
  cases hx with
  | none => exact .none
  | some h => exact hk _ _ h

theorem forall₂_zipIdx {R : α → β → Prop} {l : List α} {l' : List β} (h : List.Forall₂ R l l') (n : Nat) :
    List.Forall₂ (fun x x' => R x.1 x'.1 ∧ x.2 = x'.2) (l.zipIdx n) (l'.zipIdx n) := by
  induction h generalizing n with
  | nil => exact .nil
  | cons hx _ ih => exact .cons ⟨hx, rfl⟩ (ih (n + 1))

theorem forall₂_zip {R : α → β → Prop} {l : List α} {l' : List β} (h : List.Forall₂ R l l')
    (keys : List ι) :
    List.Forall₂ (fun x x' => x.1 = x'.1 ∧ R x.2 x'.2) (keys.zip l) (keys.zip l') := by
  induction h generalizing keys with
  | nil => simp
  | cons hx _ ih =>
    cases keys with
    | nil => exact .nil
    | cons key keys => exact .cons ⟨rfl, hx⟩ (ih keys)

theorem forall₂_mergeSort {R : α → β → Prop} {le : α → α → Bool} {le' : β → β → Bool}
    (hle : ∀ a a' b b', R a a' → R b b' → le a b = le' a' b') {l : List α} {l' : List β}
    (h : List.Forall₂ R l l') : List.Forall₂ R (l.mergeSort le) (l'.mergeSort le') := by
  -- As the keys are the same, to sort the pairs is to sort either list.
  obtain ⟨hlength, hmem⟩ := List.forall₂_iff_zip.mp h
  have hfst : (l.zip l').map Prod.fst = l := List.map_fst_zip (Nat.le_of_eq hlength)
  have hsnd : (l.zip l').map Prod.snd = l' := List.map_snd_zip (Nat.le_of_eq hlength.symm)
  have hsame : ∀ x ∈ l.zip l', ∀ y ∈ l.zip l', le x.1 y.1 = le' x.2 y.2 :=
    fun x hx y hy => hle _ _ _ _ (hmem hx) (hmem hy)
  have hleft := List.map_mergeSort (r := fun x y : α × β => le x.1 y.1) (l := l.zip l')
    (f := Prod.fst) (s := le) fun _ _ _ _ => rfl
  have hright := List.map_mergeSort (l := l.zip l') (f := Prod.snd) (s := le') hsame
  rw [hfst] at hleft
  rw [hsnd] at hright
  rw [← hleft, ← hright, List.forall₂_map_left_iff, List.forall₂_map_right_iff, List.forall₂_same]
  exact fun x hx => hmem (List.mem_mergeSort.mp hx)

/-! ## What is compared -/

/-- What a request and another one have in common: which uses of a field correspond to one another, and
what is seen of an error. -/
structure Likeness where
  uses : List FieldUse → List FieldUse → Prop
  view : ExecutionError → ExecutionError
  path_view : ∀ e, (view e).path = e.path

variable {L : Likeness}

/-! ## Collected fields -/

mutual

inductive Collected.Resembles (L : Likeness) : Collected → Collected → Prop
  | intro {c c' : Collected}
    (groups : List.Forall₂ (fun group group' => group.1 = group'.1 ∧ L.uses group.2 group'.2)
      c.groups c'.groups)
    (deferred : List.Forall₂ (Deferred.Resembles L) c.deferred c'.deferred) :
    Collected.Resembles L c c'

inductive Deferred.Resembles (L : Likeness) : Deferred → Deferred → Prop
  | intro {label : Option String} {fields fields' : Collected}
    (h : Collected.Resembles L fields fields') :
    Deferred.Resembles L ⟨label, fields⟩ ⟨label, fields'⟩

end

namespace Collected.Resembles

variable {c c' : Collected}

theorem groups (h : c.Resembles L c') :
    List.Forall₂ (fun group group' => group.1 = group'.1 ∧ L.uses group.2 group'.2)
      c.groups c'.groups := by
  cases h with
  | intro groups _ => exact groups

theorem deferred (h : c.Resembles L c') :
    List.Forall₂ (Deferred.Resembles L) c.deferred c'.deferred := by
  cases h with
  | intro _ deferred => exact deferred

end Collected.Resembles

/-! ## Plans and jobs -/

/-- Whether plans are for the same field, with uses that correspond to one another. -/
structure FieldPlan.Resembles (L : Likeness) (plan plan' : FieldPlan σ) : Prop where
  parent : plan.parent = plan'.parent
  field : plan.field = plan'.field
  uses : L.uses plan.uses plan'.uses

inductive Job.Resembles (L : Likeness) (schema : Schema σ) : Job σ → Job σ → Prop
  | deferred {object source path fragment fragment'} (hobject : schema.Owns object)
    (h : fragment.Resembles L fragment') :
    Resembles L schema (.deferred object source path fragment)
      (.deferred object source path fragment')
  | streamed {plan plan' itemType path label index source} (h : plan.Resembles L plan') :
    Resembles L schema (.streamed plan itemType path label index source)
      (.streamed plan' itemType path label index source)

/-- Whether jobs that resemble one another were queued at the same time. -/
abbrev Job.QueuedAlike (L : Likeness) (schema : Schema σ) (job job' : Nat × Job σ) : Prop :=
  job.1 = job'.1 ∧ job.2.Resembles L schema job'.2

/-! ## Reports -/

namespace Likeness

theorem map_inResponseOrder (L : Likeness) (errors : List ExecutionError) :
    (inResponseOrder errors).map L.view = inResponseOrder (errors.map L.view) :=
  List.map_mergeSort fun a _ b _ => by rw [L.path_view, L.path_view]

end Likeness

/-- Whether reports tell the same, with jobs that resemble one another, up to what is seen of errors. -/
structure Report.Resembles (L : Likeness) (schema : Schema σ) (r r' : Report σ) : Prop where
  value : r.value? = r'.value?
  escape : r.escape?.map L.view = r'.escape?.map L.view
  errors : r.errors.map L.view = r'.errors.map L.view
  jobs : List.Forall₂ (Job.QueuedAlike L schema) r.jobs r'.jobs

namespace Report

variable {schema : Schema σ} {r r' : Report σ}

namespace Resembles

theorem isError (h : r.Resembles L schema r') : r.isError = r'.isError := by
  have hescape := congrArg Option.isSome h.escape
  rwa [Option.isSome_map, Option.isSome_map, ← isError_eq, ← isError_eq] at hescape

theorem object? (h : r.Resembles L schema r') : r.outcome.object? = r'.outcome.object? := by
  ext fields
  rw [Outcome.object?_eq_some, Outcome.object?_eq_some]
  exact Eq.congr_left h.value

theorem allErrors (h : r.Resembles L schema r') :
    r.outcome.allErrors.map L.view = r'.outcome.allErrors.map L.view := by
  have hraised : r.raised.map L.view = r'.raised.map L.view := by
    simp only [raised, List.map_append, h.errors, ← Option.toList_map, h.escape]
  rw [allErrors_eq, allErrors_eq, L.map_inResponseOrder, L.map_inResponseOrder, hraised]

theorem queued (h : r.Resembles L schema r') :
    List.Forall₂ (Job.Resembles L schema) r.outcome.queued r'.outcome.queued := by
  have herror : r.outcome.isError = r'.outcome.isError := h.isError
  unfold Outcome.queued
  rw [herror]
  split
  · exact .nil
  · rw [List.forall₂_map_left_iff, List.forall₂_map_right_iff]
    refine (forall₂_mergeSort ?_ h.jobs).imp fun _ _ => And.right
    exact fun _ _ _ _ ha hb => by rw [ha.1, hb.1]

/-! ### Building reports -/

theorem absent : (Report.absent : Report σ).Resembles L schema .absent := ⟨rfl, rfl, rfl, .nil⟩

theorem null : (Report.null : Report σ).Resembles L schema .null := ⟨rfl, rfl, rfl, .nil⟩

theorem leaf (v : Value) : (Report.leaf v : Report σ).Resembles L schema (.leaf v) :=
  ⟨rfl, rfl, rfl, .nil⟩

theorem failed {e e' : ExecutionError} (h : L.view e = L.view e') :
    (Report.failed e : Report σ).Resembles L schema (.failed e') := ⟨rfl, congrArg some h, rfl, .nil⟩

variable {items items' : List (Report σ)}

theorem any_isError (h : List.Forall₂ (Resembles L schema) items items') :
    items.any Report.isError = items'.any Report.isError := by
  induction h with
  | nil => rfl
  | cons h _ ih => rw [List.any_cons, List.any_cons, h.isError, ih]

theorem findSome?_escape? (h : List.Forall₂ (Resembles L schema) items items') :
    (items.findSome? escape?).map L.view = (items'.findSome? escape?).map L.view := by
  induction h with
  | nil => rfl
  | @cons r r' _ _ h _ ih =>
    have hescape := h.escape
    rw [List.findSome?_cons, List.findSome?_cons]
    cases he : r.escape? <;> cases he' : r'.escape? <;> rw [he, he'] at hescape
    · exact ih
    · cases hescape
    · cases hescape
    · exact hescape

theorem flatMap_errors (h : List.Forall₂ (Resembles L schema) items items') :
    (items.flatMap Report.errors).map L.view = (items'.flatMap Report.errors).map L.view := by
  induction h with
  | nil => rfl
  | cons h _ ih => simp only [List.flatMap_cons, List.map_append, h.errors, ih]

theorem flatMap_jobs (h : List.Forall₂ (Resembles L schema) items items') :
    List.Forall₂ (Job.QueuedAlike L schema) (items.flatMap Report.jobs) (items'.flatMap Report.jobs) := by
  induction h with
  | nil => exact .nil
  | cons h _ ih => exact List.rel_append h.jobs ih

theorem list (h : List.Forall₂ (Resembles L schema) items items') :
    (Report.list items).Resembles L schema (.list items') where
  value := by
    have hvalues : items.filterMap value? = items'.filterMap value? := by
      induction h with
      | nil => rfl
      | cons h _ ih => rw [List.filterMap_cons, List.filterMap_cons, h.value, ih]
    rw [value?_list, value?_list, any_isError h, hvalues]
  escape := by
    rw [escape?_list, escape?_list]
    exact findSome?_escape? h
  errors := by
    rw [errors_list, errors_list]
    exact flatMap_errors h
  jobs := by
    rw [jobs_list, jobs_list]
    exact flatMap_jobs h

theorem object {deferred deferred' : List (Nat × Job σ)} {fields fields' : List (String × Report σ)}
    (hdeferred : List.Forall₂ (Job.QueuedAlike L schema) deferred deferred')
    (h : List.Forall₂ (fun field field' => field.1 = field'.1 ∧ field.2.Resembles L schema field'.2)
      fields fields') :
    (Report.object deferred fields).Resembles L schema (.object deferred' fields') := by
  have hreports : List.Forall₂ (Resembles L schema) (fields.map Prod.snd) (fields'.map Prod.snd) := by
    rw [List.forall₂_map_left_iff, List.forall₂_map_right_iff]
    exact h.imp fun _ _ => And.right
  have hvalues : fields.filterMap (fun field => field.2.value?.map (field.1, ·)) =
      fields'.filterMap fun field => field.2.value?.map (field.1, ·) := by
    clear hreports
    induction h with
    | nil => rfl
    | cons h _ ih => rw [List.filterMap_cons, List.filterMap_cons, h.1, h.2.value, ih]
  have herror := any_isError hreports
  have hescape := findSome?_escape? hreports
  have herrors := flatMap_errors hreports
  have hjobs := flatMap_jobs hreports
  simp only [List.any_map, List.findSome?_map, List.flatMap_map, Function.comp_def]
    at herror hescape herrors hjobs
  constructor
  · rw [value?_object, value?_object, herror, hvalues]
  · rwa [escape?_object, escape?_object]
  · rwa [errors_object, errors_object]
  · rw [jobs_object, jobs_object]
    exact List.rel_append hdeferred hjobs

theorem followed (h : r.Resembles L schema r') (ticket : Nat) {job job' : Job σ}
    (hjob : job.Resembles L schema job') :
    (Report.followed r ticket job).Resembles L schema (.followed r' ticket job') where
  value := h.value
  escape := h.escape
  errors := h.errors
  jobs := List.rel_append h.jobs (.cons ⟨rfl, hjob⟩ .nil)

theorem nullable (h : r.Resembles L schema r') :
    (Report.nullable r).Resembles L schema (.nullable r') where
  value := by rw [value?_nullable, value?_nullable, h.isError, h.value]
  escape := by rw [escape?_nullable, escape?_nullable]
  errors := by
    simp only [errors_nullable, List.map_append, h.errors, ← Option.toList_map, h.escape]
  jobs := by
    rw [jobs_nullable, jobs_nullable, h.isError]
    split
    · exact .nil
    · exact h.jobs

theorem absorbing (h : r.Resembles L schema r') (t : TypeRef) :
    (r.absorbing t).Resembles L schema (r'.absorbing t) := by
  unfold Report.absorbing
  split
  · exact h
  · exact h.nullable

end Resembles

end Report

/-! ## Rewriting that keeps what is executed -/

/-- Whether rewriting the document keeps, in a context, which fields there are, with which arguments and
streamed in which way. -/
structure Rewriting.Faithful (t : Rewriting) (L : Likeness) (ctx : ExecutionContext σ) : Prop where
  name : ∀ {uses uses'}, L.uses uses uses' →
    uses.head?.map (·.node.name.item) = uses'.head?.map (·.node.name.item)
  error : ∀ {plan plan' : FieldPlan σ}, plan.Resembles L plan' → ∀ path e,
    L.view (plan.error path e) = L.view (plan'.error path e)
  arguments : ∀ {plan plan' : FieldPlan σ}, plan.Resembles L plan' → ∀ path,
    (plan.arguments ctx path).mapError L.view = (plan'.arguments (ctx.rewrite t) path).mapError L.view
  streaming : ∀ {plan plan' : FieldPlan σ}, plan.Resembles L plan' → ∀ path,
    (plan.streaming path ctx).mapError L.view = (plan'.streaming path (ctx.rewrite t)).mapError L.view
  rootFields : ∀ object,
    Option.Rel (Collected.Resembles L) (ctx.rootFields object) ((ctx.rewrite t).rootFields object)
  subfields : ∀ {uses uses'}, L.uses uses uses' → ∀ object,
    Option.Rel (Collected.Resembles L) (ctx.subfields object uses)
      ((ctx.rewrite t).subfields object uses')

namespace FieldPlan.Resembles

variable {plan plan' : FieldPlan σ} (h : plan.Resembles L plan')

include h

theorem coordinate : plan.coordinate = plan'.coordinate := by
  rw [FieldPlan.coordinate, h.parent, h.field, FieldPlan.coordinate]

theorem info (t : Rewriting) (ctx : ExecutionContext σ) (path : Path) :
    (plan.info ctx path).withoutDocument = (plan'.info (ctx.rewrite t) path).withoutDocument := by
  unfold FieldPlan.info FieldInfo.withoutDocument
  rw [h.parent, h.field]
  rfl

variable {t : Rewriting} {ctx : ExecutionContext σ} (hctx : t.Faithful L ctx)

include hctx

theorem problem (path : Path) (p : FieldProblem) :
    L.view (plan.problem path p) = L.view (plan'.problem path p) := hctx.error h path p.error

theorem completeScalar (path : Path) (t : ScalarType) (v : HostValue) :
    (plan.completeScalar path t v).mapError L.view = (plan'.completeScalar path t v).mapError L.view := by
  unfold FieldPlan.completeScalar
  split
  · exact congrArg Except.error (h.problem hctx path _)
  · split
    · exact congrArg Except.error (hctx.error h path _)
    · split
      · exact congrArg Except.error (h.problem hctx path _)
      · rfl

theorem completeEnum (path : Path) (t : EnumType) (v : HostValue) :
    (plan.completeEnum path t v).mapError L.view = (plan'.completeEnum path t v).mapError L.view := by
  unfold FieldPlan.completeEnum
  split
  · rfl
  · exact congrArg Except.error (h.problem hctx path _)

theorem runtimeObject (path : Path) (schema : Schema σ) (t : TypeDefinition σ) (name : Option String) :
    (plan.runtimeObject path schema t name).mapError L.view =
      (plan'.runtimeObject path schema t name).mapError L.view := by
  unfold FieldPlan.runtimeObject
  rw [h.coordinate]
  cases name with
  | none => exact congrArg Except.error (h.problem hctx path _)
  | some name =>
    dsimp only
    split
    · exact congrArg Except.error (h.problem hctx path _)
    · split
      · rfl
      · exact congrArg Except.error (h.problem hctx path _)
    · exact congrArg Except.error (h.problem hctx path _)

end FieldPlan.Resembles

end GraphQL
