import Mathlib.Data.List.Basic
import GraphQL.Execution.Report

/-! # Reading reports

The value that stands at the place of a report, the error that escapes from it, the errors that
became nulls and the jobs that are left, each in terms of the reports below.
-/

namespace GraphQL

variable {σ : Type}

namespace Outcome

/-- The value, if there is one and no error escapes. -/
def value? (o : Outcome σ) : Option Value :=
  match o.result with
  | .ok v => v
  | .error _ => none

def escape? (o : Outcome σ) : Option ExecutionError :=
  match o.result with
  | .ok _ => none
  | .error e => some e

theorem isError_eq (o : Outcome σ) : o.isError = o.escape?.isSome := by
  rcases o with ⟨_ | _, _, _⟩ <;> rfl

theorem escape?_orNull (o : Outcome σ) : o.orNull.escape? = none := by
  rcases o with ⟨_ | _, _, _⟩ <;> rfl

theorem value?_orNull (o : Outcome σ) :
    o.orNull.value? = if o.isError then some .null else o.value? := by
  rcases o with ⟨_ | _, _, _⟩ <;> rfl

theorem errors_orNull (o : Outcome σ) : o.orNull.errors = o.errors ++ o.escape?.toList := by
  rcases o with ⟨_ | _, _, _⟩ <;> simp [orNull, escape?]

theorem jobs_orNull (o : Outcome σ) : o.orNull.jobs = if o.isError then [] else o.jobs := by
  rcases o with ⟨_ | _, _, _⟩ <;> rfl

theorem escape?_gather (parts : List (Outcome σ)) (combine : List (Option Value) → Value) :
    (gather parts combine).escape? = parts.findSome? escape? := by
  induction parts generalizing combine with
  | nil => rfl
  | cons o parts ih =>
    have hrest := ih fun values => combine (o.value? :: values)
    simp only [gather, escape?, value?, List.mapM_cons, List.findSome?_cons] at hrest ⊢
    cases ho : o.result with
    | error e => rfl
    | ok v =>
      cases hm : parts.mapM result <;>
        simp_all [bind, Except.bind, pure, Except.pure, Except.map]

theorem value?_gather (parts : List (Outcome σ)) (combine : List (Option Value) → Value) :
    (gather parts combine).value? =
      if parts.any isError then none else some (combine (parts.map value?)) := by
  induction parts generalizing combine with
  | nil => rfl
  | cons o parts ih =>
    have hrest := ih fun values => combine (o.value? :: values)
    simp only [gather, value?, List.mapM_cons, List.any_cons, isError, List.map_cons] at hrest ⊢
    cases ho : o.result with
    | error e => rfl
    | ok v =>
      simp only [ho] at hrest
      cases hm : parts.mapM result <;>
        simp_all [bind, Except.bind, pure, Except.pure, Except.map]

theorem object?_eq_some {o : Outcome σ} {fields : Object} :
    o.object? = some fields ↔ o.value? = some (.object fields) := by
  unfold object? value?
  split
  · next h => simp [h]
  · next hother =>
    cases ho : o.result with
    | error e => simp
    | ok v => simpa [ho] using hother fields

theorem queued_perm {o : Outcome σ} (h : o.isError = false) :
    o.queued.Perm (o.jobs.map Prod.snd) := by
  rw [queued, if_neg (by simp [h])]
  exact (List.mergeSort_perm _ _).map _

theorem mem_jobs_of_mem_queued {o : Outcome σ} {job : Job σ} (h : job ∈ o.queued) :
    ∃ ticket, (ticket, job) ∈ o.jobs := by
  unfold queued at h
  split at h
  · simp at h
  · obtain ⟨⟨ticket, job⟩, hmem, rfl⟩ := List.mem_map.mp h
    exact ⟨ticket, List.mem_mergeSort.mp hmem⟩

end Outcome

namespace Report

theorem induct {P : Report σ → Prop} (absent : P .absent) (null : P .null) (leaf : ∀ v, P (.leaf v))
    (failed : ∀ e, P (.failed e)) (list : ∀ items, (∀ r ∈ items, P r) → P (.list items))
    (object : ∀ deferred fields, (∀ key r, (key, r) ∈ fields → P r) → P (.object deferred fields))
    (followed : ∀ inner ticket job, P inner → P (.followed inner ticket job))
    (nullable : ∀ inner, P inner → P (.nullable inner)) (r : Report σ) : P r :=
  Report.rec (motive_1 := P) (motive_2 := fun items => ∀ r ∈ items, P r)
    (motive_3 := fun fields => ∀ key r, (key, r) ∈ fields → P r) (motive_4 := fun field => P field.2)
    absent null leaf failed list object followed nullable
    (by simp) (fun r rs hr hrs => by simpa using ⟨hr, hrs⟩)
    (by simp)
    (fun field fields hfield hfields key r hmem => by
      rcases List.mem_cons.mp hmem with rfl | hmem
      · exact hfield
      · exact hfields key r hmem)
    (fun _ _ h => h) r

theorem outcomes_eq (items : List (Report σ)) : outcomes items = items.map outcome := by
  induction items with
  | nil => rfl
  | cons r items ih => simp [outcomes, ih]

theorem fieldOutcomes_eq (fields : List (String × Report σ)) :
    fieldOutcomes fields = fields.map fun field => (field.1, field.2.outcome) := by
  induction fields with
  | nil => rfl
  | cons field fields ih => simp [fieldOutcomes, ih]

def value? (r : Report σ) : Option Value := r.outcome.value?

def escape? (r : Report σ) : Option ExecutionError := r.outcome.escape?

def errors (r : Report σ) : List ExecutionError := r.outcome.errors

def jobs (r : Report σ) : List (Nat × Job σ) := r.outcome.jobs

variable (r : Report σ) (items : List (Report σ)) (deferred : List (Nat × Job σ))
  (fields : List (String × Report σ)) (ticket : Nat) (job : Job σ)

theorem isError_eq : r.isError = r.escape?.isSome := Outcome.isError_eq r.outcome

theorem isError_of_value? {r : Report σ} {v : Value} (h : r.value? = some v) : r.isError = false := by
  unfold value? Outcome.value? at h
  unfold isError Outcome.isError
  split at h <;> simp_all

/-! ## The error that escapes -/

@[simp] theorem escape?_absent : (absent : Report σ).escape? = none := rfl

@[simp] theorem escape?_null : (null : Report σ).escape? = none := rfl

@[simp] theorem escape?_leaf (v : Value) : (leaf v : Report σ).escape? = none := rfl

@[simp] theorem escape?_failed (e : ExecutionError) : (failed e : Report σ).escape? = some e := rfl

@[simp] theorem escape?_list : (list items).escape? = items.findSome? escape? := by
  simp only [escape?, outcome, Outcome.ofItems, Outcome.escape?_gather, outcomes_eq,
    List.findSome?_map]
  rfl

@[simp] theorem escape?_object :
    (object deferred fields).escape? = fields.findSome? fun field => field.2.escape? := by
  have hgather := Outcome.escape?_gather (fields.map fun field => field.2.outcome)
    fun values => .object
      (((fields.map Prod.fst).zip values).filterMap fun entry => entry.2.map (entry.1, ·))
  simp only [escape?, outcome, Outcome.withJobs, Outcome.ofFields, fieldOutcomes_eq, List.map_map,
    List.findSome?_map, Outcome.escape?, Function.comp_def] at hgather ⊢
  exact hgather

theorem isError_list : (list items).isError = items.any isError := by
  rw [isError_eq, escape?_list, List.isSome_findSome?]
  congr 1
  exact funext fun r => (isError_eq r).symm

theorem isError_object :
    (object deferred fields).isError = fields.any fun field => field.2.isError := by
  rw [isError_eq, escape?_object, List.isSome_findSome?]
  congr 1
  exact funext fun field => (isError_eq field.2).symm

@[simp] theorem escape?_followed : (followed r ticket job).escape? = r.escape? := rfl

@[simp] theorem escape?_nullable : (nullable r).escape? = none := Outcome.escape?_orNull r.outcome

/-! ## The value -/

@[simp] theorem value?_absent : (absent : Report σ).value? = none := rfl

@[simp] theorem value?_null : (null : Report σ).value? = some .null := rfl

@[simp] theorem value?_leaf (v : Value) : (leaf v : Report σ).value? = some v := rfl

@[simp] theorem value?_failed (e : ExecutionError) : (failed e : Report σ).value? = none := rfl

@[simp] theorem value?_list :
    (list items).value? = if items.any isError then none else some (.list (items.filterMap value?)) := by
  simp only [value?, outcome, Outcome.ofItems, Outcome.value?_gather, outcomes_eq, List.any_map,
    List.map_map, List.filterMap_map]
  rfl

@[simp] theorem value?_object :
    (object deferred fields).value? = if fields.any fun field => field.2.isError then none
      else some (.object (fields.filterMap fun field => field.2.value?.map (field.1, ·))) := by
  have hgather := Outcome.value?_gather (fields.map fun field => field.2.outcome)
    fun values => .object
      (((fields.map Prod.fst).zip values).filterMap fun entry => entry.2.map (entry.1, ·))
  simp only [value?, outcome, Outcome.withJobs, Outcome.ofFields, fieldOutcomes_eq, List.map_map,
    Outcome.value?, Function.comp_def, List.any_map] at hgather ⊢
  rw [hgather, List.zip_map', List.filterMap_map]
  rfl

@[simp] theorem value?_followed : (followed r ticket job).value? = r.value? := rfl

@[simp] theorem value?_nullable :
    (nullable r).value? = if r.isError then some .null else r.value? :=
  Outcome.value?_orNull r.outcome

/-! ## The errors that became nulls -/

@[simp] theorem errors_absent : (absent : Report σ).errors = [] := rfl

@[simp] theorem errors_null : (null : Report σ).errors = [] := rfl

@[simp] theorem errors_leaf (v : Value) : (leaf v : Report σ).errors = [] := rfl

@[simp] theorem errors_failed (e : ExecutionError) : (failed e : Report σ).errors = [] := rfl

@[simp] theorem errors_list : (list items).errors = items.flatMap errors := by
  simp only [errors, outcome, Outcome.ofItems, Outcome.gather, outcomes_eq, List.flatMap_map]
  rfl

@[simp] theorem errors_object :
    (object deferred fields).errors = fields.flatMap fun field => field.2.errors := by
  simp only [errors, outcome, Outcome.withJobs, Outcome.ofFields, Outcome.gather, fieldOutcomes_eq,
    List.flatMap_map]

@[simp] theorem errors_followed : (followed r ticket job).errors = r.errors := rfl

@[simp] theorem errors_nullable : (nullable r).errors = r.errors ++ r.escape?.toList :=
  Outcome.errors_orNull r.outcome

/-! ## The jobs that are left -/

@[simp] theorem jobs_absent : (absent : Report σ).jobs = [] := rfl

@[simp] theorem jobs_null : (null : Report σ).jobs = [] := rfl

@[simp] theorem jobs_leaf (v : Value) : (leaf v : Report σ).jobs = [] := rfl

@[simp] theorem jobs_failed (e : ExecutionError) : (failed e : Report σ).jobs = [] := rfl

@[simp] theorem jobs_list : (list items).jobs = items.flatMap jobs := by
  simp only [jobs, outcome, Outcome.ofItems, Outcome.gather, outcomes_eq, List.flatMap_map]
  rfl

@[simp] theorem jobs_object :
    (object deferred fields).jobs = deferred ++ fields.flatMap fun field => field.2.jobs := by
  simp only [jobs, outcome, Outcome.withJobs, Outcome.ofFields, Outcome.gather, fieldOutcomes_eq,
    List.flatMap_map]

@[simp] theorem jobs_followed : (followed r ticket job).jobs = r.jobs ++ [(ticket, job)] := rfl

@[simp] theorem jobs_nullable : (nullable r).jobs = if r.isError then [] else r.jobs :=
  Outcome.jobs_orNull r.outcome

theorem mem_jobs_absorbing {r : Report σ} {t : TypeRef} {job : Nat × Job σ}
    (h : job ∈ (r.absorbing t).jobs) : job ∈ r.jobs := by
  unfold Report.absorbing at h
  split at h
  · exact h
  · rw [jobs_nullable] at h
    split at h
    · cases h
    · exact h

end Report

end GraphQL
