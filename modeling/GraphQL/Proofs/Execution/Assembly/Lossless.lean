import GraphQL.Proofs.Execution.Assembly.Responses
import GraphQL.Proofs.Coercion.ErrorLimit
import GraphQL.Proofs.Execution.Rewriting.Plain

/-! # Incremental delivery loses and changes nothing

When no error is recorded, the initial data and all parts that follow make up the data that the same
request has once every `@defer` and `@stream` is deleted.
-/

namespace GraphQL

open Process

variable {σ : Type} {I J : World σ → Prop} {ctx : ExecutionContext σ} {root : ObjectType σ}

/-! ## Requests that are refused -/

theorem errors_ne_nil_of_prepare {r : Request σ} {e : RequestError} (h : r.prepare = .error e) :
    e.errors ≠ [] := by
  unfold Request.prepare at h
  simp only [Bind.bind, Except.bind, Pure.pure, Except.pure, throw, throwThe, MonadExceptOf.throw] at h
  split at h
  · cases hoperation : r.document.chooseOperation r.operationName with
    | error e' =>
      simp only [hoperation, Except.error.injEq] at h
      subst h
      unfold Document.chooseOperation at hoperation
      split at hoperation <;> split at hoperation <;> cases hoperation <;>
        simp [RequestError.errors]
    | ok operation =>
      simp only [hoperation] at h
      cases hroot : r.schema.root? operation.kind with
      | none =>
        simp only [hroot, Except.error.injEq] at h
        subst h
        simp [RequestError.errors]
      | some object =>
        simp only [hroot] at h
        cases hvariables : r.schema.coerceVariables operation.variableList r.variableValues
          r.variableErrorLimit with
        | error errors =>
          simp only [hvariables, Except.mapError, Except.error.injEq] at h
          subst h
          exact Schema.coerceVariables_ne_nil hvariables
        | ok values => simp [hvariables, Except.mapError] at h
  · next hproblems =>
    obtain rfl := Except.error.inj h
    simpa [RequestError.errors] using hproblems

/-! ## Jobs without errors -/

theorem Report.Fits.clean {uses : List FieldUse} {plan : FieldPlan σ} {itemType : TypeRef}
    {path : Path} {label : Option String} {index : Nat} {source : ItemSource} {r : Report σ}
    (h : r.Fits ctx root uses itemType)
    (herrors : ∀ part, (Job.streamed plan itemType path label index source).part r = some part →
      part.errors = []) : r.Clean := by
  cases hpart : (Job.streamed plan itemType path label index source).part r with
  | some part =>
    have hall := herrors part hpart
    rw [part_streamed hpart] at hall
    exact Report.clean_of_allErrors hall
  | none =>
    -- A part is left out only when there is no item, but there is one.
    have hresult : r.outcome.result = .ok none := by
      simp only [Job.part] at hpart
      split at hpart
      · assumption
      · cases hpart
      · cases hpart
    have hok : r.isError = false := by simp [Report.isError, Outcome.isError, hresult]
    have hvalue := h.present hok
    simp [Report.value?, Outcome.value?, hresult] at hvalue

theorem clean_of_part {job : Job σ} {r : Report σ} (hjob : job.Declared ctx root)
    (h : Yields I (job.execute ctx) r) (herrors : ∀ part, job.part r = some part → part.errors = []) :
    r.Clean := by
  have hcomplete (isStreamable : Bool) :
      (completeWithin ctx ctx.bounds.response isStreamable).Fits I ctx root :=
    fits_completeWithin _ _
  cases yields_execute h with
  | deferred => exact Report.clean_of_allErrors (herrors _ rfl)
  | ended => exact ⟨Report.errors_absent, by simp [Report.isError_eq]⟩
  | failed => exact Report.clean_of_allErrors (herrors _ rfl)
  | @last _ _ _ _ index _ _ _ _ _ hitem _ =>
    obtain ⟨t, hplace, ht⟩ := hjob
    exact (fits_completeItem (hcomplete false) (.item hplace index ht) hitem).clean herrors
  | @more plan itemType path label index _ _ rest _ ticket _ hitem _ =>
    obtain ⟨t, hplace, ht⟩ := hjob
    have hnext : (Job.streamed plan itemType path label (index + 1) rest).Declared ctx root :=
      ⟨t, hplace, ht⟩
    have hfits := fits_completeItem (hcomplete false) (.item hplace index ht) hitem
    exact (hfits.followed hnext ticket).clean herrors

theorem Unfolds.clean {jobs left : List (Job σ)} {history : List (Finished σ)}
    (h : Unfolds I ctx jobs history left) (hjobs : ∀ job ∈ jobs, job.Declared ctx root)
    (herrors : ∀ part ∈ partsOf history, part.errors = []) :
    ∀ finished ∈ history, finished.report.Clean := by
  have hclean : ∀ finished ∈ history,
      (∀ part, finished.part = some part → part.errors = []) → finished.report.Clean :=
    h.invariant (fun finished hjob hyields =>
      ⟨clean_of_part hjob hyields, declared_of_job hjob hyields⟩) hjobs
  exact fun finished hmem => hclean finished hmem fun part hpart =>
    herrors part (List.mem_filterMap.mpr ⟨finished, hmem, hpart⟩)

/-! ## Two runs side by side -/

theorem Calm.or (hI : Calm I) (hJ : Calm J) : Calm fun w => I w ∨ J w where
  ongoing w hw := hw.elim (hI.ongoing w) (hJ.ongoing w)
  fresh w identity hw := hw.elim (hI.fresh w identity) (hJ.fresh w identity)

theorem Unfolds.mono {jobs left : List (Job σ)} {history : List (Finished σ)}
    (hJ : ∀ w, I w → J w) (h : Unfolds I ctx jobs history left) : Unfolds J ctx jobs history left := by
  induction h with
  | refl => exact .refl
  | cons hjobs h _ ih => exact .cons hjobs (yields_mono hJ h) ih

/-! ## Responses -/

/-- The errors that a response reports at once. -/
def Response.initialErrors : Response σ → List ExecutionError
  | single result => result.errors
  | incremental initial _ _ => initial.errors

/-- Whether a response makes up some data, up to the order of keys: at once, or when all parts that
follow without an error are merged one after the other. -/
inductive Response.Assembles (data : Object) : Response σ → Prop
  | single {result found} (hfound : result.data = some found)
    (hsame : (Value.object found).Same (.object data)) : Assembles data (.single result)
  | incremental {initial ctx jobs} (h : ∀ w v payloads, w.Ongoing →
      laterPayloads ctx jobs w = some (payloads, v) → v.taken.Nodup →
      (∀ payload ∈ payloads, ∀ part ∈ payload.parts, part.errors = []) →
      ∃ merged, mergeParts (payloads.flatMap (·.parts)) (.object initial.data) = some merged ∧
        merged.Same (.object data)) : Assembles data (.incremental initial ctx jobs)

/-- Whether fields that share a response key on one object ask the same. -/
def Request.Consistent (r : Request σ) : Prop :=
  ∀ ctx root, r.prepare = .ok (ctx, root) → ctx.Consistent root

theorem exists_data_of_clean {r : Report σ} (h : Yields I (executeRoot ctx root) r) (hr : r.Clean) :
    ∃ data, r.outcome.object? = some data := by
  obtain ⟨collected, deferred, fields, rfl, -⟩ := yields_executeRoot h
  have hfields := hr.2
  rw [Report.isError_object] at hfields
  have hvalue := Report.value?_object deferred fields
  rw [if_neg (by simp [hfields])] at hvalue
  exact ⟨_, Outcome.object?_eq_some.mpr hvalue⟩

theorem exists_report_of_execute {r : Request σ} {w v : World σ} {result : ExecutionResult}
    (h : r.execute w = some (result, v)) (herrors : result.errors = []) :
    ∃ ctx root report u, r.prepare = .ok (ctx, root) ∧
      (executeRoot ctx root).run ctx.bounds.rounds (w.trace (.executing ctx.operation.name?)) =
        some (report, u) ∧ u.taken = v.taken ∧ report.Clean ∧ report.outcome.queued = [] ∧
      result.data = report.outcome.object? := by
  simp only [Request.execute, Option.bind_eq_bind, Option.bind_eq_some_iff] at h
  obtain ⟨⟨response, v'⟩, hresponse, h⟩ := h
  obtain ⟨rfl, rfl⟩ : _ = result ∧ v' = v := by simpa using h
  rcases executeIncrementally_cases hresponse with ⟨e, he, rfl⟩ |
    ⟨ctx, root, report, u, hprepare, hrun, hresponds, hu⟩
  · exact (errors_ne_nil_of_prepare he herrors).elim
  · cases hresponds with
    | single hsingle =>
      have hclean := Report.clean_of_allErrors (r := report) herrors
      obtain ⟨data, hdata⟩ := exists_data_of_clean (run_possible hrun) hclean
      rw [hdata] at hsingle
      exact ⟨ctx, root, report, u, hprepare, hrun, hu, hclean, hsingle.resolve_left nofun, rfl⟩
    | incremental => cases herrors

theorem assembles_of_reports (hctx : ctx.Steady View.source) (howned : ctx.schema.Owns root)
    (hclosed : ∀ f ∈ ctx.fragments, f.variableDefinitions = none)
    (hconsistent : ctx.plain.Consistent root) (hI : Calm I) (hJ : Calm J) {r s : Report σ}
    (hr : Yields I (executeRoot ctx root) r) (hs : Yields J (executeRoot ctx.plain root) s)
    (hsClean : s.Clean) (hsJobs : s.outcome.queued = []) {response : Response σ}
    (hresponds : Responds ctx r response) (herrors : response.initialErrors = []) :
    ∃ data, s.outcome.object? = some data ∧ response.Assembles data := by
  have hcomparable {I' : World σ → Prop} (hI' : Calm I') : Comparable I' J ctx root :=
    ⟨hI', hJ, hctx, hclosed, hconsistent, howned⟩
  have hrClean : r.Clean := by
    cases hresponds <;> exact Report.clean_of_allErrors herrors
  obtain ⟨whole, hwhole⟩ := exists_data_of_clean hs hsClean
  obtain ⟨found, hfound⟩ := exists_data_of_clean hr hrClean
  refine ⟨whole, hwhole, ?_⟩
  cases hresponds with
  | single hsingle =>
    rw [hfound] at hsingle
    have hnone : Unfolds I ctx r.outcome.queued [] [] := hsingle.resolve_left nofun ▸ .refl
    obtain ⟨data, whole', merged, hdata, hwhole', hmerged, hsame⟩ :=
      assembled (hcomparable hI) hr hrClean hs hsClean hsJobs hnone (by simp)
    obtain rfl := Option.some.inj (hwhole.symm.trans hwhole')
    obtain rfl := Option.some.inj hmerged
    exact .single hdata hsame
  | incremental hinitial =>
    refine .incremental fun w v payloads hw hpayloads hv hparts => ?_
    simp only [laterPayloads, Option.bind_eq_bind, Option.bind_eq_some_iff] at hpayloads
    obtain ⟨⟨history, v'⟩, hrun, hpayloads⟩ := hpayloads
    obtain ⟨rfl, rfl⟩ : _ = payloads ∧ v' = v := by simpa using hpayloads
    rw [parts_of_payloads]
    have hdeclared := declared_of_queued (jobsDeclared_executeRoot hr)
    obtain ⟨I', hI', hunfolds⟩ := unfolds_of_runJobs hctx howned hdeclared hw hv hrun
    have hclean := hunfolds.clean hdeclared fun part hpart => by
      rw [← parts_of_payloads, List.mem_flatMap] at hpart
      obtain ⟨payload, hpayload, hpart⟩ := hpart
      exact hparts payload hpayload part hpart
    -- The first report and the later ones come from two runs, which are taken together.
    obtain ⟨data, whole', merged, hdata, hwhole', hmerged, hsame⟩ :=
      assembled (hcomparable (hI.or hI')) (yields_mono (fun _ => .inl) hr) hrClean hs hsClean hsJobs
        (hunfolds.mono fun _ => .inr) hclean
    obtain rfl := Option.some.inj (hwhole.symm.trans hwhole')
    obtain rfl := Option.some.inj (hinitial.symm.trans hdata)
    exact ⟨merged, hmerged, hsame⟩

/-- When callbacks look at sources and arguments only and no error is recorded, what is delivered in
the end is what the request without `@defer` and `@stream` gives. -/
theorem executeIncrementally_assembles {r : Request σ} (hsteady : r.Steady View.source)
    (hclosed : ∀ f ∈ r.document.fragments, f.variableDefinitions = none)
    (hconsistent : r.plain.Consistent) {w w' v v' : World σ} {response : Response σ}
    {result : ExecutionResult} (hw : w.Ongoing) (hw' : w'.Ongoing)
    (h : r.executeIncrementally w = some (response, v)) (h' : r.plain.execute w' = some (result, v'))
    (hv : v.taken.Nodup) (hv' : v'.taken.Nodup) (herrors : response.initialErrors = [])
    (herrors' : result.errors = []) :
    ∃ data, result.data = some data ∧ response.Assembles data := by
  obtain ⟨whole, root, s, u', hprepare', hrun', hu', hsClean, hsJobs, hdata⟩ :=
    exists_report_of_execute h' herrors'
  rcases executeIncrementally_cases h with ⟨e, he, rfl⟩ |
    ⟨ctx, _, report, u, hprepare, hrun, hresponds, hu⟩
  · exact (errors_ne_nil_of_prepare he herrors).elim
  · have hplain := prepare_plain r
    rw [hprepare, hprepare'] at hplain
    obtain ⟨rfl, rfl⟩ := Prod.mk.inj (Except.ok.inj hplain)
    obtain ⟨-, hfragments, howned⟩ := prepare_spec hprepare
    have hctx := hsteady.prepared hprepare
    have hctx' : ctx.plain.Steady View.source := ⟨hctx.schema, hctx.fieldResolver, hctx.typeResolver⟩
    obtain ⟨I, hI, hyields⟩ := yields_of_run (w := w.trace _) (hctx.anywhere fun _ => True)
      howned hw (hu ▸ hv) hrun
    obtain ⟨J, hJ, hyields'⟩ := yields_of_run (w := w'.trace _) (hctx'.anywhere fun _ => True)
      howned hw' (hu' ▸ hv') hrun'
    rw [hdata]
    exact assembles_of_reports hctx howned (hfragments ▸ hclosed)
      (hconsistent _ _ hprepare') hI hJ hyields hyields' hsClean hsJobs hresponds herrors

/-! ## A small request -/

/-- Whether fields of the sample type are collected, each used once and nothing deferred; values are
scalars. -/
def Place.Sample : Place σ → Prop
  | .fields object collected => object = sampleType ∧
    ∃ names : List String, collected = ⟨names.map fun name => (name, [sampleUse name]), []⟩
  | .value _ t => ∃ s, (sampleSchema : Schema σ).type? t.innermost = some (.scalar s)

theorem sample_of_declared (hschema : ctx.schema = sampleSchema)
    (hroot : ctx.rootFields sampleType =
      some ⟨["name", "numbers"].map fun name => (name, [sampleUse name]), []⟩)
    {path : Path} {place : Place σ} (h : Declared ctx sampleType path place) : place.Sample := by
  induction h with
  | root hcollected =>
    obtain rfl := Option.some.inj (hroot.symm.trans hcollected)
    exact ⟨rfl, _, rfl⟩
  | deferred _ hfragment ih =>
    obtain ⟨-, names, rfl⟩ := ih
    cases hfragment
  | field _ _ hfield ih =>
    obtain ⟨rfl, -⟩ := ih
    have hmem := List.mem_of_find?_eq_some hfield
    simp only [sampleType, Component.given, List.mem_cons, List.not_mem_nil, or_false] at hmem
    rcases hmem with rfl | rfl
    · exact ⟨.string, rfl⟩
    · exact ⟨.int, rfl⟩
  | @item _ _ t _ _ _ ht ih =>
    cases t <;> cases ht <;> exact ih
  | object _ _ hobject _ ih =>
    obtain ⟨s, hs⟩ := ih
    exact (hobject.not_leaf.1 s (hschema ▸ hs)).elim

theorem consistent_slowRequest (numbers : List Value) : (slowRequest numbers).plain.Consistent := by
  intro ctx root hprepare path object collected key uses hdeclared hgroup use huse use' huse'
  obtain ⟨operation, values, hoperation, hroot, rfl⟩ := exists_of_prepare hprepare
  obtain rfl : sampleOperation.plain = operation := Except.ok.inj hoperation
  obtain rfl : sampleType = root := Option.some.inj hroot
  obtain ⟨-, names, rfl⟩ := sample_of_declared rfl rfl hdeclared
  obtain ⟨name, -, heq⟩ := List.mem_map.mp hgroup
  obtain ⟨rfl, rfl⟩ := Prod.mk.inj heq
  obtain rfl := List.mem_singleton.mp huse
  obtain rfl := List.mem_singleton.mp huse'
  exact ⟨rfl, fun _ _ => rfl⟩

theorem slowRequest_assembles :
    ∃ initial ctx jobs v payloads u result v' data merged,
      (slowRequest [.int 1, .int 2]).executeIncrementally { host := 0 } =
        some (.incremental initial ctx jobs, v) ∧
      laterPayloads ctx jobs v = some (payloads, u) ∧ 2 < payloads.length ∧
      (slowRequest [.int 1, .int 2]).plain.execute { host := 3 } = some (result, v') ∧
      result.data = some data ∧
      mergeParts (payloads.flatMap (·.parts)) (.object initial.data) = some merged ∧
      merged.Same (.object data) := by
  have hlater : ((slowRequest [.int 1, .int 2]).executeIncrementally { host := 0 }).any fun
      | (.incremental initial ctx jobs, v) => v.taken.Nodup ∧ initial.errors.isEmpty ∧
        v.signal.isAborted = false ∧ (laterPayloads ctx jobs v).any fun (payloads, u) =>
          u.taken.Nodup ∧ 2 < payloads.length ∧
            payloads.all fun payload => payload.parts.all (·.errors.isEmpty)
      | (.single _, _) => false := by decide +kernel
  have hplain : ((slowRequest [.int 1, .int 2]).plain.execute { host := 3 }).any
      fun (result, v) => v.taken.Nodup ∧ result.errors.isEmpty := by decide +kernel
  obtain ⟨⟨response, v⟩, h, hv⟩ := (Option.any_eq_true _ _).mp hlater
  obtain ⟨⟨result, v'⟩, h', hv'⟩ := (Option.any_eq_true _ _).mp hplain
  have hsteady : (slowRequest [.int 1, .int 2]).Steady View.source := by
    refine ⟨steady_sampleSchema, ?_, fun resolver hresolver => nomatch hresolver⟩
    rintro _ ⟨⟩
    exact steady_slowResolver
  have hclosed : ∀ f ∈ (slowRequest [.int 1, .int 2]).document.fragments,
      f.variableDefinitions = none := by simp [slowRequest, Document.fragments]
  have hw (polls : Nat) : World.Ongoing { host := polls } := rfl
  cases response with
  | single => cases hv
  | incremental initial ctx jobs =>
    simp only [Bool.decide_and, Bool.decide_eq_true, Bool.and_eq_true, decide_eq_true_eq,
      List.isEmpty_iff] at hv hv'
    obtain ⟨hv, hclean, hongoing, hpayloads⟩ := hv
    obtain ⟨⟨payloads, u⟩, hpayloads, hu⟩ := (Option.any_eq_true _ _).mp hpayloads
    simp only [Bool.and_eq_true, decide_eq_true_eq, List.all_eq_true, List.isEmpty_iff] at hu
    obtain ⟨hu, hlength, hparts⟩ := hu
    obtain ⟨data, hdata, hassembles⟩ := executeIncrementally_assembles hsteady hclosed
      (consistent_slowRequest _) (hw 0) (hw 3) h h' hv hv'.1 hclean hv'.2
    cases hassembles with
    | incremental hmerges =>
      obtain ⟨merged, hmerged, hsame⟩ := hmerges v u payloads hongoing hpayloads hu hparts
      exact ⟨initial, ctx, jobs, v, payloads, u, result, v', data, merged, h, hpayloads, hlength, h',
        hdata, hmerged, hsame⟩

end GraphQL
