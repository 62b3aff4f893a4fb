import GraphQL.Proofs.Execution.Completion.Conformance
import GraphQL.Proofs.Execution.Delivery.Histories
import GraphQL.Proofs.Execution.Timing.Reports

/-! # The schedule leaves no trace in responses

Two runs of a request whose callbacks answer the same, each after any number of polls, have the same
single or initial result. What is delivered later is the same as well; only its order may differ, and
not even that within one list.
-/

namespace GraphQL

open Process

variable {σ κ ι : Type} {I J : World σ → Prop} {ctx : ExecutionContext σ} {root : ObjectType σ}

/-! ## Jobs of a steady request -/

theorem Declared.owns {path : Path} {object : ObjectType σ} {collected : Collected}
    (hroot : ctx.schema.Owns root) (h : Declared ctx root path (.fields object collected)) :
    ctx.schema.Owns object := by
  generalize hplace : Place.fields object collected = place at h
  induction h generalizing object collected with
  | root => exact (Place.fields.inj hplace).1 ▸ hroot
  | deferred _ _ ih => exact (Place.fields.inj hplace).1 ▸ ih rfl
  | field | item => cases hplace
  | object _ _ hobject =>
    obtain ⟨_, _, _, htype⟩ := hobject
    exact (Place.fields.inj hplace).1 ▸ Schema.mem_of_type? htype

theorem Job.Declared.owned {job : Job σ} (hroot : ctx.schema.Owns root)
    (h : job.Declared ctx root) : job.OwnedBy ctx.schema := by
  cases job with
  | deferred object source path fragment =>
    obtain ⟨collected, hplace, -⟩ := h
    exact hplace.owns hroot
  | streamed => trivial

theorem tame_declared {view : View κ ι} (hctx : ctx.Steady view) (hroot : ctx.schema.Owns root) :
    Tame (Job.Declared ctx root) World.Ongoing Quiet ctx where
  acts hjob := quiet_execute (hctx.anywhere fun _ => True) (hjob.owned hroot)
  leaves := declared_of_job

/-! ## What two runs deliver -/

theorem alike_nowhere {place : List Segment} {r s : Report σ}
    (h : r.Alike (fun _ => False) place s) : r.timeless = s.timeless := h.timeless fun _ => id

theorem part_agree {job job' : Job σ} {r s : Report σ} (hjob : job.timeless = job'.timeless)
    (h : r.timeless = s.timeless) : job.part r = job'.part s := by
  have htimeless (job : Job σ) (r : Report σ) : job.timeless.part r.timeless = job.part r := by
    cases job <;> simp only [Job.part, Job.timeless, Report.outcome_timeless] <;> rfl
  rw [← htimeless, hjob, h, htimeless]

theorem queued_agree {r s : Report σ} (h : r.timeless = s.timeless) :
    (r.outcome.queued.map Job.timeless).Perm (s.outcome.queued.map Job.timeless) := by
  have herror : r.isError = s.isError := Report.isError_of_timeless h
  by_cases hr : r.isError
  · have hs := herror.symm.trans hr
    unfold Report.isError at hr hs
    simp only [Outcome.queued, hr, hs, if_true]
    exact .refl _
  · have hr : r.isError = false := by simpa using hr
    have hs := herror.symm.trans hr
    have hjobs : (r.outcome.jobs.map Prod.snd).map Job.timeless =
        (s.outcome.jobs.map Prod.snd).map Job.timeless := by
      have houtcome := congrArg (fun r : Report σ => r.outcome.jobs.map Prod.snd) h
      simpa [Report.outcome_timeless, Outcome.timeless, Function.comp_def] using houtcome
    refine ((Outcome.queued_perm hr).map _).trans ?_
    rw [hjobs]
    exact ((Outcome.queued_perm hs).map _).symm

theorem exists_perm_of_map_perm {α β : Type} {f : α → β} {l l' : List α}
    (h : (l.map f).Perm (l'.map f)) : ∃ m, l'.Perm m ∧ List.Forall₂ (fun a b => f a = f b) l m := by
  have hall : List.Forall₂ (fun b a => b = f a) (l'.map f) l' := by
    rw [List.forall₂_map_left_iff, List.forall₂_same]
    exact fun _ _ => rfl
  obtain ⟨m, hm, hperm⟩ := exists_forall₂_of_perm h.symm hall
  exact ⟨m, hperm, List.forall₂_map_left_iff.mp hm⟩

theorem partsOf_flatten {histories histories' : List (List (Finished σ))}
    (h : List.Forall₂ (fun history history' => (partsOf history).Perm (partsOf history'))
      histories histories') :
    (partsOf histories.flatten).Perm (partsOf histories'.flatten) := by
  induction h with
  | nil => exact .refl _
  | cons h hrest ih =>
    simp only [partsOf, List.flatten_cons, List.filterMap_append] at h ih ⊢
    exact h.append ih

theorem partsOf_cons {f g : Finished σ} {history history' : List (Finished σ)}
    (hpart : f.part = g.part) (h : (partsOf history).Perm (partsOf history')) :
    (partsOf (f :: history)).Perm (partsOf (g :: history')) := by
  unfold partsOf at h ⊢
  rw [List.filterMap_cons, List.filterMap_cons, hpart]
  split
  · exact h
  · exact h.cons _

theorem forall₂_trans {α β γ : Type} {R : α → β → Prop} {S : α → γ → Prop} {T : β → γ → Prop}
    {l : List α} {m : List β} {n : List γ} (hR : List.Forall₂ R l m) (hS : List.Forall₂ S l n)
    (h : ∀ a b c, R a b → S a c → T b c) : List.Forall₂ T m n := by
  induction hR generalizing n with
  | nil =>
    cases hS
    exact .nil
  | cons hab hrest ih =>
    obtain ⟨c, n', hac, hn', rfl⟩ := List.forall₂_cons_left_iff.mp hS
    exact .cons (h _ _ _ hab hac) (ih hn')

section

variable (hI : Calm I) (hJ : Calm J) (hctx : ctx.Steady View.timeless)
  (howned : ctx.schema.Owns root) {value : HostValue} (hvalue : value.timeless = ctx.root.timeless)

/-- Whether some jobs deliver what all jobs that follow from the given one in a run deliver. -/
def Repeats (J : World σ → Prop) (ctx ctx' : ExecutionContext σ) (root : ObjectType σ)
    (job : Job σ) (history : List (Finished σ)) : Prop :=
  ∀ job' history', job.Declared ctx root → job.timeless = job'.timeless →
    Completes J ctx' job' history' → (partsOf history).Perm (partsOf history')

theorem partsOf_repeats {ctx' : ExecutionContext σ} {jobs jobs' : List (Job σ)}
    {histories histories' : List (List (Finished σ))}
    (hdeclared : ∀ job ∈ jobs, job.Declared ctx root)
    (hjobs : (jobs.map Job.timeless).Perm (jobs'.map Job.timeless))
    (h : List.Forall₂ (Repeats J ctx ctx' root) jobs histories)
    (h' : List.Forall₂ (Completes J ctx') jobs' histories') :
    (partsOf histories.flatten).Perm (partsOf histories'.flatten) := by
  obtain ⟨queued, hperm, hmatch⟩ := exists_perm_of_map_perm hjobs
  obtain ⟨reordered, hall, hflatten⟩ := exists_forall₂_of_perm hperm h'
  have hstep : List.Forall₂ (fun job' history => ∀ history',
      Completes J ctx' job' history' → (partsOf history).Perm (partsOf history'))
      queued histories :=
    forall₂_trans ((List.forall₂_and_left _ _).mpr ⟨hdeclared, hmatch⟩) h
      fun job job' history ⟨hdeclared, hjob⟩ h history' => h job' history' hdeclared hjob
  have hparts : List.Forall₂ (fun history history' => (partsOf history).Perm (partsOf history'))
      histories reordered := forall₂_trans hstep hall fun _ _ history' h h' => h history' h'
  exact (partsOf_flatten hparts).trans (hflatten.symm.flatten.filterMap _)

include hI hJ hctx howned hvalue

/-- What follows from a job delivers the same parts, whatever the timing. -/
theorem completes_agree {job : Job σ} {history : List (Finished σ)} (h : Completes I ctx job history) :
    Repeats J ctx (ctx.withRoot value) root job history := by
  refine Completes.induct (fun f histories hf ih => ?_) h
  intro job' history' hdeclared hjob h'
  obtain @⟨g, histories', hg, hqueued'⟩ := h'
  have hagree := alike_nowhere
    (agree_execute hI hJ (hctx.anywhere _) hvalue (hdeclared.owned howned) hjob _ _ hf hg)
  have hleft := declared_of_job hdeclared hf
  exact partsOf_cons (part_agree hjob hagree)
    (partsOf_repeats hleft (queued_agree hagree) ih hqueued')

theorem unfolds_agree {jobs jobs' : List (Job σ)} {history history' : List (Finished σ)}
    (hdeclared : ∀ job ∈ jobs, job.Declared ctx root)
    (hjobs : (jobs.map Job.timeless).Perm (jobs'.map Job.timeless))
    (h : Unfolds I ctx jobs history []) (h' : Unfolds J (ctx.withRoot value) jobs' history' []) :
    (partsOf history).Perm (partsOf history') := by
  obtain ⟨histories, hall, hhistory⟩ := h.completes
  obtain ⟨histories', hall', hhistory'⟩ := h'.completes
  have hrepeats := hall.imp fun _ _ => completes_agree hI hJ hctx howned hvalue
  have hparts := partsOf_repeats hdeclared hjobs hrepeats hall'
  exact (hhistory.filterMap _).trans (hparts.trans (hhistory'.filterMap _).symm)

end

/-! ## Responses -/

/-- Whether the items of each list came to their ends in order. -/
def InListOrder (history : List (Finished σ)) : Prop :=
  ∃ chains, (∀ chain ∈ chains, Consecutive chain) ∧ Interleaves chains history

/-- Whether two responses tell the same: at once, and in the parts that are delivered when nothing is
aborted and no stream is read twice. -/
inductive Response.Matches : Response σ → Response σ → Prop
  | single {result} : Matches (.single result) (.single result)
  | incremental {initial ctx ctx' jobs jobs'}
    (h : ∀ w w' v v' history history', w.Ongoing → w'.Ongoing →
      runJobs ctx jobs w = some (history, v) → runJobs ctx' jobs' w' = some (history', v') →
      v.taken.Nodup → v'.taken.Nodup →
      (partsOf history).Perm (partsOf history') ∧ InListOrder history ∧ InListOrder history') :
    Matches (.incremental initial ctx jobs) (.incremental initial ctx' jobs')

theorem ExecutionContext.Steady.withRoot {view : View κ ι} (h : ctx.Steady view)
    (value : HostValue) : (ctx.withRoot value).Steady view :=
  ⟨h.schema, h.fieldResolver, h.typeResolver⟩

theorem unfolds_of_runJobs {view : View κ ι} (hctx : ctx.Steady view)
    (howned : ctx.schema.Owns root) {jobs : List (Job σ)}
    (hjobs : ∀ job ∈ jobs, job.Declared ctx root) {w v : World σ} (hw : w.Ongoing)
    (hv : v.taken.Nodup) {history : List (Finished σ)} (h : runJobs ctx jobs w = some (history, v)) :
    ∃ I : World σ → Prop, Calm I ∧ Unfolds I ctx jobs history [] :=
  ⟨_, calm_between hw hv, runJobs_unfolds quiet_course (tame_declared hctx howned) hjobs hw h⟩

theorem matches_of_agree (hctx : ctx.Steady View.timeless) (howned : ctx.schema.Owns root)
    {value : HostValue} (hvalue : value.timeless = ctx.root.timeless) {r s : Report σ}
    (hdeclared : r.JobsDeclared ctx root) (hdeclared' : s.JobsDeclared (ctx.withRoot value) root)
    (hagree : r.timeless = s.timeless) {response response' : Response σ}
    (hr : Responds ctx r response) (hs : Responds (ctx.withRoot value) s response') :
    response.Matches response' := by
  have houtcome : r.outcome.timeless = s.outcome.timeless := by
    rw [← Report.outcome_timeless, hagree, Report.outcome_timeless]
  have hobject : r.outcome.timeless.object? = s.outcome.timeless.object? := by rw [houtcome]
  have herrors : r.outcome.timeless.allErrors = s.outcome.timeless.allErrors := by rw [houtcome]
  change r.outcome.object? = s.outcome.object? at hobject
  change r.outcome.allErrors = s.outcome.allErrors at herrors
  have hqueued := queued_agree hagree
  have hnil : r.outcome.queued = [] ↔ s.outcome.queued = [] := by
    have hlength : r.outcome.queued.length = s.outcome.queued.length := by
      simpa using hqueued.length_eq
    rw [← List.length_eq_zero_iff, hlength, List.length_eq_zero_iff]
  cases hr with
  | single h =>
    cases hs with
    | single _ =>
      rw [hobject, herrors]
      exact .single
    | incremental hdata hjobs =>
      rw [hobject, hdata, hnil] at h
      simp [hjobs] at h
  | incremental hdata hjobs =>
    cases hs with
    | single h =>
      rw [← hobject, hdata, ← hnil] at h
      simp [hjobs] at h
    | incremental hdata' _ =>
      rw [hobject, hdata'] at hdata
      obtain rfl := Option.some.inj hdata
      rw [herrors]
      refine .incremental fun w w' v v' history history' hw hw' h h' hv hv' => ?_
      have hjobs := declared_of_queued hdeclared
      obtain ⟨I, hI, hunfolds⟩ := unfolds_of_runJobs hctx howned hjobs hw hv h
      obtain ⟨J, hJ, hunfolds'⟩ := unfolds_of_runJobs (hctx.withRoot value) howned
        (declared_of_queued hdeclared') hw' hv' h'
      exact ⟨unfolds_agree hI hJ hctx howned hvalue hjobs hqueued hunfolds hunfolds',
        hunfolds.interleaves, hunfolds'.interleaves⟩

theorem yields_of_run {asked : List Segment → Prop} {view : View κ ι}
    (hctx : ctx.SteadyWhere asked view) (howned : ctx.schema.Owns root)
    {w v : World σ} (hw : w.Ongoing) (hv : v.taken.Nodup) {rounds : Nat} {r : Report σ}
    (h : (executeRoot ctx root).run rounds w = some (r, v)) :
    ∃ I : World σ → Prop, Calm I ∧ Yields I (executeRoot ctx root) r :=
  ⟨_, calm_between hw hv, run_yields quiet_course hw (quiet_executeRoot hctx howned) h⟩

/-- Whatever the schedule, a request whose callbacks are steady is answered the same: its single or
initial result, and the parts that follow, with those of one list in order. -/
theorem executeIncrementally_timeless {r : Request σ} (hsteady : r.Steady View.timeless)
    {value : HostValue} (hvalue : value.timeless = r.root.timeless) {w w' v v' : World σ}
    {response response' : Response σ} (hw : w.Ongoing) (hw' : w'.Ongoing)
    (h : r.executeIncrementally w = some (response, v))
    (h' : ({ r with root := value } : Request σ).executeIncrementally w' = some (response', v'))
    (hv : v.taken.Nodup) (hv' : v'.taken.Nodup) : response.Matches response' := by
  rcases executeIncrementally_cases h with ⟨e, he, rfl⟩ |
      ⟨ctx, root, report, u, hprepare, hrun, hr, hu⟩ <;>
    rcases executeIncrementally_cases h' with ⟨e', he', rfl⟩ |
      ⟨ctx', root', report', u', hprepare', hrun', hr', hu'⟩
  · rw [prepare_withRoot, he] at he'
    obtain rfl := Except.error.inj he'
    exact .single
  · rw [prepare_withRoot, he] at hprepare'
    cases hprepare'
  · rw [prepare_withRoot, hprepare] at he'
    cases he'
  · rw [prepare_withRoot, hprepare] at hprepare'
    obtain ⟨rfl, rfl⟩ := Prod.mk.inj (Except.ok.inj hprepare')
    obtain ⟨hroot, -, howned⟩ := prepare_spec hprepare
    have hctx := hsteady.prepared hprepare
    have hvalue : value.timeless = ctx.root.timeless := hroot ▸ hvalue
    have hctx' := hctx.withRoot value
    obtain ⟨I, hI, hyields⟩ := yields_of_run (w := w.trace _) (hctx.anywhere fun _ => True)
      howned hw (hu ▸ hv) hrun
    obtain ⟨J, hJ, hyields'⟩ :=
      yields_of_run (w := w'.trace _) (hctx'.anywhere fun _ => True) howned hw' (hu' ▸ hv') hrun'
    exact matches_of_agree hctx howned hvalue (jobsDeclared_executeRoot hyields)
      (jobsDeclared_executeRoot hyields')
      (alike_nowhere (agree_executeRoot hI hJ (hctx.anywhere _) hvalue howned _ _ hyields hyields'))
      hr hr'

/-- Answers what object data holds, after as many polls as the host says. -/
def slowResolver : FieldResolver Nat := fun request _ polls =>
  let found := defaultFieldValue request.source request.info.fieldName
  ⟨.after polls fun _ polls => ⟨.ok found, polls, []⟩, polls, []⟩

def slowRequest (numbers : List Value) : Request Nat where
  schema := sampleSchema
  document := [.operation sampleOperation]
  root := .data (.object [("name", .string "Ada"), ("numbers", .list numbers)])
  fieldResolver := some slowResolver
  bounds := ⟨5, 5, 50⟩

theorem steady_slowResolver : slowResolver.Steady View.source.field HostValue.timeless := by
  refine ⟨fun (_, name, source, _) => .ok (defaultFieldValue source name).timeless,
    fun _ _ _ _ => rfl, fun request signal polls hsignal => ⟨fun _ _ _ => rfl, fun _ _ _ => ?_⟩⟩
  simp only [Except.map, View.source, defaultFieldValue_timeless]

theorem steady_sampleSchema {view : View κ ι} : (sampleSchema : Schema σ).Steady view where
  objects object howns := by
    obtain rfl : object = sampleType := by simpa [Schema.Owns, sampleSchema] using howns
    refine ⟨fun name field hfield resolver hresolver => ?_, fun check hcheck => nomatch hcheck⟩
    have hmem : field ∈ sampleType.fields.value := List.mem_of_find?_eq_some hfield
    simp only [sampleType, Component.given, List.mem_cons, List.not_mem_nil, or_false] at hmem
    rcases hmem with rfl | rfl <;> cases hresolver
  typeResolvers t ht resolver hresolver := by
    simp only [sampleSchema, List.mem_cons, List.mem_map] at ht
    rcases ht with rfl | ⟨_, -, rfl⟩ <;> cases hresolver

theorem slowRequest_timeless :
    ∃ response response' : Response Nat, ∃ v v',
      (slowRequest [.int 1, .int 2]).executeIncrementally { host := 0 } = some (response, v) ∧
      (slowRequest [.int 1, .int 2]).executeIncrementally { host := 3 } = some (response', v') ∧
      response.Matches response' := by
  have hsoon : ((slowRequest [.int 1, .int 2]).executeIncrementally { host := 0 }).any
      (·.2.taken.Nodup) := by decide +kernel
  have hlate : ((slowRequest [.int 1, .int 2]).executeIncrementally { host := 3 }).any
      (·.2.taken.Nodup) := by decide +kernel
  obtain ⟨⟨response, v⟩, h, hv⟩ := (Option.any_eq_true _ _).mp hsoon
  obtain ⟨⟨response', v'⟩, h', hv'⟩ := (Option.any_eq_true _ _).mp hlate
  have hsteady : (slowRequest [.int 1, .int 2]).Steady View.timeless := by
    refine ⟨steady_sampleSchema, ?_, fun resolver hresolver => nomatch hresolver⟩
    rintro _ ⟨⟩
    let part (request : FieldRequest) :=
      (request.info.parentType, request.info.fieldName, request.source, request.arguments)
    have hpart : slowResolver.Steady (part ∘ View.timeless.field) HostValue.timeless :=
      steady_slowResolver
    exact hpart.of_part
  have hw (polls : Nat) : World.Ongoing { host := polls } := rfl
  exact ⟨response, response', v, v', h, h',
    executeIncrementally_timeless hsteady rfl (hw 0) (hw 3) h h' (by simpa using hv)
      (by simpa using hv')⟩

end GraphQL
