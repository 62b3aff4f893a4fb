import GraphQL.Proofs.Execution.Assembly.Covering

/-! # Assembling a response

The parts that are delivered later are merged into the initial data one after the other. When there
are no errors, every part finds its place, and what comes out in the end is the data of the same
request without `@defer` and `@stream`.
-/

namespace GraphQL

open Process

variable {σ : Type} {I J : World σ → Prop} {ctx : ExecutionContext σ} {root : ObjectType σ}
  {whole merged merged' : Value}

/-! ## Places of jobs -/

/-- Whether there is a place for what a job delivers next. -/
def Job.Ready (merged : Value) : Job σ → Prop
  | .deferred _ _ path _ => ∃ v, merged.at? path.segments = some v
  | .streamed _ _ path _ index _ =>
    ∃ items, merged.at? path.segments = some (.list items) ∧ index ≤ items.length

theorem Job.Ready.grow {job : Job σ} (h : job.Ready merged) (hmerged : merged.Within merged') :
    job.Ready merged' := by
  cases job with
  | deferred object source path fragment =>
    obtain ⟨v, hv⟩ := h
    obtain ⟨v', hv', -⟩ := hmerged.at? path.segments v hv
    exact ⟨v', hv'⟩
  | streamed plan itemType path label index source =>
    obtain ⟨items, hitems, hindex⟩ := h
    have hwithin := hmerged.at? path.segments
    rw [hitems] at hwithin
    obtain ⟨items', hitems', hlength⟩ := hwithin.list
    exact ⟨items', hitems', Nat.le_trans hindex hlength⟩

theorem Remains.ready {plan : FieldPlan σ} {itemType : TypeRef} {path : Path}
    {remaining : List HostValue} {index : Nat} {jobs : List (Job σ)} {items : List Value}
    (h : Remains plan itemType path remaining index jobs)
    (hitems : merged.at? path.segments = some (.list items)) (hindex : index ≤ items.length) :
    ∀ job ∈ jobs, job.Ready merged := by
  cases h with
  | nothing => simp
  | queued =>
    intro job hjob
    obtain rfl := List.mem_singleton.mp hjob
    exact ⟨items, hitems, hindex⟩

theorem Gives.ready {work : Work σ} {path : Path} {v : Option Value} {jobs : List (Job σ)}
    (h : Gives I ctx work path v jobs) (hv : Value.OptionWithin v (merged.at? path.segments)) :
    ∀ job ∈ jobs, job.Ready merged := by
  induction h with
  | @fields object source collected path pieces hgrouped hkeys _ ih =>
    refine List.forall_mem_append.mpr ⟨fun job hjob => ?_, fun job hjob => ?_⟩
    · obtain ⟨fragment, -, rfl⟩ := List.mem_map.mp hjob
      obtain ⟨fields, hfields⟩ := hv.object
      exact ⟨_, hfields⟩
    · obtain ⟨⟨key, w, js⟩, hmem, hjob⟩ := List.mem_flatMap.mp hjob
      obtain ⟨i, hpiece⟩ := List.mem_iff_getElem?.mp hmem
      obtain ⟨uses, hgroup⟩ := exists_group_of_piece hkeys hpiece
      have hw := hv.child? (.key key)
      change Value.OptionWithin (Entries.get? key (fieldsOf pieces)) _ at hw
      rw [get?_fieldsOf (hkeys ▸ hgrouped.keys) hmem] at hw
      exact ih i key uses w js hgroup hpiece hw job hjob
  | absent | typeName | null | scalar | enum => simp
  | field _ _ _ _ ih => exact ih hv
  | @list _ _ _ _ _ initial _ path _ pieces _ _ _ _ hlength _ hremains ih =>
    refine List.forall_mem_append.mpr ⟨fun job hjob => ?_, ?_⟩
    · obtain ⟨⟨w, js⟩, hmem, hjob⟩ := List.mem_flatMap.mp hjob
      obtain ⟨i, hpiece⟩ := List.mem_iff_getElem?.mp hmem
      have hi : i < initial.length := hlength ▸ (List.getElem?_eq_some_iff.mp hpiece).1
      have hw := hv.child? (.index i)
      change Value.OptionWithin (pieces.map Prod.fst)[i]? _ at hw
      rw [List.getElem?_map, hpiece] at hw
      exact ih i _ w js (List.getElem?_eq_getElem hi) hpiece hw job hjob
    · obtain ⟨items, hitems, hle⟩ := hv.list
      rw [List.length_map, hlength] at hle
      exact hremains.ready hitems hle
  | object _ _ _ _ _ ih => exact ih hv

/-! ## One part -/

theorem Gives.object_of_fields {object : ObjectType σ} {source : HostValue} {collected : Collected}
    {path : Path} {v : Value} {jobs : List (Job σ)}
    (h : Gives I ctx (.fields object source collected) path (some v) jobs) :
    ∃ fields, v = .object fields := by
  cases h
  exact ⟨_, rfl⟩

/-- What a job that came to its end without an error merged, and the jobs that it left. -/
def Job.Told (I : World σ → Prop) (ctx : ExecutionContext σ) (merged : Value) (jobs : List (Job σ)) :
    Job σ → Prop
  | .deferred object source path fragment =>
    ∃ v, Gives I ctx (.fields object source fragment.fields) path (some v) jobs ∧
      Value.OptionWithin (some v) (merged.at? path.segments)
  | .streamed plan itemType path _ index source => source.values = [] ∨
    ∃ v rest w given later, source.values = v :: rest ∧ jobs = given ++ later ∧
      Gives I ctx (.value plan itemType v) (path.index index) (some w) given ∧
      Value.OptionWithin (some w) (merged.at? (path.index index).segments) ∧
      Remains plan itemType path rest (index + 1) later

theorem Job.Told.grow {job : Job σ} {jobs : List (Job σ)} (h : job.Told I ctx merged jobs)
    (hmerged : merged.Within merged') : job.Told I ctx merged' jobs := by
  have hgrow {v : Value} {place : List Segment}
      (hv : Value.OptionWithin (some v) (merged.at? place)) :
      Value.OptionWithin (some v) (merged'.at? place) := by
    obtain ⟨w, hw, hwithin⟩ := hv v rfl
    obtain ⟨w', hw', hwithin'⟩ := hmerged.at? place w hw
    exact .some hw' (hwithin.trans hwithin')
  cases job with
  | deferred =>
    obtain ⟨v, hgives, hv⟩ := h
    exact ⟨v, hgives, hgrow hv⟩
  | streamed =>
    refine h.imp_right fun ⟨v, rest, w, given, later, hsource, hjobs, hgives, hw, hremains⟩ => ?_
    exact ⟨v, rest, w, given, later, hsource, hjobs, hgives, hgrow hw, hremains⟩

/-- Merges what a job delivered, if it delivered something. -/
def Job.patch (job : Job σ) (r : Report σ) (data : Value) : Option Value :=
  match job.part r with
  | some part => part.patch data
  | none => some data

/-- Whether merging leads to a piece of the whole, with the jobs in their places. -/
structure Merges (I J : World σ → Prop) (ctx : ExecutionContext σ) (root : ObjectType σ)
    (whole merged : Value) (job : Job σ) (jobs : List (Job σ)) (merged' : Value) : Prop where
  keeps : merged.Within merged'
  within : merged'.Within whole
  told : job.Told I ctx merged' jobs
  backed : ∀ job ∈ jobs, job.Backed J ctx root whole
  ready : ∀ job ∈ jobs, job.Ready merged'

section

variable (hC : Comparable I J ctx root) (hmerged : merged.Within whole) {r : Report σ}

include hC hmerged

theorem merges_deferred {object : ObjectType σ} {source : HostValue} {path : Path}
    {fragment : Deferred}
    (hbacked : (Job.deferred object source path fragment).Backed J ctx root whole)
    (hready : (Job.deferred object source path fragment).Ready merged)
    (h : Yields I ((Job.deferred object source path fragment).execute ctx) r) (hr : r.Clean) :
    ∃ merged', (Job.deferred object source path fragment).patch r merged = some merged' ∧
      Merges I J ctx root whole merged (.deferred object source path fragment)
        (r.jobs.map Prod.snd) merged' := by
  obtain ⟨hgrouped, work', path', w, hpart, hdeclared, hgivesWhole, hplace⟩ := hbacked
  obtain ⟨place, hroom⟩ := hready
  obtain ⟨v, hv, hgives⟩ := tells_deferred hC.calm hgrouped h hr
  obtain ⟨hwithin, hjobs⟩ := hgivesWhole.bounds hC rfl hdeclared hgives hpart hplace
  obtain ⟨w, rfl, hvw⟩ := hwithin v rfl
  obtain ⟨merged', hpatch, hpatched⟩ :=
    Value.exists_patched hmerged hplace hvw (Value.hasRoom_of_at? hroom)
  refine ⟨merged', ?_, hpatched.keeps, hpatched.within, ⟨v, hgives, hpatched.adds⟩, hjobs,
    hgives.ready hpatched.adds⟩
  obtain ⟨fields, rfl⟩ := hgives.object_of_fields
  have hobject : r.outcome.object? = some fields := Outcome.object?_eq_some.mpr hv
  simp only [Job.patch, Job.part, Part.patch, hobject]
  exact hpatch

theorem merges_streamed {plan : FieldPlan σ} {itemType : TypeRef} {path : Path}
    {label : Option String} {index : Nat} {source : ItemSource}
    (hbacked : (Job.streamed plan itemType path label index source).Backed J ctx root whole)
    (hready : (Job.streamed plan itemType path label index source).Ready merged)
    (h : Yields I ((Job.streamed plan itemType path label index source).execute ctx) r)
    (hr : r.Clean) :
    ∃ merged', (Job.streamed plan itemType path label index source).patch r merged = some merged' ∧
      Merges I J ctx root whole merged (.streamed plan itemType path label index source)
        (r.jobs.map Prod.snd) merged' := by
  have hpart (value : Option Value) (hvalue : r.value? = value) :
      r.outcome.result = .ok value := by
    have herror := hr.2
    unfold Report.isError Outcome.isError at herror
    unfold Report.value? Outcome.value? at hvalue
    split at herror
    · next v hv => simpa [hv] using hvalue
    · cases herror
  rcases tells_streamed hC.calm h hr with
    ⟨hsource, hvalue, hjobs⟩ | ⟨v, rest, w, given, later, hsource, hvalue, hgives, hremains, hjobs⟩
  · refine ⟨merged, ?_, .refl _, hmerged, .inl hsource, ?_, ?_⟩
    · simp [Job.patch, Job.part, hpart none hvalue]
    · simp [hjobs]
    · simp [hjobs]
  · obtain ⟨work', path', w', hitem, hdeclared, hgivesWhole, hplace⟩ := hbacked 0 v (by simp [hsource])
    change whole.at? (path.index index).segments = w' at hplace
    obtain ⟨hwithin, hgiven⟩ := hgivesWhole.bounds hC rfl hdeclared hgives hitem hplace
    obtain ⟨w', rfl, hww'⟩ := hwithin w rfl
    obtain ⟨items, hitems, hindex⟩ := hready
    obtain ⟨merged', hpatch, hpatched⟩ :=
      Value.exists_patched hmerged hplace hww' (Value.hasRoom_of_list hitems hindex)
    -- The list now has the item, so there is a place for the next one.
    obtain ⟨items', hitems', hlength⟩ : ∃ items', merged'.at? path.segments = some (.list items') ∧
        index + 1 ≤ items'.length := by
      have hlist := hpatched.keeps.at? path.segments
      rw [hitems] at hlist
      obtain ⟨items', hitems', -⟩ := hlist.list
      obtain ⟨x, hx, -⟩ := hpatched.adds w rfl
      change merged'.at? (path.segments ++ [.index index]) = some x at hx
      rw [Value.at?_concat, hitems'] at hx
      exact ⟨items', hitems', (List.getElem?_eq_some_iff.mp hx).1⟩
    refine ⟨merged', ?_, hpatched.keeps, hpatched.within,
      .inr ⟨v, rest, w, given, later, hsource, hjobs, hgives, hpatched.adds, hremains⟩, ?_, ?_⟩
    · simp only [Job.patch, Job.part, hpart (some w) hvalue, Part.patch]
      exact hpatch
    · rw [hjobs, List.forall_mem_append]
      refine ⟨hgiven, hremains.backed fun i y hy => ?_⟩
      have hnext := hbacked (i + 1) y (by rw [hsource, List.getElem?_cons_succ, hy])
      rwa [Nat.add_assoc, Nat.add_comm 1 i]
    · rw [hjobs, List.forall_mem_append]
      exact ⟨hgives.ready hpatched.adds, hremains.ready hitems' hlength⟩

theorem exists_merges {job : Job σ} (hbacked : job.Backed J ctx root whole)
    (hready : job.Ready merged) (h : Yields I (job.execute ctx) r) (hr : r.Clean) :
    ∃ merged', job.patch r merged = some merged' ∧
      Merges I J ctx root whole merged job (r.jobs.map Prod.snd) merged' := by
  cases job with
  | deferred => exact merges_deferred hC hmerged hbacked hready h hr
  | streamed => exact merges_streamed hC hmerged hbacked hready h hr

end

/-! ## All parts -/

/-- Merges all parts that some jobs delivered, one after the other. -/
def mergeParts (parts : List Part) (data : Value) : Option Value :=
  parts.foldlM (fun data part => part.patch data) data

theorem mergeParts_cons (finished : Finished σ) (history : List (Finished σ)) (data : Value) :
    mergeParts (partsOf (finished :: history)) data =
      (finished.job.patch finished.report data).bind (mergeParts (partsOf history)) := by
  unfold mergeParts partsOf Job.patch
  rw [List.filterMap_cons, show finished.part = finished.job.part finished.report from rfl]
  cases finished.job.part finished.report <;> rfl

theorem Report.mem_jobs_of_mem_queued {r : Report σ} {job : Job σ} (h : job ∈ r.outcome.queued) :
    job ∈ r.jobs.map Prod.snd := by
  obtain ⟨ticket, hmem⟩ := Outcome.mem_jobs_of_mem_queued h
  exact List.mem_map_of_mem hmem

theorem exists_merged (hC : Comparable I J ctx root) {jobs : List (Job σ)}
    {history : List (Finished σ)} (h : Unfolds I ctx jobs history [])
    (hbacked : ∀ job ∈ jobs, job.Backed J ctx root whole) (hready : ∀ job ∈ jobs, job.Ready merged)
    (hmerged : merged.Within whole) (hclean : ∀ finished ∈ history, finished.report.Clean) :
    ∃ merged', mergeParts (partsOf history) merged = some merged' ∧ merged.Within merged' ∧
      merged'.Within whole ∧ ∀ finished ∈ history,
        finished.job.Told I ctx merged' (finished.report.jobs.map Prod.snd) := by
  generalize hleft : ([] : List (Job σ)) = left at h
  induction h generalizing merged with
  | refl => exact ⟨merged, rfl, .refl _, hmerged, by simp⟩
  | @cons jobs others finished rest left hjobs hyields hrest ih =>
    obtain ⟨hfirst, hlater⟩ := List.forall_mem_cons.mp hclean
    obtain ⟨hbackedFirst, hbackedOthers⟩ :=
      List.forall_mem_cons.mp fun job hjob => hbacked job (hjobs.mem_iff.mpr hjob)
    obtain ⟨hreadyFirst, hreadyOthers⟩ :=
      List.forall_mem_cons.mp fun job hjob => hready job (hjobs.mem_iff.mpr hjob)
    obtain ⟨merged₁, hpatch, hmerges⟩ :=
      exists_merges hC hmerged hbackedFirst hreadyFirst hyields hfirst
    obtain ⟨merged', hparts, hkeeps, hwithin, htold⟩ := ih
      (List.forall_mem_append.mpr ⟨hbackedOthers, fun job hjob =>
        hmerges.backed job (Report.mem_jobs_of_mem_queued hjob)⟩)
      (List.forall_mem_append.mpr ⟨fun job hjob => (hreadyOthers job hjob).grow hmerges.keeps,
        fun job hjob => hmerges.ready job (Report.mem_jobs_of_mem_queued hjob)⟩)
      hmerges.within hlater hleft
    refine ⟨merged', ?_, hmerges.keeps.trans hkeeps, hwithin,
      List.forall_mem_cons.mpr ⟨hmerges.told.grow hkeeps, htold⟩⟩
    rw [mergeParts_cons, hpatch]
    exact hparts

/-- Whether a job came to its end. -/
def DoneIn (history : List (Finished σ)) (job : Job σ) : Prop :=
  ∃ finished ∈ history, finished.job = job

theorem Unfolds.done {jobs : List (Job σ)} {history : List (Finished σ)}
    (h : Unfolds I ctx jobs history []) : (∀ job ∈ jobs, DoneIn history job) ∧
      ∀ finished ∈ history, ∀ job ∈ finished.report.outcome.queued, DoneIn history job := by
  generalize hleft : ([] : List (Job σ)) = left at h
  induction h with
  | refl =>
    subst hleft
    simp
  | @cons jobs others finished rest left hjobs _ _ ih =>
    obtain ⟨hnext, hlater⟩ := ih hleft
    obtain ⟨hothers, hqueued⟩ := List.forall_mem_append.mp hnext
    have hgrow {job : Job σ} : DoneIn rest job → DoneIn (finished :: rest) job :=
      fun ⟨f, hf, hjob⟩ => ⟨f, List.mem_cons_of_mem _ hf, hjob⟩
    refine ⟨fun job hjob => ?_, List.forall_mem_cons.mpr
      ⟨fun job hjob => hgrow (hqueued job hjob), fun f hf job hjob => hgrow (hlater f hf job hjob)⟩⟩
    rcases List.mem_cons.mp (hjobs.mem_iff.mp hjob) with rfl | hjob
    · exact ⟨finished, List.mem_cons_self, rfl⟩
    · exact hgrow (hothers job hjob)

theorem settles_of_told {history : List (Finished σ)}
    (hclean : ∀ finished ∈ history, finished.report.Clean)
    (htold : ∀ finished ∈ history,
      finished.job.Told I ctx merged (finished.report.jobs.map Prod.snd))
    (hdone : ∀ finished ∈ history, ∀ job ∈ finished.report.outcome.queued, DoneIn history job) :
    Settles I ctx (DoneIn history) merged := by
  have hleft (finished : Finished σ) (hmem : finished ∈ history) :
      ∀ job ∈ finished.report.jobs.map Prod.snd, DoneIn history job := fun job hjob =>
    hdone finished hmem job ((Outcome.queued_perm (hclean finished hmem).2).mem_iff.mpr hjob)
  constructor
  · rintro object source path fragment ⟨finished, hmem, hjob⟩
    have hfinished := htold finished hmem
    rw [hjob] at hfinished
    obtain ⟨v, hgives, hv⟩ := hfinished
    exact ⟨path, some v, _, rfl, hgives, hv, hleft finished hmem⟩
  · rintro plan itemType path label index source v rest ⟨finished, hmem, hjob⟩ hsource
    have hfinished := htold finished hmem
    rw [hjob] at hfinished
    rcases hfinished with hnil | ⟨v', rest', w, given, later, hsource', hjobs, hgives, hw, hremains⟩
    · simp [hsource] at hnil
    · obtain ⟨rfl, rfl⟩ := List.cons.inj (hsource.symm.trans hsource')
      have hall := hleft finished hmem
      rw [hjobs, List.forall_mem_append] at hall
      exact ⟨⟨path.index index, some w, given, rfl, hgives, hw, hall.1⟩, later, hremains, hall.2⟩

/-! ## The root -/

section

variable (hC : Comparable I J ctx root) {collected collected' : Collected}

include hC

/-- What is collected at the root is part of what is collected there when nothing is deferred, and
covers it. -/
theorem partOf_root (hcollected : ctx.rootFields root = some collected)
    (hcollected' : ctx.plain.rootFields root = some collected') :
    (Work.fields root ctx.root collected).PartOf (.fields root ctx.root collected') ∧
      ∀ u', collected'.Has u' → ∃ u, collected.Has u ∧ u.plain = u' := by
  have hhas {u : FieldUse} := ExecutionContext.has_rootFields (u := u) hC.closed hcollected
  have hhas' {u : FieldUse} := ExecutionContext.has_rootFields (u := u)
    (ExecutionContext.variableDefinitions_plain hC.closed) hcollected'
  refine ⟨⟨.fields rfl, fun u hu => ?_⟩, fun u' hu' => ?_⟩
  · have hselects := hhas.mp hu
    exact ⟨hselects.unbound, hhas'.mpr hselects.plain⟩
  · obtain ⟨u, hselects, rfl⟩ := ExecutionContext.Selects.of_plain (hhas'.mp hu')
    exact ⟨u, hhas.mpr hselects, rfl⟩

/-- What is put together from a report about the root and what its jobs deliver is what a report
without jobs tells. -/
theorem assembled {r s : Report σ} {history : List (Finished σ)}
    (hr : Yields I (executeRoot ctx root) r) (hrClean : r.Clean)
    (hs : Yields J (executeRoot ctx.plain root) s) (hsClean : s.Clean)
    (hsJobs : s.outcome.queued = []) (h : Unfolds I ctx r.outcome.queued history [])
    (hclean : ∀ finished ∈ history, finished.report.Clean) :
    ∃ data whole merged, r.outcome.object? = some data ∧ s.outcome.object? = some whole ∧
      mergeParts (partsOf history) (.object data) = some merged ∧ merged.Same (.object whole) := by
  obtain ⟨collected, hcollected, v, hv, hgives⟩ := tells_executeRoot hC.calm hr hrClean
  obtain ⟨collected', hcollected', w, hw, hgivesWhole⟩ := tells_executeRoot hC.calmWhole hs hsClean
  obtain ⟨data, rfl⟩ := hgives.object_of_fields
  obtain ⟨whole, rfl⟩ := hgivesWhole.object_of_fields
  obtain ⟨hpart, hcovers⟩ := partOf_root hC hcollected hcollected'
  have hnoJobs : s.jobs.map Prod.snd = [] :=
    List.perm_nil.mp (hsJobs ▸ (Outcome.queued_perm hsClean.2).symm)
  have hdeclared : (Work.fields root ctx.root collected').Declared ctx.plain root .root :=
    .root hcollected'
  have hbounds : (Work.fields root ctx.root collected').Bounds I J ctx root (.object whole)
      (some (.object whole)) := hgivesWhole.bounds hC hnoJobs hdeclared
  obtain ⟨hwithin, hbacked⟩ := hbounds hgives hpart rfl
  obtain ⟨_, heq, hwithin⟩ := hwithin _ rfl
  obtain rfl := Option.some.inj heq
  have hinitial : Value.OptionWithin (some (.object data)) ((Value.object data).at? []) :=
    .some rfl (.refl _)
  obtain ⟨merged, hparts, hkeeps, hmerged, htold⟩ := exists_merged hC h
    (fun job hjob => hbacked job (Report.mem_jobs_of_mem_queued hjob))
    (fun job hjob => hgives.ready hinitial job (Report.mem_jobs_of_mem_queued hjob)) hwithin hclean
  obtain ⟨hfirst, hdone⟩ := h.done
  have hheld : Held I ctx (DoneIn history) merged (.fields root ctx.root collected) [] :=
    ⟨.root, _, _, rfl, hgives, .some rfl hkeeps, fun job hjob =>
      hfirst job ((Outcome.queued_perm hrClean.2).mem_iff.mpr hjob)⟩
  have hcovered : Covered I ctx (DoneIn history) merged (.fields root ctx.root collected') [] := by
    refine ⟨⟨_, hpart, hheld⟩, fun u' hu' => ?_⟩
    obtain ⟨u, hu, rfl⟩ := hcovers u' hu'
    exact ⟨_, u, hpart, hu, rfl, hheld⟩
  obtain ⟨_, heq, hwhole⟩ := hgivesWhole.covered hC (settles_of_told hclean htold hdone) hnoJobs
    hdeclared hcovered _ rfl
  obtain rfl := Option.some.inj heq
  exact ⟨data, whole, merged, Outcome.object?_eq_some.mpr hv, Outcome.object?_eq_some.mpr hw, hparts,
    hmerged, hwhole⟩

end

end GraphQL
