import GraphQL.Proofs.Execution.Delivery.Accounting
import GraphQL.Proofs.Execution.Timing.Responses
import GraphQL.Proofs.Execution.Process.Traces

/-! # Mutations

The root fields of a mutation are executed one after the other: as long as work on one goes on, no
later one has begun. Each is resolved at most once with the fields that are delivered at once, and
with each deferred fragment that selects it.
-/

namespace GraphQL

open Process Completing

variable {σ ρ : Type}

/-! ## One process after another -/

namespace Process

theorem asked_done (r : ρ) (n : Nat) (w : World σ) :
    (Process.done r).asked n w = (.done r, w) := by
  induction n with
  | zero => rfl
  | succ n ih => rwa [asked, poll]

theorem result?_bind {p : Process σ ρ} (h : p.result? = none) (k : ρ → Process σ ρ) :
    (p.bind k).result? = none := by
  cases p with
  | done => cases h
  | _ => rfl

theorem asked_bind {p q : Process σ ρ} {k : ρ → Process σ ρ} {n : Nat} {u v : World σ}
    (h : (p.bind k).asked n u = (q, v)) :
    (∃ left, p.asked n u = (left, v) ∧ left.result? = none ∧ q = left.bind k) ∨
      ∃ i j r w, p.asked i u = (.done r, w) ∧ (k r).asked j w = (q, v) := by
  -- What is done goes on with the rest at once.
  have hdone {r : ρ} (n : Nat) (u : World σ) (h : (k r).asked n u = (q, v)) :
      ∃ i j s w, (Process.done r).asked i u = (.done s, w) ∧ (k s).asked j w = (q, v) :=
    ⟨0, n, r, u, rfl, h⟩
  induction n generalizing p u with
  | zero =>
    obtain ⟨rfl, rfl⟩ := Prod.mk.inj h
    cases p with
    | done r => exact .inr (hdone 0 u rfl)
    | _ => exact .inl ⟨_, rfl, rfl, rfl⟩
  | succ n ih =>
    rw [asked, poll_bind] at h
    cases hpoll : (p.poll u).1 with
    | done r =>
      rw [hpoll] at h
      exact .inr ⟨1, n + 1, r, (p.poll u).2, Prod.ext hpoll rfl, h⟩
    | _ =>
      rw [hpoll] at h
      rcases ih (p := (p.poll u).1) (by rw [hpoll]; exact h) with
        ⟨left, hleft, hnone, hq⟩ | ⟨i, j, r, w, hr, hrest⟩
      · exact .inl ⟨left, hleft, hnone, hq⟩
      · exact .inr ⟨i + 1, j, r, w, hr, hrest⟩

end Process

/-! ## Taking turns -/

/-- How often the root field with a response key was resolved. -/
abbrev World.resolved (key : String) (w : World σ) : Nat := w.count (TraceEvent.resolves [.key key])

/-- Whether work on the root field with a response key leads from a world to another. All that is
traced is about the field, and that it is resolved is traced at most once. -/
structure Turn (key : String) (p left : Completing σ) (u v : World σ) : Prop where
  asked : ∃ n, p.asked n u = (left, v)
  about : u.Adds (TraceEvent.Inside [.key key]) v
  once : v.resolved key ≤ u.resolved key + 1

/-- Whether work on root fields, each of which begins when the one before is done, leads from a world
to another, with reports on those that are done. The flag tells whether it is over, which it is after
all of them, or when an error escapes from one. -/
inductive InTurn : Bool → List (String × Completing σ) → World σ → List (String × Report σ) →
    World σ → Prop
  | nil {w} : InTurn true [] w [] w
  | busy {key p left rest u v} (h : Turn key p left u v) (hleft : left.result? = none) :
    InTurn false ((key, p) :: rest) u [] v
  | stopped {key p r rest u v} (h : Turn key p (.done r) u v) (herror : r.isError) :
    InTurn true ((key, p) :: rest) u [(key, r)] v
  | cons {isOver key p r rest reports u v w} (h : Turn key p (.done r) u v)
    (herror : r.isError = false) (hrest : InTurn isOver rest v reports w) :
    InTurn isOver ((key, p) :: rest) u ((key, r) :: reports) w

/-- Whether all work on a root field makes up its turn. -/
def TakesTurn (field : String × Completing σ) : Prop :=
  ∀ n u left v, field.2.asked n u = (left, v) → Turn field.1 field.2 left u v

theorem inTurn_of_asked {deferred : List (Nat × Job σ)} {fields : List (String × Completing σ)}
    (hfields : ∀ field ∈ fields, TakesTurn field) {finished : List (String × Report σ)} {n : Nat}
    {u v : World σ} {left : Completing σ}
    (h : (inSequence deferred finished fields).asked n u = (left, v)) :
    ∃ reports, InTurn left.result?.isSome fields u reports v ∧
      ∀ r, left = .done r → r = .object deferred (finished ++ reports) := by
  induction fields generalizing finished n u with
  | nil =>
    obtain ⟨rfl, rfl⟩ := Prod.mk.inj ((asked_done _ n u).symm.trans h)
    exact ⟨[], .nil, fun r hr => by simpa using (Process.done.inj hr).symm⟩
  | cons field rest ih =>
    obtain ⟨hfield, hrest⟩ := List.forall_mem_cons.mp hfields
    obtain ⟨key, p⟩ := field
    unfold inSequence at h
    rcases asked_bind h with ⟨busy, hbusy, hnone, rfl⟩ | ⟨i, j, r, w, hr, hnext⟩
    · have hleft := result?_bind hnone
        fun r => if r.isError then .done (.object deferred (finished ++ [(key, r)]))
          else inSequence deferred (finished ++ [(key, r)]) rest
      refine ⟨[], ?_, fun r hr => ?_⟩
      · rw [hleft]
        exact .busy (hfield _ _ _ _ hbusy) hnone
      · rw [hr] at hleft
        cases hleft
    · have hturn := hfield _ _ _ _ hr
      dsimp only at hnext
      split at hnext
      · next herror =>
        obtain ⟨rfl, rfl⟩ := Prod.mk.inj ((asked_done _ j w).symm.trans hnext)
        exact ⟨[(key, r)], .stopped hturn herror, fun s hs => (Process.done.inj hs).symm⟩
      · next herror =>
        obtain ⟨reports, hreports, hdone⟩ := ih hrest hnext
        refine ⟨(key, r) :: reports, .cons hturn (by simpa using herror) hreports, fun s hs => ?_⟩
        rw [hdone s hs, List.append_assoc, List.singleton_append]

/-! ## How often fields are resolved -/

/-- Whether no event of a kind is allowed. -/
abbrev Silent (kind : TraceEvent → Bool) (event : TraceEvent) : Prop := kind event = false

variable {kind : TraceEvent → Bool} {ctx : ExecutionContext σ} {path : Path}

section

variable {plan : FieldPlan σ} {object : ObjectType σ} {source : HostValue} {uses : List FieldUse}

theorem spends_resolveField (hparent : ctx.schema.Owns plan.parent) {name : String}
    (hfield : plan.parent.field? name = some plan.field)
    (hpath : Covers (Silent kind) path.segments) {k : Except ExecutionError HostValue → Process σ ρ}
    (hk : ∀ x, Acts (fun _ => True) (World.Adds (Silent kind)) (k x)) :
    (resolveField ctx plan source path k).Spends kind 1 := by
  have hE := permits_adds (σ := σ) (Silent kind)
  have hctx := ctx.acts_adds (Silent kind)
  intro w
  refine ⟨1, Nat.le_refl _, ?_⟩
  dsimp only
  split
  · have hnot : Silent kind (.notResolved path) := hpath _ ⟨List.prefix_refl path.segments, rfl⟩
    exact (spends_of_acts (acts_onAbort hE hnot fun _ => hk _)).mono (Nat.zero_le 1)
  · split
    · exact (spends_of_acts (hk _)).mono (Nat.zero_le 1)
    · intro v
      refine ⟨0, ?_, spends_of_acts ?_⟩
      · rw [World.count_trace]
        split <;> omega
      · split
        · exact hk _
        · next resolver hresolver =>
          exact acts_call hE (hctx.ofField hparent hfield hresolver) hpath.abortedResolving fun _ => hk _

theorem spends_executeField (hobject : ctx.schema.Owns object)
    (hpath : Covers (Silent kind) path.segments) :
    (executeField ctx (completeField ctx) object source uses path).Spends kind 1 := by
  unfold executeField
  split
  · trivial
  · split
    · trivial
    · split
      · trivial
      · next field hfield =>
        refine spends_bind (n := 1) (m := 0) ?_ fun _ => trivial
        refine spends_resolveField hobject hfield hpath fun x => ?_
        cases x with
        | error e => trivial
        | ok v => exact acts_completeWithin (permits_adds _) (ctx.acts_adds _) _ _ _ _ _ _ hpath

end

theorem spends_inSequence {deferred : List (Nat × Job σ)} {fields : List (String × Completing σ)}
    {finished : List (String × Report σ)} {n : Nat} (h : SpendsAll kind (fields.map Prod.snd) n) :
    (inSequence deferred finished fields).Spends kind n := by
  induction fields generalizing finished n with
  | nil => trivial
  | cons field rest ih =>
    obtain ⟨m, k, hmk, hfield, hrest⟩ := h
    refine (spends_bind hfield fun r => ?_).mono hmk
    dsimp only
    split
    · trivial
    · exact ih hrest

theorem spendsAll_fields {fields : List (String × Completing σ)} {key : String}
    (hnodup : (fields.map Prod.fst).Nodup)
    (h : ∀ field ∈ fields, field.2.Spends kind (if field.1 = key then 1 else 0)) :
    SpendsAll kind (fields.map Prod.snd) (if key ∈ fields.map Prod.fst then 1 else 0) := by
  induction fields with
  | nil => trivial
  | cons field rest ih =>
    rw [List.map_cons, List.nodup_cons] at hnodup
    obtain ⟨hfield, hrest⟩ := List.forall_mem_cons.mp h
    refine ⟨_, _, ?_, hfield, ih hnodup.2 hrest⟩
    by_cases hkey : field.1 = key
    · have hnot : key ∉ rest.map Prod.fst := hkey ▸ hnodup.1
      simp [hkey, hnot]
    · have hne : key ≠ field.1 := fun heq => hkey heq.symm
      rw [if_neg hkey, Nat.zero_add, List.map_cons]
      simp only [List.mem_cons, hne, false_or]
      exact Nat.le_refl _

theorem covers_elsewhere {key : String} {place : List Segment} (h : place ≠ []) :
    Covers (Silent (TraceEvent.resolves [.key key])) place := by
  rintro event ⟨hinside, hresolves⟩
  cases event with
  | resolving p name =>
    simp only [Silent, TraceEvent.resolves, decide_eq_false_iff_not] at hresolves ⊢
    intro hp
    change place <+: p.segments at hinside
    rw [hp] at hinside hresolves
    rcases List.prefix_cons_iff.mp hinside with hnil | ⟨t, rfl, ht⟩
    · exact h hnil
    · exact hresolves (by rw [List.prefix_nil.mp ht])
  | _ => rfl

theorem silent_inside {key other : String} (hkey : other ≠ key) {event : TraceEvent}
    (h : event.Inside [.key other]) : Silent (TraceEvent.resolves [.key key]) event := by
  cases event with
  | resolving p name =>
    simp only [Silent, TraceEvent.resolves, decide_eq_false_iff_not]
    intro hp
    change [Segment.key other] <+: p.segments at h
    rw [hp, List.cons_prefix_cons] at h
    exact hkey (Segment.key.inj h.1)
  | _ => rfl

theorem takesTurn_fieldWork {object : ObjectType σ} (hobject : ctx.schema.Owns object)
    {source : HostValue} {groups : List (String × List FieldUse)} :
    ∀ field ∈ fieldWork ctx (completeField ctx) object source .root groups, TakesTurn field := by
  rintro field hfield n u left v hasked
  obtain ⟨⟨⟨key, uses⟩, i⟩, -, rfl⟩ := List.mem_map.mp hfield
  obtain rfl : (asked n _ u).2 = v := congrArg Prod.snd hasked
  refine ⟨⟨n, hasked⟩, ?_, asked_spends n (spends_executeField hobject ?_) u⟩
  · have hE := permits_adds (σ := σ) (TraceEvent.Inside [.key key])
    exact asked_acts hE.course n (acts_executeField hE (ctx.acts_adds _)
      (acts_completeWithin hE (ctx.acts_adds _) _ _) hobject source uses fun _ => id) trivial
  · exact covers_elsewhere (List.cons_ne_nil _ _)

theorem spends_fieldWork {object : ObjectType σ} (hobject : ctx.schema.Owns object)
    (source : HostValue) (groups : List (String × List FieldUse)) (key : String) :
    ∀ field ∈ fieldWork ctx (completeField ctx) object source .root groups,
      field.2.Spends (TraceEvent.resolves [.key key]) (if field.1 = key then 1 else 0) := by
  intro field hfield
  obtain ⟨⟨⟨other, uses⟩, i⟩, -, rfl⟩ := List.mem_map.mp hfield
  dsimp only
  split
  · exact spends_executeField hobject (covers_elsewhere (List.cons_ne_nil _ _))
  · next hkey =>
    have hE := permits_adds (σ := σ) (Silent (TraceEvent.resolves [.key key]))
    exact spends_of_acts (acts_executeField hE (ctx.acts_adds _)
      (acts_completeWithin hE (ctx.acts_adds _) _ _) hobject source uses fun _ => silent_inside hkey)

/-! ## Parts of the response -/

/-- How often a field is selected under a response key, among those that are delivered together. -/
def Collected.selections (key : String) (c : Collected) : Nat :=
  if key ∈ c.groups.map Prod.fst then 1 else 0

mutual

/-- How many of the deferred fragments, those inside of others included, select a response key. -/
def Collected.deferrals (key : String) : Collected → Nat
  | ⟨_, deferred⟩ => Deferred.deferralsIn key deferred

def Deferred.deferrals (key : String) : Deferred → Nat
  | ⟨_, fields⟩ => fields.selections key + fields.deferrals key

def Deferred.deferralsIn (key : String) : List Deferred → Nat
  | [] => 0
  | fragment :: rest => fragment.deferrals key + Deferred.deferralsIn key rest

end

theorem spends_executeObject {object : ObjectType σ} (hobject : ctx.schema.Owns object)
    {source : HostValue} {collected : Collected} (hnodup : (collected.groups.map Prod.fst).Nodup)
    (isSerial : Bool) (key : String) :
    (executeObject ctx (completeField ctx) isSerial object source .root collected).Spends
      (TraceEvent.resolves [.key key]) (collected.selections key) := by
  have hfields : SpendsAll (TraceEvent.resolves [.key key])
      ((fieldWork ctx (completeField ctx) object source .root collected.groups).map Prod.snd)
      (collected.selections key) := by
    have h := spendsAll_fields (by rwa [fieldWork_keys])
      (spends_fieldWork hobject source collected.groups key)
    rwa [fieldWork_keys] at h
  intro w
  refine ⟨collected.selections key, Nat.le_refl _, ?_⟩
  dsimp only
  split
  · exact spends_inSequence hfields
  · exact ⟨_, 0, Nat.le_refl _, hfields, fun _ => trivial⟩

/-- The fields that a job delivers at the root. -/
def Job.rootFields : Job σ → Collected
  | .deferred _ _ .root fragment => fragment.fields
  | _ => .empty

theorem rootFields_elsewhere {job : Job σ} (h : job.place.segments ≠ []) :
    job.rootFields = .empty := by
  cases job with
  | deferred object source path fragment =>
    cases path with
    | root => exact absurd rfl h
    | extend => rfl
  | streamed => rfl

/-- How often a root field may be resolved by a job and all that follow from it. -/
def Job.resolutions (key : String) (job : Job σ) : Nat :=
  job.rootFields.selections key + job.rootFields.deferrals key

theorem resolutions_elsewhere {key : String} {job : Job σ} (h : job.place.segments ≠ []) :
    job.resolutions key = 0 := by
  rw [Job.resolutions, rootFields_elsewhere h]
  rfl

theorem segments_extend (path : Path) (s : Segment) (i : Nat) : (path.extend s i).segments ≠ [] :=
  List.append_ne_nil_of_right_ne_nil _ (List.cons_ne_nil _ _)

theorem spends_execute {root : ObjectType σ} (hroot : ctx.schema.Owns root) (key : String)
    {job : Job σ} (hjob : job.Declared ctx root) :
    (job.execute ctx).Spends (TraceEvent.resolves [.key key]) (job.rootFields.selections key) := by
  by_cases hplace : job.place.segments = []
  · cases job with
    | deferred object source path fragment =>
      cases path with
      | root =>
        obtain ⟨collected, hdeclared, hfragment⟩ := hjob
        have hgrouped := hdeclared.grouped.deferred _ hfragment
        intro w
        refine ⟨_, ?_, spends_executeObject (hdeclared.owns hroot) hgrouped.keys false key⟩
        rw [World.count_trace]
        exact Nat.le_refl _
      | extend => exact absurd hplace (segments_extend _ _ _)
    | streamed => exact absurd hplace (segments_extend _ _ _)
  · rw [rootFields_elsewhere hplace]
    exact spends_of_acts (acts_execute (permits_adds _) (ctx.acts_adds _) (hjob.owned hroot)
      (covers_elsewhere hplace) (fun _ _ => rfl) fun _ _ => rfl)

/-! ## What follows from jobs -/

section

variable {I : World σ → Prop}

theorem Leaves.places {work : Work σ} {r : Report σ} (h : Leaves I ctx work path r) :
    ∀ job ∈ r.jobs, path.segments <+: job.2.place.segments := by
  -- What is left by the items of a list is left below the list.
  have hitems {path : Path} {initial : List HostValue} {reports : List (Report σ)}
      (hlength : reports.length = initial.length)
      (ih : ∀ (i : Nat) v r, initial[i]? = some v → reports[i]? = some r →
        ∀ job ∈ r.jobs, (path.index i).segments <+: job.2.place.segments) :
      ∀ job ∈ (Report.list reports).jobs, path.segments <+: job.2.place.segments := by
    intro job hjob
    rw [Report.jobs_list, List.mem_flatMap] at hjob
    obtain ⟨r, hr, hjob⟩ := hjob
    obtain ⟨i, hi⟩ := List.mem_iff_getElem?.mp hr
    have hlt : i < initial.length := hlength ▸ (List.getElem?_eq_some_iff.mp hi).1
    exact (List.prefix_append _ _).trans (ih i _ r (List.getElem?_eq_getElem hlt) hi job hjob)
  induction h with
  | @fields object source collected path deferred fields hdeferred hgroups hall hfields ih =>
    intro job hjob
    rw [Report.jobs_object, List.mem_append, List.mem_flatMap] at hjob
    rcases hjob with hjob | ⟨⟨key, r⟩, hr, hjob⟩
    · have hmem : job.2 ∈ deferred.map Prod.snd := List.mem_map_of_mem hjob
      rw [hdeferred, List.mem_map] at hmem
      obtain ⟨fragment, -, heq⟩ := hmem
      rw [← heq]
      exact List.prefix_refl _
    · obtain ⟨i, hi⟩ := List.mem_iff_getElem?.mp hr
      obtain ⟨uses, hgroup⟩ := exists_uses_of_prefix hgroups hi
      exact (List.prefix_append _ _).trans (ih i key uses r hgroup hi job hjob)
  | absent | typeName => simp
  | unresolved | failed | null | scalar | enum => exact fun job hjob => nomatch Report.mem_jobs_absorbing hjob
  | resolved _ _ _ ih => exact ih
  | whole _ _ _ hlength _ _ ih =>
    exact fun job hjob => hitems hlength ih job (Report.mem_jobs_absorbing hjob)
  | begun _ _ _ hlength _ _ ih =>
    intro job hjob
    have hjob := Report.mem_jobs_absorbing hjob
    rw [Report.jobs_followed, List.mem_append, List.mem_singleton] at hjob
    rcases hjob with hjob | rfl
    · exact hitems hlength ih job hjob
    · exact List.prefix_append _ _
  | object _ _ _ _ ih => exact fun job hjob => ih job (Report.mem_jobs_absorbing hjob)

theorem sum_queued_le (f : Job σ → Nat) (r : Report σ) :
    (r.outcome.queued.map f).sum ≤ ((r.jobs.map Prod.snd).map f).sum := by
  by_cases h : r.isError
  · unfold Report.isError at h
    simp [Outcome.queued, h]
  · have h : r.isError = false := by simpa using h
    exact Nat.le_of_eq (((Outcome.queued_perm (by exact h)).map f).sum_nat)

theorem resolutions_deferred {key : String} {object : ObjectType σ} {source : HostValue}
    (collected : Collected) :
    ((collected.deferred.map (Job.deferred object source .root)).map (Job.resolutions key)).sum =
      collected.deferrals key := by
  obtain ⟨groups, deferred⟩ := collected
  change _ = Deferred.deferralsIn key deferred
  induction deferred with
  | nil => rfl
  | cons fragment rest ih =>
    obtain ⟨label, fields⟩ := fragment
    rw [List.map_cons, List.map_cons, List.sum_cons, ih]
    rfl

theorem sum_resolutions_elsewhere {key : String} {jobs : List (Job σ)}
    (h : ∀ job ∈ jobs, job.place.segments ≠ []) : (jobs.map (Job.resolutions key)).sum = 0 := by
  rw [List.sum_eq_zero_iff_forall_eq_nat]
  intro n hn
  obtain ⟨job, hjob, rfl⟩ := List.mem_map.mp hn
  exact resolutions_elsewhere (h job hjob)

/-- What fields at the root leave are the deferred fragments beside them, as far as root fields go. -/
theorem Leaves.resolutions {key : String} {object : ObjectType σ} {source : HostValue}
    {collected : Collected} {r : Report σ}
    (h : Leaves I ctx (.fields object source collected) .root r) :
    (r.outcome.queued.map (Job.resolutions key)).sum ≤ collected.deferrals key := by
  cases h with
  | @fields _ _ _ _ deferred fields hdeferred hgroups hall hfields =>
    have hbelow : ∀ job ∈ (fields.flatMap fun field => field.2.jobs).map Prod.snd,
        job.place.segments ≠ [] := by
      intro job hjob
      obtain ⟨⟨ticket, job⟩, hmem, rfl⟩ := List.mem_map.mp hjob
      obtain ⟨⟨key, r⟩, hr, hjob⟩ := List.mem_flatMap.mp hmem
      obtain ⟨i, hi⟩ := List.mem_iff_getElem?.mp hr
      obtain ⟨uses, hgroup⟩ := exists_uses_of_prefix hgroups hi
      have hprefix := (hfields i key uses r hgroup hi).places _ hjob
      intro hnil
      rw [hnil] at hprefix
      exact List.cons_ne_nil _ _ (List.prefix_nil.mp hprefix)
    refine Nat.le_trans (sum_queued_le _ _) (Nat.le_of_eq ?_)
    rw [Report.jobs_object, List.map_append, List.map_append, List.sum_append, hdeferred,
      resolutions_deferred, sum_resolutions_elsewhere hbelow, Nat.add_zero]

theorem resolutions_queued {key : String} {job : Job σ} {r : Report σ}
    (h : Yields I (job.execute ctx) r) :
    (r.outcome.queued.map (Job.resolutions key)).sum ≤ job.rootFields.deferrals key := by
  have helsewhere (hjobs : ∀ job ∈ r.jobs, job.2.place.segments ≠ []) :
      (r.outcome.queued.map (Job.resolutions key)).sum ≤ job.rootFields.deferrals key := by
    have hnone : ((r.jobs.map Prod.snd).map (Job.resolutions key)).sum = 0 :=
      sum_resolutions_elsewhere fun job hjob => by
        obtain ⟨job, hmem, rfl⟩ := List.mem_map.mp hjob
        exact hjobs job hmem
    have hle := sum_queued_le (Job.resolutions key) r
    omega
  have hbelow {path place : Path} (hpath : path.segments ≠ [])
      (h : path.segments <+: place.segments) : place.segments ≠ [] := by
    intro hnil
    rw [hnil] at h
    exact hpath (List.prefix_nil.mp h)
  cases leaves_job h with
  | @deferred object source path fragment _ hleaves =>
    cases path with
    | root => exact hleaves.resolutions
    | extend parent segment i =>
      exact helsewhere fun job hjob => hbelow (segments_extend parent segment i) (hleaves.places job hjob)
  | ended | failed => exact helsewhere (by simp)
  | last _ hleaves _ =>
    exact helsewhere fun job hjob => hbelow (segments_extend _ _ _) (hleaves.places job hjob)
  | more _ hleaves _ =>
    refine helsewhere fun job hjob => ?_
    rw [Report.jobs_followed, List.mem_append, List.mem_singleton] at hjob
    rcases hjob with hjob | rfl
    · exact hbelow (segments_extend _ _ _) (hleaves.places job hjob)
    · exact segments_extend _ _ _

end

theorem budgets_resolutions {root : ObjectType σ} (hroot : ctx.schema.Owns root) (key : String) :
    Delivery.Budgets (TraceEvent.resolves [.key key]) (Job.Declared ctx root)
      (fun job => job.rootFields.selections key) (fun job => job.rootFields.deferrals key) ctx where
  tame := Delivery.tame_declared ctx root
  spends := spends_execute hroot key
  leaves _ h := resolutions_queued h

/-! ## Requests -/

namespace ExecutionContext

/-- The work on the root fields that are delivered at once. -/
def rootWork (ctx : ExecutionContext σ) (root : ObjectType σ) (collected : Collected) :
    List (String × Completing σ) :=
  fieldWork ctx (completeField ctx) root ctx.root .root collected.groups

/-- The world in which the first root field begins. -/
def begin (ctx : ExecutionContext σ) (collected : Collected) (w : World σ) : World σ :=
  { w.trace (.executing ctx.operation.name?) with tickets := w.tickets + collected.deferred.length }

/-- The root of an operation, and the world, after it was asked so often. -/
def rootAsked (ctx : ExecutionContext σ) (root : ObjectType σ) (n : Nat) (w : World σ) :
    Completing σ × World σ :=
  (executeRoot ctx root).asked n (w.trace (.executing ctx.operation.name?))

/-- The worlds that are reached while jobs that were left run, at last or before. -/
def Reaches (ctx : ExecutionContext σ) (jobs : List (Job σ)) (u v : World σ) : Prop :=
  ∃ n, ((Delivery.empty.start ctx jobs).asked ctx n (Delivery.empty.enqueue jobs u)).2 = v

theorem reaches_of_laterPayloads {jobs : List (Job σ)} {payloads : List Payload} {u v : World σ}
    (h : laterPayloads ctx jobs u = some (payloads, v)) : ctx.Reaches jobs u v := by
  simp only [laterPayloads, Option.bind_eq_bind, Option.bind_eq_some_iff] at h
  obtain ⟨⟨history, v'⟩, hrun, h⟩ := h
  obtain ⟨-, rfl⟩ : _ = payloads ∧ v' = v := by simpa using h
  exact Delivery.asked_of_history hrun

end ExecutionContext

/-- Whether a mutation runs its root fields one after the other, and each of them once with each part
of the response that it is in. -/
structure Request.RunsSerially (r : Request σ) (ctx : ExecutionContext σ) (root : ObjectType σ)
    (collected : Collected) (w : World σ) : Prop where
  distinct : (collected.groups.map Prod.fst).Nodup
  /-- However far the work on the fields that are delivered at once gets, they take turns. -/
  inTurn : ∀ n, ∃ isOver reports, InTurn isOver (ctx.rootWork root collected) (ctx.begin collected w)
    reports (ctx.rootAsked root (n + 1) w).2
  once : ∀ key n,
    (ctx.rootAsked root (n + 1) w).2.resolved key ≤ w.resolved key + collected.selections key
  /-- When the request is answered, all of them were executed, or an error escaped from the last that
  was. Then there is no data, and nothing is delivered later. -/
  answered : ∀ response w', r.executeIncrementally w = some (response, w') →
    (∃ result, r.execute w = some (result, w')) ∧ ∃ deferred reports v errors jobs,
      InTurn true (ctx.rootWork root collected) (ctx.begin collected w) reports v ∧
      w' = v.trace (.executed ctx.operation.name? errors jobs) ∧
      Responds ctx (.object deferred reports) response ∧
      (reports.any (·.2.isError) → ∃ errors, response = .single ⟨none, errors, none⟩)
  /-- However far later payloads get, they resolve a root field once for each deferred fragment that
  selects it. -/
  later : ∀ initial ctx' jobs w',
    r.executeIncrementally w = some (.incremental initial ctx' jobs, w') → ∀ key u v,
      (ctx'.Reaches jobs u v ∨ ∃ payloads, laterPayloads ctx' jobs u = some (payloads, v)) →
      v.resolved key ≤ u.resolved key + collected.deferrals key

section

variable {r : Request σ} {root : ObjectType σ} {collected : Collected} {w w' : World σ}
  {response : Response σ}

theorem executePrepared_asked (h : Request.executePrepared ctx root w = some (response, w')) :
    ∃ report v n errors jobs, ctx.rootAsked root (n + 1) w = (.done report, v) ∧
      w' = v.trace (.executed ctx.operation.name? errors jobs) ∧ Responds ctx report response := by
  obtain ⟨report, v, hrun, hresponds, -⟩ := executePrepared_cases h
  obtain ⟨n, hn⟩ := asked_of_run hrun
  refine ⟨report, v, n, report.outcome.allErrors.length, report.outcome.queued.length, hn, ?_, hresponds⟩
  simp only [Request.executePrepared, hrun, Option.bind_eq_bind, Option.bind_some] at h
  split at h <;> exact (Prod.mk.inj (Option.some.inj h)).2.symm

theorem rootAsked_succ (hmutation : ctx.operation.kind = .mutation)
    (hcollected : ctx.rootFields root = some collected) (n : Nat) (w : World σ) :
    ∃ deferred, ctx.rootAsked root (n + 1) w =
      (inSequence deferred [] (ctx.rootWork root collected)).asked (n + 1) (ctx.begin collected w) := by
  have hbegin : ctx.begin collected w = { w.trace (.executing ctx.operation.name?) with
      tickets := w.tickets + (collected.deferred.map (Job.deferred root ctx.root .root)).length } := by
    rw [ExecutionContext.begin, List.length_map]
  simp only [ExecutionContext.rootAsked, executeRoot, hcollected, hmutation, hbegin]
  exact ⟨_, rfl⟩

theorem responds_failed {deferred : List (Nat × Job σ)} {reports : List (String × Report σ)}
    (h : Responds ctx (.object deferred reports) response) (herror : reports.any (·.2.isError)) :
    ∃ errors, response = .single ⟨none, errors, none⟩ := by
  have hdata : (Report.object deferred reports).outcome.object? = none := by
    have hvalue := Report.value?_of_isError (r := .object deferred reports)
      (by rwa [Report.isError_object])
    rw [← object?_object] at hvalue
    exact Option.map_eq_none_iff.mp hvalue
  cases h with
  | single => exact ⟨_, by rw [hdata]⟩
  | incremental hsome => rw [hdata] at hsome; cases hsome

/-- Whatever the callbacks of the host do, and whenever they answer, the root fields of a mutation that
are delivered at once run one after the other, and each is resolved at most once. Deferred fragments
resolve those again that they select. -/
theorem executeIncrementally_serial (hprepare : r.prepare = .ok (ctx, root))
    (hmutation : ctx.operation.kind = .mutation) (hcollected : ctx.rootFields root = some collected)
    (w : World σ) : r.RunsSerially ctx root collected w := by
  obtain ⟨-, -, howned⟩ := prepare_spec hprepare
  have hgrouped := ExecutionContext.grouped_rootFields hcollected
  have hanswered {response : Response σ} {w' : World σ}
      (h : r.executeIncrementally w = some (response, w')) :
      Request.executePrepared ctx root w = some (response, w') := by
    rwa [Request.executeIncrementally, hprepare] at h
  have hturns {n : Nat} {left : Completing σ} {v : World σ}
      (h : ctx.rootAsked root (n + 1) w = (left, v)) :
      ∃ deferred reports, InTurn left.result?.isSome (ctx.rootWork root collected)
        (ctx.begin collected w) reports v ∧ ∀ r, left = .done r → r = .object deferred reports := by
    obtain ⟨deferred, heq⟩ := rootAsked_succ hmutation hcollected n w
    obtain ⟨reports, hreports, hdone⟩ :=
      inTurn_of_asked (takesTurn_fieldWork howned) (heq.symm.trans h)
    exact ⟨deferred, reports, hreports, hdone⟩
  refine ⟨hgrouped.keys, fun n => ?_, fun key n => ?_, fun response w' h => ?_,
    fun initial ctx' jobs w' h key u v hv => ?_⟩
  · obtain ⟨deferred, reports, hreports, -⟩ := hturns (n := n) rfl
    exact ⟨_, reports, hreports⟩
  · have hspends : (executeRoot ctx root).Spends (TraceEvent.resolves [.key key])
        (collected.selections key) := by
      rw [executeRoot, hcollected]
      exact spends_executeObject howned hgrouped.keys _ key
    have hcount := asked_spends (n + 1) hspends (w.trace (.executing ctx.operation.name?))
    rwa [World.count_trace] at hcount
  · refine ⟨⟨_, by rw [Request.execute, h]; rfl⟩, ?_⟩
    obtain ⟨report, v, n, errors, jobs, hasked, hw, hresponds⟩ := executePrepared_asked (hanswered h)
    obtain ⟨deferred, reports, hreports, hdone⟩ := hturns hasked
    obtain rfl := hdone report rfl
    exact ⟨deferred, reports, v, errors, jobs, hreports, hw, hresponds, responds_failed hresponds⟩
  · obtain ⟨report, v', hrun, hresponds, -⟩ := executePrepared_cases (hanswered h)
    have hyields := run_possible hrun
    obtain ⟨collected', deferred, fields, rfl, hcollected', hreport⟩ := yields_executeRoot hyields
    obtain rfl := Option.some.inj (hcollected.symm.trans hcollected')
    have hdeclared := declared_of_queued (jobsDeclared_executeRoot hyields)
    have hleft : _ ≤ collected.deferrals key :=
      (hreport.leaves (leaves_completeWithin _ _)).resolutions
    cases hresponds with
    | incremental hdata hjobs =>
      obtain ⟨n, rfl⟩ : ctx.Reaches _ u v :=
        hv.elim id fun ⟨_, hpayloads⟩ => ExecutionContext.reaches_of_laterPayloads hpayloads
      have hspent := Delivery.jobs_spend (budgets_resolutions howned key) n hdeclared u
      exact Nat.le_trans hspent (Nat.add_le_add_left hleft _)

end

/-! ## A mutation with a deferred fragment -/

def sampleMutationType : ObjectType σ where
  name := "Mutation"
  fields := .given [
    { name := "name", type := .named "String" },
    { name := "slow", type := .named "Mutation" },
    { name := "bad", type := .nonNullNamed "Int" },
    { name := "last", type := .named "String" }]

/-- Answers a name, but for an object that comes late and a number that does not come at all. -/
def sampleMutationResolver : FieldResolver Unit := fun request _ _ =>
  let name : HostValue := .data (.string "Ada")
  match request.info.fieldName with
  | "slow" => ⟨.after 1 fun _ _ => ⟨.ok (.data (.object [])), (), []⟩, (), []⟩
  | "bad" => ⟨.ready (.error (.ofMessage "Not today")), (), []⟩
  | _ => ⟨.ready (.ok name), (), []⟩

/-- `mutation { name ... @defer { name slow { name } bad last } }` -/
def sampleMutation : Request Unit where
  schema := { (sampleSchema : Schema Unit) with
    mutationType := some "Mutation"
    types := .object sampleType :: .object sampleMutationType :: ScalarType.builtins.map .scalar
    types_nodup := by
      change ("Query" :: "Mutation" :: ScalarType.builtins.map (·.name)).Nodup
      decide }
  document := [.operation { sampleOperation with
    kind := .mutation
    selections := [
      sampleField "name" [],
      .inline default ⟨none, [sampleText ⟨sampleText "defer", none⟩]⟩ [
        sampleField "name" [],
        .field default ⟨none, sampleText "slow", none, []⟩ [sampleField "name" []],
        sampleField "bad" [], sampleField "last" []]] }]
  fieldResolver := some sampleMutationResolver
  bounds := ⟨5, 5, 50⟩

theorem sampleMutation_serial :
    ∃ ctx root collected, sampleMutation.prepare = .ok (ctx, root) ∧
      ctx.rootFields root = some collected ∧ collected.selections "name" = 1 ∧
      collected.deferrals "name" = 1 ∧ sampleMutation.RunsSerially ctx root collected sampleWorld := by
  have hprepared : sampleMutation.prepare.toOption.any fun (ctx, root) =>
      ctx.operation.kind = .mutation ∧ (ctx.rootFields root).any fun collected =>
        collected.selections "name" = 1 ∧ collected.deferrals "name" = 1 := by decide +kernel
  obtain ⟨⟨ctx, root⟩, hprepare, h⟩ := (Option.any_eq_true _ _).mp hprepared
  obtain ⟨hmutation, h⟩ := of_decide_eq_true h
  obtain ⟨collected, hcollected, h⟩ := (Option.any_eq_true _ _).mp h
  obtain ⟨hselections, hdeferrals⟩ := of_decide_eq_true h
  have hprepare : sampleMutation.prepare = .ok (ctx, root) := by
    cases hr : sampleMutation.prepare with
    | error e => rw [hr] at hprepare; cases hprepare
    | ok x => rw [hr] at hprepare; exact congrArg Except.ok (Option.some.inj hprepare)
  exact ⟨ctx, root, collected, hprepare, hcollected, hselections, hdeferrals,
    executeIncrementally_serial hprepare hmutation hcollected sampleWorld⟩

/-- The fields that were resolved, in the order in which that was traced. -/
def World.resolutions (w : World σ) : List (List Segment) :=
  w.traces.reverse.filterMap fun
    | .resolving path _ => some path.segments
    | _ => none

/-- For a deferred fragment, a root field is resolved again, the next begin before one is done, and go
on after one failed. -/
theorem sampleMutation_again :
    ∃ initial ctx jobs w payloads v,
      sampleMutation.executeIncrementally sampleWorld = some (.incremental initial ctx jobs, w) ∧
      laterPayloads ctx jobs w = some (payloads, v) ∧ v.resolved "name" = 2 ∧
      v.resolutions = [[.key "name"], [.key "name"], [.key "slow"], [.key "bad"], [.key "last"],
        [.key "slow", .key "name"]] := by
  have hanswered : (sampleMutation.executeIncrementally sampleWorld).any fun
      | (.incremental _ ctx jobs, w) => (laterPayloads ctx jobs w).any fun (_, v) =>
          v.resolved "name" = 2 ∧ v.resolutions = [[.key "name"], [.key "name"], [.key "slow"],
            [.key "bad"], [.key "last"], [.key "slow", .key "name"]]
      | (.single _, _) => false := by decide +kernel
  obtain ⟨⟨response, w⟩, h, hlater⟩ := (Option.any_eq_true _ _).mp hanswered
  cases response with
  | single => cases hlater
  | incremental initial ctx jobs =>
    obtain ⟨⟨payloads, v⟩, hpayloads, hv⟩ := (Option.any_eq_true _ _).mp hlater
    obtain ⟨htwice, hresolutions⟩ := of_decide_eq_true hv
    exact ⟨initial, ctx, jobs, w, payloads, v, h, hpayloads, htwice, hresolutions⟩

end GraphQL
