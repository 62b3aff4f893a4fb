import GraphQL.Proofs.Execution.Completion.Basic
import GraphQL.Proofs.Execution.Timing.Callbacks

/-! # Runs that differ in their timing

Two runs of the same work whose callbacks are steady come to the same report, up to timing: whatever
the schedule, the same fields have the same values and fail with the same errors, and the same jobs
are queued.
-/

namespace GraphQL

open Process Completing

variable {σ α β ι κ ρ : Type}

/-- Whether worlds belong to a run that nobody aborts and in which no stream is read twice. -/
structure Calm (I : World σ → Prop) : Prop where
  ongoing : ∀ w, I w → w.Ongoing
  fresh : ∀ (w : World σ) identity, I (w.take identity) → w.isTaken identity = false

theorem calm_between {first last : World σ} (hfirst : first.Ongoing) (hlast : last.taken.Nodup) :
    Calm (Between Quiet first last) where
  ongoing w hw := hw.1.1 hfirst
  fresh w identity hw := by
    have hnodup : (identity :: w.taken).Nodup := hlast.sublist hw.2.2.sublist
    simpa [World.isTaken] using (List.nodup_cons.mp hnodup).1

variable {I J : World σ → Prop} (hI : Calm I) (hJ : Calm J)

theorem not_aborted_of_yields_wait (hI : ∀ w, I w → w.Ongoing) {polls place : Option Nat}
    {aborted : Process σ ρ} {effect : World σ → World σ} {next : World σ → Process σ ρ} {r : ρ}
    (h : Yields I (wait polls place aborted effect next) r) : ∃ w, I w ∧ Yields I (next w) r := by
  rcases h with ⟨⟨w, hw, haborted⟩, -⟩ | h
  · have hongoing : w.signal.isAborted = false := hI w hw
    simp [hongoing] at haborted
  · exact h

/-! ## What is asked -/

theorem called_eq (hI : Calm I) {norm : α → β} {callback : Callback σ ι α} {request : ι}
    {outcome : Except FieldError β} (h : ∀ signal state, signal.isAborted = false →
      (callback request signal state).result.Settles norm outcome) {path : Path}
    {x : Except FieldError α} (hx : Called I callback request path x) : x.map norm = outcome := by
  obtain ⟨w, hw, -, hx⟩ := hx
  have hsettles := h w.signal w.host (hI.ongoing w hw)
  dsimp only [World.reaction] at hx
  generalize (callback request w.signal w.host).result = answer at hx hsettles
  cases answer with
  | ready y =>
    obtain rfl := hx
    exact hsettles
  | after polls finish =>
    obtain ⟨v, hv, rfl⟩ := not_aborted_of_yields_wait hI.ongoing hx
    exact hsettles.2 _ _ (hI.ongoing v hv)
  | never => exact hsettles.elim

/-- What an item of a stream amounts to, and what comes after it. -/
def nextTimeless (next : HostValue × List Event) : HostValue × List Event :=
  (next.1.timeless, next.2.map Event.timeless)

def takenTimeless (taken : List HostValue × Option (List Event)) :
    List HostValue × Option (List Event) :=
  (taken.1.map HostValue.timeless, taken.2.map (List.map Event.timeless))

include hI hJ

theorem called_agree {asked : ι → Prop} {look : ι → κ} {norm : α → β} {callback : Callback σ ι α}
    (h : callback.SteadyWhere asked look norm) {request request' : ι} (hasked : asked request)
    (hasked' : asked request') (hrequest : look request = look request') {path path' : Path} {x x' : Except FieldError α} (hx : Called I callback request path x)
    (hx' : Called J callback request' path' x') : x.map norm = x'.map norm := by
  obtain ⟨outcome, hsettles⟩ := h.settles
  rw [called_eq hI (hsettles request hasked) hx, called_eq hJ (hsettles request' hasked') hx', hrequest]

theorem came_agree {plan : FieldPlan σ} {path : Path} {events events' : List Event}
    (hevents : events.map Event.timeless = events'.map Event.timeless)
    {x x' : Except ExecutionError (Option (HostValue × List Event))}
    (hx : Came I plan path events x) (hx' : Came J plan path events' x') :
    x.map (Option.map nextTimeless) = x'.map (Option.map nextTimeless) := by
  obtain ⟨w, hw, hx⟩ := yields_of_look hx
  obtain ⟨w', hw', hx'⟩ := yields_of_look hx'
  have hongoing : w.signal.isAborted = false := hI.ongoing w hw
  have hongoing' : w'.signal.isAborted = false := hJ.ongoing w' hw'
  simp only [hongoing, hongoing', Bool.false_eq_true, if_false] at hx hx'
  cases events with
  | nil =>
    obtain rfl : events' = [] := by simpa using hevents.symm
    obtain rfl := hx
    obtain rfl := hx'
    rfl
  | cons e rest =>
    cases events' with
    | nil => simp at hevents
    | cons e' rest' =>
      obtain ⟨he, hrest⟩ := List.cons.inj hevents
      obtain ⟨_, -, hx⟩ := not_aborted_of_yields_wait hI.ongoing hx
      obtain ⟨_, -, hx'⟩ := not_aborted_of_yields_wait hJ.ongoing hx'
      cases e <;> cases e' <;> simp only [Event.timeless, Event.item.injEq, Event.failure.injEq,
        reduceCtorEq, true_and] at he <;> obtain rfl := hx <;> obtain rfl := hx'
      · simp [Except.map, nextTimeless, he, hrest]
      · simp [Except.map, he]

theorem taken_agree {plan : FieldPlan σ} {path : Path} {limit : Option Nat}
    {events events' : List Event} {items items' : List HostValue}
    (hevents : events.map Event.timeless = events'.map Event.timeless)
    (hitems : items.map HostValue.timeless = items'.map HostValue.timeless)
    {x x' : Except ExecutionError (List HostValue × Option (List Event))}
    (hx : Taken I plan path limit events items x) (hx' : Taken J plan path limit events' items' x') :
    x.map takenTimeless = x'.map takenTimeless := by
  have hlength : items.length = items'.length := by simpa using congrArg List.length hitems
  induction events generalizing events' items items' with
  | nil =>
    obtain rfl : events' = [] := by simpa using hevents.symm
    unfold Taken takeEvents at hx hx'
    rw [hlength] at hx
    split at hx
    · next hfull =>
      -- The limit is reached in both runs, as they have the same number of items.
      rw [if_pos hfull] at hx'
      obtain rfl := hx
      obtain rfl := hx'
      simp [Except.map, takenTimeless, hitems]
    · next hfull =>
      rw [if_neg hfull] at hx'
      obtain ⟨y, hy, hx⟩ := yields_nextEvent.mp hx
      obtain ⟨y', hy', hx'⟩ := yields_nextEvent.mp hx'
      have hagree := came_agree hI hJ hevents hy hy'
      cases y <;> cases y' <;> simp only [Except.map, Except.error.injEq, reduceCtorEq] at hagree <;>
        obtain rfl := hx <;> obtain rfl := hx'
      -- Waiting for the end was aborted in both, or it came in both.
      · rw [hagree]
      · simp [Except.map, takenTimeless, hitems]
  | cons e rest ih =>
    cases events' with
    | nil => simp at hevents
    | cons e' rest' =>
      obtain ⟨he, hrest⟩ := List.cons.inj hevents
      unfold Taken takeEvents at hx hx'
      rw [hlength] at hx
      split at hx
      · next hfull =>
        rw [if_pos hfull] at hx'
        obtain rfl := hx
        obtain rfl := hx'
        simp [Except.map, takenTimeless, hitems, he, hrest]
      · next hfull =>
        rw [if_neg hfull] at hx'
        obtain ⟨y, hy, hx⟩ := yields_nextEvent.mp hx
        obtain ⟨y', hy', hx'⟩ := yields_nextEvent.mp hx'
        have hagree := came_agree hI hJ (by simp [he]) hy hy'
        rcases y with _ | _ | ⟨v, _⟩ <;> rcases y' with _ | _ | ⟨v', _⟩ <;>
          simp only [Except.map, Option.map, Except.error.injEq, Except.ok.injEq, reduceCtorEq,
            Option.some.injEq] at hagree
        -- No event in both, the end of both, or an item of both.
        · obtain rfl := hx
          obtain rfl := hx'
          rw [hagree]
        · obtain rfl := hx
          obtain rfl := hx'
          simp [Except.map, takenTimeless, hitems]
        · have hv : v.timeless = v'.timeless := congrArg Prod.fst hagree
          exact ih hrest (by simp [hitems, hv]) hx hx' (by simp [hlength])

variable {view : View κ ι} {asked : List Segment → Prop} {info info' : FieldInfo}
  (hinfo : asked info.path.segments) (hinfo' : asked info'.path.segments)

include hinfo hinfo'

theorem accepted_agree {value value' : HostValue} {objects : List (ObjectType σ)}
    (hobjects : ∀ object ∈ objects, ∀ check ∈ object.isTypeOf,
      Callback.SteadyWhere (fun request => asked request.info.path.segments) view.type id check)
    (hview : ∀ type, view.type ⟨info, value, type⟩ = view.type ⟨info', value', type⟩)
    {x x' : Except FieldError (Option String)} (hx : Accepted I info value objects x)
    (hx' : Accepted J info' value' objects x') : x = x' := by
  induction objects with
  | nil =>
    obtain rfl := hx
    obtain rfl := hx'
    rfl
  | cons object rest ih =>
    obtain ⟨hobject, hrest⟩ := List.forall_mem_cons.mp hobjects
    unfold Accepted firstMember at hx hx'
    split at hx
    · next hcheck =>
      simp only [hcheck] at hx'
      exact ih hrest hx hx'
    · next check hcheck =>
      simp only [hcheck] at hx'
      obtain ⟨y, hy, hx⟩ := yields_call.mp hx
      obtain ⟨y', hy', hx'⟩ := yields_call.mp hx'
      have hagree := called_agree hI hJ (hobject check hcheck) hinfo hinfo' (hview _) hy hy'
      rcases y with e | _ | _ <;> rcases y' with e' | _ | _ <;>
        simp only [Except.map, id, Except.error.injEq, Except.ok.injEq, reduceCtorEq] at hagree
      · obtain rfl := hx
        obtain rfl := hx'
        rw [hagree]
      · exact ih hrest hx hx'
      · obtain rfl := hx
        obtain rfl := hx'
        rfl

/-- Two contexts that ask the same callbacks. -/
structure ExecutionContext.Shares (ctx ctx' : ExecutionContext σ) : Prop where
  schema : ctx'.schema = ctx.schema
  fieldResolver : ctx'.fieldResolver = ctx.fieldResolver
  typeResolver : ctx'.typeResolver = ctx.typeResolver

variable {ctx ctx' : ExecutionContext σ}

omit hI hJ hinfo hinfo' in
theorem statedType_timeless (value : HostValue) : statedType value.timeless = statedType value := by
  simp [statedType]

theorem defaultType_agree (hctx : ctx.SteadyWhere asked view) {t : TypeDefinition σ}
    (ht : t ∈ ctx.schema.types) {value value' : HostValue}
    (hvalue : value.timeless = value'.timeless)
    (hview : ∀ type, view.type ⟨info, value, type⟩ = view.type ⟨info', value', type⟩)
    {x x' : Except FieldError (Option String)}
    (hx : Yields I (defaultType ctx.schema t info value .done) x)
    (hx' : Yields J (defaultType ctx.schema t info' value' .done) x') : x = x' := by
  have hstated : statedType value = statedType value' := by
    rw [← statedType_timeless value, hvalue, statedType_timeless]
  unfold defaultType at hx hx'
  rw [hstated] at hx
  split at hx
  · next name hname =>
    simp only [hname] at hx'
    obtain rfl := hx
    obtain rfl := hx'
    rfl
  · next hname =>
    simp only [hname] at hx'
    refine accepted_agree hI hJ hinfo hinfo' (fun object hobject => ?_) hview hx hx'
    exact hctx.schema.members object (Schema.owns_of_possibleTypes ht hobject)

theorem typed_agree (hctx : ctx.SteadyWhere asked view) (hshares : ctx.Shares ctx')
    {t : TypeDefinition σ} (ht : t ∈ ctx.schema.types) {value value' : HostValue}
    (hvalue : value.timeless = value'.timeless)
    (hview : ∀ type, view.type ⟨info, value, type⟩ = view.type ⟨info', value', type⟩)
    {x x' : Except FieldError (Option String)} (hx : Typed I ctx t info value x)
    (hx' : Typed J ctx' t info' value' x') : x = x' := by
  unfold Typed resolveType at hx hx'
  rw [hshares.typeResolver, hshares.schema] at hx'
  split at hx
  · next hnone =>
    simp only [hnone] at hx'
    exact defaultType_agree hI hJ hinfo hinfo' hctx ht hvalue hview hx hx'
  · next resolver hresolver =>
    simp only [hresolver] at hx'
    obtain ⟨y, hy, hx⟩ := yields_call.mp hx
    obtain ⟨y', hy', hx'⟩ := yields_call.mp hx'
    have hsteady := hctx.ofType ht hresolver
    obtain rfl : y = y' := by
      have hagree := called_agree hI hJ hsteady hinfo hinfo' (hview _) hy hy'
      cases y <;> cases y' <;> simp_all [Except.map]
    rcases y with e | _ | name | _
    · obtain rfl := hx
      obtain rfl := hx'
      rfl
    · obtain rfl := hx
      obtain rfl := hx'
      rfl
    · obtain rfl := hx
      obtain rfl := hx'
      rfl
    · exact defaultType_agree hI hJ hinfo hinfo' hctx ht hvalue hview hx hx'

omit hJ hinfo hinfo' in
/-- What a field may resolve to: an error of its arguments, or an answer to them. -/
theorem resolved_cases {plan : FieldPlan σ} {source : HostValue} {path : Path}
    {x : Except ExecutionError HostValue} (h : Resolved I ctx plan source path x) :
    (∃ e, plan.arguments ctx path = .error e ∧ x = .error e) ∨
      ∃ args, plan.arguments ctx path = .ok args ∧
        ((plan.field.resolve <|> ctx.fieldResolver) = none ∧
            x = .ok (defaultFieldValue source plan.field.name) ∨
          ∃ resolver y, (plan.field.resolve <|> ctx.fieldResolver) = some resolver ∧
            Called I resolver ⟨plan.info ctx path, source, args⟩ path y ∧
            x = y.mapError (plan.error path)) := by
  obtain ⟨w, hw, h⟩ := yields_of_look h
  have hongoing : w.signal.isAborted = false := hI.ongoing w hw
  simp only [hongoing, Bool.false_eq_true, if_false] at h
  split at h
  · next e he => exact .inl ⟨e, he, h⟩
  · next args hargs =>
    refine .inr ⟨args, hargs, ?_⟩
    have h := yields_of_perform h
    split at h
    · next hnone => exact .inl ⟨hnone, h⟩
    · next resolver hresolver =>
      obtain ⟨y, hy, h⟩ := yields_call.mp h
      exact .inr ⟨resolver, y, hresolver, hy, h⟩

omit hI hJ hinfo hinfo' in
theorem defaultFieldValue_timeless (source : HostValue) (name : String) :
    defaultFieldValue source.timeless name = defaultFieldValue source name := by
  simp [defaultFieldValue]

end GraphQL
