import GraphQL.Proofs.Execution.Timing.Agreement
import GraphQL.Proofs.Execution.Delivery.Histories

/-! # Where a streamed list is cut

While nothing is aborted, a list that is streamed is cut at its initial count, whether its items are at
hand or arrive over time: the items before the cut are completed at once, and the job that is queued
for the others has just those in store. Such a job takes the first of them and leaves the rest.
-/

namespace GraphQL

open Process Completing

variable {σ : Type} {I : World σ → Prop} {ctx : ExecutionContext σ} {complete : Completer σ}
  {plan : FieldPlan σ} {itemType : TypeRef} {path : Path} {label : Option String}

/-! ## Runs that nobody aborts -/

/-- Whether a world belongs to a run that nobody aborts and in which the given streams are read, the
last of them first. -/
structure World.Within (taken : List Nat) (w : World σ) : Prop where
  ongoing : w.Ongoing
  read : w.taken <:+ taken

theorem World.Within.count {taken : List Nat} {w : World σ} {identity : Nat}
    (h : (w.take identity).Within taken) (hread : w.isTaken identity) : 2 ≤ taken.count identity := by
  have hsublist : (identity :: w.taken).Sublist taken := h.read.sublist
  have hmem : identity ∈ w.taken := by simpa [isTaken] using hread
  have hcount := hsublist.count_le identity
  have hbefore := List.count_pos_iff.mpr hmem
  rw [List.count_cons_self] at hcount
  omega

/-- Whether one world is within a run if the other, which comes later, is. -/
def World.Heads (taken : List Nat) (v w : World σ) : Prop := w.Within taken → v.Within taken

section

variable (taken : List Nat)

theorem heads_after {α : Type} (action : Action σ α) (w : World σ) : w.Heads taken (w.after action) := by
  obtain ⟨controller, ready, hafter, haborted⟩ := w.after_eq action
  rw [hafter]
  rintro ⟨hongoing, hread⟩
  refine ⟨?_, hread⟩
  simp only [World.Ongoing, World.signal] at hongoing ⊢
  split at hongoing
  · next hwatched =>
    have hongoing : controller.aborted = false := hongoing
    rw [if_pos hwatched]
    exact Bool.eq_false_iff.mpr fun hw => by simp [haborted hw] at hongoing
  · next hwatched =>
    rw [if_neg hwatched]
    rfl

theorem permits_heads : Permits (fun _ : World σ => True) (World.Heads taken) fun _ => True where
  course := {
    keeps := fun _ _ => trivial
    trans := fun huv hvw => huv ∘ hvw
    tasks := fun _ hcontroller hwatched htaken _ hw => by
      refine ⟨?_, htaken ▸ hw.read⟩
      simpa [World.Ongoing, World.signal, hcontroller, hwatched] using hw.ongoing }
  trace _ _ _ _ hw := ⟨hw.ongoing, hw.read⟩
  take _ _ _ hw := ⟨hw.ongoing, (List.suffix_cons _ _).trans hw.read⟩

theorem acts_heads (ctx : ExecutionContext σ) : ctx.Acts (fun _ => True) (World.Heads taken) := by
  have hall {ι α : Type} (callback : Callback σ ι α) : callback.Acts (fun _ => True) (World.Heads taken) :=
    ⟨fun _ w _ => heads_after taken _ w, fun _ _ _ _ _ _ v _ => heads_after taken _ v⟩
  exact ⟨⟨fun _ _ _ _ _ _ _ => hall _, fun _ _ _ _ => hall _, fun _ _ _ _ => hall _⟩,
    fun _ _ => hall _, fun _ _ => hall _⟩

end

theorem between_heads {taken : List Nat} {first last : World σ} (hfirst : first.Within taken)
    (hlast : last.Within taken) : Between (World.Heads taken) first last = World.Within taken := by
  funext w
  exact propext ⟨fun hw => hw.2 hlast, fun hw => ⟨fun _ => hfirst, fun _ => hw⟩⟩

/-! ## What a list has in store -/

/-- The items that are to come, and the errors in their place. -/
def ItemSource.results : ItemSource → List (Except FieldError HostValue)
  | .ready items => items.map .ok
  | .events arriving => arriving.map Event.result

theorem ItemSource.results_of_isExhausted {source : ItemSource} (h : source.isExhausted) :
    source.results = [] := by
  cases source with
  | ready items => simpa [isExhausted, results] using h
  | events => cases h

/-- Whether these are the items of a list and the errors in their place. A stream has none any more if it
was read before. -/
inductive HostValue.Items.Offers (taken : List Nat) :
    HostValue.Items → List (Except FieldError HostValue) → Prop
  | ready {items} : Offers taken (.ready items) (items.map .ok)
  | stream {identity events} : Offers taken (.stream identity events) (events.map Event.result)
  | again {identity events} (h : 2 ≤ taken.count identity) : Offers taken (.stream identity events) []

theorem HostValue.isNull_of_items? {v : HostValue} {items : HostValue.Items}
    (h : v.items? = some items) : v.isNull = false := by
  fun_induction HostValue.isNull v with
  | case1 | case2 => cases h
  | case3 _ v ih => exact ih h
  | case4 => rfl

/-! ## Taking from a stream -/

/-- What comes next of some events, unless the request is aborted before. -/
def upcoming (plan : FieldPlan σ) (path : Path) :
    List Event → Except ExecutionError (Option (HostValue × List Event))
  | [] => .ok none
  | event :: rest => match event.result with
    | .ok v => .ok (some (v, rest))
    | .error failure => .error (plan.error path failure)

/-- Whether the first `count` results are items, and what remains of a source has all the others in
store. Less than `count` items are taken only if nothing remains. -/
structure CutAt (count : Nat) (results : List (Except FieldError HostValue)) (initial : List HostValue)
    (remaining : Option ItemSource) : Prop where
  first : initial.map .ok = results.take count
  others : remaining.elim [] ItemSource.results = results.drop count
  full : remaining.isSome → initial.length = count

section

variable (hI : ∀ w, I w → w.Ongoing)

include hI

theorem came_eq {events : List Event} {x : Except ExecutionError (Option (HostValue × List Event))}
    (h : Came I plan path events x) : x = upcoming plan path events := by
  obtain ⟨w, hw, h⟩ := yields_of_look h
  have hongoing : w.signal.isAborted = false := hI w hw
  rw [if_neg (by simp [hongoing])] at h
  cases events with
  | nil => exact h
  | cons event rest =>
    obtain ⟨_, -, h⟩ := not_aborted_of_yields_wait hI h
    unfold upcoming
    cases event <;> exact h

/-- Taking at most `count` items of a stream cuts it there, unless an error comes before. -/
theorem taken_cut {count : Nat} {events : List Event} {items : List HostValue}
    {x : Except ExecutionError (List HostValue × Option (List Event))} (hcount : items.length ≤ count)
    (h : Taken I plan path (some count) events items x) :
    (∃ e, x = .error e) ∨ ∃ initial rest, x = .ok (initial, rest) ∧
      CutAt count (items.map .ok ++ events.map Event.result) initial (rest.map .events) := by
  induction events generalizing items with
  | nil =>
    have hlength : (items.map fun v => (.ok v : Except FieldError HostValue)).length ≤ count := by
      simpa using hcount
    unfold Taken takeEvents at h
    split at h
    · next hfull =>
      -- The limit is reached just where the stream ends.
      have hfull : count ≤ items.length := by simpa using hfull
      refine .inr ⟨items, some [], h, ?_, ?_, fun _ => Nat.le_antisymm hcount hfull⟩
      · simpa using (List.take_of_length_le hlength).symm
      · simpa [ItemSource.results] using (List.drop_of_length_le hlength).symm
    · obtain ⟨y, hy, h⟩ := yields_nextEvent.mp h
      obtain rfl := came_eq hI hy
      refine .inr ⟨items, none, h, ?_, ?_, by simp⟩
      · simpa using (List.take_of_length_le hlength).symm
      · simpa using (List.drop_of_length_le hlength).symm
  | cons event rest ih =>
    unfold Taken takeEvents at h
    split at h
    · next hfull =>
      -- The limit is reached with this event left.
      have hfull : count ≤ items.length := by simpa using hfull
      obtain rfl := Nat.le_antisymm hcount hfull
      refine .inr ⟨items, some (event :: rest), h, ?_, ?_, fun _ => rfl⟩
      · rw [List.take_left' (by simp)]
      · rw [List.drop_left' (by simp)]
        rfl
    · next hfull =>
      have hfull : items.length < count := by simpa using hfull
      obtain ⟨y, hy, h⟩ := yields_nextEvent.mp h
      obtain rfl := came_eq hI hy
      cases event with
      | failure => exact .inl ⟨_, h⟩
      | item delay v =>
        have hnext : (items ++ [v]).length ≤ count := by simpa using Nat.succ_le_of_lt hfull
        simpa [Event.result] using ih hnext h

end

/-! ## Lists -/

/-- A report about a list that is cut at an initial count. -/
inductive CutReport (I : World σ → Prop) (complete : Completer σ) (plan : FieldPlan σ)
    (itemType : TypeRef) (path : Path) (label : Option String) (count : Nat)
    (results : List (Except FieldError HostValue)) : Report σ → Prop
  | failed {e} : CutReport I complete plan itemType path label count results (.failed e)
  | whole {initial remaining reports} (hcut : CutAt count results initial remaining)
    (hreports : ItemReports I complete plan itemType path initial reports)
    (hwhole : remaining = none ∨ (Report.list reports).isError) :
    CutReport I complete plan itemType path label count results (.list reports)
  | begun {initial source reports ticket} (hcut : CutAt count results initial (some source))
    (hreports : ItemReports I complete plan itemType path initial reports)
    (herror : (Report.list reports).isError = false) :
    CutReport I complete plan itemType path label count results
      (.followed (.list reports) ticket (.streamed plan itemType path label count source))

variable {count : Nat} {r : Report σ}

theorem cut_completeInitial {results : List (Except FieldError HostValue)} {initial : List HostValue}
    {remaining : Option ItemSource} (hcut : CutAt count results initial remaining)
    (h : Yields I (completeInitial complete plan itemType path label initial remaining) r) :
    CutReport I complete plan itemType path label count results r := by
  obtain ⟨reports, hreports, ⟨rfl, hwhole⟩ | ⟨source, ticket, rfl, herror, rfl⟩⟩ :=
    completeInitial_cases h
  · exact .whole hcut hreports hwhole
  · rw [hcut.full rfl]
    exact .begun hcut hreports herror

theorem cutAt_ready (count : Nat) (items : List HostValue) :
    if count < items.length then
      CutAt count (items.map .ok) (items.take count) (some (.ready (items.drop count)))
    else CutAt count (items.map .ok) items none := by
  split
  · next hlt =>
    refine ⟨List.map_take .., List.map_drop .., fun _ => ?_⟩
    rw [List.length_take]
    omega
  · next hle =>
    have hle : (items.map fun v => (.ok v : Except FieldError HostValue)).length ≤ count := by
      simpa using hle
    exact ⟨(List.take_of_length_le hle).symm, (List.drop_of_length_le hle).symm, nofun⟩

theorem cut_completeItemsOf (hI : ∀ w, I w → w.Ongoing) {source : Option ItemSource}
    (hstreaming : plan.streaming path ctx = .ok (some (count, label)))
    (h : Yields I (completeItemsOf ctx complete true plan itemType path source) r) :
    CutReport I complete plan itemType path label count (source.elim [] ItemSource.results) r := by
  unfold completeItemsOf at h
  simp only [if_true, hstreaming, Option.bind_some, Option.map_some] at h
  rcases source with _ | items | events
  · exact cut_completeInitial ⟨by simp, by simp, by simp⟩ h
  · have hcut := cutAt_ready count items
    dsimp only at h
    split at h
    · next hlt =>
      rw [if_pos hlt] at hcut
      exact cut_completeInitial hcut h
    · next hle =>
      rw [if_neg hle] at hcut
      exact cut_completeInitial hcut h
  · obtain ⟨x, hx, h⟩ := yields_takeEvents.mp h
    rcases taken_cut hI (Nat.zero_le count) hx with ⟨e, rfl⟩ | ⟨initial, rest, rfl, hcut⟩
    · obtain rfl := h
      exact .failed
    · exact cut_completeInitial hcut h

theorem completeItemsOf_atHand {all : List HostValue} (hall : all.length ≤ count)
    (hstreaming : plan.streaming path ctx = .ok (some (count, label)))
    (h : Yields I (completeItemsOf ctx complete true plan itemType path (some (.ready all))) r) :
    r.rest? = none := by
  unfold completeItemsOf at h
  simp only [if_true, hstreaming, Nat.not_lt.mpr hall, if_false] at h
  exact rest?_completeItems h

theorem cut_completeWithin {taken : List Nat} (hI : ∀ w, I w → w.Within taken) {depth : Nat}
    {t : TypeRef} {value : HostValue} {items : HostValue.Items} (ht : t.item? = some itemType)
    (hitems : value.items? = some items)
    (hstreaming : plan.streaming path ctx = .ok (some (count, label)))
    (h : Yields I (completeWithin ctx depth true plan t path value) r) :
    ∃ depth results, items.Offers taken results ∧
      CutReport I (completeWithin ctx depth false) plan itemType path label count results r ∧
      ∀ all, items = .ready all → all.length ≤ count → r.rest? = none := by
  have hongoing : ∀ w, I w → w.Ongoing := fun w hw => (hI w hw).ongoing
  cases depth with
  | zero => exact h.elim
  | succ depth =>
    unfold completeWithin completeValue at h
    simp only [HostValue.isNull_of_items? hitems, ht, Bool.false_eq_true, if_false] at h
    unfold completeList at h
    rw [hitems] at h
    cases items with
    | ready items =>
      refine ⟨depth, _, .ready, cut_completeItemsOf hongoing hstreaming h, ?_⟩
      rintro _ ⟨⟩ hall
      exact completeItemsOf_atHand hall hstreaming h
    | stream identity events =>
      obtain ⟨w, -, hw, h⟩ := h
      dsimp only at h
      have hcut := cut_completeItemsOf hongoing hstreaming h
      split at hcut
      · next hread => exact ⟨depth, _, .again ((hI _ hw).count hread), hcut, by simp⟩
      · exact ⟨depth, _, .stream, hcut, by simp⟩

/-! ## Jobs -/

/-- A report about a job for the items of a list from an index on. -/
inductive StreamedReport (I : World σ → Prop) (ctx : ExecutionContext σ) (plan : FieldPlan σ)
    (itemType : TypeRef) (path : Path) (label : Option String) (index : Nat) :
    List (Except FieldError HostValue) → Report σ → Prop
  | ended : StreamedReport I ctx plan itemType path label index [] .absent
  | broken {e rest} : StreamedReport I ctx plan itemType path label index (.error e :: rest)
      (.failed (plan.error (path.index index) e))
  | failed {v rest r}
    (h : Yields I (completeItem (completeListItem ctx) plan itemType (path.index index) v) r)
    (herror : r.isError) : StreamedReport I ctx plan itemType path label index (.ok v :: rest) r
  | last {v r}
    (h : Yields I (completeItem (completeListItem ctx) plan itemType (path.index index) v) r)
    (herror : r.isError = false) : StreamedReport I ctx plan itemType path label index [.ok v] r
  | more {v r ticket} {source : ItemSource}
    (h : Yields I (completeItem (completeListItem ctx) plan itemType (path.index index) v) r)
    (herror : r.isError = false) :
    StreamedReport I ctx plan itemType path label index (.ok v :: source.results)
      (.followed r ticket (.streamed plan itemType path label (index + 1) source))

theorem streamed_executeStreamed {index : Nat} {v : HostValue} {rest : ItemSource}
    (h : Yields I (executeStreamed ctx plan itemType path label index v rest) r) :
    StreamedReport I ctx plan itemType path label index (.ok v :: rest.results) r := by
  have h := yields_of_perform h
  split at h
  · next hexhausted =>
    cases herror : r.isError with
    | true => exact .failed h herror
    | false =>
      rw [ItemSource.results_of_isExhausted hexhausted]
      exact .last h herror
  · rcases yields_thenQueue h with ⟨h, herror⟩ | ⟨s, ticket, hs, herror, rfl⟩
    · exact .failed h herror
    · exact .more hs herror

theorem yields_streamed (hI : ∀ w, I w → w.Ongoing) {index : Nat} {source : ItemSource}
    (h : Yields I ((Job.streamed plan itemType path label index source).execute ctx) r) :
    StreamedReport I ctx plan itemType path label index source.results r := by
  unfold Job.execute at h
  rcases source with (_ | ⟨v, items⟩) | events
  · obtain rfl := h
    exact .ended
  · exact streamed_executeStreamed h
  · obtain ⟨x, hx, h⟩ := yields_nextEvent.mp h
    obtain rfl := came_eq hI hx
    cases events with
    | nil =>
      obtain rfl := h
      exact .ended
    | cons event rest =>
      cases event with
      | failure =>
        obtain rfl := h
        exact .broken
      | item delay v => exact streamed_executeStreamed h

end GraphQL
