import GraphQL.Execution.Ask
import GraphQL.Proofs.Execution.Process.Results

/-! # What the host answers

Work that asks the host goes on with an answer. Each way to ask has a predicate for its possible
answers, and yields what the work after one of them yields.
-/

namespace GraphQL.Process

variable {σ ρ α ι : Type} {I : World σ → Prop} {r : ρ}

theorem exists_then {β : Type} {X F : α → Prop} {G : α → β → Prop} {K : β → Prop}
    (h : ∀ x, F x ↔ ∃ y, G x y ∧ K y) : (∃ x, X x ∧ F x) ↔ ∃ y, (∃ x, X x ∧ G x y) ∧ K y := by
  simp only [h]
  grind

theorem yields_look_then {next : World σ → Process σ ρ} {ask : World σ → Process σ α}
    {k : α → Process σ ρ}
    (h : ∀ w, Yields I (next w) r ↔ ∃ x, Yields I (ask w) x ∧ Yields I (k x) r) :
    Yields I (look next) r ↔ ∃ x, Yields I (look ask) x ∧ Yields I (k x) r := by
  simp only [look, Yields, h]
  grind

theorem yields_await {path : Path} {answer : Answer σ (Except FieldError α)}
    {k : Except FieldError α → Process σ ρ} :
    Yields I (await path answer k) r ↔
      ∃ x, Yields I (await path answer .done) x ∧ Yields I (k x) r := by
  cases answer with
  | ready x => simp [await]
  | after | never =>
    simp only [await, onAbort, Yields]
    grind

/-- Whether a callback may answer `x`. -/
def Called (I : World σ → Prop) (callback : Callback σ ι α) (request : ι) (path : Path)
    (x : Except FieldError α) : Prop :=
  Yields I (call callback request path .done) x

theorem yields_call {callback : Callback σ ι α} {request : ι} {path : Path}
    {k : Except FieldError α → Process σ ρ} :
    Yields I (call callback request path k) r ↔
      ∃ x, Called I callback request path x ∧ Yields I (k x) r := by
  simp only [Called, call, Yields, yields_await (k := k)]
  grind

/-- Whether the next of some events may be `x`. -/
def Came (I : World σ → Prop) (plan : FieldPlan σ) (path : Path) (events : List Event)
    (x : Except ExecutionError (Option (HostValue × List Event))) : Prop :=
  Yields I (nextEvent plan path events .done) x

theorem yields_nextEvent {plan : FieldPlan σ} {path : Path} {events : List Event}
    {k : Except ExecutionError (Option (HostValue × List Event)) → Process σ ρ} :
    Yields I (nextEvent plan path events k) r ↔
      ∃ x, Came I plan path events x ∧ Yields I (k x) r := by
  apply yields_look_then
  intro w
  split
  · simp
  · cases events with
    | nil => simp
    | cons e rest =>
      cases e <;>
      · simp only [Event.result, onAbort, Yields]
        grind

/-- Whether `x` may be what is taken of some events. -/
def Taken (I : World σ → Prop) (plan : FieldPlan σ) (path : Path) (limit : Option Nat)
    (events : List Event) (items : List HostValue)
    (x : Except ExecutionError (List HostValue × Option (List Event))) : Prop :=
  Yields I (takeEvents plan path limit .done events items) x

theorem yields_takeEvents {plan : FieldPlan σ} {path : Path} {limit : Option Nat}
    {k : Except ExecutionError (List HostValue × Option (List Event)) → Process σ ρ}
    {events : List Event} {items : List HostValue} :
    Yields I (takeEvents plan path limit k events items) r ↔
      ∃ x, Taken I plan path limit events items x ∧ Yields I (k x) r := by
  induction events generalizing items with
  | nil =>
    simp only [Taken, takeEvents]
    split
    · simp
    · simp only [yields_nextEvent]
      exact exists_then fun x => by cases x <;> simp
  | cons e rest ih =>
    simp only [Taken, takeEvents]
    split
    · simp
    · simp only [yields_nextEvent]
      exact exists_then fun
        | .error e => by simp
        | .ok none => by simp
        | .ok (some (v, _)) => ih

/-- Whether `x` may be the first of some object types that accepts a value. -/
def Accepted (I : World σ → Prop) (info : FieldInfo) (value : HostValue)
    (objects : List (ObjectType σ)) (x : Except FieldError (Option String)) : Prop :=
  Yields I (firstMember info value .done objects) x

theorem yields_firstMember {info : FieldInfo} {value : HostValue}
    {k : Except FieldError (Option String) → Process σ ρ} {objects : List (ObjectType σ)} :
    Yields I (firstMember info value k objects) r ↔
      ∃ x, Accepted I info value objects x ∧ Yields I (k x) r := by
  induction objects with
  | nil => simp [Accepted, firstMember]
  | cons object rest ih =>
    simp only [Accepted, firstMember]
    split
    · exact ih
    · simp only [yields_call]
      exact exists_then fun
        | .error e => by simp
        | .ok true => by simp
        | .ok false => ih

/-- Whether `x` may be found as the object type of a value. -/
def Typed (I : World σ → Prop) (ctx : ExecutionContext σ) (t : TypeDefinition σ) (info : FieldInfo)
    (value : HostValue) (x : Except FieldError (Option String)) : Prop :=
  Yields I (resolveType ctx t info value .done) x

theorem yields_defaultType {schema : Schema σ} {t : TypeDefinition σ} {info : FieldInfo}
    {value : HostValue} {k : Except FieldError (Option String) → Process σ ρ} :
    Yields I (defaultType schema t info value k) r ↔
      ∃ x, Yields I (defaultType schema t info value .done) x ∧ Yields I (k x) r := by
  unfold defaultType
  split
  · simp
  · exact yields_firstMember

theorem yields_resolveType {ctx : ExecutionContext σ} {t : TypeDefinition σ} {info : FieldInfo}
    {value : HostValue} {k : Except FieldError (Option String) → Process σ ρ} :
    Yields I (resolveType ctx t info value k) r ↔
      ∃ x, Typed I ctx t info value x ∧ Yields I (k x) r := by
  simp only [Typed, resolveType]
  split
  · exact yields_defaultType
  · simp only [yields_call]
    exact exists_then fun
      | .error e => by simp
      | .ok .unknown => by simp
      | .ok (.named name) => by simp
      | .ok .byDefault => yields_defaultType

/-- Whether `x` may be the value of a field. -/
def Resolved (I : World σ → Prop) (ctx : ExecutionContext σ) (plan : FieldPlan σ)
    (source : HostValue) (path : Path) (x : Except ExecutionError HostValue) : Prop :=
  Yields I (resolveField ctx plan source path .done) x

theorem yields_resolveField {ctx : ExecutionContext σ} {plan : FieldPlan σ} {source : HostValue}
    {path : Path} {k : Except ExecutionError HostValue → Process σ ρ} :
    Yields I (resolveField ctx plan source path k) r ↔
      ∃ x, Resolved I ctx plan source path x ∧ Yields I (k x) r := by
  apply yields_look_then
  intro w
  split
  · simp only [onAbort, Yields]
    grind
  · split
    · simp
    · simp only [perform, Yields]
      split
      · simp only [Yields]
        grind
      · simp only [yields_call, yields_done]
        grind

end GraphQL.Process
