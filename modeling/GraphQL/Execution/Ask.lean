import GraphQL.Execution.Process
import GraphQL.Execution.Leaf

/-! # Asking the host

Callbacks are called, and their answers awaited unless the request is aborted before.
-/

namespace GraphQL.Process

variable {σ ρ α ι : Type}

/-- Goes on with the reason of the abort, after reporting it. -/
def onAbort (event : TraceEvent) (k : String → Process σ ρ) : Process σ ρ :=
  step (World.trace event) fun w => k w.signal.reason

/-- Waits for an answer. An abort while waiting counts as an error of the callback. -/
def await (path : Path) (answer : Answer σ (Except FieldError α))
    (k : Except FieldError α → Process σ ρ) : Process σ ρ :=
  let aborted := onAbort (.abortedResolving path) fun reason => k (.error (.ofMessage reason))
  match answer with
  | .ready r => k r
  | .after polls finish =>
    wait (some polls) none aborted (fun w => w.after finish) fun w => k (w.reaction finish).result
  | .never => wait none none aborted id fun _ => unending

/-- Calls a callback and waits for its answer. -/
def call (callback : Callback σ ι α) (request : ι) (path : Path)
    (k : Except FieldError α → Process σ ρ) : Process σ ρ :=
  step (fun w => w.after (callback request)) fun w =>
    await path (w.reaction (callback request)).result k

/-- Waits for the next of the items that arrive over time, and goes on with it and the events after
it, or with nothing when there are no more. -/
def nextEvent (plan : FieldPlan σ) (path : Path) (events : List Event)
    (k : Except ExecutionError (Option (HostValue × List Event)) → Process σ ρ) : Process σ ρ :=
  let refuse (reason : String) := k (.error (plan.problem path (.aborted reason)))
  look fun w =>
    if w.signal.isAborted then refuse w.signal.reason
    else match events with
      | [] => k (.ok none)
      | e :: rest =>
        wait (some e.delay) none (onAbort (.abortedWaiting path) refuse) id fun _ =>
          match e.result with
          | .ok v => k (.ok (some (v, rest)))
          | .error failure => k (.error (plan.error path failure))

/-- Takes events until there are `limit` items, or none are left. Goes on with the items and the
events that are left if the limit was reached. -/
def takeEvents (plan : FieldPlan σ) (path : Path) (limit : Option Nat)
    (k : Except ExecutionError (List HostValue × Option (List Event)) → Process σ ρ) :
    List Event → List HostValue → Process σ ρ
  | events, items =>
    if limit.any (· ≤ items.length) then k (.ok (items, some events))
    else match events with
      | [] => nextEvent plan path [] fun
        | .error e => k (.error e)
        | .ok _ => k (.ok (items, none))
      | e :: rest => nextEvent plan path [e] fun
        | .error e => k (.error e)
        | .ok (some (v, _)) => takeEvents plan path limit k rest (items ++ [v])
        | .ok none => k (.ok (items, none))

/-- Finds the first of the object types whose membership check accepts a value. -/
def firstMember (info : FieldInfo) (value : HostValue)
    (k : Except FieldError (Option String) → Process σ ρ) :
    List (ObjectType σ) → Process σ ρ
  | [] => k (.ok none)
  | object :: rest =>
    match object.isTypeOf with
    | none => firstMember info value k rest
    | some check =>
      call check ⟨info, value, object.name⟩ info.path fun
        | .error e => k (.error e)
        | .ok true => k (.ok (some object.name))
        | .ok false => firstMember info value k rest

/-- The object type that a value names itself, by its tag or its data. -/
def statedType (value : HostValue) : Option String :=
  value.typeName? <|> (value.dataField? "__typename").bind Value.string?

/-- Finds the object type of a value of the abstract type `t` without a type resolver. -/
def defaultType (schema : Schema σ) (t : TypeDefinition σ) (info : FieldInfo) (value : HostValue)
    (k : Except FieldError (Option String) → Process σ ρ) : Process σ ρ :=
  match statedType value with
  | some name => k (.ok (some name))
  | none => firstMember info value k (schema.possibleTypes t)

/-- The type resolver of an abstract type. -/
def ownTypeResolver : TypeDefinition σ → Option (TypeResolver σ)
  | .interface t => t.resolveType
  | .union t => t.resolveType
  | _ => none

/-- Finds the object type of a value of the abstract type `t`. -/
def resolveType (ctx : ExecutionContext σ) (t : TypeDefinition σ) (info : FieldInfo)
    (value : HostValue) (k : Except FieldError (Option String) → Process σ ρ) : Process σ ρ :=
  match ownTypeResolver t <|> ctx.typeResolver with
  | none => defaultType ctx.schema t info value k
  | some resolver =>
    call resolver ⟨info, value, t.name⟩ info.path fun
      | .error e => k (.error e)
      | .ok .unknown => k (.ok none)
      | .ok (.named name) => k (.ok (some name))
      | .ok .byDefault => defaultType ctx.schema t info value k

/-- Resolves a field, unless the request is aborted. -/
def resolveField (ctx : ExecutionContext σ) (plan : FieldPlan σ) (source : HostValue)
    (path : Path) (k : Except ExecutionError HostValue → Process σ ρ) : Process σ ρ :=
  look fun w =>
    if w.signal.isAborted then
      onAbort (.notResolved path) fun reason => k (.error (plan.problem path (.aborted reason)))
    else match plan.arguments ctx path with
      | .error e => k (.error e)
      | .ok args =>
        perform (World.trace (.resolving path plan.field.name)) <|
          match plan.field.resolve <|> ctx.fieldResolver with
          | none => k (.ok (defaultFieldValue source plan.field.name))
          | some resolver =>
            call resolver ⟨plan.info ctx path, source, args⟩ path fun r =>
              k (r.mapError (plan.error path))

end GraphQL.Process
