import GraphQL.Execution.Run

/-! # Subscriptions

The single root field of a subscription opens a stream of events. Every event is answered by one
result, for which the operation is executed with the event as its root. An abort ends the stream.
-/

namespace GraphQL

variable {σ : Type}

/-- A subscription whose stream was opened. -/
structure Subscription (σ : Type) where
  ctx : ExecutionContext σ
  object : ObjectType σ
  plan : FieldPlan σ
  events : List Event

namespace Subscription

/-- The path of the root field. -/
def fieldPath (plan : FieldPlan σ) : Path := Path.root.key plan.node.responseKey 0

/-- The root field of a subscription. -/
def rootField (operation : Operation) (object : ObjectType σ) (collected : Collected) :
    Except ExecutionError (FieldPlan σ) :=
  match collected.groups with
  | (_, use :: others) :: _ =>
    let name := use.node.name.item
    match object.field? name with
    | some field => .ok ⟨object, field, use, others⟩
    | none => .error ⟨[use.node.span.start], Path.root.key use.node.responseKey 0,
        (FieldProblem.undefinedSubscription name).error⟩
  | _ => .error ⟨[operation.span.start], .root, FieldProblem.noRootField.error⟩

/-- Opens the stream of events. -/
def openStream (ctx : ExecutionContext σ) (plan : FieldPlan σ) :
    Process σ (Except ExecutionError (List Event)) :=
  let path := fieldPath plan
  match plan.arguments ctx path with
  | .error e => .done (.error e)
  | .ok args =>
    match plan.field.subscribe <|> ctx.subscriber with
    | none => .done (.error (plan.problem path (.noSubscriber plan.field.name)))
    | some subscriber =>
      Process.call subscriber ⟨plan.info ctx path, ctx.root, args⟩ path fun r =>
        .done (r.mapError (plan.error path))

/-- Executes the operation on the value of an event. -/
def executeEvent (ctx : ExecutionContext σ) (object : ObjectType σ) (root : HostValue)
    (w : World σ) : Option (ExecutionResult × World σ) := do
  let (report, w) ← (executeRoot { ctx with root } object).run ctx.bounds.rounds w
  let o := report.outcome
  if o.object?.isSome && !o.queued.isEmpty then
    return (RequestError.severalPayloads.result, w)
  else return (⟨o.object?, o.allErrors, none⟩, w)

/-- The result of the next event, or nothing when there are no more or the request is aborted. -/
def next (s : Subscription σ) (w : World σ) :
    Option (Option ExecutionResult × Subscription σ × World σ) :=
  if w.signal.isAborted then some (none, s, w)
  else match s.events with
    | [] => some (none, s, w)
    | e :: events =>
      let rest := { s with events }
      match e.result with
      | .error failure =>
        some (some (.ofError (s.plan.error (fieldPath s.plan) failure)), rest, w)
      | .ok root => do
        let (result, w) ← executeEvent s.ctx s.object root w
        return (some result, rest, w)

end Subscription

/-- Opens a subscription, or answers the request by a result. -/
def Request.subscribe (r : Request σ) (w : World σ) :
    Option (Except ExecutionResult (Subscription σ) × World σ) :=
  match r.prepare with
  | .error e => some (.error e.result, w)
  | .ok (ctx, object) =>
    if ctx.operation.kind ≠ .subscription then
      some (.error RequestError.notSubscription.result, w)
    else do
      let collected ← ctx.rootFields object
      match Subscription.rootField ctx.operation object collected with
      | .error e => return (.error (.ofError e), w)
      | .ok plan =>
        let (opened, w) ← (Subscription.openStream ctx plan).run ctx.bounds.rounds w
        match opened with
        | .error e => return (.error (.ofError e), w)
        | .ok events =>
          return (.ok ⟨ctx, object, plan, events⟩, w.trace (.subscribed plan.field.name))

end GraphQL
