import GraphQL.Execution.Ask

/-! # Completing values

Fields are resolved and their values completed as their types demand, objects field by field and
lists item by item, all side by side. The root fields of a mutation run one after the other.
-/

namespace GraphQL

variable {σ : Type}

/-- The work of completing something. -/
abbrev Completing (σ : Type) := Process σ (Report σ)

namespace Completing

def failed (e : ExecutionError) : Completing σ := .done (.failed e)

def ofExcept (r : Except ExecutionError Value) : Completing σ := .done (.ofExcept r)

/-- Queues a job after the others of a report, if no error escapes from it. -/
def thenQueue (job : Job σ) (p : Completing σ) : Completing σ :=
  p.bind fun r =>
    if r.isError then .done r
    else .step World.nextTicket fun w => .done (.followed r w.tickets job)

/-- Runs the fields of an object one after the other, until an error escapes from one. -/
def inSequence (deferred : List (Nat × Job σ)) :
    List (String × Report σ) → List (String × Completing σ) → Completing σ
  | finished, [] => .done (.object deferred finished)
  | finished, (key, p) :: rest => p.bind fun r =>
    let finished := finished ++ [(key, r)]
    if r.isError then .done (.object deferred finished) else inSequence deferred finished rest

/-- Runs the fields of an object side by side. -/
def sideBySide (deferred : List (Nat × Job σ)) (fields : List (String × Completing σ)) :
    Completing σ :=
  .all (fields.map Prod.snd) fun reports =>
    .done (.object deferred ((fields.map Prod.fst).zip reports))

end Completing

/-- A way to complete the value of a field, or a value inside of it, as a value of a type. -/
abbrev Completer (σ : Type) := FieldPlan σ → TypeRef → Path → HostValue → Completing σ

open Completing

section

variable (ctx : ExecutionContext σ) (complete : Completer σ)

/-- Executes the field with the given uses on an object, completing its value by `completeField`. -/
def executeField (completeField : Completer σ) (object : ObjectType σ) (source : HostValue)
    (uses : List FieldUse) (path : Path) : Completing σ :=
  match uses with
  | [] => .done .absent
  | use :: others =>
    if use.node.name.item = "__typename" then .done (.leaf (.string object.name))
    else match object.field? use.node.name.item with
      | none => .done .absent
      | some field =>
        let plan : FieldPlan σ := ⟨object, field, use, others⟩
        (Process.resolveField ctx plan source path fun
          | .ok v => completeField plan field.type path v
          | .error e => failed e).map (·.absorbing field.type)

/-- The work on each of the fields selected on an object. -/
def fieldWork (completeField : Completer σ) (object : ObjectType σ) (source : HostValue)
    (path : Path) (groups : List (String × List FieldUse)) : List (String × Completing σ) :=
  groups.zipIdx.map fun ((key, uses), ordinal) =>
    (key, executeField ctx completeField object source uses (path.key key ordinal))

/-- Executes the fields selected on an object, after queueing its deferred fragments. -/
def executeObject (completeField : Completer σ) (isSerial : Bool) (object : ObjectType σ)
    (source : HostValue) (path : Path) (collected : Collected) : Completing σ :=
  let jobs := collected.deferred.map (Job.deferred object source path)
  let fields := fieldWork ctx completeField object source path collected.groups
  .step (fun w => { w with tickets := w.tickets + jobs.length }) fun w =>
    let deferred := (jobs.zipIdx w.tickets).map fun (job, ticket) => (ticket, job)
    if isSerial then inSequence deferred [] fields else sideBySide deferred fields

/-- Completes an item of a list. -/
def completeItem (plan : FieldPlan σ) (itemType : TypeRef) (path : Path) (item : HostValue) :
    Completing σ :=
  (complete plan itemType path item).map (·.absorbing itemType)

/-- Completes the items of a list side by side. -/
def completeItems (plan : FieldPlan σ) (itemType : TypeRef) (path : Path)
    (items : List HostValue) : Completing σ :=
  .all (items.zipIdx.map fun (item, i) => completeItem complete plan itemType (path.index i) item)
    fun reports => .done (.list reports)

/-- Completes the initial items of a list and queues the others, if there may be any. -/
def completeInitial (plan : FieldPlan σ) (itemType : TypeRef) (path : Path)
    (label : Option String) (items : List HostValue) (remaining : Option ItemSource) :
    Completing σ :=
  let initial := completeItems complete plan itemType path items
  match remaining with
  | none => initial
  | some source => initial.thenQueue (.streamed plan itemType path label items.length source)

/-- Completes a list whose items come from `source`; from a stream that was read before, none
come. Only the value of a field itself can be streamed. -/
def completeItemsOf (isStreamable : Bool) (plan : FieldPlan σ) (itemType : TypeRef) (path : Path)
    (source : Option ItemSource) : Completing σ :=
  match if isStreamable then plan.streaming path ctx else .ok none with
  | .error e => failed e
  | .ok streaming =>
    let initial := completeInitial complete plan itemType path (streaming.bind Prod.snd)
    match source with
    | none => initial [] none
    | some (.ready items) =>
      match streaming with
      | some (count, _) =>
        if count < items.length then initial (items.take count) (some (.ready (items.drop count)))
        else initial items none
      | none => initial items none
    | some (.events events) =>
      Process.takeEvents plan path (streaming.map Prod.fst) (fun
        | .error e => failed e
        | .ok (items, remaining) => initial items (remaining.map .events)) events []

/-- Completes a list. -/
def completeList (isStreamable : Bool) (plan : FieldPlan σ) (itemType : TypeRef) (path : Path)
    (value : HostValue) : Completing σ :=
  match value.items? with
  | none => failed (plan.problem path (.notAList plan.coordinate))
  | some (.ready items) =>
    completeItemsOf ctx complete isStreamable plan itemType path (some (.ready items))
  | some (.stream identity events) =>
    .step (World.take identity) fun w =>
      completeItemsOf ctx complete isStreamable plan itemType path
        (if w.isTaken identity then none else some (.events events))

/-- Completes an object: its membership is checked, if there is a check, and its fields are
executed. -/
def completeObject (plan : FieldPlan σ) (object : ObjectType σ) (path : Path)
    (value : HostValue) : Completing σ :=
  let execute : Completing σ :=
    match ctx.subfields object plan.uses with
    | none => .unending
    | some collected => executeObject ctx complete false object value path collected
  match object.isTypeOf with
  | none => execute
  | some check =>
    Process.call check ⟨plan.info ctx path, value, object.name⟩ path fun
      | .error e => failed (plan.error path e)
      | .ok true => execute
      | .ok false => failed (plan.problem path (.otherObject object.name value))

/-- Completes a value of an interface or union. -/
def completeAbstract (plan : FieldPlan σ) (t : TypeDefinition σ) (path : Path)
    (value : HostValue) : Completing σ :=
  Process.resolveType ctx t (plan.info ctx path) value fun
    | .error e => failed (plan.error path e)
    | .ok name =>
      match plan.runtimeObject path ctx.schema t name with
      | .error e => failed e
      | .ok object => completeObject ctx complete plan object path value

/-- Completes a value, whose fields and items are completed by `completeField` and `complete`. -/
def completeValue (completeField : Completer σ) (isStreamable : Bool) (plan : FieldPlan σ)
    (t : TypeRef) (path : Path) (value : HostValue) : Completing σ :=
  if value.isNull then
    if t.isNonNull then failed (plan.problem path (.null plan.coordinate)) else .done .null
  else match t.item? with
    | some item => completeList ctx complete isStreamable plan item path value
    | none =>
      match ctx.schema.type? t.innermost with
      | some (.scalar t) => ofExcept (plan.completeScalar path t value)
      | some (.enum t) => ofExcept (plan.completeEnum path t value)
      | some (.object object) => completeObject ctx completeField plan object path value
      | some (.interface i) => completeAbstract ctx completeField plan (.interface i) path value
      | some (.union u) => completeAbstract ctx completeField plan (.union u) path value
      | _ => failed (plan.problem path (.notOutputType t.innermost))

end

variable (ctx : ExecutionContext σ)

/-- Completes values less than `depth` deep inside one another. -/
def completeWithin : Nat → Bool → Completer σ
  | 0, _, _, _, _, _ => .unending
  | depth + 1, isStreamable, plan, t, path, value =>
    completeValue ctx (completeWithin depth false) (completeWithin depth true) isStreamable plan t
      path value

/-- Completes the value of a field. -/
def completeField : Completer σ := completeWithin ctx ctx.bounds.response true

/-- Completes an item of a list. -/
def completeListItem : Completer σ := completeWithin ctx ctx.bounds.response false

/-- Executes the operation from its root type. -/
def executeRoot (object : ObjectType σ) : Completing σ :=
  match ctx.rootFields object with
  | none => .unending
  | some collected =>
    executeObject ctx (completeField ctx) (ctx.operation.kind == .mutation) object ctx.root .root
      collected

/-- Completes the next item of a streamed list, and queues those after it. -/
def executeStreamed (plan : FieldPlan σ) (itemType : TypeRef) (path : Path)
    (label : Option String) (index : Nat) (item : HostValue) (remaining : ItemSource) :
    Completing σ :=
  let itemPath := path.index index
  let completed := completeItem (completeListItem ctx) plan itemType itemPath item
  Process.perform (World.trace (.completingStreamed itemPath label)) <|
    if remaining.isExhausted then completed
    else completed.thenQueue (.streamed plan itemType path label (index + 1) remaining)

/-- Runs a job. -/
def Job.execute : Job σ → Completing σ
  | .deferred object source path fragment =>
    Process.perform (World.trace (.executingDeferred path fragment.label)) <|
      executeObject ctx (completeField ctx) false object source path fragment.fields
  | .streamed plan itemType path label index source =>
    match source with
    | .ready [] => .done .absent
    | .ready (item :: rest) =>
      executeStreamed ctx plan itemType path label index item (.ready rest)
    | .events events =>
      Process.nextEvent plan (path.index index) events fun
        | .error e => failed e
        | .ok none => .done .absent
        | .ok (some (item, rest)) =>
          executeStreamed ctx plan itemType path label index item (.events rest)

/-- The part that a job delivers; a stream that is over delivers none. -/
def Job.part (job : Job σ) (r : Report σ) : Option Part :=
  let o := r.outcome
  match job with
  | .deferred _ _ path fragment => some ⟨.fields o.object?, o.allErrors, path, fragment.label⟩
  | .streamed _ _ path label index _ =>
    let part (items : Option (List Value)) : Part :=
      ⟨.items items, o.allErrors, path.index index, label⟩
    match o.result with
    | .ok none => none
    | .ok (some v) => some (part (some [v]))
    | .error _ => some (part none)

end GraphQL
