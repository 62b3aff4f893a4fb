import GraphQL.Execution.Report

/-! # Leaves and runtime types

Scalars and enums of a response, and the object types of values of abstract types.
-/

namespace GraphQL.FieldPlan

variable {σ : Type} (plan : FieldPlan σ) (path : Path)

/-- A value as a scalar writes it; a scalar never writes null. -/
def completeScalar (t : ScalarType) (value : HostValue) : Except ExecutionError Value :=
  match value.toData with
  | none => .error (plan.problem path (.notAScalar t.name value))
  | some raw =>
    match t.output raw with
    | .error e => .error (plan.error path e)
    | .ok v => if v.isNull then .error (plan.problem path (.nullFromScalar t.name raw)) else .ok v

/-- The name of the enum value that callbacks see as `value`. -/
def completeEnum (t : EnumType) (value : HostValue) : Except ExecutionError Value :=
  match value.toData.bind t.seenAs? with
  | some found => .ok (.string found.name)
  | none => .error (plan.problem path (.notAnEnumValue t.name value))

/-- The object type called `name` for a value of the abstract type `t`. -/
def runtimeObject (schema : Schema σ) (t : TypeDefinition σ) (name : Option String) :
    Except ExecutionError (ObjectType σ) :=
  match name with
  | none => .error (plan.problem path (.unresolvedType t.name plan.coordinate))
  | some name =>
    match schema.type? name with
    | none => .error (plan.problem path (.unknownObject t.name name))
    | some (.object object) =>
      if schema.isPossibleType t name then .ok object
      else .error (plan.problem path (.impossibleObject t.name name))
    | some _ => .error (plan.problem path (.notAnObject t.name name))

/-- An active `@stream` on the field: the count of initial items, and the label. -/
def streaming (ctx : ExecutionContext σ) :
    Except ExecutionError (Option (Nat × Option String)) :=
  match findDirective plan.node.directives "stream", ctx.schema.directive? "stream" with
  | some node, some definition => do
    let args ← (ctx.schema.coerceDirective (plan.scope ctx) definition node).mapError (·.at path)
    if (args.get? "if").bind Value.boolean? == some false then return none
    let count : Int := (((args.get? "initialCount").bind Value.int?).map (·.toInt)).getD 0
    if count < 0 then throw (plan.problem path .negativeInitialCount)
    return some (count.toNat, (args.get? "label").bind Value.string?)
  | _, _ => .ok none

end GraphQL.FieldPlan
