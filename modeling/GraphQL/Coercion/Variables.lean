import GraphQL.Coercion.Default
import GraphQL.Document.Basic
import GraphQL.Execution.Error

/-! # Variables of operations

The values sent with a request become values of the variables that its operation declares. All
problems are reported, up to a limit.
-/

namespace GraphQL

inductive VariableProblem where
  | notInputType
  | invalidDefault (literal : Literal) (problem : CoercionProblem)
  | missing
  | null
  | invalid (value : Value) (error : CoercionError)

def VariableProblem.message (name : String) (t : TypeRef) : VariableProblem → String
  | .notInputType =>
    "Variable \"$" ++ name ++ "\" expected value of type \"" ++ t.text
      ++ "\" which cannot be used as an input type."
  | .invalidDefault literal problem =>
    "Variable \"$" ++ name ++ "\" has invalid default value " ++ literal.text ++ ". "
      ++ problem.message
  | .missing =>
    "Variable \"$" ++ name ++ "\" of required type \"" ++ t.text ++ "\" was not provided."
  | .null =>
    "Variable \"$" ++ name ++ "\" of non-null type \"" ++ t.text ++ "\" must not be null."
  | .invalid value e =>
    let place := if e.path.isEmpty then "" else " at \"" ++ name ++ e.pathText ++ "\""
    "Variable \"$" ++ name ++ "\" got invalid value " ++ (e.value.getD value).text ++ place
      ++ "; " ++ e.message

def VariableDefinition.error (d : VariableDefinition) (problem : VariableProblem) :
    ExecutionError :=
  .atPosition d.name.start (problem.message d.name.item d.type.item)

/-- The last error when there are too many. -/
def tooManyErrors : ExecutionError :=
  .ofMessage
    "Too many errors processing variables, error limit reached. Execution aborted."

/-- Reports errors one by one, and gives up at the first one past the limit. -/
def reportWithin (limit : Nat) (reported : List ExecutionError) :
    List ExecutionError → Except (List ExecutionError) (List ExecutionError)
  | [] => .ok reported
  | e :: rest =>
    if limit ≤ reported.length then .error (reported ++ [tooManyErrors])
    else reportWithin limit (reported ++ [e]) rest

namespace Schema

variable {σ : Type} (schema : Schema σ)

/-- The value of a variable if it has one, or what is wrong with it. -/
def coerceVariable (inputs : Object) (d : VariableDefinition) :
    Except (List VariableProblem) (Option Value) :=
  let t := d.type.item
  if !(schema.type? t.innermost).any (·.isInput) then .error [.notInputType]
  else match inputs.get? d.name.item, d.default with
    | none, some default =>
      (schema.coerceLiteral .empty default.item t).mapError fun e =>
        [.invalidDefault default.item e.problem]
    | none, none => if t.isNonNull then .error [.missing] else .ok none
    | some v, _ =>
      if v.isNull && t.isNonNull then .error [.null]
      else match schema.coerceInput v t with
        | .ok coerced => .ok (some coerced)
        | .error es => .error (es.map (.invalid v))

/-- Coerces the variables one after the other. -/
def coerceVariablesFrom (inputs : Object) (limit : Nat) :
    List VariableDefinition → Object → List ExecutionError → Except (List ExecutionError) Object
  | [], coerced, reported => if reported.isEmpty then .ok coerced else .error reported
  | d :: rest, coerced, reported =>
    match schema.coerceVariable inputs d with
    | .ok (some v) =>
      coerceVariablesFrom inputs limit rest (coerced.insert d.name.item v) reported
    | .ok none => coerceVariablesFrom inputs limit rest coerced reported
    | .error problems =>
      match reportWithin limit reported (problems.map d.error) with
      | .ok reported => coerceVariablesFrom inputs limit rest coerced reported
      | .error errors => .error errors

/-- The variables of an operation with the values of a request. -/
def coerceVariables (definitions : List VariableDefinition) (inputs : Object) (limit : Nat) :
    Except (List ExecutionError) Object :=
  schema.coerceVariablesFrom inputs limit definitions [] []

end Schema

end GraphQL
