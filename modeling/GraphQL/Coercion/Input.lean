import GraphQL.Coercion.Problem
import GraphQL.Schema.Build

/-! # Coercing external values

A value from outside, such as the value of a variable, becomes a value of the type that is expected.
All problems are found, each with its place in the value.
-/

namespace GraphQL

/-- A coerced value and what was wrong with it. With problems the value means nothing. -/
structure Checked where
  value : Value
  errors : List CoercionError
deriving Inhabited

namespace Checked

def accepted (v : Value) : Checked := ⟨v, []⟩

def refused (problem : CoercionProblem) (v : Value) : Checked :=
  ⟨.null, [{ problem, value := some v }]⟩

/-- The error that counts where only one does. Where there is no end, nothing else is found. -/
def refusal? (c : Checked) : Option CoercionError :=
  (c.errors.find? (·.isEndless)).or c.errors.head?

/-- A list of checked items. -/
def ofItems (items : List Checked) : Checked where
  value := .list (items.map (·.value))
  errors := items.zipIdx.flatMap fun (c, i) => c.errors.map (·.below (.index i))

/-- A value inside `n` lists of one item. -/
def nested (n : Nat) (c : Checked) : Checked := n.repeat (fun c => { c with value := .list [c.value] }) c

def toExcept (c : Checked) : Except (List CoercionError) Value :=
  if c.errors.isEmpty then .ok c.value else .error c.errors

end Checked

/-- How many lists a type is inside of. -/
def TypeRef.listDepth : TypeRef → Nat
  | named _ => 0
  | nonNullNamed _ => 0
  | list t => t.listDepth + 1
  | nonNullList t => t.listDepth + 1

/-- How the default of a field is coerced. -/
abbrev DefaultCoercion := Default → TypeRef → Except CoercionError Value

section

variable {σ : Type} (schema : Schema σ) (defaultOf : DefaultCoercion)

def EnumType.input (t : EnumType) (v : Value) : Checked :=
  match v.string? with
  | none => .refused (.enumNotString t.name v) v
  | some name =>
    match t.named? name with
    | some found => .accepted found.value
    | none => .refused (.unknownEnumValue t.name name) v

/-- Exactly one field of a one-of object is given, and it is not null. -/
def oneOfErrors (t : InputObjectType) (fields : Object) : List CoercionProblem :=
  match fields with
  | [(key, v)] => if v.isNull then [.nullInOneOf key] else []
  | _ => [.notExactlyOne t.name]

/-- One field of an input object, if it has a value. `members` are the fields given for the object
`v`, each as a function of the type it is expected to have. -/
def InputDefinition.inputOf (members : Entries (TypeRef → Checked)) (v : Value)
    (d : InputDefinition) : Option Value × List CoercionError :=
  match members.get? d.name with
  | some member =>
    let c := member d.type
    (some c.value, c.errors.map (·.below (.key d.name)))
  | none =>
    match d.default with
    | some given =>
      match defaultOf given d.type with
      | .ok coerced => (some coerced, [])
      | .error e => (none, [{ problem := e.problem, value := some v }])
    | none =>
      if d.type.isNonNull then
        (none, [{ problem := .missingField d.name d.type, value := some v }])
      else (none, [])

def InputObjectType.input (t : InputObjectType) (members : Entries (TypeRef → Checked))
    (v : Value) : Checked :=
  match v with
  | .object fields =>
    let known := t.fields.value.map fun d => (d.name, d.inputOf defaultOf members v)
    let unknown := (Entries.keys fields).filter fun key => (t.field? key).isNone
    let problems := unknown.map (CoercionProblem.unknownField · t.name)
      ++ (if t.isOneOf then oneOfErrors t fields else [])
    { value := .object (Entries.ofList (known.filterMap fun (name, field) =>
        field.1.map fun coerced => (name, coerced)))
      errors := known.flatMap (fun (_, field) => field.2)
        ++ problems.map fun problem => { problem, value := some v } }
  | _ => .refused (.notAnObject t.name) v

/-- The value `v`, which is not null, as a value of the type called `name`. -/
def inputNamed (members : Entries (TypeRef → Checked)) (v : Value) (name : String) : Checked :=
  match schema.type? name with
  | some (.scalar t) =>
    match t.input v with
    | .ok coerced => .accepted coerced
    | .error e => .refused (.refusedByScalar e.message) v
  | some (.enum t) => t.input v
  | some (.inputObject t) => t.input defaultOf members v
  | _ => .refused (.notInputType name) v

mutual

/-- A value as a value of the expected type. A value that is no list stands for a list of it. -/
def inputAs : Value → TypeRef → Checked
  | .null, t => if t.isNonNull then .refused (.null t) .null else .accepted .null
  | .list items, t =>
    match t.item? with
    | some item => .ofItems ((inputItems items).map (· item))
    | none => inputNamed schema defaultOf [] (.list items) t.innermost
  | .object fields, t =>
    (inputNamed schema defaultOf (inputMembers fields) (.object fields) t.innermost).nested
      t.listDepth
  | .scalar s, t =>
    (inputNamed schema defaultOf [] (.scalar s) t.innermost).nested t.listDepth

def inputItems : List Value → List (TypeRef → Checked)
  | [] => []
  | v :: rest => (fun t => inputAs v t) :: inputItems rest

def inputMembers : List (String × Value) → Entries (TypeRef → Checked)
  | [] => []
  | (key, v) :: rest => (key, fun t => inputAs v t) :: inputMembers rest

end

end

end GraphQL
