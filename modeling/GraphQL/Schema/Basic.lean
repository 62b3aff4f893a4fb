import GraphQL.Host.Callback

/-! # Types

The types a schema is made of. The parts of a type that mention other types may be given lazily: they
are then computed when they are first read.
-/

namespace GraphQL

/-- A part of a type, and whether it is computed only when it is read. -/
structure Component (α : Type) where
  value : α
  isLazy : Bool
deriving Inhabited

def Component.given {α : Type} (value : α) : Component α := ⟨value, false⟩

inductive Deprecation where
  | current
  | deprecated (reason : Option String)
deriving DecidableEq, Repr, Inhabited

def Deprecation.isDeprecated : Deprecation → Bool
  | .current => false
  | .deprecated _ => true

def Deprecation.reason? : Deprecation → Option String
  | .current => none
  | .deprecated reason => reason

/-- The default of an argument or input field: a value as a client would send it, or a literal. -/
inductive Default where
  | value (v : Value)
  | literal (l : Literal)
deriving Inhabited

/-- An argument of a field or directive, or a field of an input object. -/
structure InputDefinition where
  name : String
  description : Option String := none
  type : TypeRef
  default : Option Default := none
  deprecation : Deprecation := .current
deriving Inhabited

/-- Whether a value must be given. -/
def InputDefinition.isRequired (d : InputDefinition) : Bool := d.type.isNonNull && d.default.isNone

structure FieldDefinition (σ : Type) where
  name : String
  description : Option String := none
  arguments : List InputDefinition := []
  type : TypeRef
  deprecation : Deprecation := .current
  resolve : Option (FieldResolver σ) := none
  subscribe : Option (Subscriber σ) := none

/-- A scalar says how leaves are written to responses and read from inputs. Without a reader of
literals, literals are read as the inputs they amount to. -/
structure ScalarType where
  name : String
  description : Option String := none
  url : Option String := none
  output : Value → Except FieldError Value := .ok
  input : Value → Except FieldError Value := .ok
  literal : Option (Literal → Except FieldError Value) := none
  toLiteral : Option (Value → Option Literal) := none

structure ObjectType (σ : Type) where
  name : String
  description : Option String := none
  fields : Component (List (FieldDefinition σ))
  interfaces : Component (List String) := .given []
  isTypeOf : Option (MembershipCheck σ) := none

structure InterfaceType (σ : Type) where
  name : String
  description : Option String := none
  fields : Component (List (FieldDefinition σ))
  interfaces : Component (List String) := .given []
  resolveType : Option (TypeResolver σ) := none

structure UnionType (σ : Type) where
  name : String
  description : Option String := none
  members : Component (List String)
  resolveType : Option (TypeResolver σ) := none

/-- A value of an enum: its name, and what callbacks see in its place. -/
structure EnumValue where
  name : String
  description : Option String := none
  value : Value
  deprecation : Deprecation := .current
deriving Inhabited

structure EnumType where
  name : String
  description : Option String := none
  values : Component (List EnumValue)

structure InputObjectType where
  name : String
  description : Option String := none
  fields : Component (List InputDefinition)
  /-- Whether exactly one field must be given. -/
  isOneOf : Bool := false

inductive TypeDefinition (σ : Type) where
  | scalar (t : ScalarType)
  | object (t : ObjectType σ)
  | interface (t : InterfaceType σ)
  | union (t : UnionType σ)
  | enum (t : EnumType)
  | inputObject (t : InputObjectType)

section

variable {σ : Type}

def ObjectType.field? (t : ObjectType σ) (name : String) : Option (FieldDefinition σ) :=
  t.fields.value.find? (·.name = name)

/-- Whether the type says that it implements an interface. -/
def ObjectType.implements (t : ObjectType σ) (interface : String) : Bool :=
  t.interfaces.value.any (· = interface)

/-- The value that is called `name`. -/
def EnumType.named? (t : EnumType) (name : String) : Option EnumValue :=
  t.values.value.find? (·.name = name)

/-- The value that callbacks see as `v`. -/
def EnumType.seenAs? (t : EnumType) (v : Value) : Option EnumValue :=
  t.values.value.find? (·.value == v)

def InputObjectType.field? (t : InputObjectType) (name : String) : Option InputDefinition :=
  t.fields.value.find? (·.name = name)

namespace TypeDefinition

def name : TypeDefinition σ → String
  | scalar t => t.name
  | object t => t.name
  | interface t => t.name
  | union t => t.name
  | enum t => t.name
  | inputObject t => t.name

def description : TypeDefinition σ → Option String
  | scalar t => t.description
  | object t => t.description
  | interface t => t.description
  | union t => t.description
  | enum t => t.description
  | inputObject t => t.description

def kindText : TypeDefinition σ → String
  | scalar _ => "SCALAR"
  | object _ => "OBJECT"
  | interface _ => "INTERFACE"
  | union _ => "UNION"
  | enum _ => "ENUM"
  | inputObject _ => "INPUT_OBJECT"

/-- The field of an object or interface called `name`. -/
def field? (name : String) : TypeDefinition σ → Option (FieldDefinition σ)
  | object t => t.fields.value.find? (·.name = name)
  | interface t => t.fields.value.find? (·.name = name)
  | _ => none

/-- The field of an input object called `name`. -/
def inputField? (name : String) : TypeDefinition σ → Option InputDefinition
  | inputObject t => t.field? name
  | _ => none

def isComposite : TypeDefinition σ → Bool
  | object _ => true
  | interface _ => true
  | union _ => true
  | _ => false

def isLeaf : TypeDefinition σ → Bool
  | scalar _ => true
  | enum _ => true
  | _ => false

def isAbstract : TypeDefinition σ → Bool
  | interface _ => true
  | union _ => true
  | _ => false

def isInput : TypeDefinition σ → Bool
  | scalar _ => true
  | enum _ => true
  | inputObject _ => true
  | _ => false

def isOutput : TypeDefinition σ → Bool
  | inputObject _ => false
  | _ => true

def isObject : TypeDefinition σ → Bool
  | object _ => true
  | _ => false

def isInterface : TypeDefinition σ → Bool
  | interface _ => true
  | _ => false

def isUnion : TypeDefinition σ → Bool
  | union _ => true
  | _ => false

def isEnum : TypeDefinition σ → Bool
  | enum _ => true
  | _ => false

def isInputObject : TypeDefinition σ → Bool
  | inputObject _ => true
  | _ => false

def object? : TypeDefinition σ → Option (ObjectType σ)
  | object t => some t
  | _ => none

/-- Whether the part of the type that lists its fields, members or values is lazy. -/
def isLazy : TypeDefinition σ → Bool
  | scalar _ => false
  | object t => t.fields.isLazy
  | interface t => t.fields.isLazy
  | union t => t.members.isLazy
  | enum t => t.values.isLazy
  | inputObject t => t.fields.isLazy

end TypeDefinition

end

inductive DirectiveLocation where
  | query
  | mutation
  | subscription
  | field
  | fragmentDefinition
  | fragmentSpread
  | inlineFragment
  | variableDefinition
  | scalar
  | fieldDefinition
  | argumentDefinition
  | enumValue
  | inputObject
  | inputFieldDefinition
deriving DecidableEq, Repr, Inhabited

namespace DirectiveLocation

def text : DirectiveLocation → String
  | query => "QUERY"
  | mutation => "MUTATION"
  | subscription => "SUBSCRIPTION"
  | field => "FIELD"
  | fragmentDefinition => "FRAGMENT_DEFINITION"
  | fragmentSpread => "FRAGMENT_SPREAD"
  | inlineFragment => "INLINE_FRAGMENT"
  | variableDefinition => "VARIABLE_DEFINITION"
  | scalar => "SCALAR"
  | fieldDefinition => "FIELD_DEFINITION"
  | argumentDefinition => "ARGUMENT_DEFINITION"
  | enumValue => "ENUM_VALUE"
  | inputObject => "INPUT_OBJECT"
  | inputFieldDefinition => "INPUT_FIELD_DEFINITION"

def all : List DirectiveLocation :=
  [query, mutation, subscription, field, fragmentDefinition, fragmentSpread, inlineFragment,
    variableDefinition, scalar, fieldDefinition, argumentDefinition, enumValue, inputObject,
    inputFieldDefinition]

def ofText? (s : String) : Option DirectiveLocation := all.find? (·.text = s)

end DirectiveLocation

structure DirectiveDefinition where
  name : String
  description : Option String := none
  locations : List DirectiveLocation
  arguments : List InputDefinition
  isRepeatable : Bool := false
deriving Inhabited

end GraphQL
