import GraphQL.Schema.Check

/-! # Lazy parts

A lazy part is computed when it is first read. If that fails, it is never tried again.
-/

namespace GraphQL

/-- A part that is computed at most once; `count` says how often that was tried. -/
inductive LazyPart (α : Type) where
  | evaluated (value : α) (count : Nat)
  | pending (result : Except String α)
  | failed
deriving Inhabited

namespace LazyPart

variable {α : Type}

def given (value : α) : LazyPart α := .evaluated value 0

/-- The message when a part is read after its computation failed. -/
def failedBefore : String := "schema thunk initializer panicked earlier"

def isEvaluated : LazyPart α → Bool
  | evaluated _ _ => true
  | _ => false

/-- How often the computation was run to its end. -/
def count : LazyPart α → Nat
  | evaluated _ n => n
  | _ => 0

/-- Reads the part: its value, or why there is none, and the part afterwards. -/
def read : LazyPart α → Except String α × LazyPart α
  | evaluated v n => (.ok v, evaluated v n)
  | pending (.ok v) => (.ok v, evaluated v 1)
  | pending (.error message) => (.error message, failed)
  | failed => (.error failedBefore, failed)

end LazyPart

/-- The look-ups that may read lazy parts of a schema. -/
inductive SchemaLookup where
  | field (type : String)
  | objectField (type : String)
  | inputField (type : String)
  | enumValue (type : String)
  | possibleTypes (type : String)
  | condition (name object : String)
  | problems

namespace Schema

variable {σ : Type} (schema : Schema σ)

/-- The name, if the type called so is of the right kind. -/
def nameIf (isKind : TypeDefinition σ → Bool) (name : String) : List String :=
  if (schema.type? name).any isKind then [name] else []

/-- The types whose fields, members or values a look-up reads. The members of a union decide about
its possible types. -/
def readBy : SchemaLookup → List String
  | .field name => schema.nameIf (fun t => t.isObject || t.isInterface) name
  | .objectField name => schema.nameIf (·.isObject) name
  | .inputField name => schema.nameIf (·.isInputObject) name
  | .enumValue name => schema.nameIf (·.isEnum) name
  | .possibleTypes name => schema.nameIf (·.isUnion) name
  | .condition name object => if name = object then [] else schema.nameIf (·.isUnion) name
  | .problems => schema.types.map (·.name)

/-- The types whose lazy part was not read by any look-up so far. -/
def unread (lookups : List SchemaLookup) : List String :=
  let read := lookups.flatMap schema.readBy
  ((schema.types.filter (·.isLazy)).map (·.name)).filter fun name => !read.contains name

end Schema

end GraphQL
