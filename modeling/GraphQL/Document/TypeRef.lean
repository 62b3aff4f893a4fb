/-! # Type references

The types of variables, fields and arguments, as written: a name or a list, which may be non-null.
A non-null type is never made non-null again.
-/

namespace GraphQL

inductive TypeRef where
  | named (name : String)
  | list (item : TypeRef)
  | nonNullNamed (name : String)
  | nonNullList (item : TypeRef)
deriving DecidableEq, Repr, Inhabited

namespace TypeRef

/-- The same type without null. -/
def nonNull : TypeRef → TypeRef
  | named n => nonNullNamed n
  | list t => nonNullList t
  | t => t

/-- The same type with null. -/
def nullable : TypeRef → TypeRef
  | nonNullNamed n => named n
  | nonNullList t => list t
  | t => t

/-- The name of a type that is not a list. -/
def name? : TypeRef → Option String
  | named n => some n
  | nonNullNamed n => some n
  | _ => none

/-- The name inside all lists. -/
def innermost : TypeRef → String
  | named n => n
  | nonNullNamed n => n
  | list t => t.innermost
  | nonNullList t => t.innermost

def item? : TypeRef → Option TypeRef
  | list t => some t
  | nonNullList t => some t
  | _ => none

def isNonNull : TypeRef → Bool
  | nonNullNamed _ => true
  | nonNullList _ => true
  | _ => false

def text : TypeRef → String
  | named n => n
  | nonNullNamed n => n ++ "!"
  | list t => "[" ++ t.text ++ "]"
  | nonNullList t => "[" ++ t.text ++ "]!"

end TypeRef

end GraphQL
