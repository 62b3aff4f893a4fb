import GraphQL.Document.Literal
import GraphQL.Coercion.Scope

/-! # Literals and values without types

A literal can stand for a value, and a value can be written as a literal, without looking at any
type: enum values become strings, and whole numbers that are not 32 bits wide become floats.
-/

namespace GraphQL

mutual

/-- A value as a literal. -/
def Literal.ofValue : Value → Literal
  | .null => .null
  | .scalar (.int n) => .int n.toInt64
  | .scalar (.float x) => .float x
  | .scalar (.string s) => .string s
  | .scalar (.boolean b) => .boolean b
  | .list items => .list (ofItems items)
  | .object fields => .object (ofFields fields)

def Literal.ofItems : List Value → List (Located Literal)
  | [] => []
  | v :: rest => .nowhere (Literal.ofValue v) :: ofItems rest

def Literal.ofFields : List (String × Value) → List (Located String × Located Literal)
  | [] => []
  | (k, v) :: rest => (.nowhere k, .nowhere (Literal.ofValue v)) :: ofFields rest

end

namespace Literal

/-- Whether this is a variable without a value. -/
def isUnset (scope : Scope) : Literal → Bool
  | .variable name => scope.isUnset name
  | _ => false

mutual

/-- The literal with the values of its variables in their place. A variable without a value
becomes null, or nothing in an object. -/
def replaceVariables (scope : Scope) : Literal → Literal
  | .variable name => ((scope.get? name).map ofValue).getD .null
  | .list items => .list (replaceInItems scope items)
  | .object fields => .object (replaceInFields scope fields)
  | l => l

def replaceInItems (scope : Scope) : List (Located Literal) → List (Located Literal)
  | [] => []
  | ⟨l, span⟩ :: rest => ⟨replaceVariables scope l, span⟩ :: replaceInItems scope rest

def replaceInFields (scope : Scope) :
    List (Located String × Located Literal) → List (Located String × Located Literal)
  | [] => []
  | (key, ⟨l, span⟩) :: rest =>
    if l.isUnset scope then replaceInFields scope rest
    else (key, ⟨replaceVariables scope l, span⟩) :: replaceInFields scope rest

end

mutual

/-- The value that a literal stands for. -/
def toValue (scope : Scope) : Literal → Value
  | .null => .null
  | .int n => .scalar (.ofInt n.toInt)
  | .float x => .float x
  | .string s => .string s
  | .enum name => .string name
  | .boolean b => .boolean b
  | .variable name => (scope.get? name).getD .null
  | .list items => .list (itemsToValues scope items)
  | .object fields => .object (Entries.ofList (fieldsToValues scope fields))

def itemsToValues (scope : Scope) : List (Located Literal) → List Value
  | [] => []
  | ⟨l, _⟩ :: rest => toValue scope l :: itemsToValues scope rest

def fieldsToValues (scope : Scope) :
    List (Located String × Located Literal) → List (String × Value)
  | [] => []
  | (key, ⟨l, _⟩) :: rest =>
    if l.isUnset scope then fieldsToValues scope rest
    else (key.item, toValue scope l) :: fieldsToValues scope rest

end

end Literal

end GraphQL
