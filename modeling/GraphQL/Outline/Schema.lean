import GraphQL.Outline.Values
import GraphQL.Schema.Scalars

/-! # Outlines of schemas

Types are shown with their names, descriptions and kinds, and the parts of types one by one.
-/

namespace GraphQL

open Outline

variable {σ : Type}

/-- Whether something is deprecated, and why. -/
instance : Outlined Deprecation :=
  ⟨fun d => .array [outline d.isDeprecated, outline d.reason?]⟩

def TypeDefinition.url? : TypeDefinition σ → Option String
  | .scalar t => t.url
  | _ => none

/-- Composite, leaf, abstract, input, output and built-in, in this order. -/
def TypeDefinition.flags (t : TypeDefinition σ) : List Bool :=
  [t.isComposite, t.isLeaf, t.isAbstract, t.isInput, t.isOutput, t.isBuiltin]

instance : Outlined (TypeDefinition σ) where
  outline t := .object
    [member "name" t.name, member "kind" t.kindText, member "description" t.description,
      member "flags" t.flags, member "is_object" t.isObject, member "url" t.url?]

instance : Outlined InputDefinition where
  outline d := .object
    [member "name" d.name, member "type" d.type.text, member "description" d.description,
      member "is_required" d.isRequired, member "has_default" d.default.isSome,
      member "deprecation" d.deprecation]

instance : Outlined (FieldDefinition σ) where
  outline f := .object
    [member "name" f.name, member "type" f.type.text, member "description" f.description,
      member "args" f.arguments, member "has_resolver" f.resolve.isSome,
      member "deprecation" f.deprecation]

instance : Outlined EnumValue where
  outline v := .object
    [member "name" v.name, member "value" v.value, member "description" v.description,
      member "deprecation" v.deprecation]

instance : Outlined DirectiveDefinition where
  outline d := .object
    [member "name" d.name, member "description" d.description,
      member "locations" (d.locations.map (·.text)), member "args" d.arguments,
      member "is_repeatable" d.isRepeatable]

end GraphQL
