import GraphQL.Schema.Scalars
import GraphQL.Schema.Directives
import GraphQL.Schema.Problem

/-! # Schemas

A schema is built from declared types and directives. It has the built-in scalars that were not
declared, after the declared types, and the built-in directives, before the declared ones. No two
types and no two directives of it have one name.
-/

namespace GraphQL

/-- What a schema is built from. -/
structure SchemaDeclaration (σ : Type) where
  description : Option String := none
  query : String
  mutation : Option String := none
  subscription : Option String := none
  types : List (TypeDefinition σ)
  directives : List DirectiveDefinition := []

structure Schema (σ : Type) where
  description : Option String
  queryType : String
  mutationType : Option String
  subscriptionType : Option String
  types : List (TypeDefinition σ)
  directives : List DirectiveDefinition
  types_nodup : (types.map (·.name)).Nodup
  directives_nodup : (directives.map (·.name)).Nodup

/-- The first name that stands in the list once more before. -/
def firstRepeated (names : List String) : Option String :=
  (names.zipIdx.find? fun (name, i) => (names.take i).contains name).map Prod.fst

theorem nodup_of_firstRepeated {names : List String} (h : firstRepeated names = none) :
    names.Nodup := by
  simp only [firstRepeated, Option.map_eq_none_iff, List.find?_eq_none] at h
  rw [List.nodup_iff_pairwise_ne, List.pairwise_iff_getElem]
  intro i j hi hj hij heq
  have hmem : (names[j], j) ∈ names.zipIdx := by
    rw [List.mk_mem_zipIdx_iff_getElem?]
    exact List.getElem?_eq_getElem hj
  apply h _ hmem
  simp only [List.contains_iff_mem]
  rw [← heq, List.mem_take_iff_getElem]
  exact ⟨i, by omega, rfl⟩

section

variable {σ : Type}

/-- The built-in scalars that are not declared. -/
def undeclaredScalars (types : List (TypeDefinition σ)) : List (TypeDefinition σ) :=
  (ScalarType.builtins.filter fun t => !(types.map (·.name)).contains t.name).map .scalar

theorem builtins_names_nodup : (ScalarType.builtins.map (·.name)).Nodup := by decide

theorem nodup_append_undeclaredScalars {types : List (TypeDefinition σ)}
    (h : (types.map (·.name)).Nodup) :
    ((types ++ undeclaredScalars types).map (·.name)).Nodup := by
  rw [List.map_append, List.nodup_append]
  refine ⟨h, ?_, ?_⟩
  · have hsub : ((undeclaredScalars types).map (·.name)).Sublist
        (ScalarType.builtins.map (·.name)) := by
      simp only [undeclaredScalars, List.map_map]
      exact List.Sublist.map _ List.filter_sublist
    exact hsub.nodup builtins_names_nodup
  · intro a ha b hb heq
    subst heq
    simp only [undeclaredScalars, List.map_map, List.mem_map, List.mem_filter,
      Function.comp] at hb
    obtain ⟨t, ⟨-, ht⟩, rfl⟩ := hb
    simp only [Bool.not_eq_true', List.contains_eq_mem, decide_eq_false_iff_not] at ht
    exact ht ha

/-- Builds a schema, unless two types or two directives have one name. -/
def Schema.build (d : SchemaDeclaration σ) : Except SchemaError (Schema σ) :=
  match hTypes : firstRepeated (d.types.map (·.name)) with
  | some name => .error (.duplicateType name)
  | none =>
    let directives := DirectiveDefinition.builtins ++ d.directives
    match hDirectives : firstRepeated (directives.map (·.name)) with
    | some name => .error (.duplicateDirective name)
    | none => .ok {
        description := d.description
        queryType := d.query
        mutationType := d.mutation
        subscriptionType := d.subscription
        types := d.types ++ undeclaredScalars d.types
        directives
        types_nodup := nodup_append_undeclaredScalars (nodup_of_firstRepeated hTypes)
        directives_nodup := nodup_of_firstRepeated hDirectives }

namespace Schema

variable (schema : Schema σ)

def type? (name : String) : Option (TypeDefinition σ) := schema.types.find? (·.name = name)

def object? (name : String) : Option (ObjectType σ) := (schema.type? name).bind (·.object?)

def directive? (name : String) : Option DirectiveDefinition :=
  schema.directives.find? (·.name = name)

/-- The object types, in order. -/
def objects : List (ObjectType σ) := schema.types.filterMap (·.object?)

/-- The name given for the root type of a kind of operation. -/
def rootName? : OperationKind → Option String
  | .query => some schema.queryType
  | .mutation => schema.mutationType
  | .subscription => schema.subscriptionType

/-- The object type that operations of a kind start from. -/
def root? (kind : OperationKind) : Option (ObjectType σ) :=
  (schema.rootName? kind).bind schema.object?

/-- A type reference whose innermost type is known. -/
def knows (t : TypeRef) : Bool := (schema.type? t.innermost).isSome

/-- The object types that values of a type may have: the members of a union, or what implements an
interface, as often as it says so. -/
def possibleTypes : TypeDefinition σ → List (ObjectType σ)
  | .union t => t.members.value.filterMap schema.object?
  | .interface t => schema.objects.flatMap fun o =>
      (o.interfaces.value.filter (· = t.name)).map fun _ => o
  | .object t => [t]
  | _ => []

/-- Whether values of a type may have the object type called `name`. -/
def isPossibleType (t : TypeDefinition σ) (name : String) : Bool :=
  match t with
  | .union t => t.members.value.any (· = name)
  | .interface t => schema.objects.any fun o => o.name = name && o.implements t.name
  | .object t => t.name = name
  | _ => false

/-- Whether a fragment on the type called `condition` applies to objects of a type. -/
def conditionApplies (condition : String) (object : ObjectType σ) : Bool :=
  condition = object.name ||
    match schema.type? condition with
    | some t => t.isAbstract && schema.isPossibleType t object.name
    | none => false

end Schema

end

end GraphQL
