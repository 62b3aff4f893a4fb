import GraphQL.Json.Basic

/-! # Response paths

A path grows from the root by response keys and list indexes. Each segment also has its ordinal,
its position among its siblings in the response, so that paths sort the way their values appear.
-/

namespace GraphQL

inductive Segment where
  | key (name : String)
  | index (n : Nat)
deriving DecidableEq, Repr, Inhabited

def Segment.text : Segment → String
  | .key name => name
  | .index n => toString n

def Segment.toJson : Segment → Json
  | .key name => .string name
  | .index n => .int n

inductive Path where
  | root
  | extend (parent : Path) (segment : Segment) (ordinal : Nat)
deriving Repr, Inhabited

namespace Path

/-- The path of the field with the response key `name`, the `ordinal`-th of the object here. -/
def key (p : Path) (name : String) (ordinal : Nat) : Path := p.extend (.key name) ordinal

/-- The path of the `n`-th item of the list here. -/
def index (p : Path) (n : Nat) : Path := p.extend (.index n) n

def length : Path → Nat
  | root => 0
  | extend p _ _ => p.length + 1

def isRoot : Path → Bool
  | root => true
  | _ => false

def last? : Path → Option Segment
  | root => none
  | extend _ s _ => some s

/-- The segments from the root. -/
def segments : Path → List Segment
  | root => []
  | extend p s _ => p.segments ++ [s]

/-- The ordinals from the root. -/
def ordinals : Path → List Nat
  | root => []
  | extend p _ n => p.ordinals ++ [n]

/-- Whether one list of ordinals comes before another or is the same. -/
def notAfter : List Nat → List Nat → Bool
  | [], _ => true
  | _ :: _, [] => false
  | m :: ms, n :: ns => m < n || (m == n && notAfter ms ns)

/-- Whether the segments are the same, whatever the ordinals. -/
def same : Path → Path → Bool
  | root, root => true
  | extend p s _, extend q t _ => p.length == q.length && s == t && p.same q
  | _, _ => false

/-- The path `n` segments up. -/
def ancestor (p : Path) : Nat → Path
  | 0 => p
  | n + 1 => match p with
    | root => root
    | extend q _ _ => q.ancestor n

/-- Whether `other` is this path or one above it. -/
def startsWith (p other : Path) : Bool :=
  other.length ≤ p.length && (p.ancestor (p.length - other.length)).same other

def text : Path → String
  | root => ""
  | extend p (.index n) _ => p.text ++ "[" ++ toString n ++ "]"
  | extend root (.key k) _ => k
  | extend p (.key k) _ => p.text ++ "." ++ k

def toJson (p : Path) : Json := .array (p.segments.map Segment.toJson)

/-- The path of a list of segments, each with its ordinal. -/
def ofSegments (segments : List (Segment × Nat)) : Path :=
  segments.foldl (fun p (s, n) => p.extend s n) root

end Path

end GraphQL
