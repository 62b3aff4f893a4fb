import GraphQL.Source.Position

/-! # What validation finds

The problems of a document with their places, ordered by place and then by message.
-/

namespace GraphQL

inductive RuleProblem where
  | unknownFragment (name : String)
  | anonymousNotAlone
  | severalRootFields (operation : Option String)
  | introspectionRootField (operation : Option String)
  | repeatedLabel
  | labelNotStatic (directive : String)
  | repeatedOperation (name : String)
deriving DecidableEq, Repr, Inhabited

/-- How messages call a subscription. -/
def subscriptionTitle (name : Option String) : String :=
  match name with
  | some name => "Subscription \"" ++ name ++ "\""
  | none => "Anonymous Subscription"

def RuleProblem.message : RuleProblem → String
  | .unknownFragment name => "Unknown fragment \"" ++ name ++ "\"."
  | .anonymousNotAlone => "This anonymous operation must be the only defined operation."
  | .severalRootFields operation =>
    subscriptionTitle operation ++ " must select only one top level field."
  | .introspectionRootField operation =>
    subscriptionTitle operation ++ " must not select an introspection top level field."
  | .repeatedLabel => "Defer/Stream directive label argument must be unique."
  | .labelNotStatic directive =>
    "Argument \"@" ++ directive ++ "(label:)\" must be a static string."
  | .repeatedOperation name => "There can be only one operation named \"" ++ name ++ "\"."

structure RuleError where
  problem : RuleProblem
  locations : List Position
deriving DecidableEq, Repr, Inhabited

/-- Whether a list of positions comes before another one. -/
def positionsBefore : List Position → List Position → Bool
  | [], ps => !ps.isEmpty
  | _ :: _, [] => false
  | p :: ps, q :: qs => p.before q || (p == q && positionsBefore ps qs)

namespace RuleError

def message (e : RuleError) : String := e.problem.message

/-- The message and where the problem is. -/
def text (e : RuleError) : String :=
  e.message ++ " At " ++ ", ".intercalate (e.locations.map Position.text)

def le (a b : RuleError) : Bool :=
  positionsBefore a.locations b.locations
    || (a.locations == b.locations && a.message ≤ b.message)

/-- Errors by place and then by message. -/
def sorted (errors : List RuleError) : List RuleError := errors.mergeSort le

end RuleError

end GraphQL
