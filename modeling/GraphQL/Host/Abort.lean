/-! # Aborting a request

The host may abort a request, once and for all, and may say why. The first reason that is given
stays. A controller that was dropped aborts nothing any more.
-/

namespace GraphQL

structure Controller where
  aborted : Bool
  given : Option String
  dropped : Bool
deriving DecidableEq, Repr, Inhabited

/-- What a signal shows. -/
structure Signal where
  isAborted : Bool
  reason : String
deriving DecidableEq, Repr, Inhabited

/-- The reason when none was given. -/
def defaultReason : String := "This operation was aborted"

/-- The signal that no one can trigger. -/
def Signal.never : Signal := ⟨false, defaultReason⟩

namespace Controller

def new : Controller := ⟨false, none, false⟩

/-- Aborts, with a reason or without. -/
def abort (c : Controller) (reason : Option String) : Controller :=
  if c.dropped then c else { c with aborted := true, given := c.given <|> reason }

def drop (c : Controller) : Controller := { c with dropped := true }

def signal (c : Controller) : Signal := ⟨c.aborted, c.given.getD defaultReason⟩

end Controller

end GraphQL
