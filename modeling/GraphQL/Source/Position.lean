/-! # Positions, spans and located items

Positions count characters from zero: the offset in the source, the line, and the column in
the line. Only a line feed starts a line. People read them one-based, as `line:column`.
-/

namespace GraphQL

/-- A place between two characters of a source. -/
structure Position where
  index : Nat
  line : Nat
  column : Nat
deriving DecidableEq, Repr, Inhabited

namespace Position

def origin : Position := ⟨0, 0, 0⟩

/-- One character further on the same line. -/
def nextColumn (p : Position) : Position := ⟨p.index + 1, p.line, p.column + 1⟩

/-- Past a line feed. -/
def nextLine (p : Position) : Position := ⟨p.index + 1, p.line + 1, 0⟩

/-- Past the character `c`. -/
def after (p : Position) (c : Char) : Position :=
  if c = '\n' then p.nextLine else p.nextColumn

/-- Past all of `text`. -/
def afterAll (p : Position) (text : List Char) : Position := text.foldl after p

@[simp] theorem afterAll_nil (p : Position) : p.afterAll [] = p := rfl

@[simp] theorem afterAll_cons (p : Position) (c : Char) (text : List Char) :
    p.afterAll (c :: text) = (p.after c).afterAll text := rfl

/-- The one-based form in messages. -/
def text (p : Position) : String := s!"{p.line + 1}:{p.column + 1}"

/-- Source order: by offset, then line, then column. -/
def before (p q : Position) : Bool :=
  p.index < q.index ||
    (p.index == q.index && (p.line < q.line || (p.line == q.line && p.column < q.column)))

end Position

/-- The part of a source from `start` up to `stop`, which is the first position past it. -/
structure Span where
  start : Position
  stop : Position
deriving DecidableEq, Repr, Inhabited

/-- The span of what was made and not read from a source. -/
def Span.nowhere : Span := ⟨.origin, .origin⟩

/-- An item and the part of the source it was read from. -/
structure Located (α : Type) where
  item : α
  span : Span
deriving DecidableEq, Repr, Inhabited

namespace Located

variable {α β : Type}

/-- An item at a single position. -/
def atPoint (p : Position) (item : α) : Located α := ⟨item, p, p⟩

/-- An item that comes from no source. -/
def nowhere (item : α) : Located α := ⟨item, .nowhere⟩

def map (f : α → β) (x : Located α) : Located β := ⟨f x.item, x.span⟩

def start (x : Located α) : Position := x.span.start

def stop (x : Located α) : Position := x.span.stop

/-- A message about an item and where it is. -/
def report (message : α → String) (x : Located α) : String :=
  message x.item ++ ". At " ++ x.start.text

end Located

end GraphQL
