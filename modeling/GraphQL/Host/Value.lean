import GraphQL.Host.FieldError

/-! # Values of the host

What resolvers answer: plain data, lists of answers, lists whose items arrive over time, and objects
that only the host can look into. Any of them may be tagged with the name of its object type.
-/

namespace GraphQL

mutual

inductive HostValue where
  | null
  | data (v : Value)
  | list (items : List HostValue)
  /-- Items that arrive over time. The identity tells copies of one stream from other streams: only
  the first copy that is read yields the items. -/
  | stream (identity : Nat) (events : List Event)
  /-- An object of the host, which only its own callbacks look into. -/
  | opaqueObject (content : Value)
  | tagged (type : String) (v : HostValue)

/-- An item of a stream or an error in its place, with how often the stream has to be asked in
vain before. -/
inductive Event where
  | item (delay : Nat) (v : HostValue)
  | failure (delay : Nat) (error : FieldError)

end

instance : Inhabited HostValue := ⟨.null⟩

instance : Inhabited Event := ⟨.item 0 .null⟩

def Event.delay : Event → Nat
  | .item n _ => n
  | .failure n _ => n

def Event.result : Event → Except FieldError HostValue
  | .item _ v => .ok v
  | .failure _ e => .error e

namespace HostValue

/-- The value below all tags. -/
def untagged : HostValue → HostValue
  | tagged _ v => v.untagged
  | v => v

/-- The outermost tag. -/
def typeName? : HostValue → Option String
  | tagged t _ => some t
  | _ => none

def isNull : HostValue → Bool
  | null => true
  | data .null => true
  | tagged _ v => v.isNull
  | _ => false

/-- The data, if this is data. -/
def data? (v : HostValue) : Option Value :=
  match v.untagged with
  | data d => some d
  | _ => none

/-- What the host put into an object of its own. -/
def content? (v : HostValue) : Option Value :=
  match v.untagged with
  | opaqueObject c => some c
  | _ => none

/-- The field of data that is an object. -/
def dataField? (v : HostValue) (key : String) : Option Value := do
  let o ← (← v.data?).object?
  Entries.get? key o

/-- The field of an object, be it data or an object of the host. -/
def field? (v : HostValue) (key : String) : Option Value := do
  let o ← (← v.content? <|> v.data?).object?
  Entries.get? key o

mutual

/-- The data that a value amounts to, if nothing in it belongs to the host or is yet to come. -/
def toData : HostValue → Option Value
  | null => some .null
  | data v => some v
  | list items => (itemsToData items).map .list
  | tagged _ v => v.toData
  | _ => none

def itemsToData : List HostValue → Option (List Value)
  | [] => some []
  | v :: rest => do
    let d ← v.toData
    let ds ← itemsToData rest
    return d :: ds

end

mutual

def text : HostValue → String
  | null => "null"
  | data v => v.text
  | list items => bracketedText (itemTexts items)
  | stream _ _ => "<stream>"
  | opaqueObject _ => "<object>"
  | tagged _ v => v.text

def itemTexts : List HostValue → List String
  | [] => []
  | v :: rest => v.text :: itemTexts rest

end

/-- The items of a list, or the stream they come from. -/
inductive Items where
  | ready (items : List HostValue)
  | stream (identity : Nat) (events : List Event)

/-- The items, if this is a list in any form. -/
def items? : HostValue → Option Items
  | list items => some (.ready items)
  | data (.list items) => some (.ready (items.map .data))
  | stream identity events => some (.stream identity events)
  | tagged _ v => v.items?
  | _ => none

end HostValue

end GraphQL
