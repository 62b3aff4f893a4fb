import GraphQL.Execution.RequestError

/-! # Responses as JSON

Members that would be empty are left out, except for data. Positions count from one.
-/

namespace GraphQL

def Position.toJson (p : Position) : Json :=
  .object [("line", .int (p.line + 1)), ("column", .int (p.column + 1))]

def locationsToJson (locations : List Position) : Json := .array (locations.map Position.toJson)

def Object.toJson (o : Object) : Json := (Value.object o).toJson

def ExecutionError.toJson (e : ExecutionError) : Json :=
  .object <| [("message", .string e.message)]
    ++ (if e.locations.isEmpty then [] else [("locations", locationsToJson e.locations)])
    ++ (if e.path.isRoot then [] else [("path", e.path.toJson)])
    ++ (if e.error.extensions.isNull then [] else [("extensions", e.error.extensions.toJson)])

/-- The member with the errors, if there are any. -/
def errorMember (errors : List ExecutionError) : List (String × Json) :=
  if errors.isEmpty then [] else [("errors", .array (errors.map ExecutionError.toJson))]

def dataToJson (data : Option Object) : Json :=
  match data with
  | some o => Object.toJson o
  | none => .null

def ExecutionResult.toJson (r : ExecutionResult) : Json :=
  .object <| [("data", dataToJson r.data)] ++ errorMember r.errors
    ++ (match r.extensions with
      | some extensions => [("extensions", Object.toJson extensions)]
      | none => [])

def RuleError.toJson (e : RuleError) : Json :=
  .object [("message", .string e.message), ("locations", locationsToJson e.locations)]

def RequestError.toJson : RequestError → Json
  | .parse e =>
    .array [.object [("message", .string e.item.message), ("locations", locationsToJson [e.start])]]
  | .validation errors => .array (errors.map RuleError.toJson)
  | .invalidVariables errors => .array (errors.map ExecutionError.toJson)
  | e => .array [.object [("message", .string e.message)]]

def InitialResult.toJson (r : InitialResult) : Json :=
  .object <| [("data", Object.toJson r.data)] ++ errorMember r.errors ++ [("hasNext", .bool true)]

def PartContent.member : PartContent → String × Json
  | .fields data => ("data", dataToJson data)
  | .items values =>
    ("items", match values with
      | some values => (Value.list values).toJson
      | none => .null)

def Part.toJson (p : Part) : Json :=
  .object <| [p.content.member] ++ errorMember p.errors ++ [("path", p.path.toJson)]
    ++ (match p.label with
      | some label => [("label", .string label)]
      | none => [])

def Payload.toJson (p : Payload) : Json :=
  .object <| (if p.parts.isEmpty then [] else [("incremental", .array (p.parts.map Part.toJson))])
    ++ [("hasNext", .bool p.hasNext)]

end GraphQL
