import GraphQL.Proofs.Execution.Rewriting.Basic

/-! # Documents without incremental delivery

The document that is left when all `@defer` and `@stream` are deleted asks for the same data, all at
once.
-/

namespace GraphQL

variable {σ : Type}

/-- Whether a directive delays a part of the response. -/
def Directive.isDelaying (d : Directive) : Bool := d.name.item = "defer" || d.name.item = "stream"

def plainDirectives (directives : List (Located Directive)) : List (Located Directive) :=
  directives.filter fun d => !d.item.isDelaying

def FieldHead.plain (head : FieldHead) : FieldHead :=
  { head with directives := plainDirectives head.directives }

def Spread.plain (spread : Spread) : Spread :=
  { spread with directives := plainDirectives spread.directives }

def InlineHead.plain (head : InlineHead) : InlineHead :=
  { head with directives := plainDirectives head.directives }

namespace Selection

mutual

/-- The selection without `@defer` and `@stream`, at any depth. -/
def plain : Selection → Selection
  | field span head selections => field span head.plain (plainAll selections)
  | spread span s => spread span s.plain
  | inline span head selections => inline span head.plain (plainAll selections)

def plainAll : List Selection → List Selection
  | [] => []
  | selection :: rest => selection.plain :: plainAll rest

end

theorem plainAll_eq (selections : List Selection) : plainAll selections = selections.map plain := by
  induction selections with
  | nil => rfl
  | cons selection rest ih => simp [plainAll, ih]

end Selection

def Operation.plain (o : Operation) : Operation :=
  { o with
    directives := plainDirectives o.directives
    selections := Selection.plainAll o.selections }

def Fragment.plain (f : Fragment) : Fragment :=
  { f with
    directives := plainDirectives f.directives
    selections := Selection.plainAll f.selections }

/-- The same document with every `@defer` and `@stream` deleted. -/
def Document.plain (d : Document) : Document := d.map fun
  | .operation o => .operation o.plain
  | .fragment f => .fragment f.plain

def Request.plain (r : Request σ) : Request σ := { r with document := r.document.plain }

def ExecutionContext.plain (ctx : ExecutionContext σ) : ExecutionContext σ :=
  { ctx with
    operation := ctx.operation.plain
    fragments := ctx.fragments.map Fragment.plain }

def FieldNode.plain (node : FieldNode) : FieldNode :=
  { node with
    toFieldHead := node.toFieldHead.plain
    selections := Selection.plainAll node.selections }

def FieldUse.plain (use : FieldUse) : FieldUse := { use with node := use.node.plain }

/-! ## Directives -/

theorem findDirective_plain {name : String} (hdefer : name ≠ "defer") (hstream : name ≠ "stream")
    (directives : List (Located Directive)) :
    findDirective (plainDirectives directives) name = findDirective directives name := by
  unfold findDirective plainDirectives
  rw [List.find?_filter]
  congr 1
  funext d
  by_cases h : d.item.name.item = name
  · subst h
    simp [Directive.isDelaying, hdefer, hstream]
  · simp [h]

/-! ## Preparing -/

/-- Deleting `@defer` and `@stream` is a change of operations and fragments. -/
def plainly : Rewriting where
  operation := Operation.plain
  fragment := Fragment.plain
  kind _ := rfl
  name _ := rfl
  declares _ := rfl

theorem prepare_plain (r : Request σ) :
    r.plain.prepare = r.prepare.map fun prepared => (prepared.1.plain, prepared.2) :=
  prepare_rewrite plainly r

theorem findFragment_map {f : Fragment → Fragment} (hname : ∀ g, (f g).name = g.name)
    (fragments : List Fragment) (name : String) :
    findFragment (fragments.map f) name = (findFragment fragments name).map f := by
  unfold findFragment
  rw [← List.map_reverse, List.find?_map]
  congr 2
  funext g
  simp [hname]

theorem findFragment_plain (fragments : List Fragment) (name : String) :
    findFragment (fragments.map Fragment.plain) name =
      (findFragment fragments name).map Fragment.plain :=
  findFragment_map (f := Fragment.plain) (fun _ => rfl) fragments name

end GraphQL
