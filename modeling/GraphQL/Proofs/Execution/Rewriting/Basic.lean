import GraphQL.Execution.Request

/-! # Changes of documents

A document whose operations and fragments are changed, but not what operations are called and which
variables they declare, is prepared like the document from before.
-/

namespace GraphQL

variable {σ : Type}

structure Rewriting where
  operation : Operation → Operation
  fragment : Fragment → Fragment
  kind : ∀ o, (operation o).kind = o.kind
  name : ∀ o, (operation o).name = o.name
  declares : ∀ o, (operation o).variableDefinitions = o.variableDefinitions

namespace Document

variable (t : Rewriting)

def rewrite (d : Document) : Document := d.map fun
  | .operation o => .operation (t.operation o)
  | .fragment f => .fragment (t.fragment f)

theorem operations_rewrite (d : Document) : (d.rewrite t).operations = d.operations.map t.operation := by
  unfold operations rewrite
  rw [List.filterMap_map, List.map_filterMap]
  congr 1
  funext definition
  cases definition <;> rfl

theorem fragments_rewrite (d : Document) : (d.rewrite t).fragments = d.fragments.map t.fragment := by
  unfold fragments rewrite
  rw [List.filterMap_map, List.map_filterMap]
  congr 1
  funext definition
  cases definition <;> rfl

theorem chooseOperation_rewrite (d : Document) (name : Option String) :
    (d.rewrite t).chooseOperation name = (d.chooseOperation name).map t.operation := by
  unfold chooseOperation
  rw [operations_rewrite]
  cases name with
  | none => rcases d.operations with _ | ⟨o, _ | ⟨o', rest⟩⟩ <;> rfl
  | some name =>
    have hname : ((fun o : Operation => decide (o.name? = some name)) ∘ t.operation) =
        fun o => decide (o.name? = some name) := by
      funext o
      exact decide_eq_decide.mpr (by rw [Operation.name?, t.name, Operation.name?])
    dsimp only
    rw [← List.map_reverse, List.find?_map, hname]
    cases d.operations.reverse.find? fun o => decide (o.name? = some name) <;> rfl

end Document

def ExecutionContext.rewrite (t : Rewriting) (ctx : ExecutionContext σ) : ExecutionContext σ :=
  { ctx with
    operation := t.operation ctx.operation
    fragments := ctx.fragments.map t.fragment }

theorem prepare_rewrite (t : Rewriting) (r : Request σ) :
    ({ r with document := r.document.rewrite t } : Request σ).prepare =
      r.prepare.map fun prepared => (prepared.1.rewrite t, prepared.2) := by
  unfold Request.prepare
  dsimp only
  rw [Document.chooseOperation_rewrite, Document.fragments_rewrite]
  simp only [bind, Except.bind, pure, Except.pure, throw, throwThe, MonadExceptOf.throw]
  split
  · cases r.document.chooseOperation r.operationName with
    | error e => rfl
    | ok operation =>
      have hvariables : (t.operation operation).variableList = operation.variableList := by
        rw [Operation.variableList, t.declares, Operation.variableList]
      simp only [Except.map, t.kind, hvariables]
      cases r.schema.root? operation.kind with
      | none => rfl
      | some object =>
        dsimp only
        cases r.schema.coerceVariables operation.variableList r.variableValues
          r.variableErrorLimit <;> rfl
  · rfl

end GraphQL
