import GraphQL.Proofs.Execution.Collection.Inlining
import GraphQL.Proofs.Coercion.RenamedVariables
import GraphQL.Proofs.Execution.Rewriting.Requests

/-! # Collecting where a variable of a fragment has another name

In a document where a variable that a fragment declares is renamed, the fields are collected that were
collected before. Each has its own scope, which knows the same values by the new names.
-/

namespace GraphQL

variable {σ : Type}

/-! ## A fragment's variable with another name -/

/-- A variable of a fragment, by its old and its new name. -/
structure VariableRenaming where
  fragment : String
  old : String
  new : String

namespace VariableRenaming

variable (t : VariableRenaming)

def apply (name : String) : String := if name = t.old then t.new else name

/-- The new names of the variables of any fragment, of which only those of one fragment change. -/
def within (fragment : String) : String → String := if fragment = t.fragment then t.apply else id

theorem injOn_within (fragment : String) : Set.InjOn (t.within fragment) {name | name ≠ t.new} := by
  intro a ha b hb hab
  unfold within apply at hab
  split at hab
  · dsimp only at hab
    split at hab <;> split at hab
    · next hold hold' => rw [hold, hold']
    · exact absurd hab.symm hb
    · exact absurd hab ha
    · exact hab
  · exact hab

theorem of_within_ne {fragment name : String} (h : t.within fragment name ≠ name) :
    fragment = t.fragment ∧ name = t.old := by
  unfold within at h
  split at h
  · next hfragment => exact ⟨hfragment, by_contra fun hne => h (if_neg hne)⟩
  · exact absurd rfl h

end VariableRenaming

def Directive.renamed (vars : String → String) (d : Directive) : Directive :=
  { d with arguments := d.arguments.map (·.renamed id vars) }

def renamedDirectives (vars : String → String) (directives : List (Located Directive)) :
    List (Located Directive) := directives.map (Located.map (Directive.renamed vars))

def FieldHead.renamed (vars : String → String) (head : FieldHead) : FieldHead :=
  { head with
    arguments := head.arguments.map (·.renamed id vars)
    directives := renamedDirectives vars head.directives }

/-- The arguments of a spread have the names of the variables of its fragment. -/
def Spread.renamed (t : VariableRenaming) (vars : String → String) (spread : Spread) : Spread :=
  { spread with
    arguments := spread.arguments.map (·.renamed (t.within spread.name.item) vars)
    directives := renamedDirectives vars spread.directives }

def InlineHead.renamed (vars : String → String) (head : InlineHead) : InlineHead :=
  { head with directives := renamedDirectives vars head.directives }

namespace Selection

mutual

/-- A selection with other names for the variables in scope, and for the arguments of spreads. -/
def renamed (t : VariableRenaming) (vars : String → String) : Selection → Selection
  | .field span head selections => .field span (head.renamed vars) (renamedAll t vars selections)
  | .spread span s => .spread span (s.renamed t vars)
  | .inline span head selections => .inline span (head.renamed vars) (renamedAll t vars selections)

def renamedAll (t : VariableRenaming) (vars : String → String) : List Selection → List Selection
  | [] => []
  | selection :: rest => renamed t vars selection :: renamedAll t vars rest

end

end Selection

namespace VariableRenaming

variable (t : VariableRenaming)

def renamedOperation (o : Operation) : Operation :=
  { o with selections := Selection.renamedAll t id o.selections }

def renamedFragment (f : Fragment) : Fragment :=
  { f with
    variableDefinitions := f.variableDefinitions.map
      (Located.map (List.map (VariableDefinition.renamed (t.within f.name.item))))
    selections := Selection.renamedAll t (t.within f.name.item) f.selections }

def rewriting : Rewriting where
  operation := t.renamedOperation
  fragment := t.renamedFragment
  kind _ := rfl
  name _ := rfl
  declares _ := rfl

end VariableRenaming

/-! ## The names of variables in a document -/

/-- The names of the variables in the arguments of directives. -/
def namesInDirectives (directives : List (Located Directive)) : List String :=
  directives.flatMap fun d => (d.item.arguments.map Arguments.variableNames).getD []

def FieldHead.variableNames (head : FieldHead) : List String :=
  (head.arguments.map Arguments.variableNames).getD [] ++ namesInDirectives head.directives

/-- The names of the variables in a spread, and those that it binds. -/
def Spread.variableNames (spread : Spread) : List String :=
  (spread.arguments.map fun args => args.item.map (·.name.item)).getD [] ++
    (spread.arguments.map Arguments.variableNames).getD [] ++ namesInDirectives spread.directives

namespace Selection

mutual

def variableNames : Selection → List String
  | .field _ head selections => head.variableNames ++ namesInAll selections
  | .spread _ s => s.variableNames
  | .inline _ head selections => namesInDirectives head.directives ++ namesInAll selections

def namesInAll : List Selection → List String
  | [] => []
  | selection :: rest => variableNames selection ++ namesInAll rest

end

end Selection

def VariableDefinition.namesOf (definitions : Option VariableDefinitions) : List String :=
  ((definitions.map (·.item)).getD []).map (·.name.item)

def Operation.variableNames (o : Operation) : List String :=
  VariableDefinition.namesOf o.variableDefinitions ++ Selection.namesInAll o.selections

def Fragment.variableNames (f : Fragment) : List String :=
  VariableDefinition.namesOf f.variableDefinitions ++ Selection.namesInAll f.selections

/-- The names of all variables that a document declares, uses or binds. -/
def Document.variableNames (d : Document) : List String :=
  d.operations.flatMap Operation.variableNames ++ d.fragments.flatMap Fragment.variableNames

/-- Whether a fragment declares the variable that is to get another name, and no fragment has that
name. -/
structure VariableRenaming.Applies (t : VariableRenaming) (fragments : List Fragment) : Prop where
  declares : ∀ f, findFragment fragments t.fragment = some f →
    t.old ∈ VariableDefinition.namesOf f.variableDefinitions
  fresh : ∀ f ∈ fragments, t.new ∉ f.variableNames

namespace VariableRenaming.Applies

variable {t : VariableRenaming} {fragments : List Fragment} (h : t.Applies fragments) {f : Fragment}
  {name : String} (hf : findFragment fragments name = some f)

include h hf

theorem fresh_definitions : t.new ∉ VariableDefinition.namesOf f.variableDefinitions :=
  fun hmem => h.fresh f (mem_of_findFragment hf) (List.mem_append_left _ hmem)

theorem fresh_selections : t.new ∉ Selection.namesInAll f.selections :=
  fun hmem => h.fresh f (mem_of_findFragment hf) (List.mem_append_right _ hmem)

theorem within_eq {other : String}
    (hother : other ∉ VariableDefinition.namesOf f.variableDefinitions) :
    t.within f.name.item other = other := by
  by_contra hmoved
  obtain ⟨hfragment, rfl⟩ := t.of_within_ne hmoved
  rw [name_of_findFragment hf] at hfragment
  exact hother (h.declares f (hfragment ▸ hf))

end VariableRenaming.Applies

/-! ## Collecting with other names -/

/-- Whether a scope gives all variables, under their new names, the values that another scope gives
them. -/
def VariableRenaming.Follows (t : VariableRenaming) (vars : String → String) (scope scope' : Scope) :
    Prop := ∀ name, name ≠ t.new → scope'.get? (vars name) = scope.get? name

/-- The same error, but for its message. -/
def ExecutionError.withoutMessage (e : ExecutionError) : ExecutionError :=
  { e with error := { e.error with message := "" } }

def FieldNode.renamed (t : VariableRenaming) (vars : String → String) (node : FieldNode) : FieldNode :=
  ⟨node.toFieldHead.renamed vars, node.span, Selection.renamedAll t vars node.selections⟩

/-- Whether a use of a field is another one with other names for variables, which have the same
values. -/
inductive FieldUse.Renames (t : VariableRenaming) (values : Object) : FieldUse → FieldUse → Prop
  | intro {node fv fv' vars} (h : t.Follows vars ⟨values, fv⟩ ⟨values, fv'⟩)
    (hhead : t.new ∉ node.toFieldHead.variableNames)
    (hselections : t.new ∉ Selection.namesInAll node.selections) :
    Renames t values ⟨node, fv⟩ ⟨node.renamed t vars, fv'⟩

/-- Where a variable has another name, only the messages of errors may differ. -/
def Likeness.ofRenaming (t : VariableRenaming) (values : Object) : Likeness where
  uses := List.Forall₂ (FieldUse.Renames t values)
  view := ExecutionError.withoutMessage
  path_view _ := rfl

theorem Arguments.follow_of_fresh {t : VariableRenaming} {vars : String → String}
    {scope scope' : Scope} (h : t.Follows vars scope scope') {arguments : Option Arguments}
    (hnew : t.new ∉ (arguments.map Arguments.variableNames).getD []) :
    Arguments.Follow vars scope scope' arguments :=
  fun name hname => h name fun heq => hnew (heq ▸ hname)

theorem findDirective_renamed (vars : String → String) (directives : List (Located Directive))
    (name : String) : findDirective (renamedDirectives vars directives) name =
      (findDirective directives name).map (Located.map (Directive.renamed vars)) := by
  unfold findDirective renamedDirectives
  rw [List.find?_map]
  rfl

theorem coerceDirective_renamed (schema : Schema σ) {t : VariableRenaming} {vars : String → String}
    {scope scope' : Scope} (h : t.Follows vars scope scope') {directives : List (Located Directive)}
    (hnew : t.new ∉ namesInDirectives directives) {node : Located Directive} (hnode : node ∈ directives)
    (d : DirectiveDefinition) :
    (schema.coerceDirective scope' d (node.map (Directive.renamed vars))).mapError Located.span =
      (schema.coerceDirective scope d node).mapError Located.span :=
  coerceArguments_renamed (Arguments.follow_of_fresh h fun hmem =>
    hnew (List.mem_flatMap.mpr ⟨node, hnode, hmem⟩)) _ _

namespace CollectionContext

variable (t : VariableRenaming) (ctx : CollectionContext σ)

/-- The context in which a variable of a fragment has another name. -/
def renamed : CollectionContext σ := { ctx with fragments := ctx.fragments.map t.renamedFragment }

variable {t ctx} {vars : String → String} {fv fv' : Option FragmentVariables}
  (h : t.Follows vars (ctx.scope fv) (ctx.scope fv')) {directives : List (Located Directive)}
  (hnew : t.new ∉ namesInDirectives directives)

include h hnew

theorem directiveArguments?_renamed (name : String) :
    (ctx.renamed t).directiveArguments? fv' (renamedDirectives vars directives) name =
      ctx.directiveArguments? fv directives name := by
  unfold directiveArguments?
  rw [findDirective_renamed]
  cases hfound : findDirective directives name with
  | none => rfl
  | some node =>
    have hsame (definition : DirectiveDefinition) := toOption_congr
      (coerceDirective_renamed ctx.schema h hnew (List.mem_of_find?_eq_some hfound) definition)
    exact congrArg (ctx.schema.directive? name).bind (funext hsame)

theorem isExcluded_renamed :
    (ctx.renamed t).isExcluded fv' (renamedDirectives vars directives) =
      ctx.isExcluded fv directives := by
  unfold isExcluded
  simp only [directiveArguments?_renamed h hnew]

theorem deferLabel?_renamed :
    (ctx.renamed t).deferLabel? fv' (renamedDirectives vars directives) =
      ctx.deferLabel? fv directives := by
  unfold deferLabel?
  rw [directiveArguments?_renamed h hnew]

end CollectionContext

/-! ### What is collected -/

section

variable {t : VariableRenaming} {values : Object}

theorem FieldGroups.resembles_add {groups groups' : FieldGroups}
    (h : List.Forall₂ (fun group group' => group.1 = group'.1 ∧
      (Likeness.ofRenaming t values).uses group.2 group'.2) groups groups')
    (key : String) {use use' : FieldUse} (huse : use.Renames t values use') :
    List.Forall₂ (fun group group' => group.1 = group'.1 ∧
      (Likeness.ofRenaming t values).uses group.2 group'.2) (groups.add key use)
      (groups'.add key use') := by
  induction h with
  | nil => exact .cons ⟨rfl, .cons huse .nil⟩ .nil
  | @cons group group' groups groups' hgroup hrest ih =>
    obtain ⟨k, uses⟩ := group
    obtain ⟨_, uses'⟩ := group'
    obtain ⟨rfl, huses⟩ := hgroup
    unfold FieldGroups.add
    split
    · exact .cons ⟨rfl, List.rel_append huses (.cons huse .nil)⟩ hrest
    · exact .cons ⟨rfl, huses⟩ ih

/-- Whether as much was collected, but for other names of variables. -/
structure Collecting.Renames (t : VariableRenaming) (values : Object) (s s' : Collecting) : Prop where
  visited : s.visited = s'.visited
  found : s.found.Resembles (.ofRenaming t values) s'.found

namespace Collecting.Renames

variable {s s' : Collecting} (h : s.Renames t values s')

theorem empty {visited visited' : List String} (hvisited : visited = visited') :
    Collecting.Renames t values ⟨visited, .empty⟩ ⟨visited', .empty⟩ :=
  ⟨hvisited, .intro .nil .nil⟩

include h

theorem add {use use' : FieldUse} (huse : use.Renames t values use') :
    Collecting.Renames t values { s with found := s.found.add use }
      { s' with found := s'.found.add use' } where
  visited := h.visited
  found := by
    have hkey : use'.node.responseKey = use.node.responseKey := by cases huse; rfl
    unfold Collected.add
    rw [hkey]
    exact .intro (FieldGroups.resembles_add h.found.groups _ huse) h.found.deferred

theorem entering (label : Option (Option String)) (name : String) :
    (CollectionContext.entering label name s).Renames t values
      (CollectionContext.entering label name s') := by
  unfold CollectionContext.entering
  split
  · exact ⟨congrArg (name :: ·) h.visited, h.found⟩
  · exact h

theorem deferring (label : Option (Option String)) {collect collect' : Collecting → Option Collecting}
    (hcollect : ∀ s s', s.Renames t values s' →
      Option.Rel (Collecting.Renames t values) (collect s) (collect' s')) :
    Option.Rel (Collecting.Renames t values) (CollectionContext.deferring label collect s)
      (CollectionContext.deferring label collect' s') := by
  cases label with
  | none => exact hcollect s s' h
  | some label =>
    refine rel_bind (hcollect _ _ (.empty h.visited)) fun inner inner' hinner => .some ?_
    exact ⟨hinner.visited,
      .intro h.found.groups (List.rel_append h.found.deferred (.cons (.intro hinner.found) .nil))⟩

end Collecting.Renames

end

/-! ### Collecting selections -/

namespace CollectionContext

variable {t : VariableRenaming} {ctx : CollectionContext σ}

theorem collectSpread_eq (enter : FragmentEntry) (fv : Option FragmentVariables) (spread : Spread)
    (s : Collecting) : ctx.collectSpread enter fv spread s =
      let label := ctx.deferLabel? fv spread.directives
      let entered := entering label spread.name.item s
      if ctx.isExcluded fv spread.directives || s.visited.contains spread.name.item then some s
      else (findFragment ctx.fragments spread.name.item).elim (some entered) fun f =>
        if !ctx.schema.conditionApplies f.typeCondition.item ctx.object then some entered
        else deferring label (enter f.selections (ctx.variablesIn fv f spread)) entered := by
  unfold collectSpread
  dsimp only
  cases findFragment ctx.fragments spread.name.item <;> rfl

theorem variablesIn_renamed {vars : String → String} {fv : Option FragmentVariables} {spread : Spread}
    {f : Fragment} (hf : findFragment ctx.fragments spread.name.item = some f) :
    (ctx.renamed t).variablesIn fv (t.renamedFragment f) (spread.renamed t vars) =
      f.variableDefinitions.map fun definitions => ctx.schema.coerceFragmentVariables (ctx.scope fv)
        (definitions.item.map (VariableDefinition.renamed (t.within f.name.item)))
        (spread.arguments.map (·.renamed (t.within f.name.item) vars)) := by
  unfold variablesIn VariableRenaming.renamedFragment Spread.renamed
  rw [name_of_findFragment hf, Option.map_map]
  rfl

/-- Whether entering a fragment collects as much where variables have other names. -/
def EntersAlike (t : VariableRenaming) (ctx : CollectionContext σ) (enter enter' : FragmentEntry) :
    Prop :=
  ∀ selections vars fv fv' s s', t.new ∉ Selection.namesInAll selections →
    t.Follows vars (ctx.scope fv) (ctx.scope fv') → s.Renames t ctx.variableValues s' →
    Option.Rel (Collecting.Renames t ctx.variableValues) (enter selections fv s)
      (enter' (Selection.renamedAll t vars selections) fv' s')

section

variable {enter enter' : FragmentEntry} {vars : String → String} {fv fv' : Option FragmentVariables}
  (h : t.Follows vars (ctx.scope fv) (ctx.scope fv'))

include h

theorem collectField_renamed {span : Span} {head : FieldHead} {selections : List Selection}
    (hhead : t.new ∉ head.variableNames) (hselections : t.new ∉ Selection.namesInAll selections)
    {s s' : Collecting} (hs : s.Renames t ctx.variableValues s') :
    Option.Rel (Collecting.Renames t ctx.variableValues)
      (ctx.collectSelection enter fv (.field span head selections) s)
      ((ctx.renamed t).collectSelection enter' fv'
        (.field span (head.renamed vars) (Selection.renamedAll t vars selections)) s') := by
  have hexcluded := isExcluded_renamed h fun hmem => hhead (List.mem_append_right _ hmem)
  unfold collectSelection
  simp only [FieldHead.renamed, hexcluded]
  split
  · exact .some hs
  · exact .some (hs.add (.intro h hhead hselections))

theorem collectInline_renamed {span : Span} {head : InlineHead} {selections : List Selection}
    (hnew : t.new ∉ namesInDirectives head.directives)
    (ih : ∀ s s', s.Renames t ctx.variableValues s' →
      Option.Rel (Collecting.Renames t ctx.variableValues) (ctx.collectAll enter fv selections s)
        ((ctx.renamed t).collectAll enter' fv' (Selection.renamedAll t vars selections) s'))
    {s s' : Collecting} (hs : s.Renames t ctx.variableValues s') :
    Option.Rel (Collecting.Renames t ctx.variableValues)
      (ctx.collectSelection enter fv (.inline span head selections) s)
      ((ctx.renamed t).collectSelection enter' fv'
        (.inline span (head.renamed vars) (Selection.renamedAll t vars selections)) s') := by
  have hexcluded := isExcluded_renamed h hnew
  have hlabel := deferLabel?_renamed h hnew
  have hcondition (name : String) : (ctx.renamed t).schema.conditionApplies name (ctx.renamed t).object =
      ctx.schema.conditionApplies name ctx.object := rfl
  unfold collectSelection
  simp only [InlineHead.renamed, hexcluded, hlabel, hcondition]
  split
  · exact .some hs
  · exact hs.deferring _ ih

variable (hfragments : t.Applies ctx.fragments)

include hfragments

/-- Inside of a fragment, whatever is around its spread, its variables have the same values by their new
names. -/
theorem follows_variablesIn {spread : Spread} (hnew : t.new ∉ spread.variableNames) {f : Fragment}
    (hf : findFragment ctx.fragments spread.name.item = some f) :
    t.Follows (t.within f.name.item) (ctx.scope (ctx.variablesIn fv f spread))
      (ctx.scope ((ctx.renamed t).variablesIn fv' (t.renamedFragment f) (spread.renamed t vars))) := by
  intro name hname
  rw [variablesIn_renamed hf]
  unfold variablesIn
  have hfresh := hfragments.fresh_definitions hf
  have hkept : name ∉ VariableDefinition.namesOf f.variableDefinitions →
      t.within f.name.item name = name := hfragments.within_eq hf
  cases hdefinitions : f.variableDefinitions with
  | none =>
    rw [hkept (by simp [VariableDefinition.namesOf, hdefinitions])]
    rfl
  | some definitions =>
    rw [hdefinitions] at hfresh hkept
    simp only [Spread.variableNames, List.mem_append, not_or] at hnew
    obtain ⟨⟨hbound, harguments⟩, -⟩ := hnew
    have hgiven : ∀ args ∈ spread.arguments, ∀ a ∈ args.item, a.name.item ≠ t.new := by
      rintro args hargs a ha heq
      rw [Option.mem_def.mp hargs] at hbound
      exact hbound (heq ▸ List.mem_map_of_mem ha)
    have hdefined : ∀ d ∈ definitions.item, d.name.item ≠ t.new := fun d hd heq =>
      hfresh (heq ▸ List.mem_map_of_mem hd)
    -- As the new name is that of no variable here, no two variables get the same one.
    obtain ⟨hdeclares, hvalue⟩ := coerceFragmentVariables_renamed (t.injOn_within f.name.item)
      (Arguments.follow_of_fresh h harguments) hgiven hdefined hname
    dsimp only [Option.map_some, scope, Scope.get?] at hdeclares hvalue ⊢
    rw [hdeclares, hvalue]
    cases hin : FragmentVariables.declares _ name with
    | true => rfl
    | false => rw [hkept fun hmem => Bool.false_ne_true (hin.symm.trans (List.contains_iff_mem.mpr hmem))]

variable (henter : EntersAlike t ctx enter enter')

include henter

theorem collectSpread_renamed {spread : Spread} (hnew : t.new ∉ spread.variableNames)
    {s s' : Collecting} (hs : s.Renames t ctx.variableValues s') :
    Option.Rel (Collecting.Renames t ctx.variableValues) (ctx.collectSpread enter fv spread s)
      ((ctx.renamed t).collectSpread enter' fv' (spread.renamed t vars) s') := by
  have hdirectives : t.new ∉ namesInDirectives spread.directives :=
    fun hmem => hnew (List.mem_append_right _ hmem)
  have hexcluded := isExcluded_renamed h hdirectives
  have hlabel := deferLabel?_renamed h hdirectives
  have hfound : findFragment (ctx.renamed t).fragments spread.name.item =
      (findFragment ctx.fragments spread.name.item).map t.renamedFragment :=
    findFragment_map (f := t.renamedFragment) (fun _ => rfl) ctx.fragments spread.name.item
  have hentered := hs.entering (ctx.deferLabel? fv spread.directives) spread.name.item
  rw [collectSpread_eq, collectSpread_eq]
  simp only [Spread.renamed, hexcluded, hlabel, hfound, ← hs.visited]
  split
  · exact .some hs
  · cases hf : findFragment ctx.fragments spread.name.item with
    | none => exact .some hentered
    | some f =>
      dsimp only [Option.map_some, Option.elim_some]
      have hcondition : ((ctx.renamed t).schema.conditionApplies
          (t.renamedFragment f).typeCondition.item (ctx.renamed t).object) =
          ctx.schema.conditionApplies f.typeCondition.item ctx.object := rfl
      rw [hcondition]
      split
      · exact .some hentered
      · exact hentered.deferring _ fun s s' hs => henter f.selections _ _ _ s s'
          (hfragments.fresh_selections hf) (follows_variablesIn h hfragments hnew hf) hs

theorem collectAll_renamed {selections : List Selection}
    (hnew : t.new ∉ Selection.namesInAll selections) {s s' : Collecting}
    (hs : s.Renames t ctx.variableValues s') :
    Option.Rel (Collecting.Renames t ctx.variableValues) (ctx.collectAll enter fv selections s)
      ((ctx.renamed t).collectAll enter' fv' (Selection.renamedAll t vars selections) s') := by
  induction selections using Selection.induct generalizing s s' with
  | nil => exact .some hs
  | field span head selections rest _ ihRest =>
    simp only [Selection.namesInAll, Selection.variableNames, List.mem_append, not_or] at hnew
    obtain ⟨⟨hhead, hselections⟩, hrest⟩ := hnew
    exact rel_bind (collectField_renamed h hhead hselections hs) fun _ _ => ihRest hrest
  | inline span head selections rest ih ihRest =>
    simp only [Selection.namesInAll, Selection.variableNames, List.mem_append, not_or] at hnew
    obtain ⟨⟨hhead, hselections⟩, hrest⟩ := hnew
    exact rel_bind (collectInline_renamed h hhead (fun _ _ => ih hselections) hs)
      fun _ _ => ihRest hrest
  | spread span spread rest ihRest =>
    simp only [Selection.namesInAll, Selection.variableNames, List.mem_append, not_or] at hnew
    obtain ⟨hspread, hrest⟩ := hnew
    exact rel_bind (collectSpread_renamed h hfragments henter hspread hs) fun _ _ => ihRest hrest

end

variable (hfragments : t.Applies ctx.fragments)

include hfragments

theorem entersAlike_collectWithin (depth : Nat) :
    EntersAlike t ctx (ctx.collectWithin depth) ((ctx.renamed t).collectWithin depth) := by
  induction depth with
  | zero => exact fun _ _ _ _ _ _ _ _ _ => .none
  | succ depth ih => exact fun _ _ _ _ _ _ hnew h hs => collectAll_renamed h hfragments ih hnew hs

variable (ctx)

theorem collectFields_renamed (depth : Nat) {selections : List Selection}
    (hnew : t.new ∉ Selection.namesInAll selections) :
    Option.Rel (Collected.Resembles (.ofRenaming t ctx.variableValues))
      (ctx.collectFields depth selections)
      ((ctx.renamed t).collectFields depth (Selection.renamedAll t id selections)) := by
  have hcollected := entersAlike_collectWithin hfragments depth selections id none none .start .start
    hnew (fun _ _ => rfl) (.empty rfl)
  rw [collectFields, collectFields, Option.map_eq_bind, Option.map_eq_bind]
  exact rel_bind hcollected fun _ _ hs => .some hs.found

theorem collectSubfields_renamed (depth : Nat) {uses uses' : List FieldUse}
    (huses : (Likeness.ofRenaming t ctx.variableValues).uses uses uses') :
    Option.Rel (Collected.Resembles (.ofRenaming t ctx.variableValues))
      (ctx.collectSubfields depth uses) ((ctx.renamed t).collectSubfields depth uses') := by
  have hfold {s s' : Collecting} (hs : s.Renames t ctx.variableValues s') :
      Option.Rel (Collecting.Renames t ctx.variableValues)
        (uses.foldlM
          (fun s use => ctx.collectWithin depth use.node.selections use.fragmentVariables s) s)
        (uses'.foldlM (fun s use =>
          (ctx.renamed t).collectWithin depth use.node.selections use.fragmentVariables s) s') := by
    induction huses generalizing s s' with
    | nil => exact .some hs
    | cons huse _ ih =>
      obtain ⟨h, -, hselections⟩ := huse
      rw [List.foldlM_cons, List.foldlM_cons]
      exact rel_bind (entersAlike_collectWithin hfragments depth _ _ _ _ _ _ hselections h hs)
        fun _ _ => ih
  rw [collectSubfields, collectSubfields, Option.map_eq_bind, Option.map_eq_bind]
  exact rel_bind (hfold (.empty rfl)) fun _ _ hs => .some hs.found

end CollectionContext

end GraphQL
