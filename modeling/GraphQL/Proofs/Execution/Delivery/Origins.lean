import GraphQL.Proofs.Validation.Labels
import GraphQL.Proofs.Execution.Completion.OutputTypes
import GraphQL.Proofs.Execution.Collection.Reach
import GraphQL.Proofs.Coercion.VariableUse

/-! # Where delivered parts come from

A part that is delivered later comes from a `@defer` or `@stream` that is written in the document.
Collecting keeps to the selections of the document, through all fragments, and a job takes its label
from the directive that left it. So labels, each of which a valid document gives once, tell the
directives apart.
-/

namespace GraphQL

open Process

variable {σ : Type}

/-! ## Labels -/

/-- Whether the built-in scalars are what their names stand for. -/
def Schema.KeepsScalars (schema : Schema σ) : Prop :=
  ∀ t ∈ ScalarType.builtins, schema.type? t.name = some (.scalar t)

theorem keepsScalars_of_build {d : SchemaDeclaration σ} {schema : Schema σ}
    (h : Schema.build d = .ok schema)
    (hnames : ∀ t ∈ ScalarType.builtins, t.name ∉ d.types.map (·.name)) : schema.KeepsScalars :=
  fun t ht => type?_of_build h ht (hnames t ht)

section

variable {schema : Schema σ} (hstring : schema.type? "String" = some (.scalar .string))

include hstring

theorem coerceLiteral_string (scope : Scope) (s : String) :
    schema.coerceLiteral scope (.string s) (.named "String") = .ok (some (.string s)) := by
  simp [Schema.coerceLiteral, literalAs, literalNamed, TypeRef.innermost, TypeRef.listDepth,
    hstring, ScalarType.ofLiteral, ScalarType.string, Literal.replaceVariables,
    StringScalar.literal, LiteralResult.nested, Except.map, Except.mapError, Nat.repeat]

theorem coerceArgument_label {scope : Scope} {node : Located Directive}
    (hstatic : node.item.HasStaticLabel) {read : Option Value}
    (h : schema.coerceArgument scope node.item.arguments node.span DirectiveDefinition.label =
      .ok read) :
    read.bind Value.string? = node.item.labelText? := by
  unfold Schema.coerceArgument at h
  have hlabel : node.item.label? = (node.item.arguments.bind (·.get? "label")).map (·.item) := rfl
  have hname : DirectiveDefinition.label.name = "label" := rfl
  rw [hname] at h
  unfold Directive.labelText?
  cases hgiven : node.item.arguments.bind (·.get? "label") with
  | none =>
    rw [hgiven] at h hlabel
    rw [hlabel]
    cases h
    rfl
  | some l =>
    rw [hgiven, Option.map_some] at hlabel
    obtain ⟨s, hs⟩ := hstatic l.item hlabel
    rw [hlabel, hs]
    rw [hgiven] at h
    dsimp only at h
    rw [hs] at h
    dsimp only at h
    unfold Schema.givenArgument at h
    have htype : DirectiveDefinition.label.type = .named "String" := rfl
    rw [hs, htype, coerceLiteral_string hstring] at h
    cases h
    rfl

theorem label_of_coerceDirective {scope : Scope} {definition : DirectiveDefinition}
    (hlabel : DirectiveDefinition.label ∈ definition.arguments)
    (hnames : (definition.arguments.map (·.name)).Nodup)
    {node : Located Directive} (hstatic : node.item.HasStaticLabel) {args : Object}
    (h : schema.coerceDirective scope definition node = .ok args) :
    (args.get? "label").bind Value.string? = node.item.labelText? := by
  unfold Schema.coerceDirective at h
  rw [coerceArguments_eq_foldlM] at h
  obtain ⟨given, hgiven, rfl⟩ := exists_of_foldlM_gathering h
  have hget : Entries.get? "label" (gathered (·.name) given definition.arguments) =
      given DirectiveDefinition.label :=
    get?_gathered given hnames hlabel
  have hread := coerceArgument_label hstring hstatic (hgiven _ hlabel)
  exact (congrArg (·.bind Value.string?) hget).trans hread

end

/-! ## Collecting -/

/-- The directives that stand on a selection. -/
def Selection.directives : Selection → List (Located Directive)
  | .field _ head _ => head.directives
  | .spread _ s => s.directives
  | .inline _ head _ => head.directives

/-- A field as it is written. -/
def FieldNode.selection (node : FieldNode) : Selection :=
  .field node.span node.toFieldHead node.selections

theorem mem_occurrences_of_findDirective {selection : Selection} {name : String}
    (hname : name = "defer" ∨ name = "stream") {directive : Located Directive}
    (h : findDirective selection.directives name = some directive) :
    ⟨.selection selection, directive⟩ ∈ selection.occurrences := by
  have hfound : directive.item.name.item = name := by simpa using List.find?_some h
  have hincremental : directive.item.isIncremental := by
    simpa [Directive.isIncremental, hfound] using hname
  have hmem : ⟨.selection selection, directive⟩ ∈
      occurrencesOn (.selection selection) selection.directives :=
    List.mem_map_of_mem (List.mem_filter.mpr ⟨List.mem_of_find?_eq_some h, hincremental⟩)
  cases selection with
  | field =>
    rw [Selection.occurrences]
    exact List.mem_append_left _ hmem
  | spread =>
    rw [Selection.occurrences]
    exact hmem
  | inline =>
    rw [Selection.occurrences]
    exact List.mem_append_left _ hmem

theorem selectionOccurrences_cons_subset {selection : Selection} {rest : List Selection}
    {all : List Occurrence} : selectionOccurrences (selection :: rest) ⊆ all ↔
      selection.occurrences ⊆ all ∧ selectionOccurrences rest ⊆ all := by
  rw [selectionOccurrences, List.append_subset]

theorem selectionOccurrences_subset_field (span : Span) (head : FieldHead)
    (selections : List Selection) :
    selectionOccurrences selections ⊆ (Selection.field span head selections).occurrences := by
  rw [Selection.occurrences]
  exact List.subset_append_right _ _

theorem selectionOccurrences_subset_inline (span : Span) (head : InlineHead)
    (selections : List Selection) :
    selectionOccurrences selections ⊆ (Selection.inline span head selections).occurrences := by
  rw [Selection.occurrences]
  exact List.subset_append_right _ _

/-- Whether a fragment is what is left for later when a selection is collected. -/
def CollectionContext.Defers (ctx : CollectionContext σ) (selection : Selection)
    (fragment : Deferred) : Prop :=
  ∃ depth fragmentVariables s s',
    ctx.deferLabel? fragmentVariables selection.directives = some fragment.label ∧
    ctx.collectSelection (ctx.collectWithin depth) fragmentVariables selection s = some s' ∧
    s'.found = s.found.defer fragment.label fragment.fields

/-- Whether all that was collected is written in a document, as far as its occurrences of `@defer`
and `@stream` are concerned. -/
inductive Collected.WrittenIn (ctx : CollectionContext σ) (d : Document) : Collected → Prop
  | intro {c : Collected}
    (uses : ∀ use ∈ c.groups.flatMap Prod.snd, use.node.selection.occurrences ⊆ d.occurrences)
    (deferred : ∀ fragment ∈ c.deferred, ∃ selection : Selection,
      selection.occurrences ⊆ d.occurrences ∧ ctx.Defers selection fragment)
    (inner : ∀ fragment ∈ c.deferred, fragment.fields.WrittenIn ctx d) : WrittenIn ctx d c

namespace Collected.WrittenIn

variable {ctx : CollectionContext σ} {d : Document} {c fields : Collected}

theorem empty : Collected.empty.WrittenIn ctx d :=
  .intro (by simp [Collected.empty]) (by simp [Collected.empty]) (by simp [Collected.empty])

theorem add (h : c.WrittenIn ctx d) {use : FieldUse}
    (huse : use.node.selection.occurrences ⊆ d.occurrences) : (c.add use).WrittenIn ctx d := by
  obtain ⟨huses, hdeferred, hinner⟩ := h
  refine .intro (fun other hother => ?_) hdeferred hinner
  rcases FieldGroups.mem_uses_add.mp hother with rfl | hother
  · exact huse
  · exact huses other hother

theorem defer (h : c.WrittenIn ctx d) (hfields : fields.WrittenIn ctx d) {label : Option String}
    {selection : Selection} (hselection : selection.occurrences ⊆ d.occurrences)
    (hdefers : ctx.Defers selection ⟨label, fields⟩) : (c.defer label fields).WrittenIn ctx d := by
  obtain ⟨huses, hdeferred, hinner⟩ := h
  refine .intro huses ?_ ?_
  · exact List.forall_mem_append.mpr
      ⟨hdeferred, List.forall_mem_singleton.mpr ⟨selection, hselection, hdefers⟩⟩
  · exact List.forall_mem_append.mpr ⟨hinner, List.forall_mem_singleton.mpr hfields⟩

end Collected.WrittenIn

namespace CollectionContext

variable {ctx : CollectionContext σ} {d : Document} {depth : Nat}

/-- Whether collecting the selections of a fragment keeps to a document. -/
def KeepsTo (ctx : CollectionContext σ) (d : Document) (enter : FragmentEntry) : Prop :=
  ∀ selections fragmentVariables s s', selectionOccurrences selections ⊆ d.occurrences →
    s.found.WrittenIn ctx d → enter selections fragmentVariables s = some s' →
    s'.found.WrittenIn ctx d

theorem writtenIn_deferring {fragmentVariables : Option FragmentVariables} {selection : Selection}
    (hselection : selection.occurrences ⊆ d.occurrences) {s s' entered : Collecting}
    (hcollected : ctx.collectSelection (ctx.collectWithin depth) fragmentVariables selection s =
      some s')
    (hs : s.found.WrittenIn ctx d) (hentered : entered.found = s.found)
    {collect : Collecting → Option Collecting}
    (hcollect : ∀ s s', s.found.WrittenIn ctx d → collect s = some s' → s'.found.WrittenIn ctx d)
    (h : deferring (ctx.deferLabel? fragmentVariables selection.directives) collect entered =
      some s') : s'.found.WrittenIn ctx d := by
  cases hlabel : ctx.deferLabel? fragmentVariables selection.directives with
  | none =>
    rw [hlabel] at h
    exact hcollect entered s' (hentered ▸ hs) (deferring_none h)
  | some label =>
    rw [hlabel] at h
    obtain ⟨s₁, hinner, rfl⟩ := deferring_some h
    rw [hentered] at hcollected ⊢
    refine hs.defer (hcollect _ _ .empty hinner) hselection ?_
    exact ⟨depth, fragmentVariables, s, _, hlabel, hcollected, rfl⟩

variable (hfragments : ∀ f ∈ ctx.fragments, selectionOccurrences f.selections ⊆ d.occurrences)

include hfragments

theorem writtenIn_spread (henter : ctx.KeepsTo d (ctx.collectWithin depth)) {span : Span}
    {fragmentVariables : Option FragmentVariables} {spread : Spread}
    (hspread : (Selection.spread span spread).occurrences ⊆ d.occurrences) {s s' : Collecting}
    (hs : s.found.WrittenIn ctx d)
    (h : ctx.collectSelection (ctx.collectWithin depth) fragmentVariables (.spread span spread) s =
      some s') : s'.found.WrittenIn ctx d := by
  have hcollected := h
  simp only [collectSelection, collectSpread] at h
  have hentered : (entering (ctx.deferLabel? fragmentVariables spread.directives) spread.name.item
      s).found = s.found := by
    unfold entering
    split <;> rfl
  have hkept := hs
  rw [← hentered] at hkept
  split at h
  · obtain rfl := Option.some.inj h
    exact hs
  · split at h
    · obtain rfl := Option.some.inj h
      exact hkept
    · next fragment hfound =>
      split at h
      · obtain rfl := Option.some.inj h
        exact hkept
      · refine writtenIn_deferring hspread hcollected hs hentered (fun s s' hs hcollect => ?_) h
        exact henter _ _ s s' (hfragments fragment (mem_of_findFragment hfound)) hs hcollect

theorem keepsTo_collectAll (henter : ctx.KeepsTo d (ctx.collectWithin depth)) :
    ctx.KeepsTo d fun selections fragmentVariables =>
      ctx.collectAll (ctx.collectWithin depth) fragmentVariables selections := by
  intro selections
  induction selections using Selection.induct with
  | nil =>
    intro fragmentVariables s s' _ hs h
    obtain rfl := Option.some.inj h
    exact hs
  | field span head selections rest _ ih =>
    intro fragmentVariables s s' hwritten hs h
    obtain ⟨hfirst, hrest⟩ := selectionOccurrences_cons_subset.mp hwritten
    obtain ⟨s₁, h₁, h⟩ := Option.bind_eq_some_iff.mp h
    refine ih fragmentVariables s₁ s' hrest ?_ h
    simp only [collectSelection] at h₁
    split at h₁
    · obtain rfl := Option.some.inj h₁
      exact hs
    · obtain rfl := Option.some.inj h₁
      exact hs.add hfirst
  | spread span spread rest ih =>
    intro fragmentVariables s s' hwritten hs h
    obtain ⟨hfirst, hrest⟩ := selectionOccurrences_cons_subset.mp hwritten
    obtain ⟨s₁, h₁, h⟩ := Option.bind_eq_some_iff.mp h
    exact ih fragmentVariables s₁ s' hrest (writtenIn_spread hfragments henter hfirst hs h₁) h
  | inline span head selections rest ihInner ih =>
    intro fragmentVariables s s' hwritten hs h
    obtain ⟨hfirst, hrest⟩ := selectionOccurrences_cons_subset.mp hwritten
    obtain ⟨s₁, h₁, h⟩ := Option.bind_eq_some_iff.mp h
    refine ih fragmentVariables s₁ s' hrest ?_ h
    have hcollected := h₁
    simp only [collectSelection] at h₁
    split at h₁
    · obtain rfl := Option.some.inj h₁
      exact hs
    · refine writtenIn_deferring hfirst hcollected hs rfl (fun s s' hs hcollect => ?_) h₁
      have hinner := List.Subset.trans (selectionOccurrences_subset_inline ..) hfirst
      exact ihInner fragmentVariables s s' hinner hs hcollect

theorem keepsTo_collectWithin (depth : Nat) : ctx.KeepsTo d (ctx.collectWithin depth) := by
  induction depth with
  | zero =>
    intro _ _ _ _ _ _ h
    cases h
  | succ depth ih => exact keepsTo_collectAll hfragments ih

theorem writtenIn_collectFields {selections : List Selection} {collected : Collected}
    (hselections : selectionOccurrences selections ⊆ d.occurrences)
    (h : ctx.collectFields depth selections = some collected) : collected.WrittenIn ctx d := by
  obtain ⟨s, hs, rfl⟩ := Option.map_eq_some_iff.mp h
  exact keepsTo_collectWithin hfragments depth _ _ _ s hselections .empty hs

theorem writtenIn_collectSubfields {uses : List FieldUse} {collected : Collected}
    (huses : ∀ use ∈ uses, use.node.selection.occurrences ⊆ d.occurrences)
    (h : ctx.collectSubfields depth uses = some collected) : collected.WrittenIn ctx d := by
  obtain ⟨s', hs', rfl⟩ := Option.map_eq_some_iff.mp h
  have hstart : Collecting.start.found.WrittenIn ctx d := .empty
  clear h
  generalize Collecting.start = s at hs' hstart
  induction uses generalizing s with
  | nil =>
    obtain rfl := Option.some.inj hs'
    exact hstart
  | cons use uses ih =>
    rw [List.foldlM_cons, Option.bind_eq_bind, Option.bind_eq_some_iff] at hs'
    obtain ⟨s₁, h₁, hs'⟩ := hs'
    obtain ⟨huse, hothers⟩ := List.forall_mem_cons.mp huses
    have hselections := List.Subset.trans (selectionOccurrences_subset_field ..) huse
    refine ih hothers s₁ hs' ?_
    exact keepsTo_collectWithin hfragments depth _ _ s s₁ hselections hstart h₁

end CollectionContext

/-! ## Places -/

section

variable {ctx : ExecutionContext σ} {root : ObjectType σ} {d : Document}

/-- Whether a request executes what is written in a document. -/
structure ExecutionContext.WrittenIn (ctx : ExecutionContext σ) (d : Document) : Prop where
  fragments : ∀ f ∈ ctx.fragments, selectionOccurrences f.selections ⊆ d.occurrences
  operation : selectionOccurrences ctx.operation.selections ⊆ d.occurrences

theorem writtenIn_of_prepare {r : Request σ} (h : r.prepare = .ok (ctx, root)) :
    ctx.WrittenIn r.document := by
  have hdefinition {definition : Definition} (hmem : definition ∈ r.document) :
      definition.occurrences ⊆ r.document.occurrences :=
    fun o ho => List.mem_flatMap.mpr ⟨definition, hmem, ho⟩
  obtain ⟨operation, values, hoperation, -, rfl⟩ := exists_of_prepare h
  constructor
  · intro f hf
    obtain ⟨definition, hmem, heq⟩ := List.mem_filterMap.mp hf
    cases definition with
    | operation => cases heq
    | fragment f =>
      cases heq
      exact List.Subset.trans (List.subset_append_right _ _) (hdefinition hmem)
  · obtain ⟨definition, hmem, heq⟩ := List.mem_filterMap.mp (mem_of_chooseOperation hoperation)
    cases definition with
    | operation o =>
      cases heq
      exact List.Subset.trans (List.subset_append_right _ _) (hdefinition hmem)
    | fragment => cases heq

/-- Whether what stands at a place is written in a document. -/
def Place.WrittenIn (ctx : ExecutionContext σ) (d : Document) : Place σ → Prop
  | .fields object collected => collected.WrittenIn (ctx.collection object) d
  | .value uses _ => ∀ use ∈ uses, use.node.selection.occurrences ⊆ d.occurrences

theorem Declared.writtenIn (hctx : ctx.WrittenIn d) {path : Path} {place : Place σ}
    (h : Declared ctx root path place) : place.WrittenIn ctx d := by
  induction h with
  | root hcollected =>
    exact CollectionContext.writtenIn_collectFields hctx.fragments hctx.operation hcollected
  | deferred _ hfragment ih =>
    obtain ⟨-, -, hinner⟩ := ih
    exact hinner _ hfragment
  | field _ hgroup _ ih =>
    obtain ⟨huses, -, -⟩ := ih
    intro use huse
    exact huses use (List.mem_flatMap.mpr ⟨_, List.mem_of_getElem? hgroup, huse⟩)
  | item _ _ _ ih => exact ih
  | object _ _ _ hcollected ih =>
    exact CollectionContext.writtenIn_collectSubfields hctx.fragments ih hcollected

/-! ## Streamed lists -/

/-- Whether a job that goes on with a list has the label of the `@stream` on its field. -/
def Job.Labelled (ctx : ExecutionContext σ) : Job σ → Prop
  | .deferred _ _ _ _ => True
  | .streamed plan _ path label _ _ => ∃ count, plan.streaming path ctx = .ok (some (count, label))

def Report.JobsLabelled (ctx : ExecutionContext σ) (r : Report σ) : Prop :=
  ∀ job ∈ r.jobs, job.2.Labelled ctx

def Completer.Labels (I : World σ → Prop) (ctx : ExecutionContext σ) (complete : Completer σ) :
    Prop :=
  ∀ plan t path value r, Yields I (complete plan t path value) r → r.JobsLabelled ctx

variable {I : World σ → Prop} {complete completeField : Completer σ} {object : ObjectType σ}
  {source value : HostValue} {path : Path} {plan : FieldPlan σ} {t : TypeRef} {r : Report σ}

theorem Report.JobsLabelled.absorbing (h : r.JobsLabelled ctx) (t : TypeRef) :
    (r.absorbing t).JobsLabelled ctx :=
  fun job hjob => h job (mem_jobs_absorbing hjob)

theorem Report.JobsLabelled.followed (h : r.JobsLabelled ctx) {job : Job σ}
    (hjob : job.Labelled ctx) (ticket : Nat) : (r.followed ticket job).JobsLabelled ctx := by
  unfold JobsLabelled
  rw [jobs_followed]
  exact List.forall_mem_append.mpr ⟨h, List.forall_mem_singleton.mpr hjob⟩

theorem Report.jobsLabelled_failed (e : ExecutionError) :
    (failed e : Report σ).JobsLabelled ctx :=
  fun _ hjob => nomatch hjob

theorem FieldReport.jobsLabelled (hcomplete : completeField.Labels I ctx) {uses : List FieldUse}
    (h : FieldReport I ctx completeField object source path uses r) : r.JobsLabelled ctx := by
  cases h with
  | unused | typeName | unknown => exact fun _ hjob => nomatch hjob
  | unresolved => exact (Report.jobsLabelled_failed _).absorbing _
  | resolved _ _ _ hr => exact Report.JobsLabelled.absorbing (hcomplete _ _ _ _ _ hr) _

theorem ObjectReport.jobsLabelled (hcomplete : completeField.Labels I ctx) {isSerial : Bool}
    {collected : Collected} {deferred : List (Nat × Job σ)} {fields : List (String × Report σ)}
    (h : ObjectReport I ctx completeField isSerial object source path collected deferred fields) :
    (Report.object deferred fields).JobsLabelled ctx := by
  refine h.forall_jobs (fun _ _ => trivial) ?_
  intro i key r hr
  obtain ⟨uses, -, hreport⟩ := h.field hr
  exact hreport.jobsLabelled hcomplete

theorem jobsLabelled_completeItem (hcomplete : complete.Labels I ctx) {item : HostValue}
    (h : Yields I (completeItem complete plan t path item) r) : r.JobsLabelled ctx := by
  obtain ⟨s, hs, rfl⟩ := yields_completeItem h
  exact Report.JobsLabelled.absorbing (hcomplete _ _ _ _ _ hs) _

theorem ItemReports.jobsLabelled (hcomplete : complete.Labels I ctx) {items : List HostValue}
    {reports : List (Report σ)} (h : ItemReports I complete plan t path items reports) :
    (Report.list reports).JobsLabelled ctx := by
  unfold Report.JobsLabelled
  rw [Report.jobs_list]
  intro job hjob
  obtain ⟨r, hr, hjob⟩ := List.mem_flatMap.mp hjob
  obtain ⟨i, hi⟩ := List.mem_iff_getElem?.mp hr
  have hlt : i < items.length := h.length ▸ (List.getElem?_eq_some_iff.mp hi).1
  exact jobsLabelled_completeItem hcomplete (h.item (List.getElem?_eq_getElem hlt) hi) job hjob

theorem ListReport.jobsLabelled (hcomplete : complete.Labels I ctx)
    (h : ListReport I ctx complete plan t path value r) : r.JobsLabelled ctx := by
  cases h with
  | failed => exact Report.jobsLabelled_failed _
  | whole _ _ hreports => exact hreports.jobsLabelled hcomplete
  | begun _ _ hreports _ hstreaming =>
    refine (hreports.jobsLabelled hcomplete).followed ?_ _
    exact ⟨_, hstreaming⟩

theorem ValueReport.jobsLabelled (hcomplete : complete.Labels I ctx)
    (hcompleteField : completeField.Labels I ctx)
    (h : ValueReport I ctx complete completeField plan t path value r) : r.JobsLabelled ctx := by
  cases h with
  | failed => exact Report.jobsLabelled_failed _
  | null | scalar | enum => exact fun _ hjob => nomatch hjob
  | list _ _ hr => exact hr.jobsLabelled hcomplete
  | object _ _ _ _ hr => exact hr.jobsLabelled hcompleteField

theorem labels_completeWithin (depth : Nat) (isStreamable : Bool) :
    (completeWithin ctx depth isStreamable).Labels I ctx := by
  induction depth generalizing isStreamable with
  | zero => exact fun _ _ _ _ _ h => h.elim
  | succ depth ih => exact fun _ _ _ _ _ h => (yields_completeValue h).jobsLabelled (ih _) (ih _)

theorem labelled_of_queued (h : r.JobsLabelled ctx) :
    ∀ job ∈ r.outcome.queued, job.Labelled ctx := by
  intro job hjob
  obtain ⟨ticket, hmem⟩ := Outcome.mem_jobs_of_mem_queued hjob
  exact h _ hmem

theorem labelled_executeRoot (h : Yields I (executeRoot ctx root) r) : r.JobsLabelled ctx := by
  obtain ⟨collected, deferred, fields, rfl, -, hreport⟩ := yields_executeRoot h
  exact hreport.jobsLabelled (labels_completeWithin _ _)

theorem labelled_of_job {job : Job σ} (hjob : job.Labelled ctx)
    (h : Yields I (job.execute ctx) r) : ∀ left ∈ r.outcome.queued, left.Labelled ctx := by
  have hcomplete (isStreamable : Bool) :
      (completeWithin ctx ctx.bounds.response isStreamable).Labels I ctx :=
    labels_completeWithin _ _
  refine labelled_of_queued ?_
  cases yields_execute h with
  | deferred hreport => exact hreport.jobsLabelled (hcomplete true)
  | ended | failed => exact fun _ hjob => nomatch hjob
  | last _ hitem => exact jobsLabelled_completeItem (hcomplete false) hitem
  | more _ hitem =>
    refine (jobsLabelled_completeItem (hcomplete false) hitem).followed ?_ _
    exact hjob

end

/-! ## Where jobs come from -/

/-- Whether a label is what the first directive called `name` is given. -/
def Schema.ReadsLabel (schema : Schema σ) (directives : List (Located Directive)) (name : String)
    (label : Option String) : Prop :=
  ∃ scope node definition args, findDirective directives name = some node ∧
    schema.directive? name = some definition ∧
    schema.coerceDirective scope definition node = .ok args ∧
    label = (args.get? "label").bind Value.string?

theorem readsLabel_of_deferLabel? {ctx : CollectionContext σ}
    {fragmentVariables : Option FragmentVariables} {directives : List (Located Directive)}
    {label : Option String} (h : ctx.deferLabel? fragmentVariables directives = some label) :
    ctx.schema.ReadsLabel directives "defer" label := by
  obtain ⟨args, hargs, h⟩ := Option.bind_eq_some_iff.mp h
  obtain ⟨node, hnode, hargs⟩ := Option.bind_eq_some_iff.mp hargs
  obtain ⟨definition, hdefinition, hargs⟩ := Option.bind_eq_some_iff.mp hargs
  refine ⟨_, node, definition, args, hnode, hdefinition, toOption_eq_some hargs, ?_⟩
  split at h
  · cases h
  · exact (Option.some.inj h).symm

theorem readsLabel_of_streaming {ctx : ExecutionContext σ} {plan : FieldPlan σ} {path : Path}
    {count : Nat} {label : Option String}
    (h : plan.streaming path ctx = .ok (some (count, label))) :
    ctx.schema.ReadsLabel plan.node.directives "stream" label := by
  unfold FieldPlan.streaming at h
  split at h
  · next node definition hnode hdefinition =>
    obtain ⟨args, hargs, h⟩ := bind_eq_ok h
    refine ⟨_, node, definition, args, hnode, hdefinition, mapError_eq_ok hargs, ?_⟩
    split at h
    · cases h
    · dsimp only at h
      split at h
      · cases h
      · cases h
        rfl
  · cases h

/-- Whether a job may be what is left for later by an occurrence. -/
def Job.ComesFrom (ctx : ExecutionContext σ) (o : Occurrence) : Job σ → Prop
  | .deferred object _ _ fragment => ∃ selection : Selection, o.bearer = .selection selection ∧
    findDirective selection.directives "defer" = some o.directive ∧
    (ctx.collection object).Defers selection fragment
  | .streamed plan _ path label _ _ => o.bearer = .selection plan.node.selection ∧
    findDirective plan.node.directives "stream" = some o.directive ∧
    ∃ count, plan.streaming path ctx = .ok (some (count, label))

/-- The label of the part that a job delivers. -/
def Job.label : Job σ → Option String
  | .deferred _ _ _ fragment => fragment.label
  | .streamed _ _ _ label _ _ => label

theorem label_of_part {job : Job σ} {r : Report σ} {part : Part} (h : job.part r = some part) :
    part.label = job.label := by
  cases job with
  | deferred =>
    obtain rfl := Option.some.inj h
    rfl
  | streamed => rw [part_streamed h, Job.label]

section

variable {ctx : ExecutionContext σ} {root : ObjectType σ} {d : Document} {job : Job σ}

theorem exists_comesFrom (hctx : ctx.WrittenIn d) (hdeclared : job.Declared ctx root)
    (hlabelled : job.Labelled ctx) : ∃ o ∈ d.occurrences, job.ComesFrom ctx o := by
  cases job with
  | deferred object source path fragment =>
    obtain ⟨collected, hplace, hfragment⟩ := hdeclared
    obtain ⟨-, hdeferred, -⟩ := hplace.writtenIn hctx
    obtain ⟨selection, hselection, hdefers⟩ := hdeferred fragment hfragment
    obtain ⟨_, _, _, _, hlabel, -⟩ := id hdefers
    obtain ⟨_, node, _, _, hnode, -⟩ := readsLabel_of_deferLabel? hlabel
    refine ⟨⟨.selection selection, node⟩, ?_, selection, rfl, hnode, hdefers⟩
    exact hselection (mem_occurrences_of_findDirective (.inl rfl) hnode)
  | streamed plan itemType path label index source =>
    obtain ⟨t, hplace, -⟩ := hdeclared
    obtain ⟨count, hstreaming⟩ := hlabelled
    obtain ⟨_, node, _, _, hnode, -⟩ := readsLabel_of_streaming hstreaming
    refine ⟨⟨.selection plan.node.selection, node⟩, ?_, rfl, hnode, count, hstreaming⟩
    refine hplace.writtenIn hctx plan.use List.mem_cons_self ?_
    exact mem_occurrences_of_findDirective (.inr rfl) hnode

/-- Whether labels are read as they are written. -/
structure Schema.ReadsLabels (schema : Schema σ) : Prop where
  string : schema.type? "String" = some (.scalar .string)
  defer : schema.directive? "defer" = some .defer
  stream : schema.directive? "stream" = some .stream

theorem readsLabels_of_build {declaration : SchemaDeclaration σ} {schema : Schema σ}
    (h : Schema.build declaration = .ok schema) (hscalars : schema.KeepsScalars) :
    schema.ReadsLabels where
  string := hscalars .string (by simp [ScalarType.builtins])
  defer := by
    have hmem : DirectiveDefinition.defer ∈ DirectiveDefinition.builtins := by
      simp [DirectiveDefinition.builtins]
    exact directive?_of_build h hmem
  stream := by
    have hmem : DirectiveDefinition.stream ∈ DirectiveDefinition.builtins := by
      simp [DirectiveDefinition.builtins]
    exact directive?_of_build h hmem

theorem Job.ComesFrom.label_eq (hschema : ctx.schema.ReadsLabels) {o : Occurrence}
    (h : job.ComesFrom ctx o) (hstatic : o.directive.item.HasStaticLabel) :
    job.label = o.directive.item.labelText? := by
  cases job with
  | deferred object source path fragment =>
    obtain ⟨selection, -, hnode, _, _, _, _, hlabel, -⟩ := h
    obtain ⟨_, _, _, args, hnode', hdefinition, hargs, heq⟩ := readsLabel_of_deferLabel? hlabel
    cases hnode.symm.trans hnode'
    cases hschema.defer.symm.trans hdefinition
    have hlabel : DirectiveDefinition.label ∈ DirectiveDefinition.defer.arguments := by
      simp [DirectiveDefinition.defer]
    exact heq.trans (label_of_coerceDirective hschema.string hlabel (by decide) hstatic hargs)
  | streamed plan itemType path label index source =>
    obtain ⟨-, hnode, count, hstreaming⟩ := h
    obtain ⟨_, _, _, args, hnode', hdefinition, hargs, heq⟩ := readsLabel_of_streaming hstreaming
    cases hnode.symm.trans hnode'
    cases hschema.stream.symm.trans hdefinition
    have hlabel : DirectiveDefinition.label ∈ DirectiveDefinition.stream.arguments := by
      simp [DirectiveDefinition.stream]
    exact heq.trans (label_of_coerceDirective hschema.string hlabel (by decide) hstatic hargs)

end

/-! ## Labels tell where parts come from -/

/-- Whether the labels of the parts that were delivered tell which occurrences they come from. -/
structure Document.LabelsIdentify (d : Document) (ctx : ExecutionContext σ)
    (history : List (Finished σ)) : Prop where
  /-- Each part comes from an occurrence. -/
  origin : ∀ f ∈ history, ∃ o ∈ d.occurrences, f.job.ComesFrom ctx o
  /-- Its label is the string literal that is written there. -/
  written : ∀ f ∈ history, ∀ part, f.part = some part → ∀ o ∈ d.occurrences,
    f.job.ComesFrom ctx o → part.label = o.directive.item.labelText?
  /-- Parts with the same label come from the same occurrence. -/
  same : ∀ f ∈ history, ∀ g ∈ history, ∀ p q label, f.part = some p → g.part = some q →
    p.label = some label → q.label = some label → ∀ (i j : Nat) o o',
    d.occurrences[i]? = some o → f.job.ComesFrom ctx o →
    d.occurrences[j]? = some o' → g.job.ComesFrom ctx o' → i = j

theorem labelsIdentify_of_delivers {r : Request σ} {w w' : World σ} {initial : InitialResult}
    {ctx : ExecutionContext σ} {jobs : List (Job σ)} (hschema : r.schema.ReadsLabels) {depth : Nat}
    (hvalid : validate r.schema depth r.document = some [])
    (h : r.executeIncrementally w = some (.incremental initial ctx jobs, w'))
    {history : List (Finished σ)} {d : Delivery σ} (hd : Delivers ctx jobs history d) :
    r.document.LabelsIdentify ctx history := by
  obtain ⟨root, report, hprepare, hyields, rfl⟩ := report_of_executeIncrementally h
  have hctx := writtenIn_of_prepare hprepare
  rw [← schema_of_prepare hprepare] at hschema
  have horigin : ∀ f ∈ history, ∃ o ∈ r.document.occurrences, f.job.ComesFrom ctx o := by
    refine hd.unfolds.invariant (Q := fun job => job.Declared ctx root ∧ job.Labelled ctx)
      (fun f hjob hyields => ⟨exists_comesFrom hctx hjob.1 hjob.2, fun job hleft => ?_⟩)
      (fun job hjob => ?_)
    · exact ⟨declared_of_job hjob.1 hyields job hleft, labelled_of_job hjob.2 hyields job hleft⟩
    · exact ⟨declared_of_queued (jobsDeclared_executeRoot hyields) job hjob,
        labelled_of_queued (labelled_executeRoot hyields) job hjob⟩
  have hwritten {f : Finished σ} {part : Part} (hpart : f.part = some part) {o : Occurrence}
      (ho : o ∈ r.document.occurrences) (hfrom : f.job.ComesFrom ctx o) :
      part.label = o.directive.item.labelText? :=
    (label_of_part hpart).trans (hfrom.label_eq hschema (hasStaticLabel_of_validate hvalid ho))
  refine ⟨horigin, fun f _ part hpart o ho hfrom => hwritten hpart ho hfrom, ?_⟩
  intro f _ g _ p q label hp hq hplabel hqlabel i j o o' ho hfrom ho' hfrom'
  refine eq_of_validate hvalid ho ho' (s := label) ?_ ?_
  · exact (hwritten hp (List.mem_of_getElem? ho) hfrom).symm.trans hplabel
  · exact (hwritten hq (List.mem_of_getElem? ho') hfrom').symm.trans hqlabel

/-- Labels identify their directives: in every run of a valid document, each part carries the label
that is written where it comes from, and no other place has that label. Validation finds just the
labels that are not static or not unique. -/
theorem labels_identify :
    (∀ (declaration : SchemaDeclaration σ) (r : Request σ) depth w w' initial ctx jobs history d,
      Schema.build declaration = .ok r.schema → r.schema.KeepsScalars →
      validate r.schema depth r.document = some [] →
      r.executeIncrementally w = some (.incremental initial ctx jobs, w') →
      Delivers ctx jobs history d → r.document.LabelsIdentify ctx history) ∧
    ∀ (schema : Schema σ) depth (d : Document) errors, validate schema depth d = some errors →
      (errors.filter (·.isOfLabel)).Perm (labelErrors [] (d.occurrences.map (·.directive))) := by
  constructor
  · intro declaration r depth w w' initial ctx jobs history d hbuild hscalars hvalid h hd
    exact labelsIdentify_of_delivers (readsLabels_of_build hbuild hscalars) hvalid h hd
  · intro schema depth d errors h
    exact labelErrors_of_validate h

/-- `name(label: …)` as a directive. -/
def sampleLabelled (name : String) (label : Literal) : Located Directive :=
  sampleText ⟨sampleText name, some (sampleText [⟨sampleText "label", sampleText label⟩])⟩

/-- `{ name ... @defer(label: …) { numbers @stream(label: …) } }` -/
def sampleLabels (first second : Literal) : Document :=
  [.operation { sampleOperation with
    selections := [
      sampleField "name" [],
      .inline default ⟨none, [sampleLabelled "defer" first]⟩
        [sampleField "numbers" [sampleLabelled "stream" second]]] }]

def labelledRequest : Request Unit :=
  { sampleRequest [.int 1, .int 2] with
    document := sampleLabels (.string "rest") (.string "number") }

theorem labelledRequest_identify :
    (∃ initial ctx jobs w history d,
      labelledRequest.executeIncrementally sampleWorld = some (.incremental initial ctx jobs, w) ∧
      Delivers ctx jobs history d ∧
      history.filterMap (fun f => f.part.bind (·.label)) = ["rest", "number", "number"] ∧
      labelledRequest.document.LabelsIdentify ctx history) ∧
    ∃ errors, validate (sampleSchema : Schema Unit) 9
        (sampleLabels (.string "rest") (.string "rest")) = some errors ∧
      errors.length = 1 ∧
      (errors.filter (·.isOfLabel)).Perm (labelErrors []
        ((sampleLabels (.string "rest") (.string "rest")).occurrences.map (·.directive))) := by
  have hbuild : Schema.build { query := "Query", types := [.object sampleType] } =
      .ok labelledRequest.schema := rfl
  have hscalars : labelledRequest.schema.KeepsScalars := keepsScalars_of_build hbuild (by decide)
  have hvalid : validate labelledRequest.schema 9 labelledRequest.document = some [] := by
    decide +kernel
  have hanswered : (labelledRequest.executeIncrementally sampleWorld).any fun
      | (.incremental _ ctx jobs, w) => (runJobs ctx jobs w).any fun (history, _) =>
          history.filterMap (fun f => f.part.bind (·.label)) = ["rest", "number", "number"]
      | (.single _, _) => false := by decide +kernel
  have hrefused : (validate (sampleSchema : Schema Unit) 9
      (sampleLabels (.string "rest") (.string "rest"))).any fun errors => errors.length = 1 := by
    decide +kernel
  constructor
  · obtain ⟨⟨response, w⟩, h, hlater⟩ := (Option.any_eq_true _ _).mp hanswered
    cases response with
    | single => cases hlater
    | incremental initial ctx jobs =>
      obtain ⟨⟨history, v⟩, hrun, hlabels⟩ := (Option.any_eq_true _ _).mp hlater
      obtain ⟨d, hd⟩ := delivers_of_runJobs hrun
      exact ⟨initial, ctx, jobs, w, history, d, h, hd, by simpa using hlabels,
        labels_identify.1 _ _ 9 _ _ _ _ _ _ _ hbuild hscalars hvalid h hd⟩
  · obtain ⟨errors, herrors, hlength⟩ := (Option.any_eq_true _ _).mp hrefused
    exact ⟨errors, herrors, by simpa using hlength, labels_identify.2 _ _ _ _ herrors⟩

end GraphQL
