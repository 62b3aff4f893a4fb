import GraphQL.Proofs.Coercion.Termination

/-! # Errors point at values

Each error of coercing an external value says which part of the value it refuses: its path leads
from the value to just that part.
-/

namespace GraphQL

variable {σ : Type} {schema : Schema σ} {defaultOf : DefaultCoercion}

/-- The error's path leads from `v` to the value that it refuses. -/
def CoercionError.PointsInto (e : CoercionError) (v : Value) : Prop :=
  ∃ refused, e.value = some refused ∧ v.at? e.path = some refused

theorem CoercionError.pointsInto_self {problem : CoercionProblem} (v : Value) :
    ({ problem, value := some v } : CoercionError).PointsInto v :=
  ⟨v, rfl, rfl⟩

theorem CoercionError.PointsInto.below {e : CoercionError} {v inner : Value} {s : Segment}
    (h : e.PointsInto inner) (hs : v.child? s = some inner) : (e.below s).PointsInto v := by
  obtain ⟨refused, hvalue, hpath⟩ := h
  refine ⟨refused, hvalue, ?_⟩
  change (v.child? s).bind (·.at? e.path) = _
  rw [hs, Option.bind_some, hpath]

namespace Checked

/-- All errors point into the value that was checked. -/
def PointInto (c : Checked) (v : Value) : Prop := ∀ e ∈ c.errors, e.PointsInto v

theorem pointInto_accepted (w v : Value) : (accepted w).PointInto v := fun _ h => nomatch h

theorem pointInto_refused (problem : CoercionProblem) (v : Value) :
    (refused problem v).PointInto v :=
  List.forall_mem_singleton.mpr (CoercionError.pointsInto_self v)

/-- Values inside of lists made for them are where they were. -/
theorem PointInto.nested {c : Checked} {v : Value} (h : c.PointInto v) (n : Nat) :
    (c.nested n).PointInto v := by
  unfold PointInto
  rwa [errors_nested]

theorem pointInto_ofItems {items : List Value} {check : Value → Checked}
    (h : ∀ v ∈ items, (check v).PointInto v) :
    (ofItems (items.map check)).PointInto (.list items) := by
  intro e he
  obtain ⟨c, i, hc, inner, hinner, rfl⟩ := mem_errors_ofItems.mp he
  rw [List.getElem?_map] at hc
  obtain ⟨v, hv, rfl⟩ := Option.map_eq_some_iff.mp hc
  exact (h v (List.mem_of_getElem? hv) inner hinner).below hv

end Checked

theorem inputOf_points {fields : Object} {d : InputDefinition}
    (h : ∀ w, Entries.get? d.name fields = some w → (inputAs schema defaultOf w d.type).PointInto w) :
    ∀ e ∈ (d.inputOf defaultOf (inputMembers schema defaultOf fields) (.object fields)).2,
      e.PointsInto (.object fields) := by
  unfold InputDefinition.inputOf
  rw [get?_inputMembers]
  cases hget : Entries.get? d.name fields with
  | some w => exact List.forall_mem_map.mpr fun e he => (h w hget e he).below hget
  | none =>
    dsimp only [Option.map_none]
    split
    · split
      · exact fun _ he => nomatch he
      · exact List.forall_mem_singleton.mpr (CoercionError.pointsInto_self _)
    · split
      · exact List.forall_mem_singleton.mpr (CoercionError.pointsInto_self _)
      · exact fun _ he => nomatch he

theorem inputObject_points {o : InputObjectType} {members : Entries (TypeRef → Checked)} {v : Value}
    (h : ∀ fields, v = .object fields → ∀ d ∈ o.fields.value,
      ∀ e ∈ (d.inputOf defaultOf members v).2, e.PointsInto v) :
    (o.input defaultOf members v).PointInto v := by
  cases v with
  | object fields =>
    intro e he
    simp only [InputObjectType.input, List.mem_append, List.flatMap_map, List.mem_flatMap] at he
    rcases he with ⟨d, hd, he⟩ | he
    · exact h fields rfl d hd e he
    · obtain ⟨problem, -, rfl⟩ := List.mem_map.mp he
      exact CoercionError.pointsInto_self _
  | _ => exact Checked.pointInto_refused _ _

theorem inputNamed_points {members : Entries (TypeRef → Checked)} {v : Value} {name : String}
    (h : ∀ o : InputObjectType, ∀ fields, v = .object fields → ∀ d ∈ o.fields.value,
      ∀ e ∈ (d.inputOf defaultOf members v).2, e.PointsInto v) :
    (inputNamed schema defaultOf members v name).PointInto v := by
  unfold inputNamed
  split
  · split
    · exact Checked.pointInto_accepted _ _
    · exact Checked.pointInto_refused _ _
  · unfold EnumType.input
    split
    · exact Checked.pointInto_refused _ _
    · split
      · exact Checked.pointInto_accepted _ _
      · exact Checked.pointInto_refused _ _
  · next o _ => exact inputObject_points (h o)
  · exact Checked.pointInto_refused _ _

theorem inputAs_points (v : Value) (t : TypeRef) :
    (inputAs schema defaultOf v t).PointInto v := by
  -- Induction on the value: whatever is reported is reported where it is.
  induction v using Value.induct generalizing t with
  | null =>
    unfold inputAs
    split
    · exact Checked.pointInto_refused _ _
    · exact Checked.pointInto_accepted _ _
  | scalar s =>
    unfold inputAs
    refine (inputNamed_points fun _ _ hv => ?_).nested _
    cases hv
  | list items ih =>
    unfold inputAs
    split
    · next item _ =>
      simp only [inputItems_eq_map, List.map_map]
      exact Checked.pointInto_ofItems fun v hv => ih v hv item
    · refine inputNamed_points fun _ _ hv => ?_
      cases hv
  | object fields ih =>
    unfold inputAs
    refine (inputNamed_points fun o _ _ d _ => inputOf_points ?_).nested _
    exact fun w hw => ih d.name w (Entries.mem_of_get? hw) d.type

namespace Schema

/-- Where no default needs itself, coercing a value succeeds, or ends with errors that say where in
the value they are. -/
theorem coerceInput_points (hacyclic : ∀ d, ¬ Relation.TransGen schema.Needs d d) (v : Value)
    (t : TypeRef) :
    (∃ coerced, schema.coerceInput v t = .ok coerced) ∨
    ∃ errors, schema.coerceInput v t = .error errors ∧ errors ≠ [] ∧
      ∀ e ∈ errors, e.isEndless = false ∧ e.PointsInto v := by
  cases h : schema.coerceInput v t with
  | ok coerced => exact .inl ⟨coerced, rfl⟩
  | error errors =>
    obtain ⟨rfl, hne⟩ := Checked.toExcept_eq_error.mp h
    have ends : (inputAs schema schema.coerceDefault v t).ConcludesAs
        (inputAs schema schema.coerceDefault v t) :=
      inputAs_concludes fun need _ => agreeOn_of_acyclic hacyclic (Nat.lt_succ_self _) need
    exact .inr ⟨_, rfl, hne, fun e he => ⟨ends.concludes e he, inputAs_points v t e he⟩⟩

end Schema

/-- A tree with a leaf that is no number and a field that trees do not have. -/
def sampleBadTree : Value := .object [("right", .object [
  ("leaf", .object [("size", .string "big")]), ("bark", .null)]), ("left", .boolean true)]

theorem sampleBadTree_points : (∀ d, ¬ Relation.TransGen (sampleTrees : Schema Unit).Needs d d) ∧
    ∃ errors, (sampleTrees : Schema Unit).coerceInput (.list [sampleBadTree])
        (.list (.named "Tree")) = .error errors ∧
      errors.map (·.pathText) = ["[0].left", "[0].right.leaf.size", "[0].right"] ∧
      ∀ e ∈ errors, e.isEndless = false ∧ e.PointsInto (.list [sampleBadTree]) := by
  refine ⟨sampleTrees_acyclic, ?_⟩
  obtain ⟨coerced, hok⟩ | ⟨errors, herrors, -, hpoints⟩ :=
    Schema.coerceInput_points sampleTrees_acyclic (.list [sampleBadTree]) (.list (.named "Tree"))
  · cases hok
  · refine ⟨errors, herrors, ?_, hpoints⟩
    cases herrors
    rfl

/-- A list of one empty object is neither coerced nor refused, although the schema is valid. -/
theorem sampleRings_lost :
    (sampleRings : Schema Unit).problems = [] ∧
      ∀ n, ∃ e ∈ (inputAs (sampleRings : Schema Unit) ((sampleRings : Schema Unit).defaultWithin n)
        (.list [.object []]) (.list (.named "Ring"))).errors, e.isEndless := by
  have hitem : (sampleRings : Schema Unit).ValueNeeds (.list [.object []]) (.list (.named "Ring"))
      ⟨.value (.object []), .named "Ring"⟩ := .item rfl List.mem_cons_self sampleRings_needs
  refine ⟨by decide +kernel, fun n => hitem.exists_endless ?_⟩
  exact Schema.exists_endless_of_itself (.single ⟨_, rfl, sampleRings_needs⟩) n

end GraphQL
