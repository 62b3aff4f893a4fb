import Mathlib.Data.List.Nodup
import GraphQL.Schema.Build

/-! # Attempts

What an attempt that is made of others succeeded with, or failed with. Looking something up by its
name finds it, if no other has that name.
-/

namespace GraphQL

variable {ε ε' α β : Type}

theorem bind_eq_ok {x : Except ε α} {f : α → Except ε β} {b : β} (h : (x >>= f) = .ok b) :
    ∃ a, x = .ok a ∧ f a = .ok b := by
  cases x with
  | error e => cases h
  | ok a => exact ⟨a, rfl, h⟩

theorem bind_eq_error {x : Except ε α} {f : α → Except ε β} {e : ε}
    (h : (x >>= f) = .error e) : x = .error e ∨ ∃ a, x = .ok a ∧ f a = .error e := by
  cases x with
  | error e' => exact .inl (congrArg Except.error (Except.error.inj h))
  | ok a => exact .inr ⟨a, rfl, h⟩

theorem map_eq_ok {x : Except ε α} {f : α → β} {b : β} (h : x.map f = .ok b) :
    ∃ a, x = .ok a ∧ f a = b := by
  cases x with
  | error e => cases h
  | ok a => exact ⟨a, rfl, Except.ok.inj h⟩

theorem map_eq_error {x : Except ε α} {f : α → β} {e : ε} (h : x.map f = .error e) :
    x = .error e := by
  cases x with
  | error e' => exact congrArg Except.error (Except.error.inj h)
  | ok a => cases h

theorem toOption_eq_some {x : Except ε α} {a : α} (h : x.toOption = some a) : x = .ok a := by
  cases x with
  | error e => cases h
  | ok b => exact congrArg Except.ok (Option.some.inj h)

theorem mapError_eq_ok {x : Except ε α} {f : ε → ε'} {a : α} (h : x.mapError f = .ok a) :
    x = .ok a := by
  cases x with
  | error e => cases h
  | ok b => exact congrArg Except.ok (Except.ok.inj h)

theorem mapError_eq_error {f : ε → ε'} {x : Except ε α} {e' : ε'}
    (h : x.mapError f = .error e') : ∃ e, x = .error e ∧ f e = e' := by
  cases x with
  | error e => exact ⟨e, rfl, by simpa [Except.mapError] using h⟩
  | ok a => simp [Except.mapError] at h

/-! ## Attempts that fail alike -/

theorem cases_of_mapError_eq {f : ε → ε'} {x x' : Except ε α} (h : x.mapError f = x'.mapError f) :
    (∃ e e', x = .error e ∧ x' = .error e' ∧ f e = f e') ∨ ∃ a, x = .ok a ∧ x' = .ok a := by
  rcases x with e | a <;> rcases x' with e' | a'
  · exact .inl ⟨e, e', rfl, rfl, Except.error.inj h⟩
  · cases h
  · cases h
  · exact .inr ⟨a, rfl, congrArg Except.ok (Except.ok.inj h).symm⟩

theorem toOption_congr {f : ε → ε'} {x x' : Except ε α} (h : x.mapError f = x'.mapError f) :
    x.toOption = x'.toOption := by
  obtain ⟨e, e', rfl, rfl, -⟩ | ⟨a, rfl, rfl⟩ := cases_of_mapError_eq h <;> rfl

theorem mapError_bind_congr {f : ε → ε'} {x x' : Except ε α} {k k' : α → Except ε β}
    (h : x.mapError f = x'.mapError f) (hk : ∀ a, (k a).mapError f = (k' a).mapError f) :
    (x >>= k).mapError f = (x' >>= k').mapError f := by
  obtain ⟨e, e', rfl, rfl, he⟩ | ⟨a, rfl, rfl⟩ := cases_of_mapError_eq h
  · exact congrArg Except.error he
  · exact hk a

theorem mapError_map_congr {f : ε → ε'} {x x' : Except ε α} (h : x.mapError f = x'.mapError f)
    (g : α → β) : (x.map g).mapError f = (x'.map g).mapError f := by
  obtain ⟨e, e', rfl, rfl, he⟩ | ⟨a, rfl, rfl⟩ := cases_of_mapError_eq h
  · exact congrArg Except.error he
  · rfl

/-! ## Finding by name -/

theorem find?_of_nodup {name : α → String} {as : List α} (hnames : (as.map name).Nodup) {a : α}
    (ha : a ∈ as) : as.find? (name · = name a) = some a := by
  cases hfound : as.find? (name · = name a) with
  | none => simpa using List.find?_eq_none.mp hfound a ha
  | some b =>
    have hname : name b = name a := by simpa using List.find?_some hfound
    rw [List.inj_on_of_nodup_map hnames (List.mem_of_find?_eq_some hfound) ha hname]

theorem Schema.mem_of_type? {σ : Type} {schema : Schema σ} {name : String} {t : TypeDefinition σ}
    (h : schema.type? name = some t) : t ∈ schema.types :=
  List.mem_of_find?_eq_some h

end GraphQL
