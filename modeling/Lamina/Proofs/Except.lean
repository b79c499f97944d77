/-! Results of computations that may fail, taken apart. -/

namespace Lamina

variable {ε α β : Type}

theorem map_eq_ok {x : Except ε α} {f : α → β} {b : β} :
    x.map f = .ok b ↔ ∃ a, x = .ok a ∧ f a = b := by
  cases x with
  | error => simp [Except.map]
  | ok a => simp [Except.map]

theorem map_eq_error {x : Except ε α} {f : α → β} {e : ε} : x.map f = .error e ↔ x = .error e := by
  cases x with
  | error => simp [Except.map]
  | ok a => simp [Except.map]

theorem bind_eq_ok {x : Except ε α} {f : α → Except ε β} {b : β} :
    x >>= f = .ok b ↔ ∃ a, x = .ok a ∧ f a = .ok b := by
  cases x with
  | error => simp [bind, Except.bind]
  | ok a => simp [bind, Except.bind]

theorem eq_ok_of_mapError {ε' : Type} {x : Except ε α} {f : ε → ε'} {a : α}
    (h : x.mapError f = .ok a) : x = .ok a := by
  cases x with
  | error => cases h
  | ok b => exact congrArg _ (Except.ok.inj h)

theorem mapError_eq_error {ε' : Type} {x : Except ε α} {f : ε → ε'} {e' : ε'} :
    x.mapError f = .error e' ↔ ∃ e, x = .error e ∧ f e = e' := by
  constructor
  · intro h
    cases x with
    | error e =>
      cases h
      exact ⟨e, rfl, rfl⟩
    | ok a => cases h
  · rintro ⟨e, rfl, rfl⟩
    rfl

theorem eq_ok_of_toOption {x : Except ε α} {a : α} (h : x.toOption = some a) : x = .ok a := by
  cases x with
  | error => cases h
  | ok b => exact congrArg _ (Option.some.inj h)

def failure? : Except ε α → Option ε
  | .error e => some e
  | .ok _ => none

theorem eq_error_of_failure? {x : Except ε α} {e : ε} (h : failure? x = some e) : x = .error e := by
  cases x with
  | error e' => exact congrArg _ (Option.some.inj h)
  | ok a => cases h

theorem isOk_eq_or_error {x y : Except ε α} {P : ε → Prop}
    (hxy : ∀ a, x = .ok a → (∃ b, y = .ok b) ∨ ∃ e, y = .error e ∧ P e)
    (hyx : ∀ b, y = .ok b → (∃ a, x = .ok a) ∨ ∃ e, x = .error e ∧ P e) :
    x.isOk = y.isOk ∨ ∃ e, P e ∧ (x = .error e ∨ y = .error e) := by
  cases x with
  | ok a =>
    rcases hxy a rfl with ⟨b, rfl⟩ | ⟨e, he, hp⟩
    · exact .inl rfl
    · exact .inr ⟨e, hp, .inr he⟩
  | error e =>
    cases y with
    | error e' => exact .inl rfl
    | ok b =>
      rcases hyx b rfl with ⟨a, ha⟩ | ⟨e, he, hp⟩
      · cases ha
      · exact .inr ⟨e, hp, .inl he⟩

end Lamina
