/-!
Success and failure of a computation that may fail, taken apart: a step that succeeds was
handed the result of one that did, and a failure is that of one of the steps.
-/

namespace Offside

variable {ε α β : Type} {e : ε}

theorem map_eq_ok {x : Except ε α} {f : α → β} {b : β} :
    x.map f = .ok b ↔ ∃ a, x = .ok a ∧ f a = b := by
  cases x <;> simp [Except.map]

theorem bind_eq_ok {x : Except ε α} {f : α → Except ε β} {b : β} :
    x >>= f = .ok b ↔ ∃ a, x = .ok a ∧ f a = .ok b := by
  cases x <;> simp [bind, Except.bind]

theorem map_eq_error {x : Except ε α} {f : α → β} : x.map f = .error e ↔ x = .error e := by
  cases x <;> simp [Except.map]

theorem bind_eq_error {x : Except ε α} {f : α → Except ε β} :
    x >>= f = .error e ↔ x = .error e ∨ ∃ a, x = .ok a ∧ f a = .error e := by
  cases x <;> simp [bind, Except.bind]

theorem map_bind_comm {α' β' : Type} {F : α → α'} {G : β → β'} {x : Except ε α}
    {f : α → Except ε β} {g : α' → Except ε β'} (h : ∀ a, g (F a) = (f a).map G) :
    x.map F >>= g = (x >>= f).map G := by
  cases x with
  | ok a => exact h a
  | error e => rfl

end Offside
