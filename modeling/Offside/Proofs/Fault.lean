import Offside.Error
import Offside.Result

/-!
Faults of the source against those of the front end itself. A computation is blameless if it
ends with a result of the kind promised or with a fault of the source.
-/

namespace Offside

variable {α β : Type} {P Q : α → Prop}

def Blameless (P : α → Prop) : Except Fault α → Prop
  | .ok a => P a
  | .error f => f.kind ≠ .internal

abbrev Any (_ : α) : Prop := True

namespace Blameless

theorem bind {R : β → Prop} {x : Except Fault α} {f : α → Except Fault β}
    (hx : Blameless P x) (hf : ∀ a, P a → Blameless R (f a)) : Blameless R (x >>= f) := by
  cases x with
  | ok a => exact hf a hx
  | error e => exact hx

theorem map {R : β → Prop} {x : Except Fault α} {f : α → β} (hx : Blameless P x)
    (hf : ∀ a, P a → R (f a)) : Blameless R (x.map f) := by
  cases x with
  | ok a => exact hf a hx
  | error e => exact hx

theorem mono {x : Except Fault α} (hx : Blameless P x) (h : ∀ a, x = .ok a → P a → Q a) :
    Blameless Q x := by
  cases x with
  | ok a => exact h a rfl hx
  | error e => exact hx

theorem result {x : Except Fault α} (hx : Blameless P x) : Blameless (x = .ok ·) x :=
  hx.mono fun _ h _ => h

theorem of_ok {x : Except Fault α} (h : ∃ a, x = .ok a ∧ P a) : Blameless P x := by
  obtain ⟨a, rfl, ha⟩ := h
  exact ha

theorem fault {x : Except Fault α} {f : Fault} (hx : Blameless P x) (h : x = .error f) :
    f.kind ≠ .internal := by
  subst h
  exact hx

end Blameless

end Offside
