import Mathlib
import Offside.Error

/-!
Computations that take nothing for granted. A step may be undefined: a slice that reaches out of its
list, a difference below zero, a division by zero, a place where nothing is. A loop may go on for
ever. Neither has an outcome, so that an outcome stands for a run in which every step is defined and
every loop ends.
-/

namespace Offside.Checked

/-- A computation with a state. If it has an outcome, this is a value or a failure, and the state is
left behind in either case. -/
abbrev Run (ε σ α : Type) := ExceptT ε (StateT σ Option) α

def sub (a b : Nat) : Option Nat :=
  if b ≤ a then some (a - b) else none

def divMod (a b : Nat) : Option (Nat × Nat) :=
  if b = 0 then none else some (a / b, a % b)

/-- What stands from one place of a list up to another, if these are places of it. -/
def slice {α : Type} (xs : List α) (start stop : Nat) : Option (List α) :=
  if start ≤ stop ∧ stop ≤ xs.length then some ((xs.take stop).drop start) else none

def cut {α : Type} (xs : List α) (place : Nat) : Option (List α × List α) :=
  if place ≤ xs.length then some (xs.splitAt place) else none

section Steps

variable {ε σ α β : Type} {x : Run ε σ α} {f : α → Run ε σ β} {s t : σ} {a : α} {e : ε}

theorem bind_of_ok (h : x s = some (.ok a, t)) : (x >>= f) s = f a t := by
  change (x s).bind _ = _
  rw [h]
  rfl

theorem bind_of_error (h : x s = some (.error e, t)) : (x >>= f) s = some (.error e, t) := by
  change (x s).bind _ = _
  rw [h]
  rfl

theorem pure_apply (a : α) (s : σ) : (pure a : Run ε σ α) s = some (.ok a, s) := rfl

theorem get_apply (s : σ) : (get : Run ε σ σ) s = some (.ok s, s) := rfl

theorem set_apply (t s : σ) : (set t : Run ε σ PUnit) s = some (.ok ⟨⟩, t) := rfl

theorem lift_apply (a : α) (s : σ) :
    (liftM (some a) : Run ε σ α) s = some (.ok a, s) := rfl

theorem liftExcept_apply (r : Except ε α) (s : σ) :
    (liftM r : Run ε σ α) s = some (r, s) := by
  cases r <;> rfl

theorem defined_bind {x : ExceptT ε Option α} {r : Except ε α} {f : α → ExceptT ε Option β}
    {k : α → Except ε β} (hx : x = some r) (hf : ∀ a, r = .ok a → f a = some (k a)) :
    x >>= f = some (r >>= k) := by
  subst hx
  cases r with
  | error e => rfl
  | ok a => exact hf a rfl

theorem liftOption_bind (a : α) (f : α → ExceptT ε Option β) : liftM (some a) >>= f = f a := rfl

section Given

/-! Steps whose state is given up when they fail. -/

variable {x : StateT σ (ExceptT ε Option) α} {f : α → StateT σ (ExceptT ε Option) β}

theorem step_of_ok (h : x s = some (.ok (a, t))) : (x >>= f) s = f a t := by
  change x s >>= _ = _
  rw [h]
  rfl

theorem step_of_error (h : x s = some (.error e)) : (x >>= f) s = some (.error e) := by
  change x s >>= _ = _
  rw [h]
  rfl

end Given

theorem sub_add (n k : Nat) : sub (n + k) k = some n := by
  rw [sub, if_pos (Nat.le_add_left k n), Nat.add_sub_cancel]

theorem slice_tail (a : α) (xs : List α) : slice (a :: xs) 1 (a :: xs).length = some xs := by
  simp [slice]

end Steps

end Offside.Checked
