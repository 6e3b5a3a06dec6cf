import Mathlib
import Offside.Proofs.Checked.Scan

/-!
Where a cursor stands, by the text in front of it. What a step passes is a beginning of that text, so
the cursor never leaves the source, and what is cut out of it is what has been passed.
-/

namespace Offside.Scan.Scanner

open Checked

variable {s : Scanner} {cs read : List Char} {c : Char}

/-- The cursor is in the source, in front of that text. -/
structure At (s : Scanner) (cs : List Char) : Prop where
  within : s.current ≤ s.source.length
  rest : s.source.drop s.current = cs

def jump (cs : List Char) (s : Scanner) : Scanner :=
  { s with current := s.source.length - cs.length }

namespace At

theorem length (h : s.At cs) : s.source.length = s.current + cs.length := by
  have := h.within
  rw [← h.rest, List.length_drop]
  omega

theorem jump_self (h : s.At cs) : s.jump cs = s := by
  rw [jump, h.length, Nat.add_sub_cancel]

theorem forward (read : List Char) (h : s.At (read ++ cs)) : s.forward read.length = s.jump cs := by
  have length := h.length
  rw [List.length_append] at length
  rw [Scanner.forward, jump, length, ← Nat.add_assoc, Nat.add_sub_cancel]

theorem jump (read : List Char) (h : s.At (read ++ cs)) : (s.jump cs).At cs := by
  rw [← h.forward]
  have length := h.length
  rw [List.length_append] at length
  constructor
  · change s.current + read.length ≤ s.source.length
    omega
  · change s.source.drop (s.current + read.length) = cs
    rw [← List.drop_drop, h.rest, List.drop_left]

theorem slice (h : s.At (read ++ cs)) :
    slice s.source s.current (s.jump cs).current = some read := by
  have length := h.length
  rw [List.length_append] at length
  have place : (s.jump cs).current = s.current + read.length := by rw [← h.forward]; rfl
  rw [Checked.slice, place, if_pos ⟨Nat.le_add_right _ _, by omega⟩, List.drop_take, h.rest,
    Nat.add_sub_cancel_left, List.take_left]

theorem atEnd (h : s.At cs) : s.atEnd = cs.isEmpty := by
  rw [Scanner.atEnd, h.length]
  cases cs <;> simp

theorem getElem? (h : s.At cs) (i : Nat) : s.source[s.current + i]? = cs[i]? := by
  rw [← h.rest, List.getElem?_drop]

theorem peek (h : s.At cs) : s.peek = cs.headD '\x00' := by
  rw [Scanner.peek, ← Nat.add_zero s.current, h.getElem?]
  cases cs <;> rfl

theorem peekNext (h : s.At cs) : s.peekNext = cs.tail.headD '\x00' := by
  rw [Scanner.peekNext, h.getElem?]
  rcases cs with _ | ⟨c, _ | _⟩ <;> rfl

theorem matches_ (h : s.At cs) (marker : List Char) :
    s.matches_ marker = marker.isPrefixOf cs := by
  have from_ (k : Nat) :
      ((marker.zipIdx k).all fun p => s.source[s.current + p.2]? == some p.1) =
        marker.isPrefixOf (cs.drop k) := by
    induction marker generalizing k with
    | nil => rfl
    | cons c marker ih =>
      rw [List.zipIdx_cons, List.all_cons, ih]
      simp only [h.getElem?]
      rw [← List.drop_drop, ← List.head?_drop]
      cases cs.drop k with
      | nil => rfl
      | cons d ds =>
        rw [List.head?_cons, List.isPrefixOf, List.drop_one, List.tail_cons, Bool.beq_comm]
        rfl
  exact from_ 0

theorem tail (h : s.At (c :: cs)) : (s.jump cs).At cs :=
  h.jump [c]

end At

section Steps

theorem advance_eq (h : s.At (c :: cs)) : advance s = some (.ok (c, s.jump cs)) := by
  have next := h.forward [c]
  rw [advance, step_of_ok rfl, h.atEnd, h.peek]
  change some (Except.ok (c, s.forward 1)) = _
  rw [← next]
  rfl

theorem advance_nil (h : s.At []) : advance s = some (.ok ('\x00', s)) := by
  rw [advance, step_of_ok rfl, h.atEnd, h.peek]
  rfl

theorem skip_eq (h : s.At (c :: cs)) : skip s = some (.ok ((), s.jump cs)) := by
  rw [skip, step_of_ok (advance_eq h)]
  rfl

theorem stepBack_eq (h : s.At (c :: cs)) : stepBack (s.jump cs) = some (.ok ((), s)) := by
  have length := h.length
  rw [List.length_cons] at length
  have back : sub (s.jump cs).current 1 = some s.current := by
    rw [jump, length, show s.current + (cs.length + 1) - cs.length = s.current + 1 by omega, sub_add]
  rw [stepBack, step_of_ok rfl, back]
  rfl

theorem since_eq (h : s.At (read ++ cs)) :
    since s.current (s.jump cs) = some (.ok (read, s.jump cs)) := by
  have cut : slice (s.jump cs).source s.current (s.jump cs).current = some read := h.slice
  rw [since, step_of_ok rfl, cut]
  rfl

theorem repeatWhile_eq {p : Char → Bool} {goes : Scanner → Bool} {step : Scanning Unit}
    (goes_eq : ∀ s cs, At s cs → goes s = cs.head?.any p)
    (step_eq : ∀ s c cs, At s (c :: cs) → step s = some (.ok ((), s.jump cs))) (h : s.At cs) :
    repeatWhile goes step s = some (.ok ((), s.jump (cs.dropWhile p))) := by
  induction cs generalizing s with
  | nil =>
    rw [repeatWhile, step_of_ok rfl, goes_eq s _ h, List.dropWhile_nil, h.jump_self]
    rfl
  | cons c cs ih =>
    rw [repeatWhile, step_of_ok rfl, goes_eq s _ h, List.head?_cons, Option.any_some]
    cases holds : p c with
    | true =>
      rw [List.dropWhile_cons_of_pos holds]
      exact (step_of_ok (step_eq s c cs h)).trans (ih h.tail)
    | false =>
      rw [List.dropWhile_cons_of_neg (by rw [holds]; exact Bool.false_ne_true), h.jump_self]
      rfl

theorem run_eq {p : Char → Bool} {step : Scanning Unit} (stop : p '\x00' = false)
    (step_eq : ∀ s c cs, At s (c :: cs) → step s = some (.ok ((), s.jump cs))) (h : s.At cs) :
    repeatWhile (fun s => p s.peek) step s = some (.ok ((), s.jump (cs.dropWhile p))) ∧
      since s.current (s.jump (cs.dropWhile p)) =
        some (.ok (cs.takeWhile p, s.jump (cs.dropWhile p))) := by
  have goes (s : Scanner) (cs : List Char) (h : s.At cs) : p s.peek = cs.head?.any p := by
    rw [h.peek]
    cases cs with
    | nil => exact stop
    | cons => rfl
  refine ⟨repeatWhile_eq goes step_eq h, ?_⟩
  rw [← List.takeWhile_append_dropWhile (p := p) (l := cs)] at h
  exact since_eq h

end Steps

end Offside.Scan.Scanner
