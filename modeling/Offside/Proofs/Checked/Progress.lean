import Mathlib
import Offside.Proofs.Checked.Scanned
import Offside.Proofs.Scan.Append

/-!
Scanning as progress of the cursor. A step may put a character back and may look at what is not in
the source, but when it succeeds it has passed at least one character and none beyond the end, and it
has counted the line breaks that it passed. So no source needs more steps than it has characters.
-/

namespace Offside.Scan

open Checked

namespace Scanner

variable {s t : Scanner} {cs read : List Char} {c : Char}

def Counts (s : Scanner) : Prop :=
  s.number = 1 + (s.source.take s.current).count '\n'

/-- From `s` to `t` the cursor moves on within the source, and goes on to count line breaks if it
did so before. -/
structure Progress (s t : Scanner) : Prop where
  source : t.source = s.source
  further : s.current < t.current
  within : t.current ≤ t.source.length
  counts : s.Counts → t.Counts

theorem Progress.of_passed (h : s.At (read ++ cs)) (source : t.source = s.source)
    (place : t.At cs) (some : read ≠ []) (breaks : t.number = s.number + read.count '\n') :
    s.Progress t := by
  have length := h.length
  have behind := place.length
  have passed : t.current = s.current + read.length := by
    rw [source, length, List.length_append] at behind
    omega
  refine ⟨source, ?_, place.within, fun counts => ?_⟩
  · have := List.length_pos_of_ne_nil some
    omega
  · rw [Counts, breaks, counts, source, passed, List.take_add, h.rest, List.take_left,
      List.count_append, Nat.add_assoc]

theorem at_of_lt (lt : s.current < s.source.length) : ∃ c cs, s.At (c :: cs) :=
  ⟨_, _, Nat.le_of_lt lt, List.drop_eq_getElem_cons lt⟩

theorem beginLine_progress (h : s.At cs) : (∃ e, beginLine s = some (.error e)) ∨
    ∃ t, beginLine s = some (.ok ((), t)) ∧ t.source = s.source ∧ t.At (afterIndent cs) ∧
      t.number = s.number := by
  rw [beginLine_eq h]
  cases level s.style cs with
  | error f => exact .inl ⟨_, rfl⟩
  | ok n => exact .inr ⟨_, rfl, rfl, ⟨h.afterIndent.within, h.afterIndent.rest⟩, rfl⟩

theorem step_progress (lt : s.current < s.source.length) :
    (∃ e, step s = some (.error e)) ∨ ∃ t, step s = some (.ok ((), t)) ∧ s.Progress t := by
  obtain ⟨c, cs, h⟩ := at_of_lt lt
  rw [step_eq h]
  cases read : next c cs with
  | error f => exact .inl ⟨_, rfl⟩
  | ok found =>
    obtain ⟨i, rest⟩ := found
    obtain ⟨passed, rfl, breaks, -⟩ := next_advances read
    have behind : (s.jump rest).At rest := h.jump (c :: passed)
    cases i with
    | lexeme l =>
      refine .inr ⟨_, rfl, .of_passed h rfl ⟨behind.within, behind.rest⟩ (List.cons_ne_nil _ _) ?_⟩
      rw [breaks]
      rfl
    | blank n =>
      refine .inr ⟨_, rfl, .of_passed h rfl ⟨behind.within, behind.rest⟩ (List.cons_ne_nil _ _) ?_⟩
      rw [breaks]
      rfl
    | newline =>
      obtain ⟨place, number, -⟩ := behind.newLine
      have source : (s.jump rest).finish.newLine.source = s.source := by
        rw [finish]
        split <;> rfl
      have whole : s.At (c :: passed ++ rest.takeWhile isIndent ++ afterIndent rest) := by
        rw [List.append_assoc, afterIndent, List.takeWhile_append_dropWhile]
        exact h
      rcases beginLine_progress place with fails | ⟨t, begun, same, measured, line⟩
      · exact .inl fails
      · refine .inr ⟨t, begun, .of_passed whole (same.trans source) measured
          (List.cons_ne_nil _ _) ?_⟩
        rw [line, number, List.count_append, breaks, List.count_eq_zero.2 (not_mem_indent rest)]
        rfl

/-- All the lines, if no more than `n` steps lead to the end of the source or to a fault. -/
def toEndWithin : Nat → Scanning (List Line)
  | 0 => do
    let s ← get
    if s.atEnd then return s.finish.lines else (none : Option (List Line))
  | n + 1 => do
    let s ← get
    if s.atEnd then return s.finish.lines
    else
      step
      toEndWithin n

theorem toEndWithin_eq {n : Nat} (enough : s.source.length ≤ s.current + n) :
    toEndWithin n s = toEnd s := by
  induction n generalizing s with
  | zero =>
    have atEnd : s.atEnd = true := decide_eq_true enough
    rw [toEndWithin, toEnd, step_of_ok rfl, step_of_ok rfl, atEnd]
    rfl
  | succ n ih =>
    rw [toEndWithin, toEnd, step_of_ok rfl, step_of_ok rfl]
    by_cases atEnd : s.atEnd = true
    · rw [atEnd]
      rfl
    · have lt : s.current < s.source.length := Nat.lt_of_not_le fun le => atEnd (decide_eq_true le)
      rw [if_neg atEnd, if_neg atEnd]
      rcases step_progress lt with ⟨e, fails⟩ | ⟨t, goes, progress⟩
      · rw [step_of_error fails]
        exact (step_of_error fails).symm
      · rw [step_of_ok goes]
        refine (ih ?_).trans (step_of_ok (f := fun _ => toEnd) goes).symm
        have := progress.further
        rw [progress.source]
        omega

end Scanner

def scanWithin (n : Nat) (style : Indentation) (source : String) :
    ExceptT Error Option (List Line) :=
  (do
    Scanner.beginLine
    Scanner.toEndWithin n).run' { source := source.toList, style }

theorem scanWithin_eq (style : Indentation) (source : String) :
    scanWithin source.length style source = scan style source := by
  have start : Scanner.At { source := source.toList, style } source.toList := ⟨Nat.zero_le _, rfl⟩
  change (·.1) <$> (Scanner.beginLine >>= fun _ => Scanner.toEndWithin _) _ =
    (·.1) <$> (Scanner.beginLine >>= fun _ => Scanner.toEnd) _
  rcases Scanner.beginLine_progress start with ⟨e, fails⟩ | ⟨t, begun, same, -⟩
  · rw [step_of_error fails, step_of_error fails]
  · have enough : t.source.length ≤ t.current + source.length := by
      rw [same]
      exact Nat.le_add_left _ _
    rw [step_of_ok begun, step_of_ok begun, Scanner.toEndWithin_eq enough]

/-- From any place before the end of a source, a step fails or moves the cursor on within the source,
and keeps count of the line breaks. Scanning a source takes no more steps than it has characters. -/
theorem scan_progress :
    (∀ s : Scanner, s.current < s.source.length →
      (∃ e, s.step = some (.error e)) ∨ ∃ t, s.step = some (.ok ((), t)) ∧ s.Progress t) ∧
    ∀ (style : Indentation) (source : String),
      scanWithin source.length style source = some (tokenize style source) :=
  ⟨fun _ => Scanner.step_progress, fun style source =>
    (scanWithin_eq style source).trans (scan_eq style source)⟩

theorem scan_progress_comment :
    let s : Scanner := { source := "a ;; x\n;; b".toList, style := .tabs, current := 2 }
    s.current < s.source.length ∧
      ∃ t, s.step = some (.ok ((), t)) ∧ s.Progress t ∧ t.current = 9 ∧ t.number = 2 := by
  intro s
  have lt : s.current < s.source.length := by decide
  have place : s.At (';' :: "; x\n;; b".toList) := ⟨by decide, rfl⟩
  have read : next ';' "; x\n;; b".toList = .ok (.blank 1, " b".toList) := by cbv
  have steps : s.step = some (.ok ((), s.past 1 " b".toList)) := by
    rw [Scanner.step_eq place, read]
  refine ⟨lt, s.past 1 " b".toList, steps, ?_, rfl, rfl⟩
  rcases scan_progress.1 s lt with ⟨e, fails⟩ | ⟨t, goes, progress⟩
  · cases steps.symm.trans fails
  · cases steps.symm.trans goes
    exact progress

end Offside.Scan
