import Mathlib
import Offside.Report
import Offside.Proofs.Checked.Run
import Offside.Proofs.Module.Prefix
import Offside.Proofs.Scan.Fault
import Offside.Proofs.Scan.Indentation
import Offside.Proofs.Scan.Lines

/-!
Errors point into their source. Scanning counts line breaks as it passes them, and what is shown of
an error is found by counting them once more, from the start. Main statement: the line of an error is
a physical line of the source, its span is where that line stands, and unless scanning failed there
is something to be seen on it.
-/

namespace Offside

open Checked

section Spans

variable {cs line : List Char} {k : Nat}

theorem length_splitOn (cs : List Char) : (cs.splitOn '\n').length = cs.count '\n' + 1 := by
  induction cs with
  | nil => rfl
  | cons c cs ih =>
    rw [Scan.splitOn_cons]
    by_cases newline : c = '\n'
    · subst newline
      rw [if_pos (beq_self_eq_true _), List.length_cons, ih, List.count_cons_self]
    · rw [if_neg (by simpa using newline), List.length_modifyHead, ih, List.count_cons_of_ne newline]

theorem ofLine_splitOn (offset : Nat) (h : (cs.splitOn '\n')[k]? = some line) :
    ∃ before behind, cs = before ++ line ++ behind ∧ Span.ofLine offset (k + 1) cs =
      ⟨offset + before.length, offset + before.length + line.length⟩ := by
  induction cs generalizing offset k with
  | nil =>
    cases k with
    | zero =>
      cases h
      exact ⟨[], [], rfl, rfl⟩
    | succ k => cases h
  | cons c cs ih =>
    cases k with
    | zero =>
      rw [Scan.splitOn_zero] at h
      cases h
      exact ⟨[], _, by rw [List.nil_append, List.takeWhile_append_dropWhile], rfl⟩
    | succ k =>
      have further : ∃ k', (if c = '\n' then k + 1 else k + 2) = k' + 1 ∧
          (cs.splitOn '\n')[k']? = some line := by
        rw [Scan.splitOn_cons] at h
        by_cases newline : c = '\n'
        · subst newline
          exact ⟨k, rfl, h⟩
        · rw [if_neg (by simpa using newline), List.getElem?_modifyHead, if_neg (by omega)] at h
          exact ⟨k + 1, if_neg newline, h⟩
      obtain ⟨k', less, h⟩ := further
      obtain ⟨before, behind, rfl, span⟩ := ih (offset + 1) h
      refine ⟨c :: before, behind, rfl, ?_⟩
      rw [Span.ofLine, Nat.add_sub_cancel, less, span, List.length_cons]
      · rw [Nat.add_assoc offset, Nat.add_comm 1]
      · exact nofun

theorem slice_lineSpan {source : String} (h : (source.toList.splitOn '\n')[k]? = some line) :
    slice source.toList (lineSpan source (k + 1)).start (lineSpan source (k + 1)).stop =
      some line := by
  obtain ⟨before, behind, eq, span⟩ := ofLine_splitOn 0 h
  rw [lineSpan, span, Nat.zero_add, slice, if_pos, eq, List.take_left' List.length_append,
    List.drop_left]
  simp only [eq, List.length_append]
  omega

end Spans

namespace Scan

variable {style : Indentation} {number : Nat} {cs : List Char} {found : List Lexeme × List Line}
  {e : Error}

theorem line_of_remainder_error (h : remainder style number cs = .error e) :
    number ≤ e.line ∧ e.line ≤ number + cs.count '\n' := by
  induction number, cs using remainder.induct with
  | case1 number =>
    rw [remainder_nil] at h
    cases h
  | case2 number c cs f hn =>
    rw [remainder_fault hn] at h
    cases h
    exact ⟨Nat.le_refl _, Nat.le_add_right _ _⟩
  | case3 number c cs l rest hn ih =>
    rw [remainder_lexeme hn] at h
    have within := ih (map_eq_error.1 h)
    rw [next_count hn, Item.breaks]
    omega
  | case4 number c cs n rest hn ih =>
    rw [remainder_blank hn] at h
    have within := ih h
    rw [next_count hn, Item.breaks]
    omega
  | case5 number c cs rest hn ih =>
    rw [remainder_newline hn] at h
    rw [next_count hn, Item.breaks]
    rcases bind_eq_error.1 (map_eq_error.1 h) with h | ⟨indentation, -, h⟩
    · have here := (atLine_eq_error.1 h).1
      omega
    · have within := ih (map_eq_error.1 h)
      rw [count_afterIndent] at within
      omega

theorem line_of_linesFrom_error (h : linesFrom style number cs = .error e) :
    number ≤ e.line ∧ e.line ≤ number + cs.count '\n' := by
  rcases bind_eq_error.1 h with h | ⟨indentation, -, h⟩
  · rw [(atLine_eq_error.1 h).1]
    exact ⟨Nat.le_refl _, Nat.le_add_right _ _⟩
  · have within := line_of_remainder_error (map_eq_error.1 h)
    rwa [count_afterIndent] at within

def Visible (line : List Char) : Prop :=
  ∃ c ∈ line, c ≠ ' ' ∧ c ≠ '\t' ∧ c ≠ '\r'

theorem visible_of_lexemes (h : remainder style number cs = .ok found) (some : found.1 ≠ []) :
    Visible (cs.takeWhile (· != '\n')) := by
  induction cs with
  | nil =>
    rw [remainder_nil] at h
    cases h
    exact absurd rfl some
  | cons c cs ih =>
    obtain ⟨_, head, newline, -⟩ := head_of_lexemes h some
    obtain rfl := Option.some.inj head
    rw [List.takeWhile_cons_of_pos (by simpa using newline)]
    by_cases white : c = ' ' ∨ c = '\t' ∨ c = '\r'
    · rw [remainder_blank (next_white cs white)] at h
      obtain ⟨d, mem, seen⟩ := ih h
      exact ⟨d, List.mem_cons_of_mem _ mem, seen⟩
    · exact ⟨c, List.mem_cons_self, by simpa using white⟩

theorem opens_visible (style : Indentation) : Opens style fun _ line => Visible line := by
  intro number indentation cs found _ read some
  obtain ⟨c, mem, seen⟩ := visible_of_lexemes read some
  rw [← (indent_line cs).2] at mem
  exact ⟨c, (List.dropWhile_sublist _).mem mem, seen⟩

end Scan

open Scan

theorem line_of_tokenize_error {style : Indentation} {source : String} {e : Error}
    (h : tokenize style source = .error e) :
    ∃ line, (source.toList.splitOn '\n')[e.line - 1]? = some line ∧ 1 ≤ e.line := by
  obtain ⟨first, last⟩ := line_of_linesFrom_error h
  refine ⟨_, List.getElem?_eq_getElem ?_, first⟩
  rw [length_splitOn]
  omega

namespace Module

variable {config : Config} {name source : String} {ls : List Line} {e : Error}

theorem line_of_symbolsOf_error (h : symbolsOf config name ls = .error e) :
    ∃ l ∈ ls, e.line = l.number := by
  obtain ⟨k, t, lt, -, found⟩ := step_of_readAll_error (symbolsOf_eq_error.1 h)
  refine ⟨ls[k], List.getElem_mem lt, (atLine_eq_error.1 found).1.trans ?_⟩
  rw [number, lineAt, List.getD_eq_getElem ls _ lt]

/-- Where an error is in the source. -/
structure Located (source : String) (e : Error) (line : List Char) : Prop where
  first : 1 ≤ e.line
  physical : (source.toList.splitOn '\n')[e.line - 1]? = some line
  visible : e.fault.kind ≠ .lexical → Visible line

theorem located_of_ofSource (h : ofSource config name source = .error e) :
    ∃ line, Located source e line := by
  rcases bind_eq_error.1 h with scanning | ⟨ls, scanned, h⟩
  · obtain ⟨line, physical, first⟩ := line_of_tokenize_error scanning
    exact ⟨line, first, physical, fun other => absurd (tokenize_lexical scanning) other⟩
  · have failed : symbolsOf config name ls = .error e := by
      rcases bind_eq_error.1 h with h | ⟨_, -, h⟩
      · exact h
      · cases h
    obtain ⟨l, mem, number⟩ := line_of_symbolsOf_error failed
    obtain ⟨first, line, physical, visible⟩ := Opens.tokenize (opens_visible _) scanned mem
    rw [← number] at first physical
    exact ⟨line, first, physical, fun _ => visible⟩

/-- The line of an error is one of the physical lines of the source, and its span lies within the
source and has that line in it. If scanning does not fail, there is something to be seen on it. -/
theorem ofSource_error_located (h : ofSource config name source = .error e) :
    1 ≤ e.line ∧ e.line ≤ 1 + source.toList.count '\n' ∧
      ∃ line, (source.toList.splitOn '\n')[e.line - 1]? = some line ∧
        slice source.toList (lineSpan source e.line).start (lineSpan source e.line).stop =
          some line ∧
        (e.fault.kind ≠ .lexical → ∃ c ∈ line, c ≠ ' ' ∧ c ≠ '\t' ∧ c ≠ '\r') := by
  obtain ⟨line, first, physical, visible⟩ := located_of_ofSource h
  have span := slice_lineSpan physical
  rw [Nat.sub_add_cancel first] at span
  have within := (List.getElem?_eq_some_iff.1 physical).1
  rw [length_splitOn] at within
  exact ⟨first, by omega, line, physical, span, visible⟩

theorem ofSource_error_located_comment :
    let source := "a\n;; one\ntwo ;; b +\nc"
    let e : Error := ⟨2, .missingArgument⟩
    ofSource {} "m" source = .error e ∧ lineSpan source e.line = ⟨2, 8⟩ ∧
      ∃ line, (source.toList.splitOn '\n')[1]? = some line ∧
        slice source.toList 2 8 = some line ∧ ∃ c ∈ line, c ≠ ' ' ∧ c ≠ '\t' ∧ c ≠ '\r' := by
  intro source e
  have fails : ofSource {} "m" source = .error e := by cbv
  have span : lineSpan source e.line = ⟨2, 8⟩ := by cbv
  obtain ⟨-, -, line, physical, found, visible⟩ := ofSource_error_located fails
  rw [span] at found
  exact ⟨fails, span, line, physical, found, visible (by decide)⟩

end Module

end Offside
