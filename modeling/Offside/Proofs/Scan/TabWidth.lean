import Mathlib
import Offside.Proofs.Scan.Indentation
import Offside.Proofs.Scan.Respaced

/-!
Tabs against spaces. A source that is indented with tabs only says the same as the source with
`n` spaces in place of each, read with `n` spaces to a level: also inside comments over several
lines, where the number of characters changes but nothing is measured.
-/

namespace Offside

namespace Scan

variable {n : Nat} {cs line t t' : List Char} {lines : List (List Char)}

def spaced (n : Nat) (c : Char) : List Char :=
  if c = '\t' then List.replicate n ' ' else [c]

def spacedLine (n : Nat) (line : List Char) : List Char :=
  (line.takeWhile isIndent).flatMap (spaced n) ++ afterIndent line

section Line

theorem head?_afterIndent_append (line : List Char) (stop : ∀ c ∈ t.head?, isIndent c = false) :
    ∀ c ∈ (afterIndent line ++ t).head?, isIndent c = false := by
  intro c head
  rw [List.head?_append] at head
  cases eq : (afterIndent line).head? with
  | none =>
    rw [eq] at head
    exact stop c head
  | some d =>
    rw [eq, Option.some_or] at head
    exact of_mem_head?_dropWhile (eq.trans head)

theorem afterIndent_append (stop : ∀ c ∈ t.head?, isIndent c = false) :
    afterIndent (line ++ t) = afterIndent line ++ t := by
  have whole : line.takeWhile isIndent ++ (afterIndent line ++ t) = line ++ t := by
    rw [← List.append_assoc, afterIndent, List.takeWhile_append_dropWhile]
  rw [← whole]
  exact dropWhile_takeWhile_append (head?_afterIndent_append line stop)

theorem isIndent_of_mem_spaced {c : Char} (indent : isIndent c = true) :
    ∀ d ∈ spaced n c, isIndent d = true := by
  intro d mem
  rw [spaced] at mem
  split at mem
  · obtain rfl := List.eq_of_mem_replicate mem
    rfl
  · rwa [List.mem_singleton.1 mem]

theorem indent_spacedLine (n : Nat) (line : List Char) :
    (spacedLine n line).takeWhile isIndent = (line.takeWhile isIndent).flatMap (spaced n) ∧
      afterIndent (spacedLine n line) = afterIndent line := by
  have all : ∀ c ∈ (line.takeWhile isIndent).flatMap (spaced n), isIndent c = true := by
    intro c mem
    obtain ⟨d, memLine, mem⟩ := List.mem_flatMap.1 mem
    exact isIndent_of_mem_spaced (of_mem_takeWhile memLine) c mem
  have behind : ∀ c ∈ (afterIndent line).head?, isIndent c = false :=
    fun _ => of_mem_head?_dropWhile
  exact ⟨takeWhile_run all behind, dropWhile_run all behind⟩

theorem flatMap_spaced (tabs : ∀ c ∈ line, c = '\t') :
    line.flatMap (spaced n) = List.replicate (n * line.length) ' ' := by
  induction line with
  | nil => rfl
  | cons c line ih =>
    rw [List.forall_mem_cons] at tabs
    rw [List.flatMap_cons, tabs.1, ih tabs.2, spaced, if_pos rfl, List.replicate_append_replicate,
      List.length_cons, Nat.mul_succ, Nat.add_comm]

theorem level_spacedLine (pos : 1 ≤ n) (tabs : ∀ c ∈ line.takeWhile isIndent, c = '\t') :
    level (.spaces n) (spacedLine n line) = level .tabs line := by
  obtain ⟨indent, after⟩ := indent_spacedLine n line
  rw [flatMap_spaced tabs] at indent
  have width : Indentation.width (.spaces n) = n := Nat.max_eq_left pos
  have noOther : (line.takeWhile isIndent).any (· != '\t') = false := by
    rw [List.any_eq_false]
    exact fun c mem => by simp [tabs c mem]
  rw [level, level, indent, after, width]
  simp only [Indentation.unit, Indentation.width, noOther, List.any_replicate,
    List.length_replicate, Nat.mul_mod_right, Nat.mul_div_cancel_left _ pos, Nat.mod_one,
    Nat.div_one]
  cases (afterIndent line).head? <;> simp

end Line

section Text

theorem not_mem_of_mem_splitOn (h : line ∈ cs.splitOn '\n') : '\n' ∉ line := by
  induction cs generalizing line with
  | nil =>
    obtain rfl : line = [] := by simpa using h
    exact List.not_mem_nil
  | cons c cs ih =>
    rw [splitOn_cons] at h
    split at h
    · obtain rfl | h := List.mem_cons.1 h
      · exact List.not_mem_nil
      · exact ih h
    · next other =>
      cases eq : cs.splitOn '\n' with
      | nil =>
        rw [eq] at h
        cases h
      | cons first rest =>
        rw [eq] at h ih
        obtain rfl | h := List.mem_cons.1 h
        · exact List.not_mem_cons_of_ne_of_not_mem (Ne.symm (by simpa using other))
            (ih List.mem_cons_self)
        · exact ih (List.mem_cons_of_mem _ h)

theorem level_newline (style : Indentation) (clear : '\n' ∉ line) (t : List Char) :
    level style (line ++ '\n' :: t) = level style line := by
  have first : (line ++ '\n' :: t).takeWhile (· != '\n') = line := by
    refine takeWhile_run (fun c mem => ?_) (by simp)
    rw [bne_iff_ne]
    rintro rfl
    exact clear mem
  rw [← level_line, first]

theorem not_mem_spacedLine (clear : '\n' ∉ line) : '\n' ∉ spacedLine n line := by
  rw [spacedLine, List.mem_append, List.mem_flatMap]
  rintro (⟨c, mem, newline⟩ | mem)
  · have indent := isIndent_of_mem_spaced (of_mem_takeWhile mem) _ newline
    cases indent
  · exact clear ((List.dropWhile_sublist _).subset mem)

/-- On the physical lines: each measures the same, and from behind its indentation on nothing
changes up to the next. -/
theorem respaced_lines (pos : 1 ≤ n) (clear : ∀ line ∈ lines, '\n' ∉ line)
    (tabs : ∀ line ∈ lines, ∀ c ∈ line.takeWhile isIndent, c = '\t') :
    level (.spaces n) (['\n'].intercalate (lines.map (spacedLine n))) =
        level .tabs (['\n'].intercalate lines) ∧
      Respaced ⟨.tabs, .spaces n, False⟩ (afterIndent (['\n'].intercalate lines))
        (afterIndent (['\n'].intercalate (lines.map (spacedLine n)))) := by
  induction lines with
  | nil => exact ⟨rfl, .nil⟩
  | cons line lines ih =>
    rw [List.forall_mem_cons] at clear tabs
    have within : '\n' ∉ afterIndent line :=
      fun mem => clear.1 ((List.dropWhile_sublist _).subset mem)
    have first := level_spacedLine pos tabs.1
    cases lines with
    | nil =>
      rw [List.map_singleton, List.intercalate_singleton, List.intercalate_singleton,
        (indent_spacedLine n line).2]
      refine ⟨first, ?_⟩
      simpa using Respaced.nil.append within
    | cons next lines =>
      obtain ⟨measure, behind⟩ := ih clear.2 tabs.2
      rw [List.map_cons, List.map_cons, List.intercalate_cons_cons, List.intercalate_cons_cons,
        List.append_assoc, List.append_assoc, List.singleton_append, List.singleton_append,
        ← List.map_cons, level_newline _ clear.1, level_newline _ (not_mem_spacedLine clear.1),
        afterIndent_append (by simp [isIndent]), afterIndent_append (by simp [isIndent]),
        (indent_spacedLine n line).2]
      exact ⟨first, (Respaced.newline measure behind).append within⟩

theorem linesFrom_spacedLines (pos : 1 ≤ n) (number : Nat)
    (tabs : ∀ line ∈ cs.splitOn '\n', ∀ c ∈ line.takeWhile isIndent, c = '\t') :
    Alike (SameError ⟨.tabs, .spaces n, False⟩) Eq (linesFrom .tabs number cs)
      (linesFrom (.spaces n) number
        (['\n'].intercalate ((cs.splitOn '\n').map (spacedLine n)))) := by
  obtain ⟨measure, behind⟩ := respaced_lines pos (fun _ => not_mem_of_mem_splitOn) tabs
  rw [List.intercalate_splitOn] at measure behind
  exact Respaced.linesFrom number measure (behind.remainder number)

end Text

theorem eq_of_sameError {style style' : Indentation} {e e' : Error}
    (h : SameError ⟨style, style', False⟩ e e') : e' = e := by
  obtain ⟨line, fault⟩ := e
  obtain ⟨rfl, same⟩ := h
  obtain rfl | ⟨⟨⟩, -⟩ := sameFault_iff.1 same
  rfl

end Scan

open Scan

/-- The same source with `n` spaces in place of each tab that opens a physical line. -/
def withSpaces (n : Nat) (source : String) : String :=
  String.ofList (['\n'].intercalate ((source.toList.splitOn '\n').map (spacedLine n)))

/-- A source whose physical lines open with tabs only is scanned to the same lines, or to the same
error, with `n` spaces in place of each of these tabs and `n` spaces to a level. -/
theorem tokenize_withSpaces {n : Nat} (pos : 1 ≤ n) (source : String)
    (tabs : ∀ line ∈ source.toList.splitOn '\n', ∀ c ∈ line.takeWhile isIndent, c = '\t') :
    tokenize (.spaces n) (withSpaces n source) = tokenize .tabs source := by
  have alike := linesFrom_spacedLines pos 1 tabs
  rw [tokenize, tokenize, withSpaces, String.toList_ofList]
  cases scanned : linesFrom .tabs 1 source.toList with
  | ok lines =>
    obtain ⟨_, scanned', rfl⟩ := alike.ok_of scanned
    exact scanned'
  | error e =>
    obtain ⟨e', fails, same⟩ := alike.error_of scanned
    rw [← eq_of_sameError same]
    exact fails

theorem tokenize_withSpaces_comment :
    let source := "if a\n\tb ;;\n\t\t;; + 1\n\t\t\tc"
    let faulty := "\n\tif a\n\t\t1."
    ((∀ line ∈ source.toList.splitOn '\n', ∀ c ∈ line.takeWhile isIndent, c = '\t') ∧
      ∀ line ∈ faulty.toList.splitOn '\n', ∀ c ∈ line.takeWhile isIndent, c = '\t') ∧
    withSpaces 2 source = "if a\n  b ;;\n    ;; + 1\n      c" ∧
    tokenize (.spaces 2) (withSpaces 2 source) = .ok [⟨1, 0, [.ofWord "if", .ofWord "a"]⟩,
      ⟨2, 1, [.ofWord "b", ⟨.operator .add, none⟩, .ofLiteral (.int 1)]⟩,
      ⟨4, 3, [.ofWord "c"]⟩] ∧
    tokenize (.spaces 2) (withSpaces 2 faulty) = .error ⟨3, .trailingDot⟩ := by
  intro source faulty
  have lines : source.toList.splitOn '\n' =
      ["if a".toList, "\tb ;;".toList, "\t\t;; + 1".toList, "\t\t\tc".toList] := by decide
  have lines' : faulty.toList.splitOn '\n' = [[], "\tif a".toList, "\t\t1.".toList] := by decide
  have tabs : ∀ line ∈ source.toList.splitOn '\n', ∀ c ∈ line.takeWhile isIndent, c = '\t' := by
    simp [lines, isIndent]
  have tabs' : ∀ line ∈ faulty.toList.splitOn '\n', ∀ c ∈ line.takeWhile isIndent, c = '\t' := by
    simp [lines', isIndent]
  have scanned : tokenize .tabs source = .ok [⟨1, 0, [.ofWord "if", .ofWord "a"]⟩,
      ⟨2, 1, [.ofWord "b", ⟨.operator .add, none⟩, .ofLiteral (.int 1)]⟩,
      ⟨4, 3, [.ofWord "c"]⟩] := by cbv
  have fails : tokenize .tabs faulty = .error ⟨3, .trailingDot⟩ := by cbv
  have text : withSpaces 2 source = "if a\n  b ;;\n    ;; + 1\n      c" := by cbv
  have same := tokenize_withSpaces (by decide : 1 ≤ 2) source tabs
  have same' := tokenize_withSpaces (by decide : 1 ≤ 2) faulty tabs'
  exact ⟨⟨tabs, tabs'⟩, text, same.trans scanned, same'.trans fails⟩

end Offside
