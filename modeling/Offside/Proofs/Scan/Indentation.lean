import Mathlib
import Offside.Proofs.Scan.Append

/-!
The indentation of a line against the physical line that it begins on. What is measured is what
stands there, but for one case: before a carriage return nothing is measured, though more of the
line may follow.
-/

namespace Offside.Scan

variable {style : Indentation} {number indentation : Nat} {cs rest : List Char}
  {found : List Lexeme × List Line} {lines : List Line}

section Physical

theorem splitOn_cons (c : Char) (cs : List Char) : (c :: cs).splitOn '\n' =
    if c == '\n' then [] :: cs.splitOn '\n' else (cs.splitOn '\n').modifyHead (c :: ·) :=
  List.splitOnP_cons_eq_if_modifyHead c cs

theorem splitOn_newline (cs : List Char) : ('\n' :: cs).splitOn '\n' = [] :: cs.splitOn '\n' :=
  splitOn_cons '\n' cs

theorem splitOn_zero (cs : List Char) :
    (cs.splitOn '\n')[0]? = some (cs.takeWhile (· != '\n')) := by
  induction cs with
  | nil => rfl
  | cons c cs ih =>
    rw [splitOn_cons, List.takeWhile_cons]
    by_cases newline : c = '\n'
    · simp [newline]
    · simp [newline, ih]

theorem splitOn_append (read cs : List Char) (k : Nat) :
    ((read ++ cs).splitOn '\n')[read.count '\n' + (k + 1)]? = (cs.splitOn '\n')[k + 1]? := by
  induction read with
  | nil => rw [List.count_nil, Nat.zero_add]; rfl
  | cons c read ih =>
    rw [List.cons_append, splitOn_cons]
    by_cases newline : c = '\n'
    · subst newline
      rw [List.count_cons_self, Nat.add_right_comm]
      exact ih
    · rw [List.count_cons_of_ne newline, if_neg (by simpa using newline), List.getElem?_modifyHead,
        if_neg (by omega)]
      exact ih

theorem next_splitOn {c : Char} {i : Item} (h : next c cs = .ok (i, rest)) (k : Nat) :
    ((c :: cs).splitOn '\n')[i.breaks + (k + 1)]? = (rest.splitOn '\n')[k + 1]? := by
  obtain ⟨read, rfl, count, -, -⟩ := next_advances h
  rw [← count]
  exact splitOn_append (c :: read) rest k

theorem splitOn_afterIndent (cs : List Char) (k : Nat) :
    ((afterIndent cs).splitOn '\n')[k + 1]? = (cs.splitOn '\n')[k + 1]? := by
  have append := splitOn_append (cs.takeWhile isIndent) (afterIndent cs) k
  rw [afterIndent, List.takeWhile_append_dropWhile, List.count_eq_zero.2 (not_mem_indent cs),
    Nat.zero_add] at append
  exact append.symm

theorem indent_line (cs : List Char) :
    (cs.takeWhile (· != '\n')).takeWhile isIndent = cs.takeWhile isIndent ∧
      afterIndent (cs.takeWhile (· != '\n')) = (afterIndent cs).takeWhile (· != '\n') := by
  induction cs with
  | nil => exact ⟨rfl, rfl⟩
  | cons c cs ih =>
    by_cases indent : isIndent c = true
    · have other : (c != '\n') = true := by
        rw [bne_iff_ne]
        rintro rfl
        cases indent
      simpa [afterIndent, List.takeWhile_cons, indent, other] using ih
    · by_cases newline : c = '\n'
      · subst newline
        exact ⟨rfl, rfl⟩
      · simp [afterIndent, indent, newline]

theorem level_line (style : Indentation) (cs : List Char) :
    level style (cs.takeWhile (· != '\n')) = level style cs := by
  obtain ⟨indent, after⟩ := indent_line cs
  rw [level, level, indent, after]
  cases afterIndent cs with
  | nil => rfl
  | cons c rest =>
    by_cases newline : c = '\n' <;> simp [newline]

end Physical

section Begins

/-- A physical line on which a logical line of that indentation begins: it is measured so, and
there is something to read on it. -/
structure Begins (style : Indentation) (indentation : Nat) (line : List Char) : Prop where
  level : level style line = .ok indentation
  text : ∃ c ∈ (afterIndent line).head?, c ≠ '\n' ∧ c ≠ '\x00'

theorem head_of_lexemes (h : remainder style number cs = .ok found) (some : found.1 ≠ []) :
    ∃ c ∈ cs.head?, c ≠ '\n' ∧ c ≠ '\x00' := by
  cases cs with
  | nil =>
    rw [remainder_nil] at h
    cases h
    exact absurd rfl some
  | cons c cs =>
    refine ⟨c, rfl, ?_, ?_⟩
    · rintro rfl
      rw [remainder_newline (next_newline cs)] at h
      obtain ⟨lines, -, rfl⟩ := map_eq_ok.1 h
      exact some rfl
    · rintro rfl
      have unexpected : next '\x00' cs = .error (.unexpectedCharacter '\x00') := rfl
      rw [remainder_fault unexpected] at h
      cases h

theorem begins_of_lexemes (measured : level style cs = .ok indentation)
    (read : remainder style number (afterIndent cs) = .ok found) (some : found.1 ≠ []) :
    Begins style indentation (cs.takeWhile (· != '\n')) where
  level := by
    rw [level_line]
    exact measured
  text := by
    obtain ⟨c, head, other⟩ := head_of_lexemes read some
    refine ⟨c, ?_, other⟩
    rw [(indent_line cs).2, List.head?_takeWhile, head]
    simpa using other.1

/-- What holds of the physical line at the start of a text, and of its indentation, whenever lexemes
are found on it. -/
def Opens (style : Indentation) (P : Nat → List Char → Prop) : Prop :=
  ∀ {number indentation cs found}, level style cs = .ok indentation →
    remainder style number (afterIndent cs) = .ok found → found.1 ≠ [] →
    P indentation (cs.takeWhile (· != '\n'))

section Opens

variable {P : Nat → List Char → Prop} {l : Line} (opens : Opens style P)

include opens

theorem Opens.openLine (measured : level style cs = .ok indentation)
    (read : remainder style number (afterIndent cs) = .ok found)
    (behind : l ∈ found.2 → ∃ k line, l.number = number + (k + 1) ∧
      ((afterIndent cs).splitOn '\n')[k + 1]? = some line ∧ P l.indentation line)
    (mem : l ∈ openLine number indentation found) :
    ∃ k line, l.number = number + k ∧ (cs.splitOn '\n')[k]? = some line ∧ P l.indentation line := by
  have other (mem : l ∈ found.2) : ∃ k line, l.number = number + k ∧
      (cs.splitOn '\n')[k]? = some line ∧ P l.indentation line := by
    obtain ⟨k, line, number, at_, holds⟩ := behind mem
    rw [splitOn_afterIndent] at at_
    exact ⟨k + 1, line, number, at_, holds⟩
  unfold Scan.openLine at mem
  split at mem
  · exact other mem
  · next some =>
    rcases List.mem_cons.1 mem with rfl | mem
    · exact ⟨0, _, rfl, splitOn_zero cs, opens measured read some⟩
    · exact other mem

theorem Opens.remainder (h : remainder style number cs = .ok found) (mem : l ∈ found.2) :
    ∃ k line, l.number = number + (k + 1) ∧ (cs.splitOn '\n')[k + 1]? = some line ∧
      P l.indentation line := by
  induction number, cs using remainder.induct generalizing found with
  | case1 number =>
    rw [remainder_nil] at h
    cases h
    cases mem
  | case2 number c cs f hn =>
    rw [remainder_fault hn] at h
    cases h
  | case3 number c cs x rest hn ih =>
    rw [remainder_lexeme hn] at h
    obtain ⟨more, read, rfl⟩ := map_eq_ok.1 h
    obtain ⟨k, line, number, at_, holds⟩ := ih read mem
    rw [← next_splitOn hn, Item.breaks, Nat.zero_add] at at_
    exact ⟨k, line, number, at_, holds⟩
  | case4 number c cs n rest hn ih =>
    rw [remainder_blank hn] at h
    obtain ⟨k, line, number, at_, holds⟩ := ih h mem
    rw [← next_splitOn hn, Item.breaks] at at_
    exact ⟨n + k, line, by omega, at_, holds⟩
  | case5 number c cs rest hn ih =>
    obtain ⟨rfl, rfl⟩ := next_eq_newline hn
    rw [remainder_newline hn] at h
    obtain ⟨lines, next, rfl⟩ := map_eq_ok.1 h
    obtain ⟨indentation, measured, next⟩ := bind_eq_ok.1 next
    obtain ⟨more, read, eq⟩ := bind_eq_ok.1 next
    cases eq
    obtain ⟨k, line, number, at_, holds⟩ := opens.openLine (atLine_eq_ok.1 measured) read
      (ih read) mem
    refine ⟨k, line, by omega, ?_, holds⟩
    rw [splitOn_newline]
    exact at_

theorem Opens.tokenize {source : String} (h : tokenize style source = .ok lines) (mem : l ∈ lines) :
    0 < l.number ∧ ∃ line, (source.toList.splitOn '\n')[l.number - 1]? = some line ∧
      P l.indentation line := by
  obtain ⟨indentation, measured, h⟩ := bind_eq_ok.1 h
  obtain ⟨found, read, eq⟩ := bind_eq_ok.1 h
  cases eq
  obtain ⟨k, line, number, at_, holds⟩ := opens.openLine (atLine_eq_ok.1 measured) read
    (opens.remainder read) mem
  refine ⟨by omega, line, ?_, holds⟩
  rw [number, Nat.add_sub_cancel_left]
  exact at_

end Opens

theorem begins_of_remainder {l : Line} (h : remainder style number cs = .ok found)
    (mem : l ∈ found.2) : ∃ k line, l.number = number + (k + 1) ∧
      (cs.splitOn '\n')[k + 1]? = some line ∧ Begins style l.indentation line :=
  Opens.remainder begins_of_lexemes h mem

theorem begins_of_tokenize {source : String} {l : Line} (h : tokenize style source = .ok lines)
    (mem : l ∈ lines) : 0 < l.number ∧ ∃ line, (source.toList.splitOn '\n')[l.number - 1]? = some line ∧
      Begins style l.indentation line :=
  Opens.tokenize begins_of_lexemes h mem

/-- The indentation is that many levels of the unit. -/
structure Measured (style : Indentation) (indentation : Nat) (line : List Char) : Prop where
  unit : ∀ c ∈ line.takeWhile isIndent, c = style.unit
  dvd : style.width ∣ (line.takeWhile isIndent).length
  levels : indentation = (line.takeWhile isIndent).length / style.width

theorem measured_of_level {line : List Char} {c : Char}
    (h : level style line = .ok indentation) (head : (afterIndent line).head? = some c)
    (text : c ≠ '\n' ∧ c ≠ '\r' ∧ c ≠ '\x00' ∧ c ≠ ';') : Measured style indentation line := by
  obtain ⟨newline, return_, nul, semicolon⟩ := text
  have measures : level style line =
      if (line.takeWhile isIndent).any (· != style.unit) then .error (.mixedIndentation style)
      else if (line.takeWhile isIndent).length % style.width ≠ 0 then
        .error (.unevenIndentation (line.takeWhile isIndent).length style.width)
      else .ok ((line.takeWhile isIndent).length / style.width) := by
    simp [level, head, semicolon]
  rw [measures] at h
  split at h
  · cases h
  next unit =>
    split at h
    · cases h
    next even =>
      cases h
      exact ⟨by simpa using unit, Nat.dvd_of_mod_eq_zero (not_not.1 even), rfl⟩

theorem Begins.measured_iff {line : List Char} (h : Begins style indentation line)
    (code : (afterIndent line).head? ≠ some ';') : Measured style indentation line ↔
      ((afterIndent line).head? = some '\r' → line.takeWhile isIndent = []) := by
  obtain ⟨level, c, head, newline, nul⟩ := h
  rw [Option.mem_def] at head
  rw [head, ne_eq, Option.some.injEq] at code
  by_cases return_ : c = '\r'
  · subst return_
    rw [Scan.level, head] at level
    cases level
    constructor
    · rintro ⟨-, ⟨n, length⟩, levels⟩ -
      rw [length, Nat.mul_div_cancel_left n style.width_pos] at levels
      rw [← List.length_eq_zero_iff, length, ← levels, Nat.mul_zero]
    · intro unmeasured
      have none := unmeasured head
      exact ⟨by simp [none], by simp [none], by simp [none]⟩
  · have measured := measured_of_level level head ⟨newline, return_, nul, code⟩
    exact iff_of_true measured fun eq => absurd (Option.some.inj (head.symm.trans eq)) return_

end Begins

end Offside.Scan

namespace Offside

open Scan

/-- The indentation of a line is that many levels of the unit at the start of its physical line,
unless a comment opens that line or indentation stands before a carriage return. The latter is not
measured, and whatever it is made of, the line has no indentation. -/
theorem tokenize_indentation {style : Indentation} {source : String} {lines : List Line} {l : Line}
    (h : tokenize style source = .ok lines) (mem : l ∈ lines) :
    ∃ line, (source.toList.splitOn '\n')[l.number - 1]? = some line ∧
      ((line.dropWhile isIndent).head? ≠ some ';' → (Measured style l.indentation line ↔
        ((line.dropWhile isIndent).head? = some '\r' → line.takeWhile isIndent = []))) ∧
      ((line.dropWhile isIndent).head? = some '\r' → l.indentation = 0) := by
  obtain ⟨-, line, at_, begins⟩ := begins_of_tokenize h mem
  refine ⟨line, at_, begins.measured_iff, fun return_ => ?_⟩
  have level := begins.level
  rw [Scan.level, show (afterIndent line).head? = some '\r' from return_] at level
  exact (Except.ok.inj level).symm

theorem tokenize_indentation_return :
    let source := "a\n      b\n      \r c"
    let last : Line := ⟨3, 0, [.ofWord "c"]⟩
    tokenize (.spaces 3) source = .ok [⟨1, 0, [.ofWord "a"]⟩, ⟨2, 2, [.ofWord "b"]⟩, last] ∧
    (∃ line, (source.toList.splitOn '\n')[1]? = some line ∧ Measured (.spaces 3) 2 line) ∧
    ∃ line, (source.toList.splitOn '\n')[2]? = some line ∧ ¬ Measured (.spaces 3) 0 line := by
  intro source last
  have read : tokenize (.spaces 3) source =
      .ok [⟨1, 0, [.ofWord "a"]⟩, ⟨2, 2, [.ofWord "b"]⟩, last] := by cbv
  have second : (source.toList.splitOn '\n')[1]? = some "      b".toList := by decide
  have third : (source.toList.splitOn '\n')[2]? = some "      \r c".toList := by decide
  obtain ⟨_, at_, measured, -⟩ := tokenize_indentation read (l := ⟨2, 2, [.ofWord "b"]⟩) (by simp)
  obtain rfl := Option.some.inj (second.symm.trans at_)
  obtain ⟨_, at', unmeasured, -⟩ := tokenize_indentation read (l := last) (by simp)
  obtain rfl := Option.some.inj (third.symm.trans at')
  refine ⟨read, ⟨_, second, (measured (by decide)).2 (by decide)⟩, _, third, ?_⟩
  rw [unmeasured (by decide)]
  decide

/-- A level that is misread: the tab before the carriage return is not counted. -/
theorem tokenize_tab_return : tokenize .tabs "\t\rfoo" = .ok [⟨1, 0, [.ofWord "foo"]⟩] ∧
    ("\t\rfoo".toList.splitOn '\n')[0]? = some "\t\rfoo".toList ∧
    ¬ Measured .tabs 0 "\t\rfoo".toList := by
  refine ⟨by cbv, rfl, fun measured => ?_⟩
  have levels := measured.levels
  cases levels

end Offside
