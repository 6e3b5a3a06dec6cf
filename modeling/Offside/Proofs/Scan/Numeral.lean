import Mathlib
import Offside.Proofs.Scan.Fault
import Offside.Proofs.Scan.Place

/-!
The values of whole numbers. A run of digits stands for what it says in its base, however long it is
and however many zeros it begins with. It is read whole or, where the value does not fit, not at all.
-/

namespace Offside

namespace Scan

variable {style : Indentation} {text : String} {number : Nat} {before : List Lexeme} {c : Char}
  {cs run rest : List Char} {p : Char → Bool}

section Value

def digit? (c : Char) : Option Nat :=
  "0123456789abcdef".toList.idxOf? c.toLower

/-- What a run of digits says in a base, the first digit counting most. -/
def valueOf (base : Nat) (run : List Char) : Nat :=
  Nat.ofDigits base (run.reverse.map fun c => (digit? c).getD 0)

theorem hexDigit?_ascii : ∀ n < 128, hexDigit? (Char.ofNat n) = digit? (Char.ofNat n) := by
  decide +kernel

theorem toNat_lt_of_le {d : Char} (le : c ≤ d) (ascii : d.toNat < 128) : c.toNat < 128 :=
  Nat.lt_of_le_of_lt (UInt32.le_iff_toNat_le.1 (Char.le_def.1 le)) ascii

theorem hexDigit?_eq (c : Char) : hexDigit? c = digit? c := by
  by_cases ascii : c.toNat < 128
  · rw [← Char.ofNat_toNat c]
    exact hexDigit?_ascii _ ascii
  have beyond {d : Char} (small : d.toNat < 128) : ¬ c ≤ d :=
    fun le => ascii (toNat_lt_of_le le small)
  have noDigit : c.isDigit = false := by
    rw [Bool.eq_false_iff]
    intro digit
    exact ascii (Nat.lt_of_le_of_lt (Char.isDigit_iff_toNat.1 digit).2 (by decide))
  have lower : c.toLower = c := by
    rw [Char.toLower, dif_neg fun capital => beyond (d := 'Z') (by decide) capital.2]
  have absent : c ∉ "0123456789abcdef".toList := by
    intro mem
    have small : "0123456789abcdef".toList.all (·.toNat < 128) := by decide
    exact ascii (of_decide_eq_true (List.all_eq_true.1 small c mem))
  rw [hexDigit?, noDigit, digit?, lower, List.idxOf?_eq_none_iff.2 absent]
  simp [beyond]

theorem valueOf_eq_foldl (base : Nat) (run : List Char) :
    valueOf base run = run.foldl (fun n c => base * n + (digit? c).getD 0) 0 := by
  rw [valueOf, Nat.ofDigits_eq_foldr, List.foldr_map, List.foldr_reverse]
  simp only [Nat.cast_id, Nat.add_comm]

theorem hexValue_eq (run : List Char) : hexValue run = valueOf 16 run := by
  rw [valueOf_eq_foldl]
  simp only [hexValue, hexDigit?_eq]

theorem decimalValue_eq (digits : ∀ c ∈ run, c.isDigit = true) :
    decimalValue run = valueOf 10 run := by
  rw [valueOf_eq_foldl]
  refine List.foldl_ext _ _ _ fun n c mem => ?_
  rw [← hexDigit?_eq, hexDigit?, if_pos (digits c mem)]
  rfl

end Value

/-- The longest run of such characters that a text begins with. -/
structure LongestRun (p : Char → Bool) (cs run rest : List Char) : Prop where
  eq : cs = run ++ rest
  all : ∀ c ∈ run, p c = true
  stop : ∀ c ∈ rest.head?, p c = false

theorem LongestRun.takeWhile (h : LongestRun p cs run rest) : cs.takeWhile p = run := by
  rw [h.eq, takeWhile_run h.all h.stop]

theorem LongestRun.dropWhile (h : LongestRun p cs run rest) : cs.dropWhile p = rest := by
  rw [h.eq, dropWhile_run h.all h.stop]

section Readers

theorem hexNumber_of_run (h : LongestRun (fun c => (digit? c).isSome) cs run rest) :
    hexNumber cs = if run = [] then .error .incompleteHex
      else if valueOf 16 run < 2 ^ 64 then
        .ok (.uint (UInt64.ofNat (valueOf 16 run)), rest)
      else .error (.hexOutOfRange (String.ofList run)) := by
  have same : isHexDigit = fun c => (digit? c).isSome := by
    funext c
    rw [isHexDigit, hexDigit?_eq]
  simp only [hexNumber, same, h.takeWhile, h.dropWhile, hexValue_eq]
  rfl

theorem number_of_run (plain : ¬ ['0', 'x'] <+: cs) (parts : LongestRun isDigitOrDot cs run rest) :
    Scan.number cs = (decimal run).map (·, rest) := by
  unfold Scan.number
  split
  · next r => exact absurd ⟨r, rfl⟩ plain
  · rw [parts.takeWhile, parts.dropWhile]

theorem isDigit_of_count (all : ∀ c ∈ run, isDigitOrDot c = true) (none_ : run.count '.' = 0) :
    ∀ c ∈ run, c.isDigit = true := by
  intro c mem
  have part := all c mem
  rw [isDigitOrDot, Bool.or_eq_true, beq_iff_eq] at part
  refine part.resolve_right ?_
  rintro rfl
  exact List.count_eq_zero.1 none_ mem

theorem decimal_whole (all : ∀ c ∈ run, isDigitOrDot c = true) (none_ : run.count '.' = 0) :
    decimal run = if valueOf 10 run < 2 ^ 63 then .ok (.int (Int64.ofNat (valueOf 10 run)))
      else .error (.numberOutOfRange (String.ofList run)) := by
  rw [decimal, none_]
  simp only [decimalValue_eq (isDigit_of_count all none_)]
  rfl

theorem decimal_dots (bad : 1 < run.count '.' ∨ run.getLast? = some '.') :
    ∃ f, decimal run = .error f := by
  unfold decimal
  split
  · next none_ =>
    rcases bad with many | last
    · omega
    · exact absurd (List.mem_of_getLast? last) (List.count_eq_zero.1 none_)
  · next one =>
    rcases bad with many | last
    · omega
    · exact ⟨_, if_pos last⟩
  · exact ⟨_, rfl⟩

end Readers

section Place

/-- The source is refused, for something in its characters on that line. -/
def Refused (style : Indentation) (text : String) (number : Nat) : Prop :=
  ∃ fault : Fault, fault.kind = .lexical ∧ tokenize style text = .error ⟨number, fault⟩

theorem Reaches.refused (place : Reaches style text.toList number before (c :: cs))
    (digit : c.isDigit = true) {f : Fault} (fails : Scan.number (c :: cs) = .error f) :
    Refused style text number := by
  have stops : next c cs = .error f := by
    rw [next_digit _ digit, fails]
    rfl
  exact ⟨f, number_lexical fails, place.fault (remainder_fault stops)⟩

/-- The number is read up to `rest`, and is the next lexeme of the source if that is read to its
end. -/
structure ReadAs (style : Indentation) (text : String) (before : List Lexeme) (c : Char)
    (cs : List Char) (x : Literal) (rest : List Char) : Prop where
  step : next c cs = .ok (.lexeme (.ofLiteral x), rest)
  lexeme : ∀ lines, tokenize style text = .ok lines →
    before ++ [.ofLiteral x] <+: lines.flatMap Line.lexemes

theorem Reaches.readAs {x : Literal} (place : Reaches style text.toList number before (c :: cs))
    (digit : c.isDigit = true) (read : Scan.number (c :: cs) = .ok (x, rest)) :
    ReadAs style text before c cs x rest := by
  have step : next c cs = .ok (.lexeme (.ofLiteral x), rest) := by
    rw [next_digit _ digit, read]
    rfl
  exact ⟨step, fun _ all => (place.lexeme step).begins all⟩

theorem hexadecimal_exact (place : Reaches style text.toList number before ('0' :: 'x' :: cs))
    (digits : LongestRun (fun c => (digit? c).isSome) cs run rest) :
    (run ≠ [] ∧ valueOf 16 run < 2 ^ 64 → ∃ v : UInt64, v.toNat = valueOf 16 run ∧
        ReadAs style text before '0' ('x' :: cs) (.uint v) rest) ∧
      (¬ (run ≠ [] ∧ valueOf 16 run < 2 ^ 64) → Refused style text number) := by
  have zero : '0'.isDigit = true := rfl
  have read : Scan.number ('0' :: 'x' :: cs) = _ := hexNumber_of_run digits
  constructor
  · rintro ⟨some_, fits⟩
    rw [if_neg some_, if_pos fits] at read
    exact ⟨_, UInt64.toNat_ofNat_of_lt' fits, place.readAs zero read⟩
  · intro wrong
    by_cases none_ : run = []
    · rw [if_pos none_] at read
      exact place.refused zero read
    · rw [if_neg none_, if_neg fun fits => wrong ⟨none_, fits⟩] at read
      exact place.refused zero read

theorem decimal_exact (place : Reaches style text.toList number before (c :: cs))
    (digit : c.isDigit = true) (plain : ¬ ['0', 'x'] <+: c :: cs)
    (parts : LongestRun isDigitOrDot (c :: cs) run rest) :
    ('.' ∉ run →
        (valueOf 10 run < 2 ^ 63 → ∃ v : Int64, v.toInt = valueOf 10 run ∧
          ReadAs style text before c cs (.int v) rest) ∧
        (¬ valueOf 10 run < 2 ^ 63 → Refused style text number)) ∧
      (1 < run.count '.' ∨ run.getLast? = some '.' → Refused style text number) := by
  have read := number_of_run plain parts
  refine ⟨fun none_ => ?_, fun bad => ?_⟩
  · rw [decimal_whole parts.all (List.count_eq_zero.2 none_)] at read
    refine ⟨fun fits => ?_, fun large => ?_⟩
    · rw [if_pos fits] at read
      exact ⟨_, Int64.toInt_ofNat_of_lt fits, place.readAs digit read⟩
    · rw [if_neg large] at read
      exact place.refused digit read
  · obtain ⟨f, fails⟩ := decimal_dots bad
    rw [fails] at read
    exact place.refused digit read

end Place

end Scan

open Scan

/-- Wherever scanning comes to a digit, the whole number there is read for what its digits say, and
exactly they are left behind. What is out of range or has its dots in the wrong places is refused,
on the line in which it stands. -/
theorem tokenize_numeral {style : Indentation} {source : String} {number : Nat}
    {before : List Lexeme} {c : Char} {cs : List Char}
    (place : Reaches style source.toList number before (c :: cs)) (digit : c.isDigit = true) :
    (∃ front, source.toList = front ++ c :: cs ∧ number = 1 + front.count '\n') ∧
    (∀ behind run rest, c :: cs = '0' :: 'x' :: behind →
        LongestRun (fun d => (digit? d).isSome) behind run rest →
        (run ≠ [] ∧ valueOf 16 run < 2 ^ 64 → ∃ v : UInt64, v.toNat = valueOf 16 run ∧
          ReadAs style source before c cs (.uint v) rest) ∧
        (¬ (run ≠ [] ∧ valueOf 16 run < 2 ^ 64) → Refused style source number)) ∧
    (∀ run rest, ¬ ['0', 'x'] <+: c :: cs →
        LongestRun (fun d => d.isDigit || d == '.') (c :: cs) run rest →
        ('.' ∉ run →
          (valueOf 10 run < 2 ^ 63 → ∃ v : Int64, v.toInt = valueOf 10 run ∧
            ReadAs style source before c cs (.int v) rest) ∧
          (¬ valueOf 10 run < 2 ^ 63 → Refused style source number)) ∧
        (1 < run.count '.' ∨ run.getLast? = some '.' → Refused style source number)) := by
  refine ⟨place.passed, fun behind run rest eq digits => ?_, fun run rest plain parts => ?_⟩
  · obtain ⟨rfl, rfl⟩ := List.cons.inj eq
    exact hexadecimal_exact place digits
  · exact decimal_exact place digit plain parts

theorem tokenize_numeral_limits :
    let hex := 'F' :: List.replicate 15 'f'
    let large := "9223372036854775808".toList
    (Reaches .tabs "\n0xFfffffffffffffff-".toList 2 [] ('0' :: 'x' :: (hex ++ ['-'])) ∧
      LongestRun (fun d => (digit? d).isSome) (hex ++ ['-']) hex ['-']) ∧
    (∃ v : UInt64, v.toNat = 18446744073709551615 ∧
      ReadAs .tabs "\n0xFfffffffffffffff-" [] '0' ('x' :: (hex ++ ['-'])) (.uint v) ['-']) ∧
    (Reaches .tabs "\n009223372036854775808)".toList 2 [] ('0' :: '0' :: (large ++ [')'])) ∧
      LongestRun (fun d => d.isDigit || d == '.') ('0' :: '0' :: (large ++ [')']))
        ('0' :: '0' :: large) [')']) ∧
    Refused .tabs "\n009223372036854775808)" 2 := by
  intro hex large
  have place (cs : List Char) : Reaches .tabs ('\n' :: '0' :: cs) 2 [] ('0' :: cs) := by
    have start : Reaches .tabs ('\n' :: '0' :: cs) 1 [] ('\n' :: '0' :: cs) := .start rfl
    have next : Reaches .tabs ('\n' :: '0' :: cs) 2 [] (afterIndent ('0' :: cs)) :=
      start.newline rfl rfl
    exact next
  have digits : LongestRun (fun d => (digit? d).isSome) (hex ++ ['-']) hex ['-'] := by
    refine ⟨rfl, List.all_eq_true.1 (by decide), ?_⟩
    rintro _ ⟨⟩
    decide
  have parts : LongestRun (fun d => d.isDigit || d == '.') ('0' :: '0' :: (large ++ [')']))
      ('0' :: '0' :: large) [')'] := by
    refine ⟨rfl, List.all_eq_true.1 (by decide), ?_⟩
    rintro _ ⟨⟩
    decide
  have first : Reaches .tabs "\n0xFfffffffffffffff-".toList 2 [] ('0' :: 'x' :: (hex ++ ['-'])) := by
    have text : "\n0xFfffffffffffffff-".toList = '\n' :: '0' :: 'x' :: (hex ++ ['-']) := by decide
    exact text ▸ place _
  have second : Reaches .tabs "\n009223372036854775808)".toList 2 []
      ('0' :: '0' :: (large ++ [')'])) := by
    have text : "\n009223372036854775808)".toList = '\n' :: '0' :: '0' :: (large ++ [')']) := by
      decide
    exact text ▸ place _
  refine ⟨⟨first, digits⟩, ?_, ⟨second, parts⟩, ?_⟩
  · exact ((tokenize_numeral first rfl).2.1 _ _ _ rfl digits).1 ⟨by decide, by decide⟩
  · exact (((tokenize_numeral second rfl).2.2 _ _ (by decide) parts).1 (by decide)).2 (by decide)

end Offside
