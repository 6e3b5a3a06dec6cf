import Offside.Error
import Offside.Line
import Offside.Scan.Item

/-!
A source as logical lines. A line break ends a logical line, except inside a comment;
what follows a comment over several lines joins the line on which the comment began.
Lines without lexemes are left out, and the others keep the indentation at their start.
-/

namespace Offside.Scan

def isIndent (c : Char) : Bool :=
  c == ' ' || c == '\t'

def afterIndent (cs : List Char) : List Char :=
  cs.dropWhile isIndent

theorem afterIndent_shorter (cs : List Char) : (afterIndent cs).length ≤ cs.length :=
  (List.dropWhile_sublist _).length_le

/-- The level of indentation at the start of a physical line. Blank lines are not
measured; a NUL counts as the end of the source. Lines that open with a comment are
not held to the unit. -/
def level (style : Indentation) (cs : List Char) : Except Fault Nat :=
  let indent := cs.takeWhile isIndent
  match (afterIndent cs).head? with
  | none | some '\n' | some '\r' | some '\x00' => .ok 0
  | some c =>
    if indent.any (· != style.unit) then
      if c = ';' then .ok 0 else .error (.mixedIndentation style)
    else if indent.length % style.width ≠ 0 ∧ c ≠ ';' then
      .error (.unevenIndentation indent.length style.width)
    else .ok (indent.length / style.width)

def openLine (number indentation : Nat) (found : List Lexeme × List Line) : List Line :=
  if found.1 = [] then found.2 else ⟨number, indentation, found.1⟩ :: found.2

/-- From inside physical line `number`: the lexemes still on the current logical line, and
the logical lines behind it. -/
def remainder (style : Indentation) (number : Nat) :
    List Char → Except Error (List Lexeme × List Line)
  | [] => .ok ([], [])
  | c :: cs =>
    match h : next c cs with
    | .error fault => .error ⟨number, fault⟩
    | .ok (.lexeme l, rest) =>
      (remainder style number rest).map fun (ls, lines) => (l :: ls, lines)
    | .ok (.blank n, rest) => remainder style (number + n) rest
    | .ok (.newline, rest) => do
      let indentation ← atLine (number + 1) (level style rest)
      let found ← remainder style (number + 1) (afterIndent rest)
      return ([], openLine (number + 1) indentation found)
termination_by cs => cs.length
decreasing_by
  all_goals
    have := next_shorter h
    have := afterIndent_shorter rest
    simp only [List.length_cons]
    omega

def linesFrom (style : Indentation) (number : Nat) (cs : List Char) :
    Except Error (List Line) := do
  let indentation ← atLine number (level style cs)
  return openLine number indentation (← remainder style number (afterIndent cs))

theorem remainder_nil (style : Indentation) (number : Nat) :
    remainder style number [] = .ok ([], []) := by
  rw [remainder]

theorem remainder_fault {style : Indentation} {number : Nat} {c : Char} {cs : List Char}
    {fault : Fault} (h : next c cs = .error fault) :
    remainder style number (c :: cs) = .error ⟨number, fault⟩ := by
  rw [remainder]
  split <;> simp_all

theorem remainder_lexeme {style : Indentation} {number : Nat} {c : Char} {cs rest : List Char}
    {l : Lexeme} (h : next c cs = .ok (.lexeme l, rest)) :
    remainder style number (c :: cs) =
      (remainder style number rest).map fun (ls, lines) => (l :: ls, lines) := by
  rw [remainder]
  split <;> simp_all

theorem remainder_blank {style : Indentation} {number n : Nat} {c : Char}
    {cs rest : List Char} (h : next c cs = .ok (.blank n, rest)) :
    remainder style number (c :: cs) = remainder style (number + n) rest := by
  rw [remainder]
  split <;> simp_all

theorem remainder_newline {style : Indentation} {number : Nat} {c : Char}
    {cs rest : List Char} (h : next c cs = .ok (.newline, rest)) :
    remainder style number (c :: cs) =
      (linesFrom style (number + 1) rest).map fun lines => ([], lines) := by
  rw [remainder]
  split <;> simp_all
  simp only [linesFrom, bind, Except.bind, pure, Except.pure, Except.map]
  cases atLine (number + 1) (level style rest) with
  | error e => rfl
  | ok n =>
    cases remainder style (number + 1) (afterIndent rest) with
    | error e => rfl
    | ok found => rfl

end Offside.Scan

namespace Offside

def tokenize (style : Indentation) (source : String) : Except Error (List Line) :=
  Scan.linesFrom style 1 source.toList

end Offside
