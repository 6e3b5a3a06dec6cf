import Offside.Module.Build

/-!
Lines by position. Indentation nests them: the opener of a line is the last one before it
that is indented less, and around a line stand its opener, the opener of that, and so on.
Behind the last line there is nothing, as if lines without indentation went on for ever.
-/

namespace Offside

inductive Role
  | class_
  | function
  | if_
  | elseIf
  | else_
  | while_
  | for_
  | foreach
  | return_
  | expression
  deriving DecidableEq, Repr

namespace Role

def ofElse : List Lexeme → Role
  | next :: _ => if next.kind = .keyword .if_ then elseIf else else_
  | [] => else_

def of : List Lexeme → Role
  | [] => expression
  | first :: rest =>
    match first.kind with
    | .keyword .class_ => class_
    | .keyword .function => function
    | .keyword .if_ => if_
    | .keyword .else_ => ofElse rest
    | .keyword .while_ => while_
    | .keyword .for_ => for_
    | .keyword .foreach => foreach
    | .keyword .return_ => return_
    | _ => expression

def declares : Role → Bool
  | class_ | function => true
  | _ => false

def isElse : Role → Bool
  | elseIf | else_ => true
  | _ => false

/-- May an else line follow? -/
def isIf : Role → Bool
  | if_ | elseIf => true
  | _ => false

/-- May the next line be indented deeper? -/
def opensBlock : Role → Bool
  | return_ | expression => false
  | _ => true

/-- Is the line a statement in the body around it? An else line is part of another one. -/
def isUnit : Role → Bool
  | class_ | function | elseIf | else_ => false
  | _ => true

def hasBody : Role → Bool
  | class_ | return_ | expression => false
  | _ => true

section Else

variable {r : Role}

theorem opensBlock_of_isElse (h : r.isElse) : r.opensBlock := by
  cases r <;> first | rfl | cases h

theorem declares_of_isElse (h : r.isElse) : r.declares = false := by
  cases r <;> first | rfl | cases h

theorem isUnit_of_isElse (h : r.isElse) : r.isUnit = false := by
  cases r <;> first | rfl | cases h

theorem opensBlock_of_isIf (h : r.isIf) : r.opensBlock := by
  cases r <;> first | rfl | cases h

theorem isUnit_of_isIf (h : r.isIf) : r.isUnit ∨ r = elseIf := by
  cases r <;> first | exact .inl rfl | exact .inr rfl | cases h

end Else

end Role

namespace Module

/-- The last number below `i` with a property. -/
def latest (p : Nat → Bool) : Nat → Option Nat
  | 0 => none
  | i + 1 => if p i then some i else latest p i

theorem latest_eq_some {p : Nat → Bool} {i j : Nat} :
    latest p i = some j ↔ j < i ∧ p j = true ∧ ∀ q, j < q → q < i → p q = false := by
  induction i with
  | zero => simp [latest]
  | succ i ih =>
    rw [latest]
    split
    · next holds =>
      simp only [Option.some.injEq]
      constructor
      · rintro rfl
        exact ⟨Nat.lt_succ_self i, holds, fun q _ _ => by omega⟩
      · rintro ⟨lt, -, last⟩
        refine Nat.le_antisymm (Nat.not_lt.1 fun less => ?_) (Nat.lt_succ_iff.1 lt)
        simp [last i less (Nat.lt_succ_self i)] at holds
    · next fails =>
      rw [ih]
      constructor
      · rintro ⟨lt, holds, last⟩
        refine ⟨Nat.lt_succ_of_lt lt, holds, fun q less lt' => ?_⟩
        rcases Nat.lt_succ_iff_lt_or_eq.1 lt' with lt' | rfl
        · exact last q less lt'
        · simpa using fails
      · rintro ⟨lt, holds, last⟩
        have ne : j ≠ i := by
          rintro rfl
          exact fails holds
        exact ⟨by omega, holds, fun q less lt' => last q less (Nat.lt_succ_of_lt lt')⟩

theorem latest_eq_none {p : Nat → Bool} {i : Nat} :
    latest p i = none ↔ ∀ q, q < i → p q = false := by
  induction i with
  | zero => simp [latest]
  | succ i ih =>
    rw [latest]
    split
    · next holds =>
      simp only [reduceCtorEq, false_iff]
      intro none
      simp [none i (Nat.lt_succ_self i)] at holds
    · next fails =>
      rw [ih]
      constructor
      · intro none q lt
        rcases Nat.lt_succ_iff_lt_or_eq.1 lt with lt | rfl
        · exact none q lt
        · simpa using fails
      · exact fun none q lt => none q (Nat.lt_succ_of_lt lt)

variable (ls : List Line)

def lineAt (i : Nat) : Line :=
  ls.getD i ⟨0, 0, []⟩

def indent (i : Nat) : Nat :=
  (lineAt ls i).indentation

def number (i : Nat) : Nat :=
  (lineAt ls i).number

def roleAt (i : Nat) : Role :=
  .of (lineAt ls i).lexemes

/-- The last line before position `i` that is indented less than `d`. -/
def before (d i : Nat) : Option Nat :=
  latest (fun j => indent ls j < d) i

def opener? (i : Nat) : Option Nat :=
  before ls (indent ls i) i

/-- The last line before that is not indented deeper. -/
def reached? (i : Nat) : Option Nat :=
  before ls (indent ls i + 1) i

section Before

variable {ls} {d i j : Nat}

theorem before_eq_some : before ls d i = some j ↔
    j < i ∧ indent ls j < d ∧ ∀ q, j < q → q < i → d ≤ indent ls q := by
  simp [before, latest_eq_some]

theorem before_eq_none : before ls d i = none ↔ ∀ q, q < i → d ≤ indent ls q := by
  simp [before, latest_eq_none]

theorem before_lt (h : before ls d i = some j) : j < i :=
  (before_eq_some.1 h).1

theorem opener?_lt (h : opener? ls i = some j) : j < i :=
  before_lt h

theorem before_succ_of_lt (h : indent ls i < d) : before ls d (i + 1) = some i :=
  before_eq_some.2 ⟨Nat.lt_succ_self i, h, fun q _ _ => by omega⟩

theorem before_skip (le : j ≤ i) (deep : ∀ q, j ≤ q → q < i → d ≤ indent ls q) :
    before ls d i = before ls d j := by
  cases h : before ls d j with
  | none =>
    rw [before_eq_none] at h ⊢
    intro q lt
    by_cases less : q < j
    · exact h q less
    · exact deep q (Nat.not_lt.1 less) lt
  | some k =>
    rw [before_eq_some] at h ⊢
    obtain ⟨lt, less, last⟩ := h
    refine ⟨by omega, less, fun q hq lt' => ?_⟩
    by_cases below : q < j
    · exact last q hq below
    · exact deep q (Nat.not_lt.1 below) lt'

theorem before_opener? (h : d ≤ indent ls i) :
    before ls d i = (opener? ls i).bind fun j => before ls d (j + 1) := by
  cases hi : opener? ls i with
  | none =>
    rw [opener?, before_eq_none] at hi
    rw [Option.bind_none, before_eq_none]
    exact fun q lt => Nat.le_trans h (hi q lt)
  | some j =>
    rw [opener?, before_eq_some] at hi
    obtain ⟨lt, -, last⟩ := hi
    exact before_skip lt fun q less lt' => Nat.le_trans h (last q less lt')

theorem opener?_congr (le : j ≤ i) (same : indent ls i = indent ls j)
    (deep : ∀ q, j ≤ q → q < i → indent ls j ≤ indent ls q) : opener? ls i = opener? ls j := by
  rw [opener?, same, opener?]
  exact before_skip le deep

end Before

/-- The lines around a line, from the inside out. -/
def enclosing (i : Nat) : List Nat :=
  match _h : opener? ls i with
  | none => []
  | some j => j :: enclosing j
termination_by i
decreasing_by exact opener?_lt _h

def openers : Option Nat → List Nat
  | none => []
  | some i => i :: enclosing ls i

theorem enclosing_eq (i : Nat) : enclosing ls i = openers ls (opener? ls i) := by
  rw [enclosing]
  split
  · next none => rw [none]; rfl
  · next j some => rw [some]; rfl

@[simp] theorem openers_none : openers ls none = [] := rfl

theorem openers_some (i : Nat) : openers ls (some i) = i :: openers ls (opener? ls i) := by
  rw [openers, enclosing_eq]

/-- The lines around a line are those before it such that all lines since are indented deeper. -/
theorem mem_enclosing {i j : Nat} : j ∈ enclosing ls i ↔
    j < i ∧ ∀ q, j < q → q ≤ i → indent ls j < indent ls q := by
  induction i using Nat.strongRecOn with
  | ind i ih =>
    rw [enclosing_eq]
    cases hi : opener? ls i with
    | none =>
      rw [opener?, before_eq_none] at hi
      simp only [openers_none, List.not_mem_nil, false_iff]
      rintro ⟨lt, deeper⟩
      exact absurd (hi j lt) (Nat.not_le.2 (deeper i lt (Nat.le_refl i)))
    | some k =>
      rw [opener?, before_eq_some] at hi
      obtain ⟨lt, less, last⟩ := hi
      rw [openers, List.mem_cons, ih k lt]
      constructor
      · rintro (rfl | ⟨hj, deeper⟩)
        · refine ⟨lt, fun q hq le => ?_⟩
          rcases Nat.lt_or_eq_of_le le with lt' | rfl
          · exact Nat.lt_of_lt_of_le less (last q hq lt')
          · exact less
        · refine ⟨Nat.lt_trans hj lt, fun q hq le => ?_⟩
          have outer := deeper k hj (Nat.le_refl k)
          rcases Nat.lt_or_ge k q with after | upto
          · rcases Nat.lt_or_eq_of_le le with lt' | rfl
            · have := last q after lt'
              omega
            · omega
          · exact deeper q hq upto
      · rintro ⟨hj, deeper⟩
        rcases Nat.lt_trichotomy j k with before | rfl | after
        · exact .inr ⟨before, fun q hq le => deeper q hq (by omega)⟩
        · exact .inl rfl
        · exact absurd (deeper i hj (Nat.le_refl i)) (Nat.not_lt.2 (last j after hj))

/-- The statements of the body that a line opens, or of the entry function, among the lines
before position `b`. -/
def units (o : Option Nat) (b : Nat) : List Nat :=
  (List.range b).filter fun i => (roleAt ls i).isUnit && (opener? ls i == o)

section Units

variable {ls} {o : Option Nat} {b i k : Nat}

theorem mem_units : i ∈ units ls o b ↔ i < b ∧ (roleAt ls i).isUnit ∧ opener? ls i = o := by
  simp [units]

theorem units_succ_of_unit (h : (roleAt ls b).isUnit) (opener : opener? ls b = o) :
    units ls o (b + 1) = units ls o b ++ [b] := by
  simp [units, List.range_succ, h, opener]

theorem units_succ (h : (roleAt ls b).isUnit → opener? ls b ≠ o) :
    units ls o (b + 1) = units ls o b := by
  have fails : ((roleAt ls b).isUnit && (opener? ls b == o)) = false := by
    simpa using h
  simp [units, List.range_succ, fails]

theorem units_extend (le : b ≤ k)
    (h : ∀ i, b ≤ i → i < k → (roleAt ls i).isUnit → opener? ls i ≠ o) :
    units ls o k = units ls o b := by
  induction le with
  | refl => rfl
  | @step k le ih =>
    rw [units_succ (h k le (Nat.lt_succ_self k))]
    exact ih fun i hi lt => h i hi (Nat.lt_succ_of_lt lt)

theorem units_eq_nil (h : b ≤ i + 1) : units ls (some i) b = [] := by
  rw [List.eq_nil_iff_forall_not_mem]
  intro j hj
  obtain ⟨lt, -, opener⟩ := mem_units.1 hj
  have := opener?_lt opener
  omega

end Units

end Module

end Offside
