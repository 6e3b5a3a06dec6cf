import Mathlib
import Offside.Proofs.Scan.Append
import Offside.Proofs.Scan.Lines
import Offside.Proofs.Scan.Shape

/-!
What comes out of a source. The lines stand in the order of their numbers, within the physical
lines of the text, and the payload of a lexeme is that of its kind: the parser may rely on it
wherever it looks for a name or a value.
-/

namespace Offside

def Literal.isUnsigned : Literal → Bool
  | int n => 0 ≤ n.toInt
  | float x => !x.negative
  | _ => true

/-- What a piece of text can be read as: names and values with what they stand for, all other
kinds with nothing. -/
inductive Lexeme.Scanned : Lexeme → Prop
  | fixed {k : Kind} (notName : k ≠ .name) (notLiteral : k ≠ .literal) : Scanned ⟨k, none⟩
  | name {i : Ident} (word : isIdentifier i.name = true)
      (free : i.sigil = .none → reserved.lookup i.name = none) : Scanned (.ofIdent i)
  | literal {x : Literal} (unsigned : x.isUnsigned = true) : Scanned (.ofLiteral x)

namespace Scan

variable {style : Indentation} {number lo hi : Nat} {c : Char} {cs rest : List Char}
  {l : Lexeme} {x : Literal} {found : List Lexeme × List Line} {lines : List Line}

section Lexemes

theorem hexNumber_unsigned (h : hexNumber cs = .ok (x, rest)) : x.isUnsigned = true := by
  unfold hexNumber at h
  dsimp only at h
  split at h
  · cases h
  · split at h <;> cases h
    rfl

theorem decimal_unsigned (h : decimal cs = .ok x) : x.isUnsigned = true := by
  unfold decimal at h
  split at h
  · split at h <;> cases h
    next lt =>
    rw [Literal.isUnsigned, Int64.toInt_ofNat_of_lt lt, decide_eq_true_eq]
    exact Int.natCast_nonneg _
  · split at h <;> cases h
    rw [Literal.isUnsigned, Binary64.negative_ofDecimal]
    rfl
  · cases h

theorem number_unsigned (h : Scan.number cs = .ok (x, rest)) : x.isUnsigned = true := by
  unfold Scan.number at h
  split at h
  · exact hexNumber_unsigned h
  · obtain ⟨v, value, eq⟩ := map_eq_ok.1 h
    cases eq
    exact decimal_unsigned value

theorem isIdentifier_word (start : isWordStart c = true) (cs : List Char) :
    isIdentifier (word (c :: cs)) = true := by
  refine isIdentifier_iff.2 ⟨c, cs.takeWhile isWordChar, ?_, start, fun _ => of_mem_takeWhile⟩
  rw [word, String.toList_ofList, List.takeWhile_cons_of_pos (isWordChar_of_isWordStart start)]

theorem reserved_scanned : ∀ entry ∈ Lexeme.reserved, entry.2.Scanned := by
  have keyword (w : Keyword) : (⟨.keyword w, none⟩ : Lexeme).Scanned := .fixed nofun nofun
  have literal {x : Literal} (h : x.isUnsigned = true) : (Lexeme.ofLiteral x).Scanned := .literal h
  simp only [Lexeme.reserved, List.forall_mem_cons, keyword, true_and]
  exact ⟨literal rfl, literal rfl, literal rfl, List.forall_mem_nil _⟩

theorem ofWord_scanned {name : String} (h : isIdentifier name = true) :
    (Lexeme.ofWord name).Scanned := by
  unfold Lexeme.ofWord
  cases found : Lexeme.reserved.lookup name with
  | some l =>
    obtain ⟨before, behind, eq, -⟩ := List.lookup_eq_some_iff.1 found
    exact reserved_scanned (name, l) (eq ▸ List.mem_append_right _ List.mem_cons_self)
  | none => exact .name h fun _ => found

theorem sigilName_scanned (h : sigilName c cs = .ok (.lexeme l, rest)) : l.Scanned := by
  unfold sigilName at h
  split at h
  · split at h <;> cases h
    next start => exact .name (isIdentifier_word start _) nofun
  · split at h <;> cases h
    next start => exact .name (isIdentifier_word start _) nofun
  · cases h

theorem symbol_fixed : ∀ k ∈ Kind.symbols, k ≠ .name ∧ k ≠ .literal := by
  decide

theorem symbol?_scanned {k : Kind} (h : symbol? cs = some (k, rest)) :
    (⟨k, none⟩ : Lexeme).Scanned := by
  obtain ⟨j, found, eq⟩ := Option.map_eq_some_iff.1 h
  obtain ⟨rfl, -⟩ := Prod.mk.inj eq
  obtain ⟨notName, notLiteral⟩ := symbol_fixed j (List.mem_of_find?_eq_some found)
  exact .fixed notName notLiteral

theorem next_scanned (h : next c cs = .ok (.lexeme l, rest)) : l.Scanned := by
  unfold next at h
  split at h
  · cases h
  split at h
  · cases h
  split at h
  · obtain ⟨_, _, eq⟩ := map_eq_ok.1 h
    cases eq
  split at h
  · split at h <;> cases h
    exact .literal rfl
  split at h
  · obtain ⟨_, read, eq⟩ := map_eq_ok.1 h
    cases eq
    exact .literal (number_unsigned read)
  split at h
  next start =>
    cases h
    exact ofWord_scanned (isIdentifier_word start cs)
  split at h
  next found =>
    cases h
    exact symbol?_scanned found
  · exact sigilName_scanned h

end Lexemes

/-- Lines in the order of their numbers, from `lo` to `hi`. -/
structure Ordered (lo hi : Nat) (lines : List Line) : Prop where
  bounds : ∀ l ∈ lines, lo ≤ l.number ∧ l.number ≤ hi
  sorted : lines.Pairwise (·.number < ·.number)

theorem Ordered.nil : Ordered lo hi [] := ⟨List.forall_mem_nil _, .nil⟩

theorem Ordered.openLine {indentation : Nat} (le : number ≤ hi)
    (h : Ordered (number + 1) hi found.2) :
    Ordered number hi (openLine number indentation found) := by
  have wider : ∀ l ∈ found.2, number ≤ l.number ∧ l.number ≤ hi := fun l mem =>
    ⟨Nat.le_of_succ_le (h.bounds l mem).1, (h.bounds l mem).2⟩
  unfold Scan.openLine
  split
  · exact ⟨wider, h.sorted⟩
  · refine ⟨List.forall_mem_cons.2 ⟨⟨Nat.le_refl _, le⟩, wider⟩, List.pairwise_cons.2 ⟨?_, h.sorted⟩⟩
    exact fun l mem => (h.bounds l mem).1

theorem openLine_scanned {indentation : Nat}
    (h : (∀ x ∈ found.1, x.Scanned) ∧ ∀ l ∈ found.2, ∀ x ∈ l.lexemes, x.Scanned) :
    ∀ l ∈ openLine number indentation found, ∀ x ∈ l.lexemes, x.Scanned := by
  unfold openLine
  split
  · exact h.2
  · exact List.forall_mem_cons.2 h

theorem remainder_scanned (h : remainder style number cs = .ok found) :
    (∀ x ∈ found.1, x.Scanned) ∧ ∀ l ∈ found.2, ∀ x ∈ l.lexemes, x.Scanned := by
  induction number, cs using remainder.induct generalizing found with
  | case1 number =>
    rw [remainder_nil] at h
    cases h
    exact ⟨List.forall_mem_nil _, List.forall_mem_nil _⟩
  | case2 number c cs f hn =>
    rw [remainder_fault hn] at h
    cases h
  | case3 number c cs l rest hn ih =>
    rw [remainder_lexeme hn] at h
    obtain ⟨more, read, rfl⟩ := map_eq_ok.1 h
    obtain ⟨own, behind⟩ := ih read
    exact ⟨List.forall_mem_cons.2 ⟨next_scanned hn, own⟩, behind⟩
  | case4 number c cs n rest hn ih =>
    rw [remainder_blank hn] at h
    exact ih h
  | case5 number c cs rest hn ih =>
    rw [remainder_newline hn] at h
    obtain ⟨lines, next, rfl⟩ := map_eq_ok.1 h
    obtain ⟨indentation, -, measured⟩ := bind_eq_ok.1 next
    obtain ⟨more, read, eq⟩ := bind_eq_ok.1 measured
    cases eq
    exact ⟨List.forall_mem_nil _, openLine_scanned (ih read)⟩

theorem linesFrom_scanned (h : linesFrom style number cs = .ok lines) :
    ∀ l ∈ lines, ∀ x ∈ l.lexemes, x.Scanned := by
  obtain ⟨indentation, -, measured⟩ := bind_eq_ok.1 h
  obtain ⟨found, read, eq⟩ := bind_eq_ok.1 measured
  cases eq
  exact openLine_scanned (remainder_scanned read)

end Scan

section Tokenize

variable {style : Indentation} {source : String} {lines : List Line}

theorem tokenize_scanned (h : tokenize style source = .ok lines) :
    ∀ l ∈ lines, ∀ x ∈ l.lexemes, x.Scanned :=
  Scan.linesFrom_scanned h

end Tokenize

end Offside
