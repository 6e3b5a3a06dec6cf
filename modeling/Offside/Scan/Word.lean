import Offside.Text.Alphabetic
import Offside.Text.Numeric

/-!
Words: a letter or underscore, then letters, numbers and underscores.
-/

namespace Offside.Scan

def isWordStart (c : Char) : Bool :=
  Text.isAlphabetic c || c == '_'

def isWordChar (c : Char) : Bool :=
  Text.isAlphabetic c || Text.isNumeric c || c == '_'

theorem isWordChar_of_isWordStart {c : Char} (h : isWordStart c = true) :
    isWordChar c = true := by
  simp only [isWordStart, isWordChar, Bool.or_eq_true] at h ⊢
  exact h.elim (fun h => .inl (.inl h)) .inr

def word (cs : List Char) : String :=
  String.ofList (cs.takeWhile isWordChar)

def afterWord (cs : List Char) : List Char :=
  cs.dropWhile isWordChar

theorem afterWord_shorter {c : Char} (cs : List Char) (h : isWordStart c = true) :
    (afterWord (c :: cs)).length ≤ cs.length := by
  rw [afterWord, List.dropWhile_cons_of_pos (isWordChar_of_isWordStart h)]
  exact (List.dropWhile_sublist _).length_le

end Offside.Scan
