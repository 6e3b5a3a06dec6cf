import Mathlib
import Offside.Proofs.Binary64.Overflow
import Offside.Proofs.Scan.Numeral
import Offside.Proofs.Scan.RoundTrip

/-!
The values of numbers with a point. Each is read for the nearest double, and there is one for every
such number: where whole numbers are refused as out of range, these become infinite. What is not
infinite is shown as a number again and read back; infinity is shown as a word, which is read as a
name.
-/

namespace Offside

namespace Scan

variable {style : Indentation} {c : Char} {cs run whole fraction rest : List Char} {l : Lexeme}
  {x : Binary64}

/-- The text begins with digits, a point and digits, and goes on with neither. -/
structure PointedRun (cs whole fraction rest : List Char) : Prop where
  eq : cs = whole ++ '.' :: fraction ++ rest
  digits : ∀ c ∈ whole ++ fraction, c.isDigit = true
  whole_ne_nil : whole ≠ []
  fraction_ne_nil : fraction ≠ []
  stop : ∀ c ∈ rest.head?, isDigitOrDot c = false

def nearest (whole fraction : List Char) : Binary64 :=
  .ofDecimal (valueOf 10 (whole ++ fraction)) fraction.length

namespace PointedRun

theorem longestRun (h : PointedRun cs whole fraction rest) :
    LongestRun isDigitOrDot cs (whole ++ '.' :: fraction) rest := by
  obtain ⟨front, behind⟩ := List.forall_mem_append.1 h.digits
  refine ⟨h.eq, ?_, h.stop⟩
  rw [List.forall_mem_append, List.forall_mem_cons]
  exact ⟨fun c mem => isDigitOrDot_of_isDigit (front c mem), rfl,
    fun c mem => isDigitOrDot_of_isDigit (behind c mem)⟩

theorem plain (h : PointedRun cs whole fraction rest) : ¬ ['0', 'x'] <+: cs := by
  rintro ⟨r, eq⟩
  rw [h.eq] at eq
  obtain ⟨d, ds, rfl⟩ := List.exists_cons_of_ne_nil h.whole_ne_nil
  cases ds with
  | nil => simp at eq
  | cons e ds =>
    obtain rfl : 'x' = e := (List.cons.inj (List.cons.inj eq).2).1
    cases h.digits 'x' (by simp)

theorem decimal_eq (h : PointedRun cs whole fraction rest) :
    decimal (whole ++ '.' :: fraction) = .ok (.float (nearest whole fraction)) := by
  obtain ⟨front, behind⟩ := List.forall_mem_append.1 h.digits
  rw [decimal_point front behind h.fraction_ne_nil, decimalValue_eq h.digits, nearest]

theorem number_eq (h : PointedRun cs whole fraction rest) :
    number cs = .ok (.float (nearest whole fraction), rest) := by
  rw [number_of_run h.plain h.longestRun, h.decimal_eq]
  rfl

end PointedRun

theorem pointed_of_decimal (all : ∀ c ∈ run, isDigitOrDot c = true) (first : run.head? ≠ some '.')
    (stop : ∀ c ∈ rest.head?, isDigitOrDot c = false) (h : decimal run = .ok (.float x)) :
    ∃ whole fraction,
      PointedRun (run ++ rest) whole fraction rest ∧ x = nearest whole fraction := by
  have dots : run.count '.' = 1 ∧ run.getLast? ≠ some '.' := by
    unfold decimal at h
    split at h
    · split at h <;> cases h
    · next one =>
      split at h
      · cases h
      · next last => exact ⟨one, last⟩
    · cases h
  obtain ⟨one, last⟩ := dots
  obtain ⟨whole, fraction, rfl⟩ := List.append_of_mem (List.count_pos_iff.1 (one ▸ Nat.one_pos))
  rw [List.count_append, List.count_cons_self] at one
  rw [List.forall_mem_append, List.forall_mem_cons] at all
  have parts : PointedRun (whole ++ '.' :: fraction ++ rest) whole fraction rest := by
    refine ⟨rfl, ?_, ?_, ?_, stop⟩
    · rw [List.forall_mem_append]
      exact ⟨isDigit_of_count all.1 (by omega), isDigit_of_count all.2.2 (by omega)⟩
    · rintro rfl
      exact first rfl
    · rintro rfl
      exact last (by simp)
  rw [parts.decimal_eq] at h
  cases h
  exact ⟨whole, fraction, parts, rfl⟩

theorem pointed_of_number (digit : c.isDigit = true)
    (h : number (c :: cs) = .ok (.float x, rest)) :
    ∃ whole fraction, PointedRun (c :: cs) whole fraction rest ∧ x = nearest whole fraction := by
  unfold number at h
  split at h
  · unfold hexNumber at h
    dsimp only at h
    split at h
    · cases h
    · split at h <;> cases h
  · obtain ⟨v, read, eq⟩ := map_eq_ok.1 h
    cases eq
    have run : (c :: cs).takeWhile isDigitOrDot = c :: cs.takeWhile isDigitOrDot :=
      List.takeWhile_cons_of_pos (isDigitOrDot_of_isDigit digit)
    have first : ((c :: cs).takeWhile isDigitOrDot).head? ≠ some '.' := by
      rw [run]
      exact fun same => ne_dot_of_isDigit digit (Option.some.inj same)
    have stop : ∀ d ∈ ((c :: cs).dropWhile isDigitOrDot).head?, isDigitOrDot d = false :=
      fun _ => of_mem_head?_dropWhile
    have found := pointed_of_decimal (fun _ => of_mem_takeWhile) first stop read
    rwa [List.takeWhile_append_dropWhile] at found

def isFloat (l : Lexeme) : Bool :=
  match l.payload with
  | some (.literal (.float _)) => true
  | _ => false

theorem reserved_not_float : ∀ entry ∈ Lexeme.reserved, isFloat entry.2 = false := by
  decide

theorem ofWord_not_float (name : String) : isFloat (.ofWord name) = false := by
  unfold Lexeme.ofWord
  cases found : Lexeme.reserved.lookup name with
  | some l =>
    obtain ⟨before, behind, eq, -⟩ := List.lookup_eq_some_iff.1 found
    exact reserved_not_float (name, l) (eq ▸ List.mem_append_right _ List.mem_cons_self)
  | none => rfl

theorem sigilName_not_float (h : sigilName c cs = .ok (.lexeme l, rest)) : isFloat l = false := by
  unfold sigilName at h
  split at h
  · split at h <;> cases h
    rfl
  · split at h <;> cases h
    rfl
  · cases h

theorem number_of_next (h : next c cs = .ok (.lexeme (.ofLiteral (.float x)), rest)) :
    c.isDigit = true ∧ number (c :: cs) = .ok (.float x, rest) := by
  have float : isFloat (.ofLiteral (.float x)) = true := rfl
  unfold next at h
  split at h
  · cases h
  split at h
  · cases h
  split at h
  · obtain ⟨_, _, eq⟩ := map_eq_ok.1 h
    cases eq
  split at h
  · split at h <;> cases h
  split at h
  · next digit =>
    obtain ⟨⟨y, u⟩, read, eq⟩ := map_eq_ok.1 h
    cases eq
    exact ⟨digit, read⟩
  split at h
  · obtain ⟨word, -⟩ := Prod.mk.inj (Except.ok.inj h)
    rw [← Item.lexeme.inj word, ofWord_not_float] at float
    cases float
  split at h
  · cases h
  · rw [sigilName_not_float h] at float
    cases float

theorem tokenize_alone {text : String} (eq : text.toList = c :: cs)
    (alone : next c cs = .ok (.lexeme l, [])) (style : Indentation) :
    tokenize style text = .ok [⟨1, 0, [l]⟩] := by
  rw [tokenize, eq, linesFrom_of_not_isIndent (isIndent_of_next alone), remainder_lexeme alone,
    remainder_nil]
  rfl

theorem tokenize_of_readsAs {text : String} (reads : ReadsAs text.toList l) (style : Indentation) :
    tokenize style text = .ok [⟨1, 0, [l]⟩] := by
  obtain ⟨c, cs, eq, step⟩ := reads
  have alone := step [] (by simp)
  rw [List.append_nil] at alone
  exact tokenize_alone eq alone style

namespace PointedRun

theorem isDigit (h : PointedRun (c :: cs) whole fraction rest) : c.isDigit = true := by
  obtain ⟨d, ds, rfl⟩ := List.exists_cons_of_ne_nil h.whole_ne_nil
  obtain ⟨rfl, -⟩ := List.cons.inj h.eq
  exact h.digits c (by simp)

theorem next_eq (h : PointedRun (c :: cs) whole fraction rest) :
    next c cs = .ok (.lexeme (.ofLiteral (.float (nearest whole fraction))), rest) := by
  rw [next_digit _ h.isDigit, h.number_eq]
  rfl

theorem tokenize {text : String} (eq : text.toList = c :: cs)
    (h : PointedRun (c :: cs) whole fraction []) (style : Indentation) :
    tokenize style text = .ok [⟨1, 0, [.ofLiteral (.float (nearest whole fraction))]⟩] :=
  tokenize_alone eq h.next_eq style

end PointedRun

theorem Reaches.readAs_nearest {text : String} {number : Nat} {before : List Lexeme}
    (place : Reaches style text.toList number before (c :: cs))
    (parts : PointedRun (c :: cs) whole fraction rest) :
    ReadAs style text before c cs (.float (nearest whole fraction)) rest :=
  place.readAs parts.isDigit parts.number_eq

theorem tokenize_shown (whole fraction : List Char) (style : Indentation) :
    tokenize style (nearest whole fraction).text = .ok [⟨1, 0,
      [if (nearest whole fraction).isFinite then .ofLiteral (.float (nearest whole fraction))
        else .ofIdent ⟨"inf", .none⟩]⟩] := by
  split
  · next finite =>
    exact tokenize_of_readsAs (readsAs_float finite (Binary64.negative_ofDecimal ..)) style
  · next infinite =>
    have word : isIdentifier "inf" = true := by decide
    rw [nearest, Binary64.text_ofDecimal (Bool.eq_false_iff.2 infinite)]
    exact tokenize_of_readsAs (readsAs_word word) style

end Scan

open Scan

/-- A number with a point is never refused: wherever scanning comes to digits, a point and digits,
they are read for the nearest double, and every double that is read has been there as these. It is a
number if and only if the value is less than halfway from the largest double to the next power of
two. Then its text is read as that same double again; otherwise its text is the name `inf`. -/
theorem tokenize_float (style : Indentation) (source : String) :
    (∀ number before c cs whole fraction rest,
      Reaches style source.toList number before (c :: cs) →
      PointedRun (c :: cs) whole fraction rest →
      ReadAs style source before c cs (.float (nearest whole fraction)) rest) ∧
    ∀ lines x, tokenize style source = .ok lines →
      .ofLiteral (.float x) ∈ lines.flatMap Line.lexemes →
      ∃ number before cs whole fraction rest,
        Reaches style source.toList number before cs ∧ PointedRun cs whole fraction rest ∧
        x = nearest whole fraction ∧
        (x.isFinite = true ↔
          valueOf 10 (whole ++ fraction) < (2 ^ 54 - 1) * 2 ^ 970 * 10 ^ fraction.length) ∧
        ∀ other, tokenize other x.text = .ok [⟨1, 0, [if x.isFinite then .ofLiteral (.float x)
          else .ofIdent ⟨"inf", .none⟩]⟩] := by
  refine ⟨fun _ _ _ _ _ _ _ place parts => place.readAs_nearest parts, fun lines x read mem => ?_⟩
  obtain ⟨last, place⟩ := reaches_of_tokenize read
  obtain ⟨before, after, eq⟩ := List.append_of_mem mem
  obtain ⟨number, c, cs, rest, here, step⟩ := place.split eq
  obtain ⟨digit, reads⟩ := number_of_next step
  obtain ⟨whole, fraction, parts, rfl⟩ := pointed_of_number digit reads
  exact ⟨number, before, c :: cs, whole, fraction, rest, here, parts, rfl,
    Binary64.isFinite_ofDecimal .., tokenize_shown whole fraction⟩

theorem tokenize_float_tenth :
    let x : Binary64 := ⟨0x3FB999999999999A⟩
    tokenize .tabs "0.10" = .ok [⟨1, 0, [.ofLiteral (.float x)]⟩] ∧
    (Reaches .tabs "0.10".toList 1 [] ('0' :: ".10".toList) ∧
      PointedRun ('0' :: ".10".toList) ['0'] ['1', '0'] []) ∧
    ReadAs .tabs "0.10" [] '0' ".10".toList (.float x) [] ∧
    ∀ other, tokenize other x.text = .ok [⟨1, 0, [.ofLiteral (.float x)]⟩] := by
  intro x
  have same : nearest ['0'] ['1', '0'] = x := by decide +kernel
  have text : "0.10".toList = '0' :: ".10".toList := by decide
  have parts : PointedRun ('0' :: ".10".toList) ['0'] ['1', '0'] [] :=
    ⟨by decide, List.all_eq_true.1 (by decide), by decide, by decide, by simp⟩
  have read := same ▸ parts.tokenize text .tabs
  have place : Reaches .tabs "0.10".toList 1 [] ('0' :: ".10".toList) := by
    have measured : level .tabs "0.10".toList = .ok 0 := by decide
    exact text ▸ .start measured
  obtain ⟨reads, shown⟩ := tokenize_float .tabs "0.10"
  obtain ⟨_, _, _, _, _, _, -, -, -, -, again⟩ := shown _ x read (by simp)
  refine ⟨read, ⟨place, parts⟩, same ▸ reads 1 [] _ _ _ _ _ place parts, fun other => ?_⟩
  have finite : x.isFinite = true := by decide
  have shows := again other
  rwa [if_pos finite] at shows

/-- A one and 309 zeros are more than the largest double, and no number is left of them. -/
theorem tokenize_float_infinite :
    let source := String.ofList ('1' :: (List.replicate 309 '0' ++ ['.', '0']))
    ∃ x : Binary64, tokenize .tabs source = .ok [⟨1, 0, [.ofLiteral (.float x)]⟩] ∧
      x.isFinite = false ∧ x.text = "inf" ∧
      tokenize .tabs x.text = .ok [⟨1, 0, [.ofIdent ⟨"inf", .none⟩]⟩] := by
  intro source
  let whole := '1' :: List.replicate 309 '0'
  have parts : PointedRun ('1' :: (List.replicate 309 '0' ++ ['.', '0'])) whole ['0'] [] :=
    ⟨by decide +kernel, List.all_eq_true.1 (by decide +kernel), List.cons_ne_nil _ _, by simp,
      by simp⟩
  have infinite : (nearest whole ['0']).isFinite = false := by decide +kernel
  have shown := tokenize_shown whole ['0'] .tabs
  rw [if_neg (by simp [infinite])] at shown
  exact ⟨nearest whole ['0'], parts.tokenize String.toList_ofList .tabs, infinite,
    Binary64.text_ofDecimal infinite, shown⟩

end Offside
