import Offside.Proofs.Binary64
import Offside.Proofs.Scan.Item

/-!
Numbers as they are written: whole decimals, hexadecimals behind `0x`, and doubles with a point.
Each is read as what it was written for, up to the first character that cannot go on with it.
-/

namespace Offside.Scan

variable {run whole fraction u : List Char} {n places digits : Nat}

section Decimal

theorem isDigitOrDot_of_isDigit {c : Char} (h : c.isDigit = true) : isDigitOrDot c = true := by
  simp [isDigitOrDot, h]

theorem ne_dot_of_isDigit {c : Char} (h : c.isDigit = true) : c ≠ '.' := by
  rintro rfl
  cases h

theorem isDigit_of_mem_toDigits {c : Char} (h : c ∈ Nat.toDigits 10 n) : c.isDigit = true :=
  Nat.isDigit_of_mem_toDigits (by decide) (by decide) h

theorem number_run (ne : run ≠ []) (all : ∀ c ∈ run, isDigitOrDot c = true)
    (stop : ∀ c ∈ u.head?, isDigitOrDot c = false ∧ c ≠ 'x') :
    number (run ++ u) = (decimal run).map (·, u) := by
  unfold number
  split
  · next r eq =>
    match run, ne with
    | [_], _ =>
      obtain rfl : u = 'x' :: r := (List.cons.inj eq).2
      exact absurd rfl (stop 'x' rfl).2
    | _ :: d :: run, _ =>
      obtain rfl : d = 'x' := (List.cons.inj (List.cons.inj eq).2).1
      cases all 'x' (by simp)
  · have stop' : ∀ c ∈ u.head?, isDigitOrDot c = false := fun c hc => (stop c hc).1
    rw [takeWhile_run all stop', dropWhile_run all stop']

theorem decimal_toDigits (h : n < Nat.pow 2 63) :
    decimal (Nat.toDigits 10 n) = .ok (.int (Int64.ofNat n)) := by
  have none_ : (Nat.toDigits 10 n).count '.' = 0 :=
    List.count_eq_zero.2 fun mem => ne_dot_of_isDigit (isDigit_of_mem_toDigits mem) rfl
  have value : decimalValue (Nat.toDigits 10 n) = n := Nat.ofDigitChars_ten_toDigits
  simp only [decimal, none_, value, if_pos h]

theorem decimal_point (hw : ∀ c ∈ whole, c.isDigit = true)
    (hf : ∀ c ∈ fraction, c.isDigit = true) (ne : fraction ≠ []) :
    decimal (whole ++ '.' :: fraction) =
      .ok (.float (.ofDecimal (decimalValue (whole ++ fraction)) fraction.length)) := by
  have once : (whole ++ '.' :: fraction).count '.' = 1 := by
    rw [List.count_append, List.count_cons_self,
      List.count_eq_zero.2 fun mem => ne_dot_of_isDigit (hw _ mem) rfl,
      List.count_eq_zero.2 fun mem => ne_dot_of_isDigit (hf _ mem) rfl]
  have last : (whole ++ '.' :: fraction).getLast? ≠ some '.' := by
    intro last
    obtain ⟨ds, d, rfl⟩ := List.eq_nil_or_concat fraction |>.resolve_left ne
    have : d = '.' := by simpa [List.getLast?_append, List.getLast?_cons] using last
    exact ne_dot_of_isDigit (hf d (by simp)) this
  have behind : (whole ++ '.' :: fraction).dropWhile (· != '.') = '.' :: fraction :=
    dropWhile_run (fun c hc => by simpa using ne_dot_of_isDigit (hw c hc)) (by simp)
  have plain : (whole ++ '.' :: fraction).filter (· != '.') = whole ++ fraction := by
    rw [List.filter_append, List.filter_cons_of_neg (by simp), List.filter_eq_self.2,
      List.filter_eq_self.2]
    · exact fun c hc => by simpa using ne_dot_of_isDigit (hf c hc)
    · exact fun c hc => by simpa using ne_dot_of_isDigit (hw c hc)
  simp only [decimal, once, if_neg last, behind, plain, List.length_cons, Nat.add_sub_cancel]

end Decimal

section Positional

theorem positional_toList (places digits : Nat) :
    (Binary64.positional places digits).toList =
      Nat.toDigits 10 (digits / Nat.pow 10 places) ++ '.' ::
        (List.replicate (places - (Nat.toDigits 10 (digits % Nat.pow 10 places)).length) '0' ++
          Nat.toDigits 10 (digits % Nat.pow 10 places)) := by
  simp [Binary64.positional]

theorem isDigitOrDot_of_mem_positional {c : Char}
    (h : c ∈ (Binary64.positional places digits).toList) : isDigitOrDot c = true := by
  rw [positional_toList, List.mem_append, List.mem_cons, List.mem_append] at h
  rcases h with h | rfl | h | h
  · exact isDigitOrDot_of_isDigit (isDigit_of_mem_toDigits h)
  · rfl
  · rw [(List.mem_replicate.1 h).2]
    rfl
  · exact isDigitOrDot_of_isDigit (isDigit_of_mem_toDigits h)

theorem decimalValue_padded (whole n k : Nat) (h : (Nat.toDigits 10 n).length ≤ k) :
    decimalValue (Nat.toDigits 10 whole ++
      (List.replicate (k - (Nat.toDigits 10 n).length) '0' ++ Nat.toDigits 10 n)) =
      Nat.pow 10 k * whole + n := by
  have places : Nat.pow 10 (Nat.toDigits 10 n).length *
      Nat.pow 10 (k - (Nat.toDigits 10 n).length) = Nat.pow 10 k :=
    (Nat.pow_add ..).symm.trans (congrArg (Nat.pow 10) (Nat.add_sub_of_le h))
  rw [decimalValue, Nat.ofDigitChars_append, Nat.ofDigitChars_append,
    Nat.ofDigitChars_ten_toDigits, Nat.ofDigitChars_replicate_zero,
    Nat.ofDigitChars_eq_ofDigitChars_zero, Nat.ofDigitChars_ten_toDigits, ← Nat.mul_assoc]
  exact congrArg (· * whole + n) places

theorem decimal_positional (pos : 0 < places) (digits : Nat) :
    decimal (Binary64.positional places digits).toList =
      .ok (.float (.ofDecimal digits places)) := by
  have lt : digits % Nat.pow 10 places < Nat.pow 10 places :=
    Nat.mod_lt _ (Nat.pow_pos (by decide))
  have fits : (Nat.toDigits 10 (digits % Nat.pow 10 places)).length ≤ places :=
    (Nat.length_toDigits_le_iff (by decide) pos).2 lt
  rw [positional_toList, decimal_point]
  · have length : (List.replicate (places - (Nat.toDigits 10 (digits % Nat.pow 10 places)).length)
        '0' ++ Nat.toDigits 10 (digits % Nat.pow 10 places)).length = places := by
      rw [List.length_append, List.length_replicate]
      omega
    rw [length, decimalValue_padded _ _ _ fits, Nat.div_add_mod]
  · exact fun c hc => isDigit_of_mem_toDigits hc
  · intro c hc
    rcases List.mem_append.1 hc with hc | hc
    · rw [(List.mem_replicate.1 hc).2]
      rfl
    · exact isDigit_of_mem_toDigits hc
  · simp [Nat.toDigits_ne_nil]

end Positional

section Hex

theorem hexDigit?_digitChar : ∀ d < 16, hexDigit? (Nat.digitChar d) = some d := by
  decide

theorem isHexDigit_digitChar {d : Nat} (h : d < 16) : isHexDigit (Nat.digitChar d) = true := by
  rw [isHexDigit, hexDigit?_digitChar d h]
  rfl

theorem hexValue_concat (run : List Char) {d : Nat} (h : d < 16) :
    hexValue (run ++ [Nat.digitChar d]) = 16 * hexValue run + d := by
  rw [hexValue, List.foldl_append]
  simp [hexDigit?_digitChar d h, hexValue]

theorem hexValue_toDigits (n : Nat) :
    hexValue (Nat.toDigits 16 n) = n ∧ ∀ c ∈ Nat.toDigits 16 n, isHexDigit c = true := by
  induction n using Nat.strongRecOn with
  | _ n ih =>
    by_cases small : n < 16
    · rw [Nat.toDigits_of_lt_base small]
      refine ⟨(hexValue_concat [] small).trans (by simp [hexValue]), fun c hc => ?_⟩
      rw [List.mem_singleton.1 hc]
      exact isHexDigit_digitChar small
    · have lt : n % 16 < 16 := Nat.mod_lt _ (by decide)
      obtain ⟨value, all⟩ := ih (n / 16) (by omega)
      rw [Nat.toDigits_of_base_le (by decide) (Nat.not_lt.1 small)]
      constructor
      · rw [hexValue_concat _ lt, value]
        omega
      · rw [List.forall_mem_append, List.forall_mem_singleton]
        exact ⟨all, isHexDigit_digitChar lt⟩

theorem hexNumber_toDigits (n : UInt64) (stop : ∀ c ∈ u.head?, isHexDigit c = false) :
    hexNumber (Nat.toDigits 16 n.toNat ++ u) = .ok (.uint n, u) := by
  obtain ⟨value, all⟩ := hexValue_toDigits n.toNat
  unfold hexNumber
  rw [takeWhile_run all stop, dropWhile_run all stop]
  dsimp only
  rw [if_neg Nat.toDigits_ne_nil, value, if_pos n.toNat_lt, UInt64.ofNat_toNat]

end Hex

end Offside.Scan
