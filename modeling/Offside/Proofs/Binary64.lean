import Offside.Binary64

/-!
The decimal that stands for a double reads as that double again: either the search finds one that
was seen to, or the magnitude is written out exactly.
-/

namespace Offside.Binary64

variable {x y : Binary64} {digits places : Nat}

theorem binade_eq : binade = 4503599627370496 := rfl

section Magnitude

theorem magnitude_eq_bits (h : x.negative = false) : x.magnitude = x.bits.toNat := by
  rw [negative, decide_eq_false_iff_not, Nat.not_le] at h
  exact Nat.mod_eq_of_lt h

theorem eq_of_magnitude (hx : x.negative = false) (hy : y.negative = false)
    (h : x.magnitude = y.magnitude) : x = y := by
  rw [magnitude_eq_bits hx, magnitude_eq_bits hy] at h
  cases x
  cases y
  exact congrArg mk (UInt64.toNat_inj.1 h)

theorem bits_ofDecimal (digits places : Nat) : (ofDecimal digits places).bits.toNat =
    let scale := scaleOf (digits * unitsInOne / Nat.pow 10 places)
    min (scale * binade +
      roundDiv (digits * unitsInOne) (Nat.pow 10 places * Nat.pow 2 scale)) infinity := by
  rw [ofDecimal, UInt64.toNat_ofNat']
  apply Nat.mod_eq_of_lt
  exact Nat.lt_of_le_of_lt (Nat.min_le_right ..) (by decide)

theorem negative_ofDecimal (digits places : Nat) :
    (ofDecimal digits places).negative = false := by
  rw [negative, bits_ofDecimal, decide_eq_false_iff_not, Nat.not_le]
  exact Nat.lt_of_le_of_lt (Nat.min_le_right ..) (by decide)

end Magnitude

section Exact

theorem significand_lt (x : Binary64) : x.significand < Nat.pow 2 53 := by
  rw [significand, scale, binade_eq, show Nat.pow 2 53 = 9007199254740992 from rfl]
  omega

theorem le_significand (h : 0 < x.scale) : Nat.pow 2 52 ≤ x.significand := by
  rw [scale, binade_eq] at h
  rw [significand, scale, binade_eq, show Nat.pow 2 52 = 4503599627370496 from rfl]
  omega

theorem scale_mul_add_significand (x : Binary64) :
    x.scale * binade + x.significand = x.magnitude := by
  rw [significand, scale, binade_eq]
  omega

theorem scaleOf_units (x : Binary64) : scaleOf x.units = x.scale := by
  have lt := significand_lt x
  rw [scaleOf, units]
  cases eq : x.scale with
  | zero =>
    rw [show Nat.pow 2 0 = 1 from rfl, Nat.mul_one]
    by_cases zero : x.significand = 0
    · rw [zero]
      rfl
    · have := (Nat.log2_lt zero).2 lt
      omega
  | succ s =>
    have le : Nat.pow 2 52 ≤ x.significand := le_significand (by omega)
    have pos : 0 < Nat.pow 2 (s + 1) := Nat.pow_pos (by decide)
    have log : (x.significand * Nat.pow 2 (s + 1)).log2 = 52 + (s + 1) := by
      have ne : x.significand * Nat.pow 2 (s + 1) ≠ 0 :=
        Nat.ne_of_gt (Nat.mul_pos (Nat.lt_of_lt_of_le (by decide) le) pos)
      rw [Nat.log2_eq_iff ne, Nat.pow_add, Nat.add_right_comm, Nat.pow_add _ 53]
      exact ⟨Nat.mul_le_mul_right _ le, Nat.mul_lt_mul_of_pos_right lt pos⟩
    omega

theorem pow_ten_pos (n : Nat) : 0 < Nat.pow 10 n :=
  Nat.pow_pos (by decide)

theorem pow_five_mul_pow_two (m n : Nat) :
    m * Nat.pow 5 n * Nat.pow 2 n = m * Nat.pow 10 n := by
  rw [Nat.mul_assoc]
  exact congrArg (m * ·) (Nat.mul_pow 5 2 n).symm

theorem roundDiv_units (x : Binary64) {d : Nat} (h : 0 < d) :
    roundDiv (x.units * d) (d * Nat.pow 2 x.scale) = x.significand := by
  rw [units, Nat.mul_assoc, Nat.mul_comm (Nat.pow 2 x.scale)]
  exact roundDiv_mul (Nat.mul_pos h (Nat.pow_pos (by decide))) _

theorem ofDecimal_units {n : Nat} (one : unitsInOne = Nat.pow 2 n) (finite : x.isFinite = true)
    (h : x.negative = false) : ofDecimal (x.units * Nat.pow 5 n) n = x := by
  have ten := pow_ten_pos n
  refine eq_of_magnitude (negative_ofDecimal ..) h ?_
  rw [magnitude_eq_bits (negative_ofDecimal ..), bits_ofDecimal, one, pow_five_mul_pow_two,
    Nat.mul_div_cancel _ ten, scaleOf_units]
  dsimp only
  rw [roundDiv_units x ten, scale_mul_add_significand]
  exact Nat.min_eq_left (Nat.le_of_lt (by simpa [isFinite] using finite))

end Exact

section Shortest

theorem readsBack_of_digitsAt (h : x.digitsAt places = some digits) :
    x.readsBack places digits = true := by
  unfold digitsAt at h
  dsimp only at h
  generalize x.units * Nat.pow 10 places / unitsInOne = floor at h
  generalize (if x.units * Nat.pow 10 places % unitsInOne = 0 then floor else floor + 1) =
    ceiling at h
  split at h
  · next lower =>
    split at h
    · next both =>
      cases h
      exact (Bool.and_eq_true_iff.1 both).1
    · cases h
      exact lower
  · split at h
    · next upper =>
      cases h
      exact upper
    · cases h

theorem ofDecimal_shortest (finite : x.isFinite = true) (h : x.negative = false) :
    0 < x.shortest.1 ∧ ofDecimal x.shortest.2 x.shortest.1 = x := by
  have pos : 0 < 1074 := Nat.succ_pos 1073
  have one : unitsInOne = Nat.pow 2 1074 := by
    delta unitsInOne
    rfl
  unfold shortest
  generalize 1074 = n at pos one ⊢
  cases found : (List.range' 1 n).findSome? fun places =>
      (x.digitsAt places).map (places, ·) with
  | none => exact ⟨pos, ofDecimal_units one finite h⟩
  | some pair =>
    obtain ⟨places, range, found⟩ := List.exists_of_findSome?_eq_some found
    obtain ⟨digits, hdigits, rfl⟩ := Option.map_eq_some_iff.1 found
    have same := readsBack_of_digitsAt hdigits
    rw [readsBack, beq_iff_eq] at same
    exact ⟨(List.mem_range'_1.1 range).1, eq_of_magnitude (negative_ofDecimal ..) h same⟩

end Shortest

end Offside.Binary64
