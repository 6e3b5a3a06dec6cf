import Mathlib.Tactic.Ring
import Offside.Proofs.Binary64

/-!
Decimals past the largest double. The nearest double is a number as long as the decimal is below
2^1024 - 2^970, which is half a unit of the last place above the largest double; from there on it is
infinity, which is not written as a number.
-/

namespace Offside.Binary64

variable {digits places n d m : Nat}

section Nearest

theorem div_le_roundDiv (n d : Nat) : n / d ≤ roundDiv n d := by
  unfold roundDiv
  dsimp only
  split <;> omega

theorem roundDiv_le_succ (n d : Nat) : roundDiv n d ≤ n / d + 1 := by
  unfold roundDiv
  dsimp only
  split <;> omega

theorem roundDiv_le_iff (pos : 0 < d) (odd : m % 2 = 1) :
    roundDiv n d ≤ m ↔ 2 * n < (2 * m + 1) * d := by
  have parts : d * (n / d) + n % d = n := Nat.div_add_mod n d
  have rest : n % d < d := Nat.mod_lt n pos
  have width : (2 * m + 1) * d = 2 * (d * m) + d := by ring
  rcases Nat.lt_trichotomy (n / d) m with less | same | more
  · have room : d * (n / d) + d ≤ d * m := Nat.mul_le_mul_left d less
    have bound := roundDiv_le_succ n d
    omega
  · rw [roundDiv, same]
    rw [same] at parts
    split <;> omega
  · have past : d * m + d ≤ d * (n / d) := Nat.mul_le_mul_left d more
    have bound := div_le_roundDiv n d
    omega

end Nearest

section Scale

theorem scaleOf_bounds (u : Nat) :
    u < 2 ^ (53 + scaleOf u) ∧ (0 < scaleOf u → 2 ^ (52 + scaleOf u) ≤ u) := by
  constructor
  · have le : u.log2 + 1 ≤ 53 + scaleOf u := by rw [scaleOf]; omega
    exact Nat.lt_of_lt_of_le Nat.lt_log2_self (Nat.pow_le_pow_right (by decide) le)
  · intro pos
    have log : 52 + scaleOf u = u.log2 := by rw [scaleOf] at pos ⊢; omega
    have ne : u ≠ 0 := by
      rintro rfl
      cases pos
    rw [log]
    exact Nat.log2_self_le ne

theorem scaleOf_div_bounds (pos : 0 < d) :
    n < 2 ^ (53 + scaleOf (n / d)) * d ∧
      (0 < scaleOf (n / d) → 2 ^ (52 + scaleOf (n / d)) * d ≤ n) := by
  obtain ⟨upper, lower⟩ := scaleOf_bounds (n / d)
  exact ⟨(Nat.div_lt_iff_lt_mul pos).1 upper,
    fun scaled => (Nat.le_div_iff_mul_le pos).1 (lower scaled)⟩

theorem roundDiv_bounds (pos : 0 < d) :
    let scale := scaleOf (n / d)
    roundDiv n (d * 2 ^ scale) ≤ 2 ^ 53 ∧
      (0 < scale → 2 ^ 52 ≤ roundDiv n (d * 2 ^ scale)) := by
  intro scale
  have scaled : 0 < d * 2 ^ scale := Nat.mul_pos pos (Nat.pow_pos (by decide))
  obtain ⟨upper, lower⟩ := scaleOf_div_bounds (n := n) pos
  constructor
  · have quotient : n / (d * 2 ^ scale) < 2 ^ 53 := by
      rw [Nat.div_lt_iff_lt_mul scaled]
      calc n < 2 ^ (53 + scale) * d := upper
        _ = 2 ^ 53 * (d * 2 ^ scale) := by ring
    exact Nat.le_trans (roundDiv_le_succ ..) quotient
  · intro some_
    refine Nat.le_trans ((Nat.le_div_iff_mul_le scaled).2 ?_) (div_le_roundDiv ..)
    calc 2 ^ 52 * (d * 2 ^ scale) = 2 ^ (52 + scale) * d := by ring
      _ ≤ n := lower some_

theorem lt_of_scaleOf_lt {k : Nat} (pos : 0 < d) (less : scaleOf (n / d) < k) :
    n < 2 ^ 52 * (d * 2 ^ k) := by
  have exponents : 53 + scaleOf (n / d) ≤ 52 + k := by omega
  calc n < 2 ^ (53 + scaleOf (n / d)) * d := (scaleOf_div_bounds pos).1
    _ ≤ 2 ^ (52 + k) * d :=
      Nat.mul_le_mul_right d (Nat.pow_le_pow_right Nat.two_pos exponents)
    _ = 2 ^ 52 * (d * 2 ^ k) := by rw [pow_add, Nat.mul_assoc, Nat.mul_comm d]

theorem le_of_lt_scaleOf {k : Nat} (pos : 0 < d) (more : k < scaleOf (n / d)) :
    2 ^ 53 * (d * 2 ^ k) ≤ n := by
  have exponents : 53 + k ≤ 52 + scaleOf (n / d) := by omega
  calc 2 ^ 53 * (d * 2 ^ k) = 2 ^ (53 + k) * d := by
        rw [pow_add, Nat.mul_assoc, Nat.mul_comm d]
    _ ≤ 2 ^ (52 + scaleOf (n / d)) * d :=
      Nat.mul_le_mul_right d (Nat.pow_le_pow_right Nat.two_pos exponents)
    _ ≤ n := (scaleOf_div_bounds pos).2 (Nat.zero_lt_of_lt more)

end Scale

section Limit

/-- Halfway from the largest double to the next power of two, 2^1024. -/
def limit : Nat := (2 ^ 54 - 1) * 2 ^ 970

def lastScale : Nat := 2045

theorem infinity_eq : infinity = lastScale * 2 ^ 52 + 2 ^ 53 := rfl

theorem unitsInOne_eq : unitsInOne = 2 ^ 1074 := by
  unfold unitsInOne
  generalize 1074 = n
  rfl

theorem two_mul_limit_units :
    2 * (limit * unitsInOne) = (2 * (2 ^ 53 - 1) + 1) * 2 ^ lastScale := by
  have odd : 2 ^ 54 - 1 = 2 * (2 ^ 53 - 1) + 1 := rfl
  have place : lastScale = 970 + 1074 + 1 := rfl
  rw [unitsInOne_eq, limit, odd, Nat.mul_assoc, ← pow_add, Nat.mul_left_comm, place,
    pow_succ' 2 (970 + 1074)]

theorem lt_limit_iff (n d : Nat) : n < limit * d ↔
    2 * (n * unitsInOne) < (2 * (2 ^ 53 - 1) + 1) * (d * 2 ^ lastScale) := by
  have pos : 0 < 2 * unitsInOne := by
    rw [unitsInOne_eq]
    exact Nat.mul_pos Nat.two_pos (pow_pos Nat.two_pos 1074)
  have left : 2 * (n * unitsInOne) = n * (2 * unitsInOne) := Nat.mul_left_comm ..
  have right : (2 * (2 ^ 53 - 1) + 1) * (d * 2 ^ lastScale) = limit * d * (2 * unitsInOne) := by
    rw [Nat.mul_left_comm, ← two_mul_limit_units]
    ring
  rw [left, right, Nat.mul_lt_mul_right pos]

theorem pattern_lt_infinity_iff (pos : 0 < d) :
    scaleOf (n / d) * 2 ^ 52 + roundDiv n (d * 2 ^ scaleOf (n / d)) < infinity ↔
      2 * n < (2 * (2 ^ 53 - 1) + 1) * (d * 2 ^ lastScale) := by
  obtain ⟨carry, normal⟩ := roundDiv_bounds (n := n) pos
  have below : scaleOf (n / d) < lastScale → _ := lt_of_scaleOf_lt pos
  have beyond : lastScale < scaleOf (n / d) → _ := le_of_lt_scaleOf pos
  have last : scaleOf (n / d) = lastScale →
      (roundDiv n (d * 2 ^ scaleOf (n / d)) ≤ 2 ^ 53 - 1 ↔
        2 * n < (2 * (2 ^ 53 - 1) + 1) * (d * 2 ^ lastScale)) := fun same =>
    same ▸ roundDiv_le_iff (Nat.mul_pos pos (pow_pos Nat.two_pos _)) rfl
  rw [infinity_eq]
  generalize roundDiv n (d * 2 ^ scaleOf (n / d)) = significand at *
  generalize d * 2 ^ lastScale = unit at *
  omega

/-- The nearest double is a number if and only if the decimal is less than halfway from the largest
double to the next power of two. -/
theorem isFinite_ofDecimal (digits places : Nat) : (ofDecimal digits places).isFinite = true ↔
    digits < limit * 10 ^ places := by
  rw [isFinite, decide_eq_true_iff, magnitude_eq_bits (negative_ofDecimal ..), bits_ofDecimal,
    lt_limit_iff]
  refine (min_lt_iff.trans (or_iff_left (Nat.lt_irrefl _))).trans ?_
  exact pattern_lt_infinity_iff (pow_ten_pos places)

theorem text_ofDecimal (h : (ofDecimal digits places).isFinite = false) :
    (ofDecimal digits places).text = "inf" := by
  have most : (ofDecimal digits places).magnitude ≤ infinity := by
    rw [magnitude_eq_bits (negative_ofDecimal ..), bits_ofDecimal]
    exact Nat.min_le_right ..
  have infinite : (ofDecimal digits places).magnitude = infinity :=
    Nat.le_antisymm most (Nat.not_lt.1 (decide_eq_false_iff_not.1 h))
  rw [text, infinite, if_neg (Nat.lt_irrefl _), if_pos rfl, negative_ofDecimal]
  rfl

end Limit

end Offside.Binary64
