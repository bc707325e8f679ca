import Mathlib.Algebra.Ring.Nat
import Mathlib.Tactic.Ring
import Mathlib.Tactic.SplitIfs
import Timeline.Number.Double

/-! # Rounding to binary64

A quotient is rounded alike when both of its parts grow by a factor. A quotient that has 53 bits in
front of a power of two is rounded to a multiple of this power. The sign of a quotient is the one of
its whole part after a product with a natural number.
-/

namespace Timeline

theorem roundDiv_mul_mul (n d : Nat) {c : Nat} (hc : 0 < c) :
    roundDiv (n * c) (d * c) = roundDiv n d := by
  have hless : 2 * (n % d * c) < d * c ↔ 2 * (n % d) < d := by
    rw [← Nat.mul_assoc]
    exact Nat.mul_lt_mul_right hc
  have hmore : d * c < 2 * (n % d * c) ↔ d < 2 * (n % d) := by
    rw [← Nat.mul_assoc]
    exact Nat.mul_lt_mul_right hc
  simp only [roundDiv, Nat.mul_div_mul_right n d hc, Nat.mul_mod_mul_right, hless, hmore]

section Nearest

variable {n d q : Nat}

theorem roundDiv_around (hd : 0 < d) (hle : 2 * (q * d) ≤ 2 * n + d)
    (hge : 2 * n ≤ 2 * (q * d) + d) : q ≤ roundDiv n d + 1 ∧ roundDiv n d ≤ q + 1 := by
  obtain ⟨hdown, hup⟩ := roundDiv_near n hd
  constructor
  · refine Nat.le_of_mul_le_mul_right ?_ hd
    rw [Nat.succ_mul]
    omega
  · refine Nat.le_of_mul_le_mul_right ?_ hd
    rw [Nat.succ_mul]
    omega

theorem roundDiv_tie (hd : 0 < d) (h : 2 * n = 2 * (q * d) + d) : roundDiv n d % 2 = 0 := by
  have hmod : 2 * (n % d) = d := by
    have hlt : d < 2 * d := by omega
    rw [← Nat.mul_mod_mul_left, h, Nat.mul_left_comm, Nat.mul_add_mod_self_right,
      Nat.mod_eq_of_lt hlt]
  simp only [roundDiv, hmod, Nat.lt_irrefl, if_false]
  omega

theorem roundDiv_eq_of_even (hd : 0 < d) (hq : q % 2 = 0) (hle : 2 * (q * d) ≤ 2 * n + d)
    (hge : 2 * n ≤ 2 * (q * d) + d) : roundDiv n d = q := by
  obtain ⟨hdown, hup⟩ := roundDiv_near n hd
  have haround := roundDiv_around hd hle hge
  rcases Nat.lt_trichotomy (roundDiv n d) q with hlt | heq | hgt
  · have hpred : q = roundDiv n d + 1 := by omega
    rw [hpred, Nat.succ_mul (roundDiv n d)] at hle
    have htie : 2 * n = 2 * (roundDiv n d * d) + d := by omega
    have heven := roundDiv_tie hd htie
    omega
  · exact heq
  · have hsucc : roundDiv n d = q + 1 := by omega
    rw [hsucc, Nat.succ_mul q] at hdown
    have htie : 2 * n = 2 * (q * d) + d := by omega
    have heven := roundDiv_tie hd htie
    omega

end Nearest

namespace Double

variable {m d j k : Nat}

theorem two_pow_mul_two_pow (h : j + k = 1074) : 2 ^ j * 2 ^ k = one := by
  unfold one
  rw [← h]
  exact (Nat.pow_add 2 j k).symm

theorem mul_two_pow_lt_tooLarge {u : Nat} (hu : u < 2 ^ j) (h : j + k ≤ 2098) :
    u * 2 ^ k < tooLarge := by
  have hpow : 2 ^ j * 2 ^ k ≤ tooLarge := by
    obtain ⟨c, hc⟩ := Nat.exists_eq_add_of_le h
    unfold tooLarge
    rw [← Nat.pow_add, hc]
    exact Nat.pow_le_pow_right (by decide) (Nat.le_add_right _ _)
  exact Nat.lt_of_lt_of_le (Nat.mul_lt_mul_of_pos_right hu (Nat.two_pow_pos k)) hpow

theorem roundUnits_mul_mul (n d : Nat) {c : Nat} (hc : 0 < c) :
    roundUnits (n * c) (d * c) = roundUnits n d := by
  simp only [roundUnits, Nat.mul_div_mul_right n d hc, Nat.mul_right_comm d c,
    roundDiv_mul_mul _ _ hc]

theorem spacing_eq (hlow : 2 ^ 52 * 2 ^ k ≤ m) (hhigh : m < 2 ^ 53 * 2 ^ k) :
    spacing m = 2 ^ k := by
  rw [← Nat.pow_add] at hlow hhigh
  have hpos : m ≠ 0 := by
    have := Nat.two_pow_pos (52 + k)
    omega
  have hlog : m.log2 = 52 + k := by
    rw [Nat.log2_eq_iff hpos]
    exact ⟨hlow, by rwa [show 52 + k + 1 = 53 + k by omega]⟩
  rw [spacing, hlog, show 52 + k + 1 - 53 = k by omega]
  rfl

/-- A quotient of 53 bits in front of a power of two is rounded to a multiple of this power, of
however many units it is a quotient. -/
theorem roundUnits_eq (hd : 0 < d) (hlow : 2 ^ 52 * (d * 2 ^ j) ≤ m)
    (hhigh : m < 2 ^ 53 * (d * 2 ^ j)) (k : Nat) :
    roundUnits (m * 2 ^ k) d = roundDiv m (d * 2 ^ j) * 2 ^ j * 2 ^ k := by
  have hspacing : spacing (m * 2 ^ k / d) = 2 ^ (j + k) := by
    have hk := Nat.two_pow_pos k
    have hpow (c : Nat) : c * 2 ^ (j + k) * d = c * (d * 2 ^ j) * 2 ^ k := by
      rw [Nat.pow_add]
      ring
    apply spacing_eq
    · rw [Nat.le_div_iff_mul_le hd, hpow]
      exact Nat.mul_le_mul_right _ hlow
    · rw [Nat.div_lt_iff_lt_mul hd, hpow]
      exact Nat.mul_lt_mul_of_pos_right hhigh hk
  simp only [roundUnits, hspacing, Nat.pow_add, ← Nat.mul_assoc]
  rw [roundDiv_mul_mul _ _ (Nat.two_pow_pos k)]

/-- The whole part of a product is the one of its units, unless these or those of the factor are too
many. -/
theorem truncate_mulNat_ofUnits (negative : Bool) (u k : Nat) :
    ((ofUnits negative u).mulNat k).truncate =
      if u < tooLarge ∧ roundUnits (u * k) 1 < tooLarge then
        if negative then -((roundUnits (u * k) 1 / one : Nat) : Int)
        else ((roundUnits (u * k) 1 / one : Nat) : Int)
      else 0 := by
  unfold ofUnits
  by_cases hu : u < tooLarge
  · rw [if_pos hu, mulNat, ofUnits]
    by_cases hproduct : roundUnits (u * k) 1 < tooLarge
    · rw [if_pos hproduct, if_pos ⟨hu, hproduct⟩]
      cases negative with
      | false => exact (Int.natCast_ediv _ _).symm
      | true => rfl
    · rw [if_neg hproduct, if_neg (fun h => hproduct h.2)]
      rfl
  · rw [if_neg hu, if_neg (fun h => hu h.1), mulNat]
    split <;> rfl

theorem truncate_mulNat_not (negative : Bool) (u k : Nat) :
    ((ofUnits (!negative) u).mulNat k).truncate =
      -((ofUnits negative u).mulNat k).truncate := by
  rw [truncate_mulNat_ofUnits, truncate_mulNat_ofUnits]
  split
  · cases negative with
    | false => rfl
    | true => exact (Int.neg_neg _).symm
  · rfl

end Double

end Timeline
