/-! # Rounding quotients

Division of natural numbers to the nearest whole number. Of two nearest ones the even one is
taken.
-/

namespace Timeline

/-- The whole number nearest to `n / d`; a tie goes to the even one. -/
def roundDiv (n d : Nat) : Nat :=
  let q := n / d
  let r := n % d
  if 2 * r < d then q else if d < 2 * r then q + 1 else q + q % 2

theorem roundDiv_near (n : Nat) {d : Nat} (hd : 0 < d) :
    2 * (roundDiv n d * d) ≤ 2 * n + d ∧ 2 * n ≤ 2 * (roundDiv n d * d) + d := by
  have hn := Nat.div_add_mod n d
  have hr := Nat.mod_lt n hd
  have hq := Nat.mul_comm d (n / d)
  have hs : (n / d + 1) * d = n / d * d + d := Nat.succ_mul _ _
  have he : (n / d + n / d % 2) * d = n / d * d + n / d % 2 * d := Nat.add_mul _ _ _
  simp only [roundDiv]
  split
  · omega
  · split
    · omega
    · rcases Nat.mod_two_eq_zero_or_one (n / d) with h | h <;> rw [h] at he ⊢ <;> omega

end Timeline
