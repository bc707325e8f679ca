import Timeline.Proofs.Number.Double

/-! # The range of binary64

The integers beyond the largest finite number are rounded to it up to half of its last bit, which is
worth `2 ^ 971`. From there on they are rounded to infinity.
-/

namespace Timeline

/-- An integer that has no finite number of binary64 nearest to it. -/
def IsOutOfRange (n : Int) : Prop :=
  2 ^ 1024 - 2 ^ 970 ≤ n.natAbs

instance (n : Int) : Decidable (IsOutOfRange n) :=
  inferInstanceAs (Decidable (_ ≤ n.natAbs))

theorem roundDiv_lt_iff {m d b : Nat} (hd : 0 < d) (hb : b % 2 = 0) :
    roundDiv m d < b ↔ 2 * m + d < 2 * (b * d) := by
  obtain ⟨hdown, hup⟩ := roundDiv_near m hd
  constructor
  · intro hlt
    have hstep : roundDiv m d * d + d ≤ b * d := by
      rw [← Nat.succ_mul]
      exact Nat.mul_le_mul_right d hlt
    rcases Nat.lt_or_ge (2 * m) (2 * (roundDiv m d * d) + d) with hless | htie
    · omega
    -- a tie is rounded to an even number, which lies two below the bound
    · have heven := roundDiv_tie hd (Nat.le_antisymm hup htie)
      have htwo : roundDiv m d * d + 2 * d ≤ b * d := by
        rw [← Nat.add_mul]
        exact Nat.mul_le_mul_right d (by omega)
      omega
  · intro hless
    by_contra hge
    have := Nat.mul_le_mul_right d (Nat.not_lt.mp hge)
    omega

namespace Double

variable {m u : Nat}

theorem two_pow_split {i j k : Nat} (h : k = i + j) : 2 ^ k = 2 ^ i * 2 ^ j := by
  rw [h, Nat.pow_add]

theorem two_pow_eq_one {k : Nat} (h : k = 1074) : 2 ^ k = one := by
  unfold one
  rw [← h]
  rfl

theorem two_pow_eq_tooLarge {k : Nat} (h : k = 2098) : 2 ^ k = tooLarge := by
  unfold tooLarge
  rw [← h]
  rfl

theorem two_pow_mul_one {j : Nat} (h : j + 1074 = 2098) : 2 ^ j * one = tooLarge := by
  rw [← two_pow_eq_tooLarge h, ← two_pow_eq_one rfl, two_pow_split rfl]

theorem spacing_le (hu : 0 < u) : spacing u ≤ u :=
  calc spacing u ≤ 2 ^ u.log2 := Nat.pow_le_pow_right (by decide) (by omega)
    _ ≤ u := Nat.log2_self_le hu.ne'

theorem roundUnits_le (u : Nat) : roundUnits u 1 ≤ 2 * u := by
  rcases Nat.eq_zero_or_pos u with rfl | hu
  · decide
  · have hstep : 0 < spacing u := Nat.two_pow_pos _
    have hle := spacing_le hu
    obtain ⟨hdown, -⟩ := roundDiv_near u hstep
    simp only [roundUnits, Nat.div_one, Nat.one_mul]
    omega

theorem le_roundUnits {k : Nat} (h : 2 ^ (52 + k) ≤ u) : 2 ^ (52 + k) ≤ roundUnits u 1 := by
  have hu : u ≠ 0 := (Nat.lt_of_lt_of_le (Nat.two_pow_pos _) h).ne'
  have hlog : 52 + k ≤ u.log2 := (Nat.le_log2 hu).mpr h
  have hspacing : spacing u = 2 ^ (u.log2 - 52) := by
    rw [spacing, show u.log2 + 1 - 53 = u.log2 - 52 by omega]
    rfl
  have hstep : 0 < spacing u := Nat.two_pow_pos _
  have hpow : 2 ^ 52 * spacing u = 2 ^ u.log2 := by
    rw [hspacing, ← Nat.pow_add, show 52 + (u.log2 - 52) = u.log2 by omega]
  have hself := Nat.log2_self_le hu
  have hround : 2 ^ 52 ≤ roundDiv u (spacing u) := by
    by_contra hlt
    have := (roundDiv_lt_iff hstep (by decide)).mp (Nat.not_le.mp hlt)
    omega
  calc 2 ^ (52 + k) ≤ 2 ^ u.log2 := Nat.pow_le_pow_right (by decide) hlog
    _ = 2 ^ 52 * spacing u := hpow.symm
    _ ≤ roundDiv u (spacing u) * spacing u := Nat.mul_le_mul_right _ hround
    _ = roundUnits u 1 := by simp only [roundUnits, Nat.div_one, Nat.one_mul]

/-- A whole number is rounded to a finite one exactly if it is less than half of the last bit beyond
the largest of them. -/
theorem roundUnits_lt_tooLarge_iff :
    roundUnits (m * one) 1 < tooLarge ↔ m < 2 ^ 1024 - 2 ^ 970 := by
  have hone : 2 ^ 1074 = one := two_pow_eq_one rfl
  have hpos : 0 < one := Nat.lt_of_lt_of_eq (Nat.two_pow_pos _) hone
  have hlarge : 2 ^ 1024 * one = tooLarge := two_pow_mul_one rfl
  have hhigh : 2 ^ 1024 = 2 ^ 53 * 2 ^ 971 := two_pow_split rfl
  have hlow : 2 ^ 1024 = 2 ^ 1 * 2 ^ 1023 := two_pow_split rfl
  have hhalf : 2 ^ 971 = 2 ^ 1 * 2 ^ 970 := two_pow_split rfl
  rcases Nat.lt_or_ge m (2 ^ 1023) with hless | hmore
  · have hdouble : 2 * m < 2 ^ 1024 := by omega
    have hfits : 2 * m * one < tooLarge := by
      rw [← hlarge]
      exact Nat.mul_lt_mul_of_pos_right hdouble hpos
    rw [Nat.mul_assoc] at hfits
    exact iff_of_true (Nat.lt_of_le_of_lt (roundUnits_le _) hfits) (by omega)
  rcases Nat.lt_or_ge m (2 ^ 1024) with hless | hbeyond
  · have hunits := roundUnits_eq (m := m) (d := 1) (j := 971) Nat.one_pos
      (by omega) (by omega) 1074
    rw [Nat.one_mul, hone] at hunits
    rw [hunits, ← hlarge, hhigh, Nat.mul_lt_mul_right hpos,
      Nat.mul_lt_mul_right (Nat.two_pow_pos _),
      roundDiv_lt_iff (Nat.two_pow_pos _) (by decide)]
    omega
  · have hpower : 2 ^ (52 + 2046) = tooLarge := two_pow_eq_tooLarge (by decide)
    have hreach : 2 ^ (52 + 2046) ≤ m * one := by
      rw [hpower, ← hlarge]
      exact Nat.mul_le_mul_right _ hbeyond
    have hle := le_roundUnits hreach
    rw [hpower] at hle
    exact iff_of_false (Nat.not_lt.mpr hle) (by omega)

theorem isFinite_ofInt_iff {n : Int} : (ofInt n).isFinite = true ↔ ¬IsOutOfRange n := by
  have hrange : roundUnits (n.natAbs * one) 1 < tooLarge ↔ ¬IsOutOfRange n :=
    roundUnits_lt_tooLarge_iff.trans Nat.not_le.symm
  rw [← hrange]
  unfold ofInt ofRatio ofUnits
  by_cases hfits : roundUnits (n.natAbs * one) 1 < tooLarge
  · rw [if_pos hfits]
    exact iff_of_true rfl hfits
  · rw [if_neg hfits]
    exact iff_of_false (by simp [isFinite]) hfits

end Double

end Timeline
