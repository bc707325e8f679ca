import Timeline.Proofs.Number.Double
import Timeline.Proofs.Table.Cells
import Timeline.Proofs.Time.Calendar

/-! # Durations

The duration of an entity goes by way of seconds as a binary64 number. These are rounded to 53 bits,
the product with 1000 is rounded again, and what is behind the point is cut off. Where the product
falls short of the whole number of milliseconds the duration is a millisecond too short.
-/

namespace Timeline

open Double

variable {n b i j m : Nat}

/-- A positive number is brought into a range up to a bound and its double by a power of two. -/
theorem exists_scale (hn : 0 < n) (h : n < 2 * b) : ∃ i, b ≤ n * 2 ^ i ∧ n * 2 ^ i < 2 * b := by
  have hex : ∃ i, b ≤ n * 2 ^ i :=
    ⟨b, Nat.le_trans Nat.lt_two_pow_self.le (Nat.le_mul_of_pos_left _ hn)⟩
  refine ⟨Nat.find hex, Nat.find_spec hex, ?_⟩
  cases hi : Nat.find hex with
  | zero => simpa using h
  | succ i =>
    have hmin := Nat.find_min hex (show i < Nat.find hex by omega)
    rw [Nat.pow_succ, ← Nat.mul_assoc]
    omega

theorem le_of_scale (hi : n * 2 ^ i < 2 * b) (hj : b ≤ n * 2 ^ j) : i ≤ j := by
  by_contra hlt
  have hpow : 2 ^ j * 2 ≤ 2 ^ i := by
    rw [← Nat.pow_succ]
    exact Nat.pow_le_pow_right (by decide) (by omega)
  have := Nat.mul_le_mul_left n hpow
  rw [← Nat.mul_assoc] at this
  omega

/-- Rounding makes the product with 1000 fall short of `n` milliseconds. Their seconds are rounded
from `n * 2 ^ i / 1000` to 53 bits. This takes away less than half of the last bit, but more than
half of what the last bit of the product is worth, which is 512 thousandths of it. -/
def IsCutShort (n : Nat) : Prop :=
  ∃ i < 63, 1000 * 2 ^ 52 ≤ n * 2 ^ i ∧ n * 2 ^ i < 2 ^ 62 ∧ 256 < n * 2 ^ i % 1000 ∧
    n * 2 ^ i % 1000 < 500

instance (n : Nat) : Decidable (IsCutShort n) :=
  inferInstanceAs (Decidable (∃ i < 63, _))

theorem roundUnits_seconds (hi : i ≤ 1074) (hlow : 1000 * 2 ^ 52 ≤ n * 2 ^ i)
    (hhigh : n * 2 ^ i < 1000 * 2 ^ 53) :
    roundUnits (1000 * n * one) 1000000 = roundDiv (n * 2 ^ i) 1000 * 2 ^ (1074 - i) := by
  have hunits : 1000 * n * one = n * 2 ^ i * 2 ^ (1074 - i) * 1000 := by
    rw [← two_pow_mul_two_pow (Nat.add_sub_cancel' hi)]
    ring
  rw [hunits, show 1000000 = 1000 * 1000 from rfl, roundUnits_mul_mul _ _ (by decide),
    roundUnits_eq (j := 0) (by decide) (by omega) (by omega)]
  simp

theorem roundDiv_seconds (hm : 2048 ∣ m) :
    (m % 1000 < 500 ∧ roundDiv m 1000 * 1000 + m % 1000 = m) ∨
      (500 < m % 1000 ∧ m < roundDiv m 1000 * 1000 ∧ roundDiv m 1000 * 1000 < m + 500) := by
  rcases Nat.lt_or_ge (m % 1000) 500 with hless | hmore
  · have hround : roundDiv m 1000 = m / 1000 := by
      simp only [roundDiv]
      rw [if_pos (by omega)]
    exact .inl ⟨hless, by omega⟩
  · have hround : roundDiv m 1000 = m / 1000 + 1 := by
      simp only [roundDiv]
      rw [if_neg (by omega), if_pos (by omega)]
    exact .inr ⟨by omega, by omega⟩

/-- The product of the rounded seconds and 1000, in thousandths of the last bit of the seconds. -/
theorem exists_roundUnits_millis (hm : 2048 ∣ m) (hlow : 1000 * 2 ^ 52 ≤ m)
    (hhigh : m < 1000 * 2 ^ 53) :
    ∃ r, (∀ k, roundUnits (roundDiv m 1000 * 2 ^ k * 1000) 1 = r * 2 ^ k) ∧
      ((m < 2 ^ 62 ∧ 256 < m % 1000 ∧ m % 1000 < 500) ∧ r + 512 = m ∨
        ¬(m < 2 ^ 62 ∧ 256 < m % 1000 ∧ m % 1000 < 500) ∧ m ≤ r ∧ r < m + 2048) := by
  obtain ⟨p, hp⟩ : ∃ p, p = roundDiv m 1000 * 1000 := ⟨_, rfl⟩
  have hunits (k : Nat) : roundDiv m 1000 * 2 ^ k * 1000 = p * 2 ^ k := by
    rw [hp]
    ring
  have hseconds := roundDiv_seconds hm
  rw [← hp] at hseconds
  simp only [hunits]
  by_cases hbits : p < 2 ^ 62
  · refine ⟨roundDiv p 512 * 512, roundUnits_eq (j := 9) (by decide) (by omega) (by omega), ?_⟩
    have hnear := roundDiv_near p (show 0 < 512 by decide)
    rcases hseconds with ⟨hless, hdown⟩ | ⟨hmore, hup⟩
    · by_cases hshort : 256 < m % 1000
      · exact .inl ⟨by omega, by omega⟩
      · have hround : roundDiv p 512 = m / 512 :=
          roundDiv_eq_of_even (by decide) (by omega) (by omega) (by omega)
        exact .inr ⟨by omega, by omega⟩
    · exact .inr ⟨by omega, by omega⟩
  · refine ⟨roundDiv p 1024 * 1024, roundUnits_eq (j := 10) (by decide) (by omega) (by omega), ?_⟩
    have hnear := roundDiv_near p (show 0 < 1024 by decide)
    exact .inr ⟨by omega, by omega⟩

theorem isCutShort_iff (hlow : 1000 * 2 ^ 52 ≤ n * 2 ^ i) (hhigh : n * 2 ^ i < 1000 * 2 ^ 53)
    (hi : i < 63) :
    IsCutShort n ↔
      n * 2 ^ i < 2 ^ 62 ∧ 256 < n * 2 ^ i % 1000 ∧ n * 2 ^ i % 1000 < 500 := by
  constructor
  · rintro ⟨j, -, hjlow, hjhigh, hj⟩
    have hij : i ≤ j := le_of_scale (b := 1000 * 2 ^ 52) (by omega) hjlow
    have hji : j ≤ i := le_of_scale (b := 1000 * 2 ^ 52) (by omega) hlow
    obtain rfl := Nat.le_antisymm hij hji
    exact ⟨hjhigh, hj⟩
  · rintro ⟨hihigh, hshort⟩
    exact ⟨i, hi, hlow, hihigh, hshort⟩

theorem not_isCutShort_of_dvd (h : 1000 ∣ n) : ¬IsCutShort n := by
  rintro ⟨i, -, -, -, hmore, -⟩
  rw [Nat.mod_eq_zero_of_dvd (h.mul_right (2 ^ i))] at hmore
  cases hmore

theorem truncate_scaled {q r : Nat} (hi : i ≤ 1074) (hq : q < 2 ^ 64) (hr : r < 2 ^ 64)
    (hproduct : roundUnits (q * 2 ^ (1074 - i) * 1000) 1 = r * 2 ^ (1074 - i)) :
    ((ofUnits false (q * 2 ^ (1074 - i))).mulNat 1000).truncate = (r / 2 ^ i : Nat) := by
  have hfinite : q * 2 ^ (1074 - i) < tooLarge ∧ r * 2 ^ (1074 - i) < tooLarge :=
    ⟨mul_two_pow_lt_tooLarge hq (by omega), mul_two_pow_lt_tooLarge hr (by omega)⟩
  have hwhole : r * 2 ^ (1074 - i) / one = r / 2 ^ i := by
    rw [← two_pow_mul_two_pow (Nat.add_sub_cancel' hi),
      Nat.mul_div_mul_right _ _ (Nat.two_pow_pos _)]
  rw [truncate_mulNat_ofUnits, hproduct, if_pos hfinite, hwhole]
  rfl

theorem truncate_seconds (hn : 0 < n) (hbound : n < 1000 * 2 ^ 42) :
    ((ofRatio false (1000 * n) 1000000).mulNat 1000).truncate =
      if IsCutShort n then (n : Int) - 1 else n := by
  obtain ⟨i, hlow, hhigh⟩ := exists_scale (b := 1000 * 2 ^ 52) hn (by omega)
  have hlarge : 11 ≤ i := le_of_scale (by omega) hlow
  have hsmall : i ≤ 62 := le_of_scale hhigh (by omega)
  have hdvd : 2048 ∣ n * 2 ^ i := (pow_dvd_pow 2 hlarge).mul_left n
  obtain ⟨r, hproduct, hcases⟩ := exists_roundUnits_millis hdvd hlow (by omega)
  have hseconds := roundUnits_seconds (show i ≤ 1074 by omega) hlow (by omega)
  have hnear := roundDiv_near (n * 2 ^ i) (show 0 < 1000 by decide)
  rw [ofRatio, hseconds, truncate_scaled (show i ≤ 1074 by omega) (by omega) (by omega)
    (hproduct (1074 - i))]
  simp only [isCutShort_iff hlow (show n * 2 ^ i < 1000 * 2 ^ 53 by omega) (show i < 63 by omega)]
  have hpow : 2 ^ 11 ≤ 2 ^ i := Nat.pow_le_pow_right (by decide) hlarge
  rcases hcases with ⟨hshort, heq⟩ | ⟨hlong, hle, hlt⟩
  · have hquotient : r / 2 ^ i = n - 1 := by
      refine Nat.div_eq_of_lt_le ?_ ?_
      · rw [Nat.sub_one_mul]
        omega
      · rw [Nat.sub_add_cancel hn]
        omega
    rw [hquotient, if_pos hshort]
    exact Int.ofNat_sub hn
  · have hquotient : r / 2 ^ i = n := by
      refine Nat.div_eq_of_lt_le hle ?_
      rw [Nat.succ_mul]
      omega
    rw [hquotient, if_neg hlong]

namespace Entity

variable {e : Entity} {a b : Int}

def reversed (e : Entity) : Entity :=
  { e with start := e.finish, finish := e.start }

theorem duration_reversed (e : Entity) : e.reversed.duration = -e.duration := by
  have hmicros : e.start.micros - e.finish.micros = -(e.finish.micros - e.start.micros) := by omega
  simp only [duration, reversed, hmicros, Int.natAbs_neg]
  generalize e.finish.micros - e.start.micros = micros
  rcases eq_or_ne micros 0 with rfl | hne
  · decide +kernel
  · have hsign : decide (-micros < 0) = !decide (micros < 0) := by
      rw [← decide_not, decide_eq_decide]
      omega
    rw [hsign]
    exact truncate_mulNat_not _ _ _

theorem duration_of_le (h : e.finish.micros - e.start.micros = (1000 * n : Nat))
    (hbound : n < 1000 * 2 ^ 42) :
    e.duration = if IsCutShort n then (n : Int) - 1 else n := by
  unfold duration
  rw [h]
  rcases Nat.eq_zero_or_pos n with rfl | hn
  · decide +kernel
  · exact truncate_seconds hn hbound

theorem natAbs_millis_lt (hstart : e.start.IsInCalendar) (hfinish : e.finish.IsInCalendar)
    (ha : e.start.micros = 1000 * a) (hb : e.finish.micros = 1000 * b) :
    (b - a).natAbs < 1000 * 2 ^ 42 := by
  simp only [Instant.IsInCalendar, Instant.first, Instant.pastLast, microsPerDay, Date.epoch,
    Date.lastDay] at hstart hfinish
  omega

theorem duration_eq (hstart : e.start.IsInCalendar) (hfinish : e.finish.IsInCalendar)
    (ha : e.start.micros = 1000 * a) (hb : e.finish.micros = 1000 * b) :
    e.duration = if IsCutShort (b - a).natAbs then b - a - (b - a).sign else b - a := by
  have hbound := natAbs_millis_lt hstart hfinish ha hb
  rcases Int.lt_or_le b a with hlt | hle
  · have hmicros : e.reversed.finish.micros - e.reversed.start.micros =
        (1000 * (b - a).natAbs : Nat) := by
      simp only [reversed]
      omega
    have hsign := Int.sign_eq_neg_one_of_neg (show b - a < 0 by omega)
    have hduration := duration_of_le hmicros hbound
    rw [duration_reversed] at hduration
    rw [hsign]
    split_ifs at hduration ⊢ <;> omega
  · have hmicros : e.finish.micros - e.start.micros = (1000 * (b - a).natAbs : Nat) := by omega
    rw [duration_of_le hmicros hbound]
    split_ifs with hcut
    · have hpos : b - a ≠ 0 := by
        intro hzero
        rw [hzero] at hcut
        exact not_isCutShort_of_dvd (Nat.dvd_zero 1000) hcut
      have hsign := Int.sign_eq_one_of_pos (show 0 < b - a by omega)
      omega
    · omega

end Entity

namespace Table

variable {e : Entity} {a b : Int}

/-- The cell of the duration between whole milliseconds is their number, unless it is cut short:
then it is one less, or one more if the end lies before the start. It is never cut short between
whole seconds, and it changes its sign when start and end are exchanged. -/
theorem duration_cell (hstart : e.start.IsInCalendar) (hfinish : e.finish.IsInCalendar)
    (ha : e.start.micros = 1000 * a) (hb : e.finish.micros = 1000 * b) :
    (row e).get? "_duration" = some (.int e.duration) ∧
      (¬IsCutShort (b - a).natAbs → e.duration = b - a) ∧
      (IsCutShort (b - a).natAbs → e.duration = b - a - (b - a).sign) ∧
      (1000 ∣ b - a → e.duration = b - a) ∧
      e.reversed.duration = -e.duration := by
  have hduration := Entity.duration_eq hstart hfinish ha hb
  have hlong (h : ¬IsCutShort (b - a).natAbs) : e.duration = b - a := by
    rw [hduration, if_neg h]
  refine ⟨?_, hlong, fun h => ?_, fun h => ?_, e.duration_reversed⟩
  · have hcell : ("_duration", Value.int e.duration) ∈ entityCells e := by simp [entityCells]
    exact (Fields.mem_iff_get? (nodup_row e)).mp (mem_row_iff.mpr (.inl hcell))
  · rw [hduration, if_pos h]
  · exact hlong (not_isCutShort_of_dvd (Int.natCast_dvd.mp h))

/-- An event of three and a half seconds. -/
theorem duration_cell_seconds :
    let e : Entity :=
      ⟨"E1", ⟨1000000⟩, ⟨4500000⟩, .text "events", .text "d.json", .object [], .null⟩
    e.duration = 3500 := by
  intro e
  have hcell := duration_cell (e := e) (a := 1000) (b := 4500) ⟨by decide, by decide⟩
    ⟨by decide, by decide⟩ rfl rfl
  exact hcell.2.1 (by decide +kernel)

/-- An event of a second and a millisecond is cut short. -/
theorem duration_cell_short :
    let e : Entity := ⟨"E1", ⟨0⟩, ⟨1001000⟩, .text "events", .text "d.json", .object [], .null⟩
    e.finish.micros - e.start.micros = 1000 * 1001 ∧ e.duration = 1000 := by
  decide +kernel

end Table

end Timeline
