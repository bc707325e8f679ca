import Mathlib.Algebra.Ring.Nat
import Mathlib.Tactic.ByContra
import Mathlib.Tactic.SplitIfs
import Timeline.Time.Instant

/-! # Days and dates

Every day has a date, which exists in the calendar and has the number of the day, and a valid date
is that of its day. A clock shows a valid date and a time of day, and what it shows gives back the
microseconds it was set to.
-/

namespace Timeline

namespace Date

variable {n year : Nat}

theorem sum_monthLengths (year : Nat) : (monthLengths year).sum = yearLength year := by
  cases h : isLeapYear year <;> simp [monthLengths, yearLength, h]

theorem exists_inMonths {lengths : List Nat} (h : n < lengths.sum) :
    ∃ length, lengths[(inMonths lengths n).1]? = some length ∧ (inMonths lengths n).2 < length ∧
      (lengths.take (inMonths lengths n).1).sum + (inMonths lengths n).2 = n := by
  induction lengths generalizing n with
  | nil => cases h
  | cons length rest ih =>
    rw [List.sum_cons] at h
    unfold inMonths
    split_ifs with hn
    · exact ⟨length, rfl, hn, by simp⟩
    · obtain ⟨found, hget, hlt, hsum⟩ := ih (show n - length < rest.sum by omega)
      refine ⟨found, hget, hlt, ?_⟩
      simp only [List.take_succ_cons, List.sum_cons]
      omega

theorem exists_yearOfDay (n : Nat) : ∃ year left, yearOfDay n = (year, left) ∧ 1 ≤ year ∧
    left < yearLength year ∧ daysBeforeYear year + left = n := by
  obtain ⟨r, hr⟩ : ∃ r, r = n % 146097 := ⟨_, rfl⟩
  obtain ⟨b, hb⟩ : ∃ b, b = min (r / 36524) 3 := ⟨_, rfl⟩
  obtain ⟨c, hc⟩ : ∃ c, c = (r - 36524 * b) / 1461 := ⟨_, rfl⟩
  obtain ⟨s, hs⟩ : ∃ s, s = (r - 36524 * b) % 1461 := ⟨_, rfl⟩
  obtain ⟨e, he⟩ : ∃ e, e = min (s / 365) 3 := ⟨_, rfl⟩
  have hb3 : b ≤ 3 := by omega
  have hc24 : c ≤ 24 := by omega
  have he3 : e ≤ 3 := by omega
  refine ⟨400 * (n / 146097) + 100 * b + 4 * c + e + 1, s - 365 * e, ?_, by omega, ?_, ?_⟩
  · rw [yearOfDay, ← hr, ← hb, ← hc, ← hs, ← he]
  · have hleap := isLeapYear_cycles (a := n / 146097) hb3 hc24 he3
    unfold yearLength
    split_ifs with h
    · omega
    · -- only a year that ends its cycle of 4 years could hold more than 365 days
      have hno := mt hleap.mpr h
      omega
  · rw [daysBeforeYear_cycles hb3 hc24 he3]
    omega

theorem daysBeforeYear_succ (hyear : 1 ≤ year) :
    daysBeforeYear (year + 1) = daysBeforeYear year + yearLength year := by
  obtain ⟨a, b, c, e, rfl, hb, hc, he⟩ := exists_cycles hyear
  have hleap := isLeapYear_cycles (a := a) hb hc he
  rw [daysBeforeYear_cycles hb hc he]
  simp only [daysBeforeYear, yearLength]
  split_ifs with h
  · have := hleap.mp h
    omega
  · have := mt hleap.mpr h
    omega

theorem daysBeforeYear_mono {first last : Nat} (h : first ≤ last) :
    daysBeforeYear first ≤ daysBeforeYear last := by
  rcases Nat.eq_or_lt_of_le h with rfl | h
  · exact Nat.le_refl _
  · simp only [daysBeforeYear]
    omega

/-- The date of a day is a date of a year from 1 on, and its day is this day. -/
structure IsDateOf (d : Date) (n : Nat) : Prop where
  day : d.day = n
  one_le_year : 1 ≤ d.year
  month : 1 ≤ d.month ∧ d.month ≤ 12
  dayOfMonth : 1 ≤ d.dayOfMonth ∧ d.dayOfMonth ≤ monthLength d.year d.month
  daysBefore_lt : d.daysBefore < yearLength d.year

theorem isDateOf_ofDay (n : Nat) : (ofDay n).IsDateOf n := by
  obtain ⟨year, left, hyear, hone, hleft, hday⟩ := exists_yearOfDay n
  obtain ⟨length, hget, hlt, hsum⟩ := exists_inMonths ((sum_monthLengths year).symm ▸ hleft)
  have hdate : ofDay n = ⟨year, (inMonths (monthLengths year) left).1 + 1,
      (inMonths (monthLengths year) left).2 + 1⟩ := by
    rw [ofDay, hyear]
  have hbefore : (ofDay n).daysBefore = left := by
    rw [hdate]
    exact hsum
  have hmonth : (inMonths (monthLengths year) left).1 < 12 := by
    obtain ⟨hmonth, -⟩ := List.getElem?_eq_some_iff.mp hget
    exact hmonth
  have hlength : monthLength year ((inMonths (monthLengths year) left).1 + 1) = length := by
    simp [monthLength, hget]
  constructor
  · rw [Date.day, hbefore, hdate]
    exact hday
  · rw [hdate]
    exact hone
  · rw [hdate]
    exact ⟨Nat.succ_le_succ (Nat.zero_le _), hmonth⟩
  · rw [hdate]
    exact ⟨Nat.succ_le_succ (Nat.zero_le _), hlength ▸ hlt⟩
  · rw [hbefore, hdate]
    exact hleft

theorem IsDateOf.year_le_iff {d : Date} (h : d.IsDateOf n) : d.year ≤ 9999 ↔ n ≤ lastDay := by
  have hlast : daysBeforeYear 10000 = lastDay + 1 := by decide
  have hday : daysBeforeYear d.year + d.daysBefore = n := h.day
  have hsucc := daysBeforeYear_succ h.one_le_year
  have hlt := h.daysBefore_lt
  constructor
  · intro hyear
    have := daysBeforeYear_mono (show d.year + 1 ≤ 10000 by omega)
    omega
  · intro hn
    by_contra hyear
    have := daysBeforeYear_mono (show 10000 ≤ d.year by omega)
    omega

theorem IsDateOf.isValid {d : Date} (h : d.IsDateOf n) (hn : n ≤ lastDay) : d.IsValid :=
  ⟨⟨h.one_le_year, h.year_le_iff.mpr hn⟩, h.month, h.dayOfMonth⟩

theorem inMonths_sum_take {lengths : List Nat} {k left length : Nat}
    (hget : lengths[k]? = some length) (hlt : left < length) :
    inMonths lengths ((lengths.take k).sum + left) = (k, left) := by
  induction lengths generalizing k with
  | nil => cases hget
  | cons first rest ih =>
    cases k with
    | zero =>
      cases hget
      simp [inMonths, hlt]
    | succ k =>
      rw [List.take_succ_cons, List.sum_cons, Nat.add_assoc, inMonths, if_neg (by omega),
        Nat.add_sub_cancel_left, ih hget]

theorem sum_take_add_lt {lengths : List Nat} {k left length : Nat}
    (hget : lengths[k]? = some length) (hlt : left < length) :
    (lengths.take k).sum + left < lengths.sum := by
  induction lengths generalizing k with
  | nil => cases hget
  | cons first rest ih =>
    rw [List.sum_cons]
    cases k with
    | zero =>
      cases hget
      simp only [List.take_zero, List.sum_nil]
      omega
    | succ k =>
      have hrest := ih hget
      rw [List.take_succ_cons, List.sum_cons]
      omega

namespace IsValid

variable {d : Date} (h : d.IsValid)

include h

theorem getElem?_monthLengths :
    (monthLengths d.year)[d.month - 1]? = some (monthLength d.year d.month) := by
  obtain ⟨-, ⟨hone, hmonth⟩, -⟩ := h
  have hmem : d.month - 1 < (monthLengths d.year).length := by
    simp only [monthLengths, List.length_cons, List.length_nil]
    omega
  rw [monthLength, if_neg (by omega), List.getD, List.getElem?_eq_getElem hmem]
  rfl

theorem dayOfMonth_le : d.dayOfMonth ≤ 31 := by
  have hlengths : ∀ length ∈ monthLengths d.year, length ≤ 31 := by
    unfold monthLengths
    split_ifs <;> decide
  exact Nat.le_trans h.2.2.2 (hlengths _ (List.mem_of_getElem? h.getElem?_monthLengths))

theorem dayOfMonth_lt : d.dayOfMonth - 1 < monthLength d.year d.month := by
  obtain ⟨-, -, hone, hday⟩ := h
  omega

theorem isDateOf : d.IsDateOf d.day where
  day := rfl
  one_le_year := h.1.1
  month := h.2.1
  dayOfMonth := h.2.2
  daysBefore_lt := by
    rw [← sum_monthLengths]
    exact sum_take_add_lt h.getElem?_monthLengths h.dayOfMonth_lt

theorem day_le : d.day ≤ lastDay :=
  h.isDateOf.year_le_iff.mp h.1.2

theorem ofDay_day : ofDay d.day = d := by
  have hmonths : inMonths (monthLengths d.year) d.daysBefore = (d.month - 1, d.dayOfMonth - 1) :=
    inMonths_sum_take h.getElem?_monthLengths h.dayOfMonth_lt
  obtain ⟨⟨hyear, -⟩, ⟨hmonth, -⟩, hday, -⟩ := id h
  rw [ofDay, day, yearOfDay_daysBeforeYear hyear h.isDateOf.daysBefore_lt]
  simp only [hmonths, Nat.sub_add_cancel hmonth, Nat.sub_add_cancel hday]

end IsValid

end Date

def Clock.midnight (d : Date) : Clock :=
  ⟨d, 0, 0, 0, 0⟩

namespace Instant

/-- An instant of the years 1 to 9999. -/
def IsInCalendar (t : Instant) : Prop :=
  first ≤ t.micros ∧ t.micros < pastLast

theorem ofMicros?_eq_some_iff {n : Int} {t : Instant} :
    ofMicros? n = some t ↔ n = t.micros ∧ t.IsInCalendar := by
  obtain ⟨m⟩ := t
  unfold ofMicros? IsInCalendar
  split_ifs with h
  · simp only [Option.some.injEq, mk.injEq]
    constructor
    · rintro rfl
      exact ⟨rfl, h⟩
    · rintro ⟨rfl, -⟩
      rfl
  · simp only [false_iff]
    rintro ⟨rfl, hm⟩
    exact h hm

def clock (t : Instant) : Clock :=
  Clock.ofMicros t.micros

def year (t : Instant) : Nat :=
  t.clock.date.year

/-- The number of the day of an instant, counted from the first day of the calendar. -/
def day (t : Instant) : Nat :=
  (t.micros / microsPerDay + Date.epoch).toNat

variable {t : Instant}

theorem IsInCalendar.ofMicros?_micros (h : t.IsInCalendar) : ofMicros? t.micros = some t :=
  ofMicros?_eq_some_iff.mpr ⟨rfl, h⟩

theorem IsInCalendar.toInstant? {m : Moment} (h : t.IsInCalendar) (hm : m.utcMicros = t.micros) :
    m.toInstant? = some t := by
  rw [Moment.toInstant?, hm, h.ofMicros?_micros]

theorem date_clock (t : Instant) : t.clock.date = Date.ofDay t.day := by
  rw [clock, Clock.ofMicros, day]

theorem isDateOf_date (t : Instant) : t.clock.date.IsDateOf t.day := by
  rw [date_clock]
  exact Date.isDateOf_ofDay t.day

theorem IsInCalendar.day_le (h : t.IsInCalendar) : t.day ≤ Date.lastDay := by
  obtain ⟨hfirst, hlast⟩ := h
  simp only [first, pastLast, day, microsPerDay, Date.epoch, Date.lastDay] at *
  omega

theorem IsInCalendar.isValid (h : t.IsInCalendar) : t.clock.date.IsValid :=
  t.isDateOf_date.isValid h.day_le

theorem one_le_year (t : Instant) : 1 ≤ t.year :=
  t.isDateOf_date.one_le_year

theorem isInCalendar_of_year (hfirst : 1 < t.year) (hlast : t.year ≤ 9999) : t.IsInCalendar := by
  have hday := t.isDateOf_date.year_le_iff.mp hlast
  have hpos : 0 < t.day := by
    by_contra hzero
    have hone : t.year = 1 := by
      rw [year, date_clock, show t.day = 0 by omega]
      rfl
    omega
  simp only [IsInCalendar, first, pastLast, day, microsPerDay, Date.epoch, Date.lastDay] at *
  omega

theorem clock_ranges (t : Instant) : t.clock.hour ≤ 23 ∧ t.clock.minute ≤ 59 ∧
    t.clock.second ≤ 59 ∧ t.clock.micro < 1000000 := by
  simp only [clock, Clock.ofMicros, microsPerDay]
  omega

theorem IsInCalendar.micros_clock (h : t.IsInCalendar) : t.clock.micros = t.micros := by
  obtain ⟨hfirst, -⟩ := h
  have hday : t.clock.date.day = t.day := t.isDateOf_date.day
  rw [Clock.micros, hday]
  simp only [first, day, clock, Clock.ofMicros, microsPerDay, Date.epoch] at *
  omega

def startOf (d : Date) : Instant :=
  ⟨(Clock.midnight d).micros⟩

theorem micros_startOf (d : Date) :
    (startOf d).micros = ((d.day : Int) - Date.epoch) * microsPerDay := by
  simp [startOf, Clock.midnight, Clock.micros]

/-- The instants from the start of the year 1 to the end of the year 9999. -/
theorem isInCalendar_iff : t.IsInCalendar ↔
    (startOf ⟨1, 1, 1⟩).micros ≤ t.micros ∧
      t.micros < (startOf ⟨9999, 12, 31⟩).micros + microsPerDay := by
  have hfirst : (startOf ⟨1, 1, 1⟩).micros = first := by decide
  have hlast : (startOf ⟨9999, 12, 31⟩).micros + microsPerDay = pastLast := by decide
  rw [hfirst, hlast, IsInCalendar]

theorem isInCalendar_startOf {d : Date} (h : d.IsValid) : (startOf d).IsInCalendar := by
  have hday := h.day_le
  simp only [IsInCalendar, micros_startOf, first, pastLast, microsPerDay, Date.epoch,
    Date.lastDay] at *
  omega

theorem clock_startOf {d : Date} (h : d.IsValid) : (startOf d).clock = Clock.midnight d := by
  have hdate : Date.ofDay ((startOf d).micros / microsPerDay + Date.epoch).toNat = d := by
    rw [micros_startOf, Int.mul_ediv_cancel _ (by decide), Int.sub_add_cancel, Int.toNat_natCast,
      h.ofDay_day]
  have hleft : (startOf d).micros % microsPerDay = 0 := by
    rw [micros_startOf, Int.mul_emod_left]
  simp only [clock, Clock.ofMicros, hdate, hleft]
  rfl

def wholeMillis (t : Instant) : Instant :=
  ⟨t.micros / 1000 * 1000⟩

theorem day_wholeMillis (t : Instant) : t.wholeMillis.day = t.day := by
  simp only [day, wholeMillis, microsPerDay]
  omega

/-- A clock at the start of the millisecond shows the same, with the microseconds cut off. -/
theorem clock_wholeMillis (t : Instant) :
    t.wholeMillis.clock = { t.clock with micro := t.clock.micro / 1000 * 1000 } := by
  have hdate : t.wholeMillis.clock.date = t.clock.date := by
    rw [date_clock, day_wholeMillis, date_clock]
  have htime : t.wholeMillis.clock.hour = t.clock.hour ∧
      t.wholeMillis.clock.minute = t.clock.minute ∧ t.wholeMillis.clock.second = t.clock.second ∧
      t.wholeMillis.clock.micro = t.clock.micro / 1000 * 1000 := by
    simp only [clock, wholeMillis, Clock.ofMicros, microsPerDay]
    omega
  obtain ⟨hhour, hminute, hsecond, hmicro⟩ := htime
  cases h : t.wholeMillis.clock
  simp_all

theorem year_wholeMillis (t : Instant) : t.wholeMillis.year = t.year := by
  rw [year, clock_wholeMillis, year]

theorem wholeMillis_wholeMillis (t : Instant) : t.wholeMillis.wholeMillis = t.wholeMillis := by
  simp [wholeMillis]

theorem IsInCalendar.wholeMillis (h : t.IsInCalendar) : t.wholeMillis.IsInCalendar := by
  simp only [IsInCalendar, first, pastLast, Instant.wholeMillis, microsPerDay, Date.epoch,
    Date.lastDay] at *
  omega

end Instant

end Timeline
