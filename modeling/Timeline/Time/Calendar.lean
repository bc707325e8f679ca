/-! # The calendar

The proleptic Gregorian calendar. Days are counted from 1 January of year 1, which is day 0.
`Date.ofDay?` and `Date.day` are inverse on the years 1 to 9999.
-/

namespace Timeline

def isLeapYear (year : Nat) : Bool :=
  year % 4 = 0 && (year % 100 ≠ 0 || year % 400 = 0)

def monthLengths (year : Nat) : List Nat :=
  [31, if isLeapYear year then 29 else 28, 31, 30, 31, 30, 31, 31, 30, 31, 30, 31]

def yearLength (year : Nat) : Nat :=
  if isLeapYear year then 366 else 365

/-- The number of days of a month, and zero for a number that is no month. -/
def monthLength (year month : Nat) : Nat :=
  if month = 0 then 0 else (monthLengths year).getD (month - 1) 0

/-- The number of days before a year, counted from year 1. -/
def daysBeforeYear (year : Nat) : Nat :=
  let y := year - 1
  365 * y + y / 4 - y / 100 + y / 400

structure Date where
  year : Nat
  month : Nat
  dayOfMonth : Nat
deriving DecidableEq, Repr

namespace Date

/-- The days of the years 1 to 9999. -/
def IsValid (d : Date) : Prop :=
  (1 ≤ d.year ∧ d.year ≤ 9999) ∧ (1 ≤ d.month ∧ d.month ≤ 12) ∧
    (1 ≤ d.dayOfMonth ∧ d.dayOfMonth ≤ monthLength d.year d.month)

instance (d : Date) : Decidable d.IsValid :=
  inferInstanceAs (Decidable ((_ ∧ _) ∧ (_ ∧ _) ∧ _ ∧ _))

/-- The number of days before a date in its year. -/
def daysBefore (d : Date) : Nat :=
  ((monthLengths d.year).take (d.month - 1)).foldr (· + ·) 0 + (d.dayOfMonth - 1)

/-- The number of days before a date, counted from 1 January of year 1. -/
def day (d : Date) : Nat :=
  daysBeforeYear d.year + d.daysBefore

/-- The month and the day of the month, both counted from zero, of a day in a run of months. -/
def inMonths : List Nat → Nat → Nat × Nat
  | [], n => (0, n)
  | length :: rest, n =>
    if n < length then (0, n)
    else
      let (month, left) := inMonths rest (n - length)
      (month + 1, left)

/-- The year of a day and the number of the day in this year, counted from zero. -/
def yearOfDay (n : Nat) : Nat × Nat :=
  let r400 := n % 146097
  let n100 := min (r400 / 36524) 3
  let r100 := r400 - 36524 * n100
  let n4 := r100 / 1461
  let r4 := r100 % 1461
  let n1 := min (r4 / 365) 3
  (400 * (n / 146097) + 100 * n100 + 4 * n4 + n1 + 1, r4 - 365 * n1)

def ofDay (n : Nat) : Date :=
  let (year, left) := yearOfDay n
  let (month, dayOfMonth) := inMonths (monthLengths year) left
  ⟨year, month + 1, dayOfMonth + 1⟩

def epoch : Nat := 719162

/-- The number of the last day of year 9999. -/
def lastDay : Nat := 3652058

/-- The day of the week, with Monday as 0. -/
def weekday (n : Nat) : Nat :=
  n % 7

/-- The first day of week 1 of a year: the Monday of the week with 4 January. -/
def firstWeek (year : Nat) : Nat :=
  let fourth := daysBeforeYear year + 3
  fourth - weekday fourth

end Date

/-- A year by its places in the cycles of 400, 100 and 4 years. -/
theorem exists_cycles {year : Nat} (hy : 1 ≤ year) :
    ∃ a b c e, year = 400 * a + 100 * b + 4 * c + e + 1 ∧
    b ≤ 3 ∧ c ≤ 24 ∧ e ≤ 3 :=
  ⟨(year - 1) / 400, (year - 1) % 400 / 100, (year - 1) % 100 / 4, (year - 1) % 4, by omega⟩

theorem daysBeforeYear_cycles {a b c e : Nat} (hb : b ≤ 3) (hc : c ≤ 24) (he : e ≤ 3) :
    daysBeforeYear (400 * a + 100 * b + 4 * c + e + 1) =
      146097 * a + 36524 * b + 1461 * c + 365 * e := by
  simp only [daysBeforeYear]
  omega

theorem isLeapYear_cycles {a b c e : Nat} (hb : b ≤ 3) (hc : c ≤ 24) (he : e ≤ 3) :
    isLeapYear (400 * a + 100 * b + 4 * c + e + 1) = true ↔ e = 3 ∧ (c ≠ 24 ∨ b = 3) := by
  simp only [isLeapYear, Bool.and_eq_true, Bool.or_eq_true, decide_eq_true_eq]
  omega

theorem Date.yearOfDay_daysBeforeYear {year left : Nat} (hy : 1 ≤ year)
    (hl : left < yearLength year) : Date.yearOfDay (daysBeforeYear year + left) = (year, left) := by
  obtain ⟨a, b, c, e, rfl, hb, hc, he⟩ := exists_cycles hy
  have hleap : left < 365 ∨ left = 365 ∧ e = 3 ∧ (c ≠ 24 ∨ b = 3) := by
    have := isLeapYear_cycles (a := a) hb hc he
    by_cases h : isLeapYear (400 * a + 100 * b + 4 * c + e + 1) = true
    · have := this.1 h
      simp only [yearLength, h, if_true] at hl
      omega
    · simp only [yearLength, h, Bool.false_eq_true, if_false] at hl
      exact .inl hl
  rw [daysBeforeYear_cycles hb hc he, Date.yearOfDay]
  have h400 : (146097 * a + 36524 * b + 1461 * c + 365 * e + left) % 146097 =
      36524 * b + (1461 * c + 365 * e + left) := by omega
  have hcycles : (146097 * a + 36524 * b + 1461 * c + 365 * e + left) / 146097 = a := by omega
  have h100 : min ((36524 * b + (1461 * c + 365 * e + left)) / 36524) 3 = b := by omega
  have hrest : 36524 * b + (1461 * c + 365 * e + left) - 36524 * b =
      1461 * c + 365 * e + left := by omega
  have h4 : (1461 * c + 365 * e + left) / 1461 = c := by omega
  have hyears : (1461 * c + 365 * e + left) % 1461 = 365 * e + left := by omega
  have h1 : min ((365 * e + left) / 365) 3 = e := by omega
  simp only [h400, hcycles, h100, hrest, h4, hyears, h1, Nat.add_sub_cancel_left]

end Timeline
