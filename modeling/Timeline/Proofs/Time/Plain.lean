import Timeline.Proofs.Time.Failure

/-! # Plain dates

The plain forms `YYYY-MM-DD`, `MM/DD/YYYY` and `MM-DD-YYYY` of the same digits stand for the same:
for the start of the day, if it is one of the calendar, and for nothing otherwise. The first form is
one of ISO 8601 too, which reads the same fields; a text that starts with two digits is none.
-/

namespace Timeline

section Groups

variable {separator c : Char} {widths : List Nat} {groups : List (List Char)}

theorem digitGroups?_intercalate (hdigits : ∀ group ∈ groups, ∀ c ∈ group, c.isDigit = true)
    (hseparator : separator.isDigit = false) (hne : groups ≠ []) :
    digitGroups? separator widths ([separator].intercalate groups) =
      if groups.map List.length = widths then some groups else none := by
  have hnotMem : ∀ group ∈ groups, separator ∉ group := by
    intro group hgroup hmem
    cases hseparator.symm.trans (hdigits group hgroup separator hmem)
  have hall : groups.all (·.all Text.isDigit) = true :=
    List.all_eq_true.mpr fun group hgroup => List.all_eq_true.mpr fun c hc =>
      Text.isDigit_of_charIsDigit (hdigits group hgroup c hc)
  simp only [digitGroups?, Text.splitAt_intercalate hnotMem hne, hall, and_true]

theorem isDigit_or_eq_of_mem_intercalate
    (hdigits : ∀ group ∈ groups, ∀ c ∈ group, c.isDigit = true)
    (h : c ∈ [separator].intercalate groups) : c.isDigit = true ∨ c = separator := by
  rcases Text.mem_of_mem_intercalate h with h | ⟨group, hgroup, hmem⟩
  · exact .inr (List.mem_singleton.mp h)
  · exact .inl (hdigits group hgroup c hmem)

theorem digitGroups?_of_ne {other : Char}
    (hdigits : ∀ group ∈ groups, ∀ c ∈ group, c.isDigit = true) (hother : other.isDigit = false)
    (hne : other ≠ separator) (hwidths : widths.length ≠ 1) :
    digitGroups? other widths ([separator].intercalate groups) = none := by
  have hnotMem : other ∉ [separator].intercalate groups := by
    intro hmem
    rcases isDigit_or_eq_of_mem_intercalate hdigits hmem with h | h
    · cases hother.symm.trans h
    · exact hne h
  refine if_neg fun hgroups => hwidths ?_
  rw [← hgroups.1, Text.splitAt_of_notMem hnotMem]
  rfl

end Groups

theorem Text.exists_of_isDigit {c : Char} (h : c.isDigit = true) :
    ∃ i < 10, c = Char.ofNat (48 + i) := by
  have hc : 48 ≤ c.toNat ∧ c.toNat ≤ 57 := Char.isDigit_iff_toNat.mp h
  refine ⟨c.toNat - 48, by omega, ?_⟩
  rw [Nat.add_sub_cancel' hc.1, Char.ofNat_toNat]

/-- What holds of all pairs of digits up to a number holds of two digits that write one up to it. -/
theorem of_pairs {test : List Char → Bool} {cs : List Char} {last : Nat} (hlength : cs.length = 2)
    (hdigits : ∀ c ∈ cs, c.isDigit = true)
    (htest : ∀ i < 10, ∀ j < 10, let pair := [Char.ofNat (48 + i), Char.ofNat (48 + j)]
      1 ≤ Nat.ofDigitChars 10 pair 0 → Nat.ofDigitChars 10 pair 0 ≤ last → test pair = true)
    (hfirst : 1 ≤ Nat.ofDigitChars 10 cs 0) (hlast : Nat.ofDigitChars 10 cs 0 ≤ last) :
    test cs = true := by
  obtain ⟨a, b, rfl⟩ := List.length_eq_two.mp hlength
  obtain ⟨i, hi, rfl⟩ := Text.exists_of_isDigit (hdigits a (by simp))
  obtain ⟨j, hj, rfl⟩ := Text.exists_of_isDigit (hdigits b (by simp))
  exact htest i hi j hj hfirst hlast

/-- The parts of a plain date in the digits `0` to `9`, as many as its forms ask for. -/
structure DateDigits extends DateParts where
  length_year : year.length = 4
  length_month : month.length = 2
  length_day : day.length = 2
  isDigit_year : ∀ c ∈ year, c.isDigit = true
  isDigit_month : ∀ c ∈ month, c.isDigit = true
  isDigit_day : ∀ c ∈ day, c.isDigit = true

namespace DateDigits

def date (p : DateDigits) : Date :=
  ⟨Nat.ofDigitChars 10 p.year 0, Nat.ofDigitChars 10 p.month 0, Nat.ofDigitChars 10 p.day 0⟩

def yearFirst (p : DateDigits) : List Char :=
  ['-'].intercalate [p.year, p.month, p.day]

def monthFirst (separator : Char) (p : DateDigits) : List Char :=
  [separator].intercalate [p.month, p.day, p.year]

def instant? (p : DateDigits) : Option Instant :=
  if p.date.IsValid then some (.startOf p.date) else none

variable (p : DateDigits)

theorem isDigit_of_mem_yearFirst : ∀ group ∈ [p.year, p.month, p.day], ∀ c ∈ group,
    c.isDigit = true := by
  simpa using ⟨p.isDigit_year, p.isDigit_month, p.isDigit_day⟩

theorem isDigit_of_mem_monthFirst : ∀ group ∈ [p.month, p.day, p.year], ∀ c ∈ group,
    c.isDigit = true := by
  simpa using ⟨p.isDigit_month, p.isDigit_day, p.isDigit_year⟩

theorem date_eq :
    (⟨Text.decimal p.year, Text.decimal p.month, Text.decimal p.day⟩ : Date) = p.date := by
  rw [Text.decimal_eq p.isDigit_year, Text.decimal_eq p.isDigit_month,
    Text.decimal_eq p.isDigit_day, date]

theorem instant?_toDateParts : p.toDateParts.instant? = p.instant? := by
  simp only [DateParts.instant?, p.date_eq, instant?]
  by_cases hvalid : p.date.IsValid
  · have hmonth : isMonthText p.month = true :=
      of_pairs p.length_month p.isDigit_month (by decide) hvalid.2.1.1 hvalid.2.1.2
    have hday : isDayText p.day = true :=
      of_pairs p.length_day p.isDigit_day (by decide) hvalid.2.2.1 hvalid.dayOfMonth_le
    rw [if_pos ⟨hmonth, hday, hvalid⟩, if_pos hvalid, ← Instant.micros_startOf]
    exact (Instant.isInCalendar_startOf hvalid).ofMicros?_micros
  · rw [if_neg (fun h => hvalid h.2.2), if_neg hvalid]

theorem digitGroups?_yearFirst (widths : List Nat) :
    digitGroups? '-' widths p.yearFirst =
      if [4, 2, 2] = widths then some [p.year, p.month, p.day] else none := by
  rw [yearFirst, digitGroups?_intercalate p.isDigit_of_mem_yearFirst rfl (List.cons_ne_nil _ _)]
  simp only [List.map_cons, List.map_nil, p.length_year, p.length_month, p.length_day]

theorem digitGroups?_monthFirst {separator : Char} (hseparator : separator.isDigit = false)
    (widths : List Nat) : digitGroups? separator widths (p.monthFirst separator) =
      if [2, 2, 4] = widths then some [p.month, p.day, p.year] else none := by
  rw [monthFirst, digitGroups?_intercalate p.isDigit_of_mem_monthFirst hseparator
    (List.cons_ne_nil _ _)]
  simp only [List.map_cons, List.map_nil, p.length_year, p.length_month, p.length_day]

theorem plainDate?_yearFirst : plainDate? p.yearFirst = p.instant? := by
  have hslash : digitGroups? '/' [2, 2, 4] p.yearFirst = none :=
    digitGroups?_of_ne p.isDigit_of_mem_yearFirst rfl (by decide) (by decide)
  simp [plainDate?, yearFirst?, monthFirst?, hslash, p.digitGroups?_yearFirst,
    p.instant?_toDateParts]

theorem plainDate?_slashes : plainDate? (p.monthFirst '/') = p.instant? := by
  have hhyphen : ∀ widths : List Nat, widths.length ≠ 1 →
      digitGroups? '-' widths (p.monthFirst '/') = none :=
    fun widths => digitGroups?_of_ne p.isDigit_of_mem_monthFirst rfl (by decide)
  simp [plainDate?, yearFirst?, monthFirst?, hhyphen, p.digitGroups?_monthFirst,
    p.instant?_toDateParts]

theorem plainDate?_hyphens : plainDate? (p.monthFirst '-') = p.instant? := by
  have hslash : digitGroups? '/' [2, 2, 4] (p.monthFirst '-') = none :=
    digitGroups?_of_ne p.isDigit_of_mem_monthFirst rfl (by decide) (by decide)
  simp [plainDate?, yearFirst?, monthFirst?, hslash, p.digitGroups?_monthFirst,
    p.instant?_toDateParts]

theorem moment?_startOf {d : Date} (h : d.IsValid) :
    Iso.moment? d.day {} = some ⟨(Instant.startOf d).micros, none⟩ := by
  have hwall : ((d.day : Int) - Date.epoch) * microsPerDay + (({} : Iso.Time).micros : Int) =
      (Instant.startOf d).micros := by
    rw [Instant.micros_startOf]
    exact Int.add_zero _
  exact Iso.moment?_eq_some (by decide) hwall (Instant.isInCalendar_startOf h)

theorem toInstant?_startOf {d : Date} (h : d.IsValid) :
    Moment.toInstant? ⟨(Instant.startOf d).micros, none⟩ = some (.startOf d) :=
  (Instant.isInCalendar_startOf h).toInstant? (by simp [Moment.utcMicros])

theorem day?_yearFirst :
    Iso.day? p.yearFirst = if p.date.IsValid then some (p.date.day, []) else none := by
  have hfields := Iso.calendarFields?_digits p.length_year p.length_month p.length_day
    p.isDigit_year p.isDigit_month p.isDigit_day []
  rw [p.date_eq] at hfields
  have hchars : p.yearFirst = p.year ++ '-' :: (p.month ++ '-' :: (p.day ++ [])) := by
    simp [yearFirst, List.intercalate_cons_cons]
  rw [hchars, Iso.day?, hfields]

theorem read?_yearFirst : (Iso.read? p.yearFirst).bind (·.toInstant?) = p.instant? := by
  have hascii : p.yearFirst.any (fun c => 128 ≤ c.toNat) = false := by
    simp only [List.any_eq_false, decide_eq_true_eq, Nat.not_le]
    intro c hc
    rcases isDigit_or_eq_of_mem_intercalate p.isDigit_of_mem_yearFirst hc with hdigit | rfl
    · exact Text.toNat_lt_of_isDigit hdigit
    · decide
  rw [Iso.read?, if_neg (by simp [hascii])]
  simp only [Option.bind_eq_bind, p.day?_yearFirst, instant?]
  split_ifs with hvalid
  · simp only [Option.bind_some, moment?_startOf hvalid, toInstant?_startOf hvalid]
  · rfl

theorem read?_monthFirst {separator : Char} (h : separator.isDigit = false) :
    Iso.read? (p.monthFirst separator) = none := by
  have hday : Iso.day? (p.monthFirst separator) = none := by
    refine Iso.day?_of_field?_eq_none ?_
    have hshort : p.month.length < 4 := by
      rw [p.length_month]
      decide
    rw [monthFirst, List.intercalate_cons_cons, List.append_assoc, List.singleton_append]
    exact Iso.field?_eq_none p.isDigit_month hshort (Iso.asciiDigit?_eq_none h)
  simp only [Iso.read?, Option.bind_eq_bind, hday]
  split_ifs <;> rfl

end DateDigits

namespace Value

theorem instant_ofList {cs : List Char} {separator : Char} {width next : Nat} {widths : List Nat}
    {groups : List (List Char)} {found : Option Instant}
    (hgroups : digitGroups? separator ((width + 1) :: next :: widths) cs = some groups)
    (hseparator : Text.isDigit separator = false) (hblank : ∀ c ∈ cs, Text.isBlank c = false)
    (hfound : ((Iso.read? cs).bind (·.toInstant?)).or (plainDate? cs) = found) :
    (Value.text (String.ofList cs)).instant = .ok found := by
  have htrim : Text.trim (String.ofList cs).toList = cs := by
    rw [String.toList_ofList]
    exact Text.trim_eq_self (fun c hc => hblank c (List.mem_of_mem_head? hc))
      fun c hc => hblank c (List.mem_of_getLast? hc)
  have hinteger : isIntegerText (Text.trim (String.ofList cs).toList) = false := by
    rw [htrim]
    exact isIntegerText_eq_false_of_groups hseparator hgroups
  have hne : Text.trim (String.ofList cs).toList ≠ [] := by
    obtain ⟨c, rest, rfl, -⟩ := exists_cons_of_digitGroups? hgroups
    rw [htrim]
    exact List.cons_ne_nil c rest
  rw [instant_of_trim_ne_nil hne, readInstant_of_not_integer hinteger, htrim, hfound]

variable (p : DateDigits)

theorem instant_yearFirst : (Value.text (String.ofList p.yearFirst)).instant = .ok p.instant? := by
  refine instant_ofList (p.digitGroups?_yearFirst [4, 2, 2]) rfl (fun c hc => ?_) ?_
  · rcases isDigit_or_eq_of_mem_intercalate p.isDigit_of_mem_yearFirst hc with hdigit | rfl
    · exact Text.isBlank_of_isDigit hdigit
    · rfl
  · rw [p.read?_yearFirst, p.plainDate?_yearFirst, Option.or_self]

theorem instant_monthFirst {separator : Char} (hdigit : Text.isDigit separator = false)
    (hseparator : separator.isDigit = false) (hblank : Text.isBlank separator = false)
    (hplain : plainDate? (p.monthFirst separator) = p.instant?) :
    (Value.text (String.ofList (p.monthFirst separator))).instant = .ok p.instant? := by
  refine instant_ofList (p.digitGroups?_monthFirst hseparator [2, 2, 4]) hdigit (fun c hc => ?_) ?_
  · rcases isDigit_or_eq_of_mem_intercalate p.isDigit_of_mem_monthFirst hc with hdigit | rfl
    · exact Text.isBlank_of_isDigit hdigit
    · exact hblank
  · rw [p.read?_monthFirst hseparator, hplain]
    rfl

/-- The plain forms of the same digits stand for the same: for the midnight that starts their day,
if it is one of the calendar, and for none otherwise. -/
theorem instant_plain : ∃ found : Option Instant,
    (found.isSome ↔ p.date.IsValid) ∧
    (∀ t, found = some t → t.IsInCalendar ∧ t.clock = ⟨p.date, 0, 0, 0, 0⟩) ∧
    (Value.text (String.ofList p.yearFirst)).instant = .ok found ∧
    (Value.text (String.ofList (p.monthFirst '/'))).instant = .ok found ∧
    (Value.text (String.ofList (p.monthFirst '-'))).instant = .ok found := by
  refine ⟨p.instant?, ?_, fun t ht => ?_, instant_yearFirst p,
    instant_monthFirst p rfl rfl rfl p.plainDate?_slashes,
    instant_monthFirst p rfl rfl rfl p.plainDate?_hyphens⟩
  · unfold DateDigits.instant?
    split_ifs with hvalid <;> simp [hvalid]
  · obtain ⟨hvalid, ⟨⟩⟩ := Option.ite_none_right_eq_some.mp ht
    exact ⟨Instant.isInCalendar_startOf hvalid, Instant.clock_startOf hvalid⟩

/-- The 29th of February in 2024 and in 2023. -/
theorem instant_plain_leapDay :
    let leap : DateDigits := ⟨⟨['2', '0', '2', '4'], ['0', '2'], ['2', '9']⟩, rfl, rfl, rfl,
      List.all_eq_true.mp rfl, List.all_eq_true.mp rfl, List.all_eq_true.mp rfl⟩
    let other : DateDigits := ⟨⟨['2', '0', '2', '3'], ['0', '2'], ['2', '9']⟩, rfl, rfl, rfl,
      List.all_eq_true.mp rfl, List.all_eq_true.mp rfl, List.all_eq_true.mp rfl⟩
    (leap.date.IsValid ∧ ¬other.date.IsValid) ∧
      String.ofList (leap.monthFirst '/') = "02/29/2024" ∧
      (Value.text "02/29/2024").instant = .ok (some ⟨1709164800000000⟩) ∧
      String.ofList other.yearFirst = "2023-02-29" ∧
      (Value.text "2023-02-29").instant = .ok none := by
  intro leap other
  have hleap : leap.date.IsValid := by decide
  have hother : ¬other.date.IsValid := by decide
  obtain ⟨found, hvalid, hclock, -, hslashes, -⟩ := instant_plain leap
  obtain ⟨found', hvalid', -, hyear, -, -⟩ := instant_plain other
  obtain rfl : found' = none := by
    simpa [hother] using hvalid'
  obtain ⟨t, rfl⟩ := Option.isSome_iff_exists.mp (hvalid.mpr hleap)
  obtain ⟨hcalendar, hshown⟩ := hclock t rfl
  obtain rfl : t = ⟨1709164800000000⟩ := by
    have hmicros := hcalendar.micros_clock
    rw [hshown] at hmicros
    exact congrArg Instant.mk (hmicros.symm.trans (by decide))
  exact ⟨⟨hleap, hother⟩, rfl, hslashes, rfl, hyear⟩

end Value

end Timeline
