import Timeline.Proofs.Number.Natural
import Timeline.Proofs.Time.Calendar
import Timeline.Time.Iso

/-! # Written instants in ISO 8601

The reader of ISO 8601 takes the text of an instant whose year has four digits, and finds the
instant at the start of the millisecond. In the text of a shorter year it finds nothing.
-/

namespace Timeline

namespace Iso

section Fields

variable {width n : Nat} {c : Char} {ds rest : List Char}

theorem asciiDigit?_of_isDigit (h : c.isDigit = true) :
    Text.asciiDigit? c = some (c.toNat - 48) := by
  have hc := (Text.isAsciiDigit_iff c).mp (Text.isAsciiDigit_of_isDigit h)
  rw [Text.asciiDigit?, if_pos hc]

theorem asciiDigit?_eq_none (h : c.isDigit = false) : Text.asciiDigit? c = none := by
  refine if_neg fun hc => ?_
  cases h.symm.trans (Char.isDigit_iff_toNat.mpr hc)

theorem field?_digits (h : ∀ c ∈ ds, c.isDigit = true) (rest : List Char) :
    field? ds.length (ds ++ rest) = some (Text.decimal ds, rest) := by
  rw [Text.decimal, Text.foldl_digitValue h]
  induction ds with
  | nil => rfl
  | cons c ds ih =>
    obtain ⟨hc, hds⟩ := List.forall_mem_cons.mp h
    rw [Nat.ofDigitChars_cons, Nat.ofDigitChars_eq_ofDigitChars_zero]
    simp [field?, asciiDigit?_of_isDigit hc, ih hds, Nat.mul_comm]

theorem field?_decimalPadded (hwidth : 0 < width) (h : n < 10 ^ width) (rest : List Char) :
    field? width (Text.decimalPadded width n ++ rest) = some (n, rest) := by
  have hdigits : ∀ c ∈ Text.decimalPadded width n, c.isDigit = true :=
    fun _ => Text.isDigit_of_mem_decimalPadded
  have hfield := field?_digits hdigits rest
  rwa [Text.length_decimalPadded hwidth h, Text.decimal_decimalPadded] at hfield

theorem field?_eq_none (h : ∀ c ∈ ds, c.isDigit = true) (hlength : ds.length < width)
    (hc : Text.asciiDigit? c = none) : field? width (ds ++ c :: rest) = none := by
  induction ds generalizing width with
  | nil =>
    obtain ⟨width, rfl⟩ := Nat.exists_eq_add_of_lt hlength
    simp [field?, hc]
  | cons d ds ih =>
    obtain ⟨hd, hds⟩ := List.forall_mem_cons.mp h
    cases width with
    | zero => cases hlength
    | succ width =>
      simp [field?, asciiDigit?_of_isDigit hd, ih hds (Nat.lt_of_succ_lt_succ hlength)]

end Fields

variable {d : Date} {c : Clock} {rest : List Char}

theorem calendarFields?_digits {year month day : List Char} (hyear : year.length = 4)
    (hmonth : month.length = 2) (hday : day.length = 2) (hyears : ∀ c ∈ year, c.isDigit = true)
    (hmonths : ∀ c ∈ month, c.isDigit = true) (hdays : ∀ c ∈ day, c.isDigit = true)
    (rest : List Char) : calendarFields? (year ++ '-' :: (month ++ '-' :: (day ++ rest))) =
      some (⟨Text.decimal year, Text.decimal month, Text.decimal day⟩, rest) := by
  have hyear' := hyear ▸ field?_digits hyears
  have hmonth' := hmonth ▸ field?_digits hmonths
  have hday' := hday ▸ field?_digits hdays
  simp [calendarFields?, hyear', hyphen, hmonth', hday']

theorem calendarFields?_text (hyear : 1000 ≤ d.year) (h : d.IsValid) (rest : List Char) :
    calendarFields? (Nat.toDigits 10 d.year ++ d.monthDayText ++ rest) = some (d, rest) := by
  obtain ⟨⟨-, hlast⟩, ⟨-, hmonth⟩, -⟩ := id h
  have hday := h.dayOfMonth_le
  have hfour : Text.decimalPadded 4 d.year = Nat.toDigits 10 d.year :=
    Text.decimalPadded_of_le hyear
  have hfields := calendarFields?_digits
    (Text.length_decimalPadded (by decide) (show d.year < 10 ^ 4 by omega))
    (Text.length_decimalPadded (by decide) (show d.month < 10 ^ 2 by omega))
    (Text.length_decimalPadded (by decide) (show d.dayOfMonth < 10 ^ 2 by omega))
    (fun _ => Text.isDigit_of_mem_decimalPadded) (fun _ => Text.isDigit_of_mem_decimalPadded)
    (fun _ => Text.isDigit_of_mem_decimalPadded) rest
  rw [← hfour, Date.monthDayText]
  simpa using hfields

theorem day?_text (hyear : 1000 ≤ d.year) (h : d.IsValid) (rest : List Char) :
    day? (Nat.toDigits 10 d.year ++ d.monthDayText ++ rest) = some (d.day, rest) := by
  simp only [day?, calendarFields?_text hyear h, if_pos h]

theorem day?_of_field?_eq_none {cs : List Char} (h : field? 4 cs = none) : day? cs = none := by
  simp [day?, calendarFields?, h]

theorem day?_eq_none (hyear : d.year < 1000) (rest : List Char) :
    day? (Nat.toDigits 10 d.year ++ d.monthDayText ++ rest) = none := by
  have hlength : (Nat.toDigits 10 d.year).length < 4 :=
    Nat.lt_succ_of_le ((Nat.length_toDigits_le_iff (by decide) (by decide)).mpr hyear)
  refine day?_of_field?_eq_none ?_
  rw [Date.monthDayText, List.cons_append, List.append_assoc, List.cons_append]
  exact field?_eq_none (fun _ => Nat.isDigit_of_mem_toDigits (by decide) (by decide)) hlength rfl

section Times

variable (t : Time) (next : List Char → Option Time)

theorem orZone?_eq_next {c : Char} (h : startsZone c = false) :
    orZone? t next (c :: rest) = next (c :: rest) := by
  simp [orZone?, h]

theorem startsZone_of_isDigit {c : Char} (h : c.isDigit = true) : startsZone c = false := by
  simp only [startsZone, Bool.or_eq_false_iff, decide_eq_false_iff_not]
  refine ⟨⟨⟨?_, ?_⟩, ?_⟩, ?_⟩ <;> rintro rfl <;> cases h

theorem fraction?_text (t : Time) {millis : Nat} (h : millis < 1000) :
    fraction? t ('.' :: Text.decimalPadded 3 millis ++ ['Z']) =
      some { t with micro := millis * 1000, offset := some 0 } := by
  have hdigits : ∀ c ∈ Text.decimalPadded 3 millis, Text.isAsciiDigit c = true :=
    fun _ hc => Text.isAsciiDigit_of_isDigit (Text.isDigit_of_mem_decimalPadded hc)
  have hlength : (Text.decimalPadded 3 millis).length = 3 :=
    Text.length_decimalPadded (by decide) h
  have htake : (Text.decimalPadded 3 millis ++ ['Z']).takeWhile Text.isAsciiDigit =
      Text.decimalPadded 3 millis := by
    simp [List.takeWhile_append_of_pos hdigits, Text.isAsciiDigit]
  have hdrop : (Text.decimalPadded 3 millis ++ ['Z']).dropWhile Text.isAsciiDigit = ['Z'] := by
    simp [List.dropWhile_append_of_pos hdigits, Text.isAsciiDigit]
  have hempty : (Text.decimalPadded 3 millis).isEmpty = false := by
    cases hnil : Text.decimalPadded 3 millis with
    | nil => simp [hnil] at hlength
    | cons => rfl
  have hcounted : (Text.decimalPadded 3 millis).take 6 = Text.decimalPadded 3 millis :=
    List.take_of_length_le (by omega)
  simp [fraction?, htake, hdrop, hempty, hcounted, hlength, orZone?, startsZone, zone?]

theorem second?_text {second millis : Nat} (hsecond : second ≤ 59) (hmillis : millis < 1000) :
    second? t true (':' :: (Text.decimalPadded 2 second ++
      '.' :: Text.decimalPadded 3 millis ++ ['Z'])) =
      some { t with second := second, micro := millis * 1000, offset := some 0 } := by
  rw [List.append_assoc, second?]
  simp only [Option.bind_eq_bind, Option.bind_some,
    field?_decimalPadded Nat.two_pos (show second < 10 ^ 2 by omega)]
  rw [List.cons_append, orZone?_eq_next _ _ rfl, ← List.cons_append, fraction?_text _ hmillis]

theorem minute?_text {minute : Nat} (hminute : minute ≤ 59) (rest : List Char) :
    minute? t (':' :: (Text.decimalPadded 2 minute ++ ':' :: rest)) =
      second? { t with minute := minute } true (':' :: rest) := by
  rw [minute?]
  simp only [Option.bind_eq_bind, Option.bind_some,
    field?_decimalPadded Nat.two_pos (show minute < 10 ^ 2 by omega)]
  exact orZone?_eq_next _ _ rfl

theorem hour?_text {hour : Nat} (hhour : hour ≤ 23) (rest : List Char) :
    hour? t (Text.decimalPadded 2 hour ++ ':' :: rest) =
      minute? { t with hour := hour } (':' :: rest) := by
  rw [hour?]
  simp only [Option.bind_eq_bind, Option.bind_some,
    field?_decimalPadded Nat.two_pos (show hour < 10 ^ 2 by omega)]
  exact orZone?_eq_next _ _ rfl

end Times

def timeOf (c : Clock) : Time :=
  ⟨c.hour, c.minute, c.second, c.micro / 1000 * 1000, some 0⟩

theorem time?_text (hhour : c.hour ≤ 23) (hminute : c.minute ≤ 59) (hsecond : c.second ≤ 59)
    (hmicro : c.micro < 1000000) :
    time? (c.timeText ++ '.' :: Text.decimalPadded 3 (c.micro / 1000) ++ ['Z']) =
      some (timeOf c) := by
  have hmillis : c.micro / 1000 < 1000 := by omega
  obtain ⟨d, ds, hds⟩ := List.exists_cons_of_ne_nil (l := Text.decimalPadded 2 c.hour) (by
    rw [Ne, ← List.length_eq_zero_iff, Text.length_decimalPadded (by decide) (by omega)]
    decide)
  have hpadded : ∀ c' ∈ Text.decimalPadded 2 c.hour, c'.isDigit = true :=
    fun _ => Text.isDigit_of_mem_decimalPadded
  have hdigit : d.isDigit = true := hpadded d (hds ▸ List.mem_cons_self)
  have hcs : c.timeText ++ '.' :: Text.decimalPadded 3 (c.micro / 1000) ++ ['Z'] =
      Text.decimalPadded 2 c.hour ++ ':' :: (Text.decimalPadded 2 c.minute ++
        ':' :: (Text.decimalPadded 2 c.second ++
          '.' :: Text.decimalPadded 3 (c.micro / 1000) ++ ['Z'])) := by
    simp [Clock.timeText]
  rw [hcs, time?, if_neg (by simp; omega)]
  calc orZone? {} (hour? {}) _ = hour? {} _ := by
        rw [hds, List.cons_append, orZone?_eq_next _ _ (startsZone_of_isDigit hdigit)]
    _ = some (timeOf c) := by
        rw [← List.cons_append, ← hds, hour?_text _ hhour, minute?_text _ hminute,
          second?_text _ hsecond hmillis]
        rfl

theorem moment?_eq_some {day : Nat} {time : Time} {t : Instant} (htime : time.IsValid)
    (hwall : ((day : Int) - Date.epoch) * microsPerDay + time.micros = t.micros)
    (h : t.IsInCalendar) : moment? day time = some ⟨t.micros, time.offset⟩ := by
  rw [moment?, if_pos htime]
  simp only [hwall, h.ofMicros?_micros, Option.map_some]

theorem moment?_timeOf {t : Instant} (h : t.IsInCalendar) :
    moment? t.clock.date.day (timeOf t.clock) = some (Moment.ofInstant t.wholeMillis) := by
  obtain ⟨hhour, hminute, hsecond, -⟩ := t.clock_ranges
  have hvalid : (timeOf t.clock).IsValid := .inl ⟨hhour, hminute, hsecond⟩
  have hwall : ((t.clock.date.day : Int) - Date.epoch) * microsPerDay + (timeOf t.clock).micros =
      t.wholeMillis.micros := by
    rw [← h.wholeMillis.micros_clock, Instant.clock_wholeMillis]
    rfl
  exact moment?_eq_some hvalid hwall h.wholeMillis

end Iso

namespace Instant

variable {t : Instant}

theorem toList_text (t : Instant) : t.text.toList =
    Nat.toDigits 10 t.year ++ t.clock.date.monthDayText ++ 'T' :: (t.clock.timeText ++
      '.' :: Text.decimalPadded 3 (t.clock.micro / 1000) ++ ['Z']) := by
  simp [text, year, clock]

theorem isDigit_or_mark_of_mem_text {c : Char} (h : c ∈ t.text.toList) :
    c.isDigit = true ∨ c ∈ ['-', 'T', ':', '.', 'Z'] := by
  have hpadded : ∀ width n, c ∈ Text.decimalPadded width n → c.isDigit = true :=
    fun _ _ => Text.isDigit_of_mem_decimalPadded
  have hdigits : ∀ n, c ∈ Nat.toDigits 10 n → c.isDigit = true :=
    fun _ => Nat.isDigit_of_mem_toDigits (by decide) (by decide)
  simp only [toList_text, Date.monthDayText, Clock.timeText, List.mem_append, List.mem_cons,
    List.not_mem_nil, or_false] at h ⊢
  grind

theorem toNat_lt_of_mem_text {c : Char} (h : c ∈ t.text.toList) : c.toNat < 128 := by
  rcases isDigit_or_mark_of_mem_text h with hdigit | hmark
  · exact Text.toNat_lt_of_isDigit hdigit
  · have hall : ∀ c ∈ ['-', 'T', ':', '.', 'Z'], c.toNat < 128 := by simp
    exact hall c hmark

theorem read?_text (hyear : 1000 ≤ t.year) (h : t.IsInCalendar) :
    Iso.read? t.text.toList = some (Moment.ofInstant t.wholeMillis) := by
  obtain ⟨hhour, hminute, hsecond, hmicro⟩ := t.clock_ranges
  have hascii : t.text.toList.any (fun c => 128 ≤ c.toNat) = false := by
    simp only [List.any_eq_false, decide_eq_true_eq, Nat.not_le]
    exact fun c hc => toNat_lt_of_mem_text hc
  rw [Iso.read?, if_neg (by simp [hascii]), toList_text]
  simp only [Option.bind_eq_bind]
  rw [year, Iso.day?_text hyear h.isValid]
  simp only [Option.bind_some, Iso.time?_text hhour hminute hsecond hmicro]
  exact Iso.moment?_timeOf h

theorem read?_text_eq_none (hyear : t.year < 1000) : Iso.read? t.text.toList = none := by
  rw [Iso.read?, toList_text]
  simp only [Option.bind_eq_bind]
  rw [year, Iso.day?_eq_none hyear]
  split_ifs <;> rfl

end Instant

end Timeline
