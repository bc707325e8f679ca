import Timeline.Proofs.Time.Failure

/-! # Numerals as instants

A number stands for the instant that many milliseconds after the start of 1970. So does each
numeral of at least five digits, whatever its sign, its zeros and the blanks around it: it is too
long for a year, and without separators it is no plain date.
-/

namespace Timeline

/-- The sign in front of digits, if there is one. -/
inductive Sign where
  | none
  | plus
  | minus

namespace Sign

def chars : Sign → List Char
  | .none => []
  | .plus => ['+']
  | .minus => ['-']

def apply : Sign → Nat → Int
  | .minus, n => -n
  | _, n => n

end Sign

/-- An integer written in the digits `0` to `9`, with a sign or none and between blanks. -/
structure Numeral where
  before : List Char
  sign : Sign
  digits : List Char
  after : List Char
  isBlank_before : ∀ c ∈ before, Text.isBlank c = true
  isDigit_digits : ∀ c ∈ digits, c.isDigit = true
  isBlank_after : ∀ c ∈ after, Text.isBlank c = true

theorem plainDate?_eq_none_of_isIntegerText {cs : List Char} (h : isIntegerText cs = true) :
    plainDate? cs = none := by
  have hgroups : ∀ {separator : Char} {width next : Nat} {widths : List Nat},
      Text.isDigit separator = false →
      digitGroups? separator ((width + 1) :: next :: widths) cs = none := by
    intro separator width next widths hseparator
    refine Option.eq_none_iff_forall_ne_some.mpr fun groups hsome => ?_
    cases h.symm.trans (isIntegerText_eq_false_of_groups hseparator hsome)
  have hyear : digitGroups? '-' [4, 2, 2] cs = none := hgroups rfl
  have hslash : digitGroups? '/' [2, 2, 4] cs = none := hgroups rfl
  have hhyphen : digitGroups? '-' [2, 2, 4] cs = none := hgroups rfl
  simp [plainDate?, yearFirst?, monthFirst?, hyear, hslash, hhyphen]

namespace Numeral

def chars (t : Numeral) : List Char :=
  t.sign.chars ++ t.digits

def text (t : Numeral) : String :=
  String.ofList (t.before ++ t.chars ++ t.after)

def number (t : Numeral) : Int :=
  t.sign.apply (Nat.ofDigitChars 10 t.digits 0)

theorem trim_text (t : Numeral) : Text.trim t.text.toList = t.chars := by
  have hchars : ∀ c ∈ t.chars, Text.isBlank c = false := by
    intro c hc
    rcases List.mem_append.mp hc with hc | hc
    · cases hsign : t.sign <;> simp_all [Sign.chars] <;> rfl
    · exact Text.isBlank_of_isDigit (t.isDigit_digits c hc)
  rw [text, String.toList_ofList]
  exact Text.trim_surrounded t.isBlank_before hchars t.isBlank_after

section Digits

variable {t : Numeral} (hne : t.digits ≠ [])

include hne

theorem signPart_chars : ∃ negative, signPart t.chars = (negative, t.digits) ∧
    ∀ n : Nat, (if negative then -n else n : Int) = t.sign.apply n := by
  cases hsign : t.sign with
  | none =>
    obtain ⟨c, rest, hdigits⟩ := List.exists_cons_of_ne_nil hne
    have hc : c.isDigit = true := t.isDigit_digits c (hdigits ▸ List.mem_cons_self)
    refine ⟨false, ?_, fun n => rfl⟩
    rw [chars, hsign, hdigits]
    exact signPart_of_isDigit (Text.isDigit_of_charIsDigit hc)
  | plus => exact ⟨false, by rw [chars, hsign]; rfl, fun n => rfl⟩
  | minus => exact ⟨true, by rw [chars, hsign]; rfl, fun n => rfl⟩

theorem isIntegerText_chars : isIntegerText t.chars = true := by
  obtain ⟨negative, hpart, -⟩ := signPart_chars hne
  have hall : t.digits.all Text.isDigit = true :=
    List.all_eq_true.mpr fun c hc => Text.isDigit_of_charIsDigit (t.isDigit_digits c hc)
  simp [isIntegerText, hpart, hall, hne]

theorem unsignedLength_chars : unsignedLength t.chars = t.digits.length := by
  obtain ⟨negative, hpart, -⟩ := signPart_chars hne
  rw [unsignedLength_eq (isIntegerText_chars hne), hpart]

theorem millisInstant_chars (h : t.digits.length ≤ Json.digitLimit) :
    millisInstant t.chars = .ok (Instant.ofMillis? t.number) := by
  obtain ⟨negative, hpart, happly⟩ := signPart_chars hne
  have hread : readNatural t.digits = .ok (Nat.ofDigitChars 10 t.digits 0) := by
    rw [readNatural, if_neg (Nat.not_lt.mpr h), Text.decimal_eq t.isDigit_digits]
  rw [millisInstant, if_pos (isIntegerText_chars hne)]
  simp only [hpart, hread, ok_bind, happly]
  rfl

end Digits

end Numeral

namespace Instant

/-- An instant that lies some milliseconds after the start of 1970, in the years 1 to 9999. -/
structure IsMillis (n : Int) (t : Instant) : Prop where
  micros : t.micros = (startOf ⟨1970, 1, 1⟩).micros + 1000 * n
  first : (startOf ⟨1, 1, 1⟩).micros ≤ t.micros
  last : t.micros < (startOf ⟨9999, 12, 31⟩).micros + microsPerDay

theorem ofMillis?_eq_some_iff {n : Int} {t : Instant} :
    ofMillis? n = some t ↔ t.IsMillis n := by
  have hstart : (startOf ⟨1970, 1, 1⟩).micros = 0 := by decide
  rw [ofMillis?, ofMicros?_eq_some_iff, isInCalendar_iff]
  constructor
  · rintro ⟨hmicros, hfirst, hlast⟩
    exact ⟨by omega, hfirst, hlast⟩
  · rintro ⟨hmicros, hfirst, hlast⟩
    exact ⟨by omega, hfirst, hlast⟩

end Instant

namespace Value

theorem instant_numeral {t : Numeral} (hlow : 5 ≤ t.digits.length)
    (hhigh : t.digits.length ≤ Json.digitLimit) :
    (Value.text t.text).instant = .ok (Instant.ofMillis? t.number) := by
  have hne : t.digits ≠ [] := by
    rintro hnil
    rw [hnil] at hlow
    cases hlow
  have hinteger := Numeral.isIntegerText_chars hne
  have hiso : isoInstant? t.chars = none := by
    have hlong : 4 < unsignedLength t.chars := by
      rw [Numeral.unsignedLength_chars hne]
      exact hlow
    simp [isoInstant?, hinteger, hlong]
  have htrim : Text.trim t.text.toList ≠ [] := by
    rw [t.trim_text]
    exact List.append_ne_nil_of_right_ne_nil _ hne
  rw [instant_of_trim_ne_nil htrim]
  simp only [readInstant, t.trim_text, hiso, Numeral.millisInstant_chars hne hhigh, ok_bind,
    plainDate?_eq_none_of_isIntegerText hinteger]
  cases Instant.ofMillis? t.number <;> rfl

theorem instant_int {n : Int} (h : n ≠ 0) :
    (Value.int n).instant = .ok (Instant.ofMillis? n) := by
  have htruthy : (Value.int n).truthy = true := by simpa [truthy] using h
  rw [instant, if_pos htruthy]

/-- A number but zero and all its numerals of 5 to 4300 digits stand for the same: for the instant
that many milliseconds after the start of 1970, and for none if it lies outside the years 1 to
9999. -/
theorem instant_millis (n : Int) : ∃ found : Option Instant,
    (∀ t, found = some t ↔ t.IsMillis n) ∧
    (∀ t : Numeral, t.number = n → 5 ≤ t.digits.length → t.digits.length ≤ 4300 →
      (Value.text t.text).instant = .ok found) ∧
    (n ≠ 0 → (Value.int n).instant = .ok found) := by
  refine ⟨Instant.ofMillis? n, fun t => Instant.ofMillis?_eq_some_iff, ?_, instant_int⟩
  rintro t rfl hlow hhigh
  exact instant_numeral hlow hhigh

/-- The last millisecond of the year 9999 with a sign, a zero and blanks, and the one behind it. -/
theorem instant_millis_last :
    let last : Numeral := ⟨[' '], .plus, ['0', '2', '5', '3', '4', '0', '2', '3', '0', '0', '7', '9',
      '9', '9', '9', '9'], ['\n'], List.all_eq_true.mp rfl, List.all_eq_true.mp rfl,
      List.all_eq_true.mp rfl⟩
    let past : Numeral := ⟨[], .none, ['2', '5', '3', '4', '0', '2', '3', '0', '0', '8', '0', '0',
      '0', '0', '0'], [], List.all_eq_true.mp rfl, List.all_eq_true.mp rfl,
      List.all_eq_true.mp rfl⟩
    (last.number = 253402300799999 ∧ 5 ≤ last.digits.length ∧ last.digits.length ≤ 4300) ∧
    (past.number = 253402300800000 ∧ 5 ≤ past.digits.length ∧ past.digits.length ≤ 4300) ∧
      (Value.text last.text).instant = .ok (some ⟨253402300799999000⟩) ∧
      (Value.int 253402300799999).instant = .ok (some ⟨253402300799999000⟩) ∧
      (Value.text past.text).instant = .ok none ∧
      (Value.int 253402300800000).instant = .ok none := by
  intro last past
  have hlast : last.number = 253402300799999 ∧ 5 ≤ last.digits.length ∧
      last.digits.length ≤ 4300 := by decide
  have hpast : past.number = 253402300800000 ∧ 5 ≤ past.digits.length ∧
      past.digits.length ≤ 4300 := by decide
  obtain ⟨found, hfound, hnumeral, hint⟩ := instant_millis 253402300799999
  obtain ⟨other, hother, hnumeral', hint'⟩ := instant_millis 253402300800000
  obtain rfl : found = some ⟨253402300799999000⟩ :=
    (hfound _).mpr ⟨by decide, by decide, by decide⟩
  obtain rfl : other = none := by
    refine Option.eq_none_iff_forall_ne_some.mpr fun t ht => ?_
    obtain ⟨hmicros, -, hend⟩ := (hother t).mp ht
    rw [hmicros] at hend
    revert hend
    decide
  exact ⟨hlast, hpast, hnumeral last hlast.1 hlast.2.1 hlast.2.2, hint (by decide),
    hnumeral' past hpast.1 hpast.2.1 hpast.2.2, hint' (by decide)⟩

end Value

end Timeline
