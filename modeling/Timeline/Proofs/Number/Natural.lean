import Mathlib.Algebra.Ring.Nat
import Timeline.Number.Reading

/-! # Written natural numbers

The decimal digits of a natural number are digits for the reader of numbers, and reading them
gives the number back, as long as there are not more of them than are read. Zeros in front of them
change nothing but the width.
-/

namespace Timeline

namespace Text

theorem digitValue?_of_isDigit {c : Char} (h : c.isDigit = true) :
    digitValue? c = some (c.toNat - 48) := by
  have hc : 48 ≤ c.toNat ∧ c.toNat < 48 + 10 := by
    obtain ⟨hlow, hhigh⟩ := Char.isDigit_iff_toNat.mp h
    exact ⟨hlow, Nat.lt_succ_of_le hhigh⟩
  simp [digitValue?, digitZeros, hc]

theorem isDigit_of_charIsDigit {c : Char} (h : c.isDigit = true) : isDigit c = true := by
  simp [isDigit, digitValue?_of_isDigit h]

theorem isDigit_of_mem_toDigits {c : Char} {n : Nat} (h : c ∈ Nat.toDigits 10 n) :
    isDigit c = true :=
  isDigit_of_charIsDigit (Nat.isDigit_of_mem_toDigits (by decide) (by decide) h)

theorem foldl_digitValue {cs : List Char} (h : ∀ c ∈ cs, c.isDigit = true) (n : Nat) :
    cs.foldl (fun n c => 10 * n + digitValue c) n = Nat.ofDigitChars 10 cs n := by
  induction cs generalizing n with
  | nil => rfl
  | cons c cs ih =>
    have hc : digitValue c = c.toNat - '0'.toNat := by
      simp [digitValue, digitValue?_of_isDigit (h c List.mem_cons_self)]
    rw [List.foldl_cons, hc, Nat.ofDigitChars_cons]
    exact ih (fun d hd => h d (List.mem_cons_of_mem _ hd)) _

theorem decimal_eq {cs : List Char} (h : ∀ c ∈ cs, c.isDigit = true) :
    decimal cs = Nat.ofDigitChars 10 cs 0 :=
  foldl_digitValue h 0

@[simp] theorem decimal_toDigits (n : Nat) : decimal (Nat.toDigits 10 n) = n := by
  rw [decimal_eq, Nat.ofDigitChars_ten_toDigits]
  exact fun c hc => Nat.isDigit_of_mem_toDigits (by decide) (by decide) hc

variable {c : Char} {width n : Nat}

theorem isDigit_of_mem_decimalPadded (h : c ∈ decimalPadded width n) : c.isDigit = true := by
  unfold decimalPadded at h
  rcases List.mem_append.mp h with h | h
  · rw [List.eq_of_mem_replicate h]
    rfl
  · exact Nat.isDigit_of_mem_toDigits (by decide) (by decide) h

theorem length_decimalPadded (hwidth : 0 < width) (h : n < 10 ^ width) :
    (decimalPadded width n).length = width := by
  have := (Nat.length_toDigits_le_iff (by decide) hwidth).mpr h
  simp only [decimalPadded, List.length_append, List.length_replicate]
  omega

@[simp] theorem decimal_decimalPadded (width n : Nat) : decimal (decimalPadded width n) = n := by
  rw [decimal_eq fun _ => isDigit_of_mem_decimalPadded, decimalPadded, Nat.ofDigitChars_append,
    Nat.ofDigitChars_replicate_zero, Nat.mul_zero, Nat.ofDigitChars_ten_toDigits]

theorem decimalPadded_of_le (h : 10 ^ width ≤ n) :
    decimalPadded (width + 1) n = Nat.toDigits 10 n := by
  have hlong : ¬(Nat.toDigits 10 n).length ≤ width := by
    cases width with
    | zero => exact Nat.not_le.mpr Nat.length_toDigits_pos
    | succ width =>
      exact mt (Nat.length_toDigits_le_iff (by decide) (Nat.succ_pos _)).mp (Nat.not_lt.mpr h)
  rw [decimalPadded, show width + 1 - (Nat.toDigits 10 n).length = 0 by omega]
  rfl

theorem isAsciiDigit_of_isDigit (h : c.isDigit = true) : isAsciiDigit c = true := by
  simpa [isAsciiDigit, Char.isDigit, Char.le_def] using h

theorem isBlank_of_isDigit (h : c.isDigit = true) : isBlank c = false := by
  have : 48 ≤ c.toNat ∧ c.toNat ≤ 57 := Char.isDigit_iff_toNat.mp h
  simp [isBlank]
  omega

theorem toNat_lt_of_isDigit (h : c.isDigit = true) : c.toNat < 128 :=
  Nat.lt_of_le_of_lt (Char.isDigit_iff_toNat.mp h).2 (by decide)

end Text

theorem readNatural_toDigits {n : Nat} (h : (Nat.toDigits 10 n).length ≤ Json.digitLimit) :
    readNatural (Nat.toDigits 10 n) = .ok n := by
  rw [readNatural, if_neg (Nat.not_lt.mpr h), Text.decimal_toDigits]

theorem naturalText_injective : Function.Injective naturalText := by
  intro m n h
  have hdigits := congrArg Text.decimal (String.ofList_inj.mp h)
  rwa [Text.decimal_toDigits, Text.decimal_toDigits] at hdigits

end Timeline
