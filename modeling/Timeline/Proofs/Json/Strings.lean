import Mathlib.Tactic.SplitIfs
import Timeline.Json.Reader
import Timeline.Json.Writer

/-! # Written strings

A string that is written in JSON is read back, whatever characters it holds: as themselves, with a
backslash, as the escape of a code unit, or as the escapes of a surrogate pair.
-/

namespace Timeline

namespace Text

theorem hexDigit?_digitChar {n : Nat} (h : n < 16) : hexDigit? n.digitChar = some n := by
  have hall : ∀ m < 16, hexDigit? (Nat.digitChar m) = some m := by decide
  exact hall n h

theorem hexPadded_one {n : Nat} (h : n < 16) : hexPadded 1 n = [n.digitChar] := by
  simp [hexPadded, Nat.toDigits_of_lt_base h]

theorem hexPadded_succ {width : Nat} (hwidth : 0 < width) (n : Nat) :
    hexPadded (width + 1) n = hexPadded width (n / 16) ++ [(n % 16).digitChar] := by
  unfold hexPadded
  by_cases h : n < 16
  · have hzeros : List.replicate width '0' = List.replicate (width - 1) '0' ++ ['0'] := by
      rw [← List.replicate_succ', Nat.sub_add_cancel hwidth]
    rw [Nat.div_eq_of_lt h, Nat.mod_eq_of_lt h, Nat.toDigits_of_lt_base h, Nat.toDigits_zero]
    simp [hzeros]
  · rw [Nat.toDigits_of_base_le (by decide) (Nat.le_of_not_lt h)]
    simp

end Text

namespace Json

theorem hex4?_hexPadded {n : Nat} (h : n < 0x10000) :
    ∃ a b c d, Text.hexPadded 4 n = [a, b, c, d] ∧ hex4? a b c d = some n := by
  have hdigits : Text.hexPadded 4 n = [(n / 16 / 16 / 16).digitChar, (n / 16 / 16 % 16).digitChar,
      (n / 16 % 16).digitChar, (n % 16).digitChar] := by
    rw [Text.hexPadded_succ (by decide), Text.hexPadded_succ (by decide),
      Text.hexPadded_succ (by decide), Text.hexPadded_one (by omega)]
    rfl
  refine ⟨_, _, _, _, hdigits, ?_⟩
  unfold hex4?
  rw [Text.hexDigit?_digitChar (by omega), Text.hexDigit?_digitChar (by omega),
    Text.hexDigit?_digitChar (by omega), Text.hexDigit?_digitChar (by omega)]
  simp only [Option.bind_eq_bind, Option.bind_some, Option.pure_def, Option.some.injEq]
  omega

variable {whole rest : List Char}

theorem string_self {c : Char} (hbackslash : c ≠ '\\') (hquote : c ≠ '\x22')
    (hcontrol : 0x20 ≤ c.toNat) : string whole (c :: rest) = Read.cons c (string whole rest) := by
  rw [string.eq_def]
  split <;> grind

theorem string_simpleEscape {c e : Char} (h : simpleEscape? c = some e) :
    string whole ('\\' :: c :: rest) = Read.cons e (string whole rest) := by
  have hne : c ≠ 'u' := by
    rintro rfl
    cases h
  rw [string.eq_def]
  split <;> grind

/-- The escape of a code unit that is no first half of a pair, whatever follows. -/
theorem string_unitEscape {n : Nat} (h : n < 0x10000) (hhigh : isHighSurrogate n = false)
    (x : Char) : string whole (unitEscape n ++ x :: rest) =
      Read.cons (unitChar n) (string whole (x :: rest)) := by
  obtain ⟨a, b, c, d, hdigits, hn⟩ := hex4?_hexPadded h
  rw [unitEscape, hdigits]
  simp only [List.cons_append, List.nil_append]
  rw [string.eq_def]
  split <;> grind

theorem string_pairEscape {high low : Nat} (hhigh : isHighSurrogate high = true)
    (hlow : isLowSurrogate low = true) (x : Char) :
    string whole (unitEscape high ++ unitEscape low ++ x :: rest) =
      Read.cons (pairChar high low) (string whole (x :: rest)) := by
  have hhigh' : high < 0x10000 := by
    simp [isHighSurrogate] at hhigh
    omega
  have hlow' : low < 0x10000 := by
    simp [isLowSurrogate] at hlow
    omega
  obtain ⟨a, b, c, d, habcd, ha⟩ := hex4?_hexPadded hhigh'
  obtain ⟨e, f, g, h, hefgh, he⟩ := hex4?_hexPadded hlow'
  rw [unitEscape, unitEscape, habcd, hefgh]
  simp only [List.cons_append, List.nil_append]
  rw [string.eq_2, ha]
  simp [hhigh, he, hlow]

theorem not_surrogate (c : Char) :
    isHighSurrogate c.toNat = false ∧ isLowSurrogate c.toNat = false := by
  have hvalid : c.toNat < 0xD800 ∨ 0xDFFF < c.toNat ∧ c.toNat < 0x110000 := c.valid
  simp only [isHighSurrogate, isLowSurrogate, Bool.and_eq_false_iff, decide_eq_false_iff_not]
  omega

theorem unitChar_toNat (c : Char) : unitChar c.toNat = c := by
  obtain ⟨hhigh, hlow⟩ := not_surrogate c
  simp [unitChar, hhigh, hlow]

theorem pairChar_halves {c : Char} (h : 0x10000 ≤ c.toNat) :
    pairChar (0xD800 + (c.toNat - 0x10000) / 0x400) (0xDC00 + (c.toNat - 0x10000) % 0x400) = c := by
  have hsum : 0x10000 + (0xD800 + (c.toNat - 0x10000) / 0x400 - 0xD800) * 0x400 +
      (0xDC00 + (c.toNat - 0x10000) % 0x400 - 0xDC00) = c.toNat := by omega
  rw [pairChar, hsum, Char.ofNat_toNat]

theorem halves_surrogate (c : Char) :
    isHighSurrogate (0xD800 + (c.toNat - 0x10000) / 0x400) = true ∧
      isLowSurrogate (0xDC00 + (c.toNat - 0x10000) % 0x400) = true := by
  have hvalid : c.toNat < 0xD800 ∨ 0xDFFF < c.toNat ∧ c.toNat < 0x110000 := c.valid
  simp only [isHighSurrogate, isLowSurrogate, Bool.and_eq_true, decide_eq_true_eq]
  omega

/-- The ways to write a character. -/
inductive WrittenChar (c : Char) : List Char → Prop
  | simple {e : Char} : simpleEscape? e = some c → WrittenChar c ['\\', e]
  | self : c ≠ '\\' → c ≠ '\x22' → 0x20 ≤ c.toNat → WrittenChar c [c]
  | unit : c.toNat < 0x10000 → WrittenChar c (unitEscape c.toNat)
  | pair : 0x10000 ≤ c.toNat →
    WrittenChar c (unitEscape (0xD800 + (c.toNat - 0x10000) / 0x400) ++
      unitEscape (0xDC00 + (c.toNat - 0x10000) % 0x400))

theorem writtenChar_charText (ascii : Bool) (c : Char) : WrittenChar c (charText ascii c) := by
  unfold charText
  split_ifs with hquote hbackslash hn hr ht hb hf hcontrol hself hunit
  · exact .simple (by rw [hquote]; rfl)
  · exact .simple (by rw [hbackslash]; rfl)
  · exact .simple (by rw [hn]; rfl)
  · exact .simple (by rw [hr]; rfl)
  · exact .simple (by rw [ht]; rfl)
  · exact .simple (by rw [hb]; rfl)
  · exact .simple (by rw [hf]; rfl)
  · exact .unit (by omega)
  · exact .self hbackslash hquote (Nat.le_of_not_lt hcontrol)
  · exact .unit hunit
  · exact .pair (Nat.le_of_not_lt hunit)

theorem WrittenChar.string_eq {c : Char} {cs : List Char} (h : WrittenChar c cs) (x : Char) :
    string whole (cs ++ x :: rest) = Read.cons c (string whole (x :: rest)) := by
  cases h with
  | simple he => exact string_simpleEscape he
  | self hbackslash hquote hcontrol => exact string_self hbackslash hquote hcontrol
  | unit hunit => rw [string_unitEscape hunit (not_surrogate c).1, unitChar_toNat]
  | pair hpair =>
    obtain ⟨hhigh, hlow⟩ := halves_surrogate c
    rw [string_pairEscape hhigh hlow, pairChar_halves hpair]

theorem string_chars (ascii : Bool) (cs rest : List Char) :
    string whole (cs.flatMap (charText ascii) ++ '\x22' :: rest) = .ok (cs, rest) := by
  induction cs with
  | nil => simp [string]
  | cons c cs ih =>
    obtain ⟨x, tail, htail⟩ : ∃ x tail, cs.flatMap (charText ascii) ++ '\x22' :: rest = x :: tail :=
      List.exists_cons_of_ne_nil (by simp)
    rw [List.flatMap_cons, List.append_assoc, htail,
      (writtenChar_charText ascii c).string_eq, ← htail, ih]
    rfl

theorem string_stringText (ascii : Bool) (s : String) (rest : List Char) :
    ∃ body, stringText ascii s ++ rest = '\x22' :: body ∧
      ∀ whole, string whole body = .ok (s.toList, rest) := by
  refine ⟨s.toList.flatMap (charText ascii) ++ '\x22' :: rest, by simp [stringText], ?_⟩
  exact fun _ => string_chars ascii s.toList rest

end Json

end Timeline
