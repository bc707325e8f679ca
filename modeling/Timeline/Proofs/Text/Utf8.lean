import Mathlib.Tactic.SplitIfs
import Timeline.Text.Search
import Timeline.Text.Utf8

/-! # Texts as bytes

Decoding the UTF-8 form of a text gives the text, with all its line ends if it holds no carriage
return.
-/

namespace Timeline

namespace Utf8

variable {n : Nat}

theorem toNat_byte (h : n < 256) : n.toUInt8.toNat = n := by
  simp [Nat.toUInt8, Nat.mod_eq_of_lt h]

theorem within?_byte {low high : Nat} (h : n < 256) (hlow : low ≤ n) (hhigh : n ≤ high) :
    within? low high n.toUInt8 = some (n % 64) := by
  rw [within?, toNat_byte h, if_pos ⟨hlow, hhigh⟩]

theorem within?_last (n : Nat) : within? 0x80 0xBF (0x80 + n % 64).toUInt8 = some (n % 64) := by
  have hbits : (0x80 + n % 64) % 64 = n % 64 := by omega
  rw [within?_byte (by omega) (by omega) (by omega), hbits]

theorem lead?_three (hlow : 0x800 ≤ n) (hhigh : n < 0x10000)
    (hvalid : n < 0xD800 ∨ 0xDFFF < n) : ∃ low high,
    lead? (0xE0 + n / 4096).toUInt8 = some (3, low, high) ∧
      low ≤ 0x80 + n / 64 % 64 ∧ 0x80 + n / 64 % 64 ≤ high := by
  simp only [lead?, toNat_byte (show 0xE0 + n / 4096 < 256 by omega)]
  split_ifs <;> first | omega | exact ⟨_, _, rfl, by omega, by omega⟩

theorem lead?_four (hlow : 0x10000 ≤ n) (hhigh : n < 0x110000) : ∃ low high,
    lead? (0xF0 + n / 262144).toUInt8 = some (4, low, high) ∧
      low ≤ 0x80 + n / 4096 % 64 ∧ 0x80 + n / 4096 % 64 ≤ high := by
  simp only [lead?, toNat_byte (show 0xF0 + n / 262144 < 256 by omega)]
  split_ifs <;> first | omega | exact ⟨_, _, rfl, by omega, by omega⟩

section Sequences

variable {b b₁ b₂ b₃ : UInt8} {low high m₁ m₂ m₃ : Nat} (rest : List UInt8)

theorem decodeFirst_two (hlead : lead? b = some (2, low, high))
    (h₁ : within? low high b₁ = some m₁) :
    decodeFirst b (b₁ :: rest) = .ok (Char.ofNat ((b.toNat - 0xC0) * 64 + m₁), 2) := by
  simp [decodeFirst, hlead, h₁]

theorem decodeFirst_three (hlead : lead? b = some (3, low, high))
    (h₁ : within? low high b₁ = some m₁) (h₂ : within? 0x80 0xBF b₂ = some m₂) :
    decodeFirst b (b₁ :: b₂ :: rest) =
      .ok (Char.ofNat (((b.toNat - 0xE0) * 64 + m₁) * 64 + m₂), 3) := by
  simp [decodeFirst, hlead, h₁, h₂]

theorem decodeFirst_four (hlead : lead? b = some (4, low, high))
    (h₁ : within? low high b₁ = some m₁) (h₂ : within? 0x80 0xBF b₂ = some m₂)
    (h₃ : within? 0x80 0xBF b₃ = some m₃) :
    decodeFirst b (b₁ :: b₂ :: b₃ :: rest) =
      .ok (Char.ofNat ((((b.toNat - 0xF0) * 64 + m₁) * 64 + m₂) * 64 + m₃), 4) := by
  simp [decodeFirst, hlead, h₁, h₂, h₃]

end Sequences

/-- The bytes of a character are read as this character, whatever follows. -/
theorem decodeFirst_encodeChar (c : Char) (rest : List UInt8) : ∃ b tail,
    encodeChar c = b :: tail ∧ decodeFirst b (tail ++ rest) = .ok (c, tail.length + 1) := by
  have hvalid : c.toNat < 0xD800 ∨ 0xDFFF < c.toNat ∧ c.toNat < 0x110000 := c.valid
  have hchar : Char.ofNat c.toNat = c := Char.ofNat_toNat c
  unfold encodeChar
  dsimp only
  generalize c.toNat = n at hvalid hchar
  split_ifs with hone htwo hthree
  · refine ⟨_, _, rfl, ?_⟩
    have hfirst : n.toUInt8.toNat = n := toNat_byte (by omega)
    have hlead : lead? n.toUInt8 = some (1, 0, 0) := by rw [lead?, hfirst, if_pos hone]
    simp only [decodeFirst, hlead, hfirst, hchar]
    rfl
  · refine ⟨_, _, rfl, ?_⟩
    have hfirst : (0xC0 + n / 64).toUInt8.toNat = 0xC0 + n / 64 := toNat_byte (by omega)
    have hlead : lead? (0xC0 + n / 64).toUInt8 = some (2, 0x80, 0xBF) := by
      simp only [lead?, hfirst]
      split_ifs <;> first | omega | rfl
    have hvalue : (0xC0 + n / 64 - 0xC0) * 64 + n % 64 = n := by omega
    have hdecode := decodeFirst_two rest hlead (within?_last n)
    rwa [hfirst, hvalue, hchar] at hdecode
  · refine ⟨_, _, rfl, ?_⟩
    obtain ⟨low, high, hlead, hlow, hhigh⟩ := lead?_three (n := n) (by omega) hthree (by omega)
    have hfirst : (0xE0 + n / 4096).toUInt8.toNat = 0xE0 + n / 4096 := toNat_byte (by omega)
    have hvalue :
        ((0xE0 + n / 4096 - 0xE0) * 64 + (0x80 + n / 64 % 64) % 64) * 64 + n % 64 = n := by
      omega
    have hdecode := decodeFirst_three rest hlead (within?_byte (by omega) hlow hhigh)
      (within?_last n)
    rwa [hfirst, hvalue, hchar] at hdecode
  · refine ⟨_, _, rfl, ?_⟩
    obtain ⟨low, high, hlead, hlow, hhigh⟩ := lead?_four (n := n) (by omega) (by omega)
    have hfirst : (0xF0 + n / 262144).toUInt8.toNat = 0xF0 + n / 262144 := toNat_byte (by omega)
    have hvalue : (((0xF0 + n / 262144 - 0xF0) * 64 + (0x80 + n / 4096 % 64) % 64) * 64 +
        n / 64 % 64) * 64 + n % 64 = n := by
      omega
    have hdecode := decodeFirst_four rest hlead (within?_byte (by omega) hlow hhigh)
      (within?_last (n / 64)) (within?_last n)
    rwa [hfirst, hvalue, hchar] at hdecode

theorem decodeFrom_skip (place : Nat) (skipped rest : List UInt8) :
    decodeFrom place skipped.length (skipped ++ rest) =
      decodeFrom (place + skipped.length) 0 rest := by
  induction skipped generalizing place with
  | nil => rfl
  | cons b skipped ih =>
    rw [List.cons_append, List.length_cons, decodeFrom, ih]
    congr 1
    omega

theorem decodeFrom_encode (place : Nat) (cs : List Char) :
    decodeFrom place 0 (encode cs) = .ok cs := by
  induction cs generalizing place with
  | nil => rfl
  | cons c cs ih =>
    obtain ⟨b, tail, hchar, hfirst⟩ := decodeFirst_encodeChar c (encode cs)
    have hencode : encode (c :: cs) = b :: (tail ++ encode cs) := by
      rw [encode, List.flatMap_cons, hchar]
      rfl
    rw [hencode, decodeFrom, hfirst]
    simp only [Nat.add_sub_cancel, decodeFrom_skip, ih]
    rfl

theorem decode_encode (cs : List Char) : decode (encode cs) = .ok cs :=
  decodeFrom_encode 0 cs

end Utf8

theorem Text.unifyLineEnds_of_notMem {cs : List Char} (h : '\r' ∉ cs) : unifyLineEnds cs = cs := by
  induction cs with
  | nil => rfl
  | cons c cs ih =>
    obtain ⟨hc, hcs⟩ := not_or.mp (mt List.mem_cons.mpr h)
    rw [unifyLineEnds.eq_def]
    split <;> grind

end Timeline
