import Mathlib.Tactic.SplitIfs
import Timeline.Text.Casing

/-! # Endings in lower case

Of the letters of ASCII only `k` is also the lower-case form of a character beyond ASCII, the sign
for Kelvin. So a text whose lower-case form ends in other characters of ASCII ends in these
characters itself, but for the case of its letters.
-/

namespace Timeline.Text

variable {c d : Char} {before cs front ending : List Char} {s : String}

/-- A character of ASCII that is the lower-case form of characters of ASCII only. -/
structure IsAsciiForm (d : Char) : Prop where
  pos : 0 < d.toNat
  ascii : d.toNat < 128
  ne : d ≠ 'k'

instance (d : Char) : Decidable (IsAsciiForm d) :=
  decidable_of_iff (0 < d.toNat ∧ d.toNat < 128 ∧ d ≠ 'k')
    ⟨fun ⟨pos, ascii, ne⟩ => ⟨pos, ascii, ne⟩, fun h => ⟨h.pos, h.ascii, h.ne⟩⟩

theorem lowerChar_of_ascii (h : c.toNat < 128) : lowerChar c = c.toLower := by
  have hall : ∀ n < 128, lowerChar (Char.ofNat n) = (Char.ofNat n).toLower := by decide
  rw [← Char.ofNat_toNat c]
  exact hall c.toNat h

theorem toNat_ofNat_or (n : Nat) : (Char.ofNat n).toNat = n ∨ (Char.ofNat n).toNat = 0 := by
  by_cases hvalid : n.isValidChar
  · left
    rw [Char.ofNat, dif_pos hvalid]
    rfl
  · right
    rw [Char.ofNat, dif_neg hvalid]
    rfl

/-- The forms of the capitals beyond ASCII lie beyond ASCII, but for that of the sign for Kelvin. -/
theorem lower?_beyond {run : CapitalRun} {n m : Nat} (hrun : run ∈ capitalRuns) (hn : 128 ≤ n)
    (h : run.lower? n = some m) : 128 ≤ m ∨ m = 'k'.toNat := by
  have hall : ∀ run ∈ capitalRuns, run.last < 128 ∨ 128 ≤ run.lower ∨
      run.lower = 'k'.toNat ∧ run.first = run.last := by decide +kernel
  unfold CapitalRun.lower? at h
  split at h
  · rename_i hrange
    cases h
    rcases hall run hrun with hlast | hlower | ⟨hlower, hone⟩ <;> omega
  · cases h

theorem toLower_eq_of_isAsciiForm (h : IsAsciiForm (lowerChar c)) : c.toLower = lowerChar c := by
  by_cases hascii : c.toNat < 128
  · exact (lowerChar_of_ascii hascii).symm
  exfalso
  unfold lowerChar at h
  rw [if_neg hascii] at h
  split at h
  · rename_i m hm
    obtain ⟨run, hrun, hlower⟩ := List.exists_of_findSome?_eq_some hm
    rcases lower?_beyond hrun (Nat.le_of_not_lt hascii) hlower with hbeyond | rfl
    · have hpos := h.pos
      have hsmall := h.ascii
      rcases toNat_ofNat_or m with hm | hm <;> omega
    · exact h.ne (Char.ofNat_toNat 'k')
  · exact hascii h.ascii

/-- The lower-case form of a character ends in one character, and if this is such a form, it is the
only one. -/
theorem exists_lowerFrom_cons (before : List Char) (c : Char) (cs : List Char) :
    ∃ first last, lowerFrom before (c :: cs) = first ++ last :: lowerFrom (c :: before) cs ∧
      (IsAsciiForm last → first = [] ∧ c.toLower = last) := by
  rw [lowerFrom]
  split_ifs with hsigma hend hdotted
  · exact ⟨[], 'ς', rfl, fun h => absurd h (by decide)⟩
  · exact ⟨[], 'σ', rfl, fun h => absurd h (by decide)⟩
  · exact ⟨['i'], '\u0307', rfl, fun h => absurd h (by decide)⟩
  · exact ⟨[], lowerChar c, rfl, fun h => ⟨rfl, toLower_eq_of_isAsciiForm h⟩⟩

theorem map_toLower_of_lowerFrom (h : ∀ d ∈ lowerFrom before cs, IsAsciiForm d) :
    cs.map Char.toLower = lowerFrom before cs := by
  induction cs generalizing before with
  | nil => rfl
  | cons c cs ih =>
    obtain ⟨first, last, hlower, hform⟩ := exists_lowerFrom_cons before c cs
    rw [hlower] at h ⊢
    obtain ⟨-, hrest⟩ := List.forall_mem_append.mp h
    obtain ⟨hlast, hrest⟩ := List.forall_mem_cons.mp hrest
    obtain ⟨rfl, hc⟩ := hform hlast
    rw [List.map_cons, hc, ih hrest]
    rfl

/-- Where the lower-case form ends in such forms, the text ends in the same letters. -/
theorem exists_ending_of_lowerFrom (h : lowerFrom before cs = front ++ ending)
    (hforms : ∀ d ∈ ending, IsAsciiForm d) :
    ∃ stem tail, cs = stem ++ tail ∧ tail.map Char.toLower = ending := by
  induction cs generalizing before front with
  | nil =>
    obtain ⟨-, rfl⟩ := List.append_eq_nil_iff.mp h.symm
    exact ⟨[], [], rfl, rfl⟩
  | cons c cs ih =>
    obtain ⟨first, last, hlower, hform⟩ := exists_lowerFrom_cons before c cs
    rw [hlower, List.append_eq_append_iff] at h
    -- the ending begins behind the form of the first character, or somewhere in this form
    have hwhole : ∀ middle, first = front ++ middle →
        ending = middle ++ last :: lowerFrom (c :: before) cs →
        (c :: cs).map Char.toLower = ending := by
      rintro middle hfirst rfl
      have hlast := hforms last (List.mem_append_right _ List.mem_cons_self)
      obtain ⟨hnil, -⟩ := hform hlast
      obtain ⟨-, rfl⟩ := List.append_eq_nil_iff.mp (hfirst.symm.trans hnil)
      have hsame : lowerFrom before (c :: cs) = last :: lowerFrom (c :: before) cs := by
        rw [hlower, hnil, List.nil_append]
      rw [List.nil_append, ← hsame] at hforms ⊢
      exact map_toLower_of_lowerFrom hforms
    rcases h with ⟨_ | ⟨d, middle⟩, hfront, hrest⟩ | ⟨middle, hfirst, hending⟩
    · refine ⟨[], c :: cs, rfl, hwhole [] ?_ hrest.symm⟩
      rw [hfront, List.append_nil, List.append_nil]
    · obtain ⟨-, hrest⟩ := List.cons.inj hrest
      obtain ⟨stem, tail, rfl, htail⟩ := ih hrest
      exact ⟨c :: stem, tail, rfl, htail⟩
    · exact ⟨[], c :: cs, rfl, hwhole middle hfirst hending⟩

theorem exists_ending_of_lower (h : ending <:+ (lower s).toList)
    (hforms : ∀ d ∈ ending, IsAsciiForm d) :
    ∃ stem tail, s.toList = stem ++ tail ∧ tail.map Char.toLower = ending := by
  obtain ⟨front, hfront⟩ := h
  rw [lower, String.toList_ofList] at hfront
  exact exists_ending_of_lowerFrom hfront.symm hforms

end Timeline.Text
