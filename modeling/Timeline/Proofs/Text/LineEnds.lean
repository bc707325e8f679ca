import Timeline.Text.Search

/-! # Line ends

Unifying the line ends of a text changes nothing but its line ends: every other character stays at
the start of what is behind it.
-/

namespace Timeline.Text

variable {c : Char} {cs rest : List Char} {p : Char → Bool}

theorem unifyLineEnds_cons (h : c ≠ '\r') (cs : List Char) :
    unifyLineEnds (c :: cs) = c :: unifyLineEnds cs := by
  rw [unifyLineEnds.eq_def]
  split <;> simp_all

theorem unifyLineEnds_return (cs : List Char) :
    ∃ rest, unifyLineEnds ('\r' :: cs) = '\n' :: unifyLineEnds rest ∧
      (rest = cs ∨ cs = '\n' :: rest) := by
  rw [unifyLineEnds.eq_def]
  split <;> grind

theorem eq_cons_of_unifyLineEnds (hc : c ≠ '\n') (h : unifyLineEnds cs = c :: rest) :
    ∃ behind, cs = c :: behind ∧ unifyLineEnds behind = rest := by
  cases cs with
  | nil => cases h
  | cons d cs =>
    by_cases hd : d = '\r'
    · obtain ⟨behind, hbehind, -⟩ := unifyLineEnds_return cs
      rw [hd, hbehind] at h
      exact absurd (List.cons.inj h).1.symm hc
    · rw [unifyLineEnds_cons hd] at h
      obtain ⟨rfl, rfl⟩ := List.cons.inj h
      exact ⟨cs, rfl, rfl⟩

theorem unifyLineEnds_append {word : List Char} (h : '\r' ∉ word) (rest : List Char) :
    unifyLineEnds (word ++ rest) = word ++ unifyLineEnds rest := by
  induction word with
  | nil => rfl
  | cons c word ih =>
    obtain ⟨hc, hword⟩ := not_or.mp (mt List.mem_cons.mpr h)
    rw [List.cons_append, unifyLineEnds_cons (Ne.symm hc), ih hword, List.cons_append]

theorem eq_append_of_unifyLineEnds {word : List Char} (hword : '\n' ∉ word)
    (h : unifyLineEnds cs = word ++ rest) :
    ∃ behind, cs = word ++ behind ∧ unifyLineEnds behind = rest := by
  induction word generalizing cs with
  | nil => exact ⟨cs, rfl, h⟩
  | cons c word ih =>
    obtain ⟨hc, hword⟩ := not_or.mp (mt List.mem_cons.mpr hword)
    obtain ⟨behind, rfl, hbehind⟩ := eq_cons_of_unifyLineEnds (Ne.symm hc) h
    obtain ⟨behind, rfl, hrest⟩ := ih hword hbehind
    exact ⟨behind, rfl, hrest⟩

theorem unifyLineEnds_eq_nil_iff : unifyLineEnds cs = [] ↔ cs = [] := by
  constructor
  · intro h
    cases cs with
    | nil => rfl
    | cons c cs =>
      by_cases hc : c = '\r'
      · obtain ⟨behind, hbehind, -⟩ := unifyLineEnds_return cs
        rw [hc, hbehind] at h
        cases h
      · rw [unifyLineEnds_cons hc] at h
        cases h
  · rintro rfl
    rfl

theorem length_unifyLineEnds_le (cs : List Char) : (unifyLineEnds cs).length ≤ cs.length := by
  fun_induction unifyLineEnds cs with
  | case1 => exact Nat.le_refl 0
  | case2 cs ih =>
    simp only [List.length_cons]
    omega
  | case3 cs _ ih => exact Nat.succ_le_succ ih
  | case4 c cs _ _ ih => exact Nat.succ_le_succ ih

theorem takeWhile_unifyLineEnds (hreturn : p '\r' = false) (hline : p '\n' = false)
    (cs : List Char) : (unifyLineEnds cs).takeWhile p = cs.takeWhile p := by
  fun_induction unifyLineEnds cs with
  | case1 => rfl
  | case2 cs ih => simp [hreturn, hline]
  | case3 cs _ ih => simp [hreturn, hline]
  | case4 c cs _ _ ih => rw [List.takeWhile_cons, List.takeWhile_cons, ih]

theorem dropWhile_unifyLineEnds (h : p '\r' = p '\n') (cs : List Char) :
    (unifyLineEnds cs).dropWhile p = unifyLineEnds (cs.dropWhile p) := by
  fun_induction unifyLineEnds cs with
  | case1 => rfl
  | case2 cs ih =>
    cases hline : p '\n' with
    | true => simp [h, hline, ih]
    | false => simp [h, hline, unifyLineEnds]
  | case3 cs hnext ih =>
    cases hline : p '\n' with
    | true => simp [h, hline, ih]
    | false => simp [h, hline, unifyLineEnds]
  | case4 c cs _ hc ih =>
    rw [List.dropWhile_cons, List.dropWhile_cons]
    split
    · exact ih
    · exact (unifyLineEnds_cons hc cs).symm

end Timeline.Text
