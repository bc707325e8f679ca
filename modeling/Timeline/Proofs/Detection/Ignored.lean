import Timeline.Proofs.Detection.Failure

/-! # Fields that are no dates

A field whose value is no date has no part in the search for a start and an end, wherever it stands
and whatever its key, as long as no other key is the same in lower case. With it and without it the
search takes the same way: it finds the same fields, or fails alike.
-/

namespace Timeline

namespace Fields

variable {before behind : Fields} {k : String} {v : Value}

section Looks

variable (hv : v.looksLikeDate = .ok false)

include hv

theorem partialMatchesOf_insert (keyword : String) (found : List String) :
    partialMatchesOf keyword found (before ++ (k, v) :: behind) =
      partialMatchesOf keyword found (before ++ behind) := by
  induction before generalizing found with
  | nil =>
    rw [List.nil_append, List.nil_append, partialMatchesOf, hv]
    have hpassed : (partialMatchesOf keyword found behind >>= pure) =
      partialMatchesOf keyword found behind := bind_pure _
    split
    · exact hpassed
    · exact hpassed
  | cons f rest ih =>
    obtain ⟨key, w⟩ := f
    rw [List.cons_append, List.cons_append, partialMatchesOf, partialMatchesOf]
    simp only [ih]

theorem partialMatches_insert (found keywords : List String) :
    partialMatches (before ++ (k, v) :: behind) found keywords =
      partialMatches (before ++ behind) found keywords := by
  induction keywords generalizing found with
  | nil => rfl
  | cons keyword rest ih =>
    rw [partialMatches, partialMatches, partialMatchesOf_insert hv]
    simp only [ih]

theorem firstDate?_insert (except : List String) :
    firstDate? except (before ++ (k, v) :: behind) = firstDate? except (before ++ behind) := by
  induction before with
  | nil =>
    rw [List.nil_append, List.nil_append, firstDate?, hv, ok_bind, Bool.and_false]
    rfl
  | cons f rest ih =>
    obtain ⟨key, w⟩ := f
    rw [List.cons_append, List.cons_append, firstDate?, firstDate?, ih]

theorem looksLikeDate_get?_insert (hk : k ∉ (before ++ behind).map (·.1)) (key : String) :
    (Value.orNull (get? (before ++ (k, v) :: behind) key)).looksLikeDate =
      (Value.orNull (get? (before ++ behind) key)).looksLikeDate := by
  rw [get?_append, get?_append, get?_cons]
  split
  · rename_i hkey
    subst hkey
    have hmissing := get?_eq_none_iff.mpr hk
    rw [get?_append] at hmissing
    obtain ⟨hbefore, -⟩ := Option.or_eq_none_iff.mp hmissing
    rw [hmissing, hbefore]
    exact hv
  · rfl

end Looks

section NoDate

variable (hv : v.instant = .ok none)
  (hk : ∀ f ∈ before ++ behind, Text.lower f.1 ≠ Text.lower k)

include hv hk

/-- If the field is the first one like a keyword, then it is the only one, and no date is lost. -/
theorem exactMatch?_insert (keywords : List String) :
    exactMatch? (before ++ (k, v) :: behind) keywords =
      exactMatch? (before ++ behind) keywords := by
  induction keywords with
  | nil => rfl
  | cons keyword rest ih =>
    by_cases hkeyword : Text.lower k = Text.lower keyword
    · have hnone : likeKeyword? (before ++ behind) keyword = none := by
        refine List.find?_eq_none.mpr fun f hf => ?_
        rw [decide_eq_true_iff, ← hkeyword]
        exact hk f hf
      have hsome : likeKeyword? (before ++ (k, v) :: behind) keyword = some (k, v) := by
        have hbefore := List.find?_eq_none.mpr fun f hf =>
          List.find?_eq_none.mp hnone f (List.mem_append_left behind hf)
        rw [likeKeyword?, List.find?_append, hbefore, List.find?_cons_of_pos]
        · rfl
        · exact decide_eq_true hkeyword
      rw [exactMatch?, exactMatch?, hnone, hsome]
      dsimp only
      rw [hv]
      exact ih
    · have hsame : likeKeyword? (before ++ (k, v) :: behind) keyword =
          likeKeyword? (before ++ behind) keyword := by
        rw [likeKeyword?, likeKeyword?, List.find?_append, List.find?_append,
          List.find?_cons_of_neg]
        exact mt of_decide_eq_true hkeyword
      rw [exactMatch?, exactMatch?, hsame, ih]

end NoDate

end Fields

namespace Value

/-- A field that is no date does not change which fields are found as the start and the end of an
object, if no other key is the same as its key in lower case. -/
theorem dates?_insert {before behind : Fields} {k : String} {v : Value} (hplain : v.IsPlain)
    (hv : v.instant = .ok none)
    (hk : ∀ f ∈ before ++ behind, Text.lower f.1 ≠ Text.lower k) :
    (object (before ++ (k, v) :: behind)).dates? = (object (before ++ behind)).dates? := by
  have hlooks := looksLikeDate_eq_false hplain hv
  have hkeys : k ∉ (before ++ behind).map (·.1) := by
    intro hmem
    obtain ⟨f, hf, rfl⟩ := List.mem_map.mp hmem
    exact hk f hf rfl
  rw [dates?_eq, dates?_eq]
  unfold Fields.dates?
  simp only [fields, Fields.partialMatches_insert hlooks, Fields.exactMatch?_insert hv hk,
    Fields.firstDate?_insert hlooks, Fields.looksLikeDate_get?_insert hlooks hkeys]

/-- A text under the first of all keywords, between a start and an end. -/
theorem dates?_insert_keyword :
    let before : Fields := [("begin", .text "2024-01-01")]
    let behind : Fields := [("dueDate", .text "2024-02-01")]
    (text "soon").instant = .ok none ∧
      (∀ f ∈ before ++ behind, Text.lower f.1 ≠ Text.lower "STARTDATE") ∧
      (object (before ++ ("STARTDATE", text "soon") :: behind)).dates? =
        .ok (some ⟨"begin", "dueDate"⟩) := by
  intro before behind
  have hplain : (text "soon").IsPlain := trivial
  have hv : (text "soon").instant = .ok none := rfl
  have hk : ∀ f ∈ before ++ behind, Text.lower f.1 ≠ Text.lower "STARTDATE" := by decide +kernel
  exact ⟨hv, hk, (dates?_insert hplain hv hk).trans rfl⟩

end Value

end Timeline
