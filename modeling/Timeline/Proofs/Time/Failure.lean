import Timeline.Proofs.Text.Pieces
import Timeline.Proofs.Time.Reading
import Timeline.Proofs.Value.Document

/-! # Failing to read a date

Reading a value of JSON as a date fails exactly if the value is an integer text with too many
digits. Such a text does not look like a date.
-/

namespace Timeline

section Texts

variable {cs : List Char}

theorem ne_sign_of_isDigit {c : Char} (h : Text.isDigit c = true) : c ≠ '-' ∧ c ≠ '+' := by
  constructor
  · rintro rfl
    cases h
  · rintro rfl
    cases h

theorem signPart_of_isDigit {c : Char} (h : Text.isDigit c = true) :
    signPart (c :: cs) = (false, c :: cs) := by
  obtain ⟨hminus, hplus⟩ := ne_sign_of_isDigit h
  simp [signPart, hminus, hplus]

theorem unsignedLength_eq (h : isIntegerText cs = true) :
    unsignedLength cs = (signPart cs).2.length := by
  have hdigits : ∀ ds : List Char, ds.all Text.isDigit = true →
      ds.dropWhile (fun c => c = '+' || c = '-') = ds := by
    intro ds hds
    cases ds with
    | nil => rfl
    | cons d ds =>
      rw [List.all_cons, Bool.and_eq_true] at hds
      obtain ⟨hminus, hplus⟩ := ne_sign_of_isDigit hds.1
      simp [hminus, hplus]
  obtain ⟨-, hall⟩ := Bool.and_eq_true_iff.mp h
  have hrest := hdigits _ hall
  unfold unsignedLength
  unfold signPart at hrest ⊢
  split at hrest <;> simpa using congrArg List.length hrest

theorem exists_cons_of_digitGroups? {separator : Char} {width next : Nat} {widths : List Nat}
    {groups : List (List Char)}
    (h : digitGroups? separator ((width + 1) :: next :: widths) cs = some groups) :
    ∃ c rest, cs = c :: rest ∧ Text.isDigit c = true ∧ separator ∈ rest := by
  obtain ⟨⟨hwidths, hdigits⟩, -⟩ := Option.ite_none_right_eq_some.mp h
  have hjoin := Text.intercalate_splitAt separator cs
  obtain ⟨first, found, hfound, hfirst, hnext⟩ := List.map_eq_cons_iff.mp hwidths
  obtain ⟨second, others, rfl, -, -⟩ := List.map_eq_cons_iff.mp hnext
  obtain ⟨c, first, rfl⟩ := List.exists_cons_of_length_eq_add_one hfirst
  rw [hfound] at hjoin hdigits
  rw [List.intercalate_cons_cons] at hjoin
  simp only [List.all_cons, Bool.and_eq_true] at hdigits
  exact ⟨c, _, hjoin.symm, hdigits.1.1, by simp⟩

theorem isIntegerText_eq_false_of_digitGroups? {separator : Char} {width next length : Nat}
    {widths : List Nat} {groups : List (List Char)} (hseparator : Text.isDigit separator = false)
    (h : digitGroups? separator ((width + 1) :: next :: widths) (cs.take length) = some groups) :
    isIntegerText cs = false := by
  obtain ⟨c, rest, htake, hc, hmem⟩ := exists_cons_of_digitGroups? h
  have hcs : cs = c :: (rest ++ cs.drop length) := by
    rw [← List.cons_append, ← htake, List.take_append_drop]
  have hall : (rest ++ cs.drop length).all Text.isDigit = false :=
    List.all_eq_false.mpr ⟨separator, List.mem_append_left _ hmem, by simp [hseparator]⟩
  rw [hcs, isIntegerText, signPart_of_isDigit hc]
  simp [hall]

theorem isIntegerText_eq_false_of_groups {separator : Char} {width next : Nat}
    {widths : List Nat} {groups : List (List Char)} (hseparator : Text.isDigit separator = false)
    (h : digitGroups? separator ((width + 1) :: next :: widths) cs = some groups) :
    isIntegerText cs = false :=
  isIntegerText_eq_false_of_digitGroups? hseparator
    (show digitGroups? _ _ (cs.take cs.length) = _ by rwa [List.take_length])

theorem isIntegerText_eq_false_of_startsLikeDate (h : Value.startsLikeDate cs = true) :
    isIntegerText cs = false := by
  rcases Bool.or_eq_true_iff.mp h with h | h
  · unfold yearFirst? at h
    split at h
    · rename_i hgroups
      exact isIntegerText_eq_false_of_digitGroups? rfl hgroups
    · cases h
  · unfold monthFirst? at h
    split at h
    · rename_i hgroups
      exact isIntegerText_eq_false_of_digitGroups? rfl hgroups
    · cases h

end Texts

namespace Value

/-- A text that is an integer with too many digits. -/
inductive IsOverlong : Value → Failure → Prop
  | text {s : String} : isIntegerText (Text.trim s.toList) = true →
    Json.digitLimit < (signPart (Text.trim s.toList)).2.length →
    IsOverlong (.text s) (.tooManyDigits (signPart (Text.trim s.toList)).2.length)

variable {v : Value} {f : Failure}

theorem IsOverlong.isText (h : v.IsOverlong f) : v.isText = true := by
  cases h
  rfl

theorem exists_readInstant {s : String}
    (h : isIntegerText (Text.trim s.toList) = true →
      ¬Json.digitLimit < (signPart (Text.trim s.toList)).2.length) :
    ∃ t, readInstant s = .ok t := by
  obtain ⟨t, ht⟩ : ∃ t, millisInstant (Text.trim s.toList) = .ok t := by
    unfold millisInstant
    split
    · rename_i hinteger
      have hread : readNatural (signPart (Text.trim s.toList)).2 =
          .ok (Text.decimal (signPart (Text.trim s.toList)).2) := if_neg (h hinteger)
      dsimp only
      rw [hread]
      exact ⟨_, rfl⟩
    · exact ⟨none, rfl⟩
  unfold readInstant
  dsimp only
  rw [ht]
  split
  · exact ⟨_, rfl⟩
  · cases t <;> exact ⟨_, rfl⟩

theorem readInstant_eq_error_iff {s : String} :
    readInstant s = .error f ↔ (Value.text s).IsOverlong f := by
  by_cases h : isIntegerText (Text.trim s.toList) = true ∧
      Json.digitLimit < (signPart (Text.trim s.toList)).2.length
  · obtain ⟨hinteger, hlong⟩ := h
    have hmany : 4 < unsignedLength (Text.trim s.toList) := by
      rw [unsignedLength_eq hinteger]
      exact Nat.lt_trans (by decide) hlong
    have hread : readInstant s =
        .error (.tooManyDigits (signPart (Text.trim s.toList)).2.length) := by
      simp [readInstant, isoInstant?, millisInstant, readNatural, hinteger, hmany, hlong]
    rw [hread]
    constructor
    · rintro ⟨⟩
      exact .text hinteger hlong
    · rintro ⟨⟩
      rfl
  · obtain ⟨t, ht⟩ := exists_readInstant fun hinteger hlong => h ⟨hinteger, hlong⟩
    rw [ht]
    constructor
    · rintro ⟨⟩
    · rintro ⟨hinteger, hlong⟩
      exact absurd ⟨hinteger, hlong⟩ h

/-- Reading a value of JSON fails exactly at an integer with too many digits. -/
theorem instant_eq_error_iff (h : v.IsPlain) : v.instant = .error f ↔ v.IsOverlong f := by
  have hother : ∀ {w : Value}, w.isText = false → (∃ t, w.instant = .ok t) →
      (w.instant = .error f ↔ w.IsOverlong f) := by
    rintro w hkind ⟨t, ht⟩
    rw [ht]
    refine iff_of_false nofun fun hlong => ?_
    cases hkind.symm.trans hlong.isText
  cases v with
  | text s =>
    by_cases hs : s = ""
    · subst hs
      refine iff_of_false nofun ?_
      rintro ⟨hinteger, -⟩
      revert hinteger
      decide
    · have hread : (Value.text s).instant = readInstant s := by simp [instant, truthy, hs]
      rw [hread]
      exact readInstant_eq_error_iff
  | moment m => exact h.elim
  | day d => exact h.elim
  | _ =>
    refine hother rfl ?_
    unfold instant
    split <;> exact ⟨_, rfl⟩

theorem exists_instant (h : v.IsPlain) (hnone : ∀ f, ¬v.IsOverlong f) :
    ∃ t, v.instant = .ok t := by
  cases ht : v.instant with
  | error f => exact absurd ((instant_eq_error_iff h).mp ht) (hnone f)
  | ok t => exact ⟨t, rfl⟩

end Value

end Timeline
