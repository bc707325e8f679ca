import Mathlib.Data.List.Lemmas
import Timeline.Text.Search

/-! # Pieces of texts

The pieces of a text between the occurrences of a character, joined by it, are the text, and pieces
without the character are found again in the joined text.
-/

namespace Timeline.Text

variable {separator c : Char} {cs : List Char} {pieces : List (List Char)}

theorem splitAt_eq_splitOn (separator : Char) (cs : List Char) :
    splitAt separator cs = List.splitOn separator cs := by
  rw [List.splitOn_eq_splitOnP]
  induction cs with
  | nil => rfl
  | cons c cs ih =>
    rw [splitAt, List.splitOnP_cons_eq_if_modifyHead, ih]
    simp only [beq_iff_eq]
    split_ifs
    · rfl
    · cases hpieces : List.splitOnP (fun d => d == separator) cs with
      | nil => exact absurd hpieces (List.splitOnP_ne_nil _ cs)
      | cons piece rest => rfl

theorem splitAt_ne_nil (separator : Char) (cs : List Char) : splitAt separator cs ≠ [] := by
  rw [splitAt_eq_splitOn, List.splitOn_eq_splitOnP]
  exact List.splitOnP_ne_nil _ cs

theorem intercalate_splitAt (separator : Char) (cs : List Char) :
    [separator].intercalate (splitAt separator cs) = cs := by
  rw [splitAt_eq_splitOn, List.intercalate_splitOn]

theorem splitAt_intercalate (h : ∀ piece ∈ pieces, separator ∉ piece) (hne : pieces ≠ []) :
    splitAt separator ([separator].intercalate pieces) = pieces := by
  rw [splitAt_eq_splitOn, List.splitOn_intercalate separator h hne]

theorem splitAt_of_notMem (h : separator ∉ cs) : splitAt separator cs = [cs] := by
  have hone : splitAt separator ([separator].intercalate [cs]) = [cs] :=
    splitAt_intercalate (by simpa using h) (List.cons_ne_nil _ _)
  rwa [List.intercalate_singleton] at hone

theorem splitAt_append_cons (separator : Char) (before behind : List Char) :
    splitAt separator (before ++ separator :: behind) =
      splitAt separator before ++ splitAt separator behind := by
  induction before with
  | nil => simp [splitAt]
  | cons c before ih =>
    rw [List.cons_append, splitAt, splitAt, ih]
    obtain ⟨piece, rest, hpieces⟩ := List.exists_cons_of_ne_nil (splitAt_ne_nil separator before)
    split_ifs
    · rfl
    · simp only [hpieces, List.cons_append]

theorem mem_of_mem_intercalate {between : List Char} (h : c ∈ between.intercalate pieces) :
    c ∈ between ∨ ∃ piece ∈ pieces, c ∈ piece := by
  induction pieces with
  | nil => simp at h
  | cons piece rest ih =>
    cases rest with
    | nil =>
      rw [List.intercalate_singleton] at h
      exact .inr ⟨piece, List.mem_cons_self, h⟩
    | cons next rest =>
      rw [List.intercalate_cons_cons, List.mem_append, List.mem_append] at h
      rcases h with (h | h) | h
      · exact .inr ⟨piece, List.mem_cons_self, h⟩
      · exact .inl h
      · rcases ih h with h | ⟨found, hfound, h⟩
        · exact .inl h
        · exact .inr ⟨found, List.mem_cons_of_mem _ hfound, h⟩

theorem exists_mem_splitAt (h : c ∈ cs) (hc : c ≠ separator) :
    ∃ piece ∈ splitAt separator cs, c ∈ piece := by
  rw [← intercalate_splitAt separator cs] at h
  rcases mem_of_mem_intercalate h with h | h
  · exact absurd (List.mem_singleton.mp h) hc
  · exact h

theorem mem_of_mem_splitAt {piece : List Char} (h : piece ∈ splitAt separator cs) (hc : c ∈ piece) :
    c ∈ cs ∧ c ≠ separator := by
  induction cs generalizing piece with
  | nil =>
    obtain rfl := List.mem_singleton.mp h
    cases hc
  | cons d cs ih =>
    rw [splitAt] at h
    split at h
    · rcases List.mem_cons.mp h with rfl | h
      · cases hc
      · obtain ⟨hmem, hne⟩ := ih h hc
        exact ⟨List.mem_cons_of_mem d hmem, hne⟩
    · rename_i hd
      split at h
      · obtain rfl := List.mem_singleton.mp h
        obtain rfl := List.mem_singleton.mp hc
        exact ⟨List.mem_cons_self, hd⟩
      · rename_i first rest hsplit
        rcases List.mem_cons.mp h with rfl | h
        · rcases List.mem_cons.mp hc with rfl | hc
          · exact ⟨List.mem_cons_self, hd⟩
          · obtain ⟨hmem, hne⟩ := ih (hsplit ▸ List.mem_cons_self) hc
            exact ⟨List.mem_cons_of_mem d hmem, hne⟩
        · obtain ⟨hmem, hne⟩ := ih (hsplit ▸ List.mem_cons_of_mem first h) hc
          exact ⟨List.mem_cons_of_mem d hmem, hne⟩

theorem toList_join (separator : Char) (pieces : List (List Char)) :
    (join (String.singleton separator) (pieces.map String.ofList)).toList =
      [separator].intercalate pieces := by
  induction pieces with
  | nil => rfl
  | cons piece rest ih =>
    cases rest with
    | nil => simp [join]
    | cons next rest =>
      rw [List.intercalate_cons_cons, ← ih]
      simp [join]

theorem intercalate_sublist (between : List Char) {fewer : List (List Char)}
    (h : fewer.Sublist pieces) :
    (between.intercalate fewer).Sublist (between.intercalate pieces) := by
  induction h with
  | slnil => exact .slnil
  | @cons fewer pieces piece h ih =>
    refine ih.trans ?_
    cases pieces with
    | nil => simp
    | cons next rest =>
      rw [List.intercalate_cons_cons]
      exact List.sublist_append_right _ _
  | @cons_cons fewer pieces piece h ih =>
    cases fewer with
    | nil =>
      rw [List.intercalate_singleton]
      cases pieces with
      | nil => simp
      | cons next rest =>
        rw [List.intercalate_cons_cons, List.append_assoc]
        exact List.sublist_append_left _ _
    | cons first fewer =>
      cases pieces with
      | nil => cases h
      | cons next rest =>
        rw [List.intercalate_cons_cons, List.intercalate_cons_cons]
        exact ih.append_left _

end Timeline.Text
