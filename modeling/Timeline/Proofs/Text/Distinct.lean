import Mathlib.Data.List.Nodup

/-! # Texts without repetitions

Texts that are added one after the other, each only if it is new, are distinct, and none of them is
lost.
-/

namespace Timeline.Text

variable {found texts : List String} {s : String}

/-- Some texts with one more, unless it is among them. -/
def addNew (found : List String) (s : String) : List String :=
  if found.contains s then found else found ++ [s]

theorem mem_addNew {t : String} : t ∈ addNew found s ↔ t ∈ found ∨ t = s := by
  unfold addNew
  split
  · rename_i hs
    constructor
    · exact .inl
    · rintro (ht | rfl)
      · exact ht
      · exact List.contains_iff_mem.mp hs
  · rw [List.mem_append, List.mem_singleton]

theorem nodup_addNew (h : found.Nodup) (s : String) : (addNew found s).Nodup := by
  unfold addNew
  split
  · exact h
  · rename_i hs
    rw [List.contains_iff_mem] at hs
    exact List.nodup_append_comm.mp (List.nodup_cons.mpr ⟨hs, h⟩)

theorem mem_foldl_addNew : s ∈ texts.foldl addNew found ↔ s ∈ found ∨ s ∈ texts := by
  induction texts generalizing found with
  | nil => simp
  | cons t texts ih => rw [List.foldl_cons, ih, mem_addNew, List.mem_cons, or_assoc]

theorem nodup_foldl_addNew (h : found.Nodup) (texts : List String) :
    (texts.foldl addNew found).Nodup := by
  induction texts generalizing found with
  | nil => exact h
  | cons t texts ih => exact ih (nodup_addNew h t)

end Timeline.Text
