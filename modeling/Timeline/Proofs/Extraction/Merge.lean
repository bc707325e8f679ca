import Mathlib.Data.List.Nodup
import Timeline.Summary

/-! # Merged entities

Merging keeps entities of the groups, and all of them exactly if their keys are distinct. Groups
without a key in common are merged each on its own.
-/

namespace Timeline

theorem Value.isText_iff {v : Value} : v.isText = true ↔ ∃ s, v = .text s := by
  cases v <;> simp [isText]

namespace Entity

theorem firstOfKey_sublist (seen : List Key) (entities : List Entity) :
    (firstOfKey seen entities).Sublist entities := by
  induction entities generalizing seen with
  | nil => exact .slnil
  | cons e rest ih =>
    unfold firstOfKey
    split
    · exact (ih seen).cons e
    · exact (ih _).cons_cons e

theorem mem_of_mem_firstOfKey {seen : List Key} {entities : List Entity} {e : Entity}
    (h : e ∈ firstOfKey seen entities) : e ∈ entities :=
  (firstOfKey_sublist seen entities).subset h

theorem mem_of_mem_merge {groups : List (List Entity)} {merged : List Entity} {e : Entity}
    (h : merge groups = .ok merged) (he : e ∈ merged) : ∃ group ∈ groups, e ∈ group := by
  unfold merge at h
  split at h
  · cases h
  · cases h
    exact List.mem_flatten.mp (mem_of_mem_firstOfKey he)

theorem Key.same_iff {j k : Key} (hfile : k.file.isText = true) (harray : k.array.isText = true) :
    j.same k = true ↔ j = k := by
  obtain ⟨file, array, id⟩ := j
  obtain ⟨file', array', id'⟩ := k
  obtain ⟨s, rfl⟩ := Value.isText_iff.mp hfile
  obtain ⟨t, rfl⟩ := Value.isText_iff.mp harray
  simp [Key.same, and_assoc]

theorem firstOfKey_eq_self_iff {seen : List Key} {entities : List Entity} :
    firstOfKey seen entities = entities ↔
      (∀ e ∈ entities, ∀ k ∈ seen, k.same e.key = false) ∧
        entities.Pairwise fun e f => e.key.same f.key = false := by
  induction entities generalizing seen with
  | nil => simp [firstOfKey]
  | cons e rest ih =>
    unfold firstOfKey
    split
    · rename_i hseen
      constructor
      · intro h
        have hlength := (firstOfKey_sublist seen rest).length_le
        rw [h] at hlength
        exact absurd hlength (Nat.not_succ_le_self _)
      · rintro ⟨hnew, -⟩
        obtain ⟨k, hk, hsame⟩ := List.any_eq_true.mp hseen
        rw [hnew e List.mem_cons_self k hk] at hsame
        cases hsame
    · rename_i hnew
      have hnew : ∀ k ∈ seen, k.same e.key = false := by simpa using hnew
      simp only [List.cons.injEq, true_and, ih, List.pairwise_cons, List.forall_mem_cons,
        List.mem_append, List.mem_singleton, or_imp, forall_and, forall_eq]
      tauto

/-- No entity of the first list has the key of one of the second. -/
def Apart (xs ys : List Entity) : Prop :=
  ∀ x ∈ xs, ∀ y ∈ ys, x.key.same y.key = false

theorem firstOfKey_congr {seen seen' : List Key} {entities : List Entity}
    (h : ∀ e ∈ entities, seen.any (·.same e.key) = seen'.any (·.same e.key)) :
    firstOfKey seen entities = firstOfKey seen' entities := by
  induction entities generalizing seen seen' with
  | nil => rfl
  | cons e rest ih =>
    obtain ⟨he, hrest⟩ := List.forall_mem_cons.mp h
    unfold firstOfKey
    rw [he]
    split
    · exact ih hrest
    · exact congrArg (List.cons e) (ih fun d hd => by simp only [List.any_append, hrest d hd])

theorem firstOfKey_append {xs ys : List Entity} (seen : List Key) (h : Apart xs ys) :
    firstOfKey seen (xs ++ ys) = firstOfKey seen xs ++ firstOfKey seen ys := by
  induction xs generalizing seen with
  | nil => rfl
  | cons x xs ih =>
    obtain ⟨hx, hxs⟩ := List.forall_mem_cons.mp h
    rw [List.cons_append, firstOfKey, firstOfKey]
    split
    · exact ih seen hxs
    · have hsame : firstOfKey (seen ++ [x.key]) ys = firstOfKey seen ys :=
        firstOfKey_congr fun y hy => by simp [hx y hy]
      rw [ih _ hxs, hsame, List.cons_append]

theorem firstOfKey_flatten {groups : List (List Entity)} (h : groups.Pairwise Apart) :
    firstOfKey [] groups.flatten = (groups.map (firstOfKey [])).flatten := by
  induction groups with
  | nil => rfl
  | cons group groups ih =>
    obtain ⟨hgroup, hgroups⟩ := List.pairwise_cons.mp h
    have hapart : Apart group groups.flatten := by
      intro x hx y hy
      obtain ⟨other, hother, hy⟩ := List.mem_flatten.mp hy
      exact hgroup other hother x hx y hy
    rw [List.flatten_cons, firstOfKey_append [] hapart, ih hgroups, List.map_cons,
      List.flatten_cons]

theorem merge_eq_ok_iff {groups : List (List Entity)} {merged : List Entity} :
    merge groups = .ok merged ↔
      (∀ group ∈ groups, ∀ e ∈ group, e.key.unhashable? = none) ∧
        merged = firstOfKey [] groups.flatten := by
  have hnone : groups.flatten.findSome? (fun e => e.key.unhashable?) = none ↔
      ∀ group ∈ groups, ∀ e ∈ group, e.key.unhashable? = none := by
    simp only [List.findSome?_eq_none_iff, List.mem_flatten, forall_exists_index, and_imp]
    exact ⟨fun h group hgroup e he => h e group hgroup he, fun h e group hgroup he =>
      h group hgroup e he⟩
  rw [← hnone]
  unfold merge
  cases groups.flatten.findSome? (fun e => e.key.unhashable?) <;> simp [eq_comm]

theorem merge_singleton_iff {entities : List Entity}
    (h : ∀ e ∈ entities, e.file.isText = true ∧ e.array.isText = true) :
    merge [entities] = .ok entities ↔ (entities.map (·.key)).Nodup := by
  have hhashable : ([entities].flatten).findSome? (fun e => e.key.unhashable?) = none := by
    rw [List.flatten_singleton, List.findSome?_eq_none_iff]
    intro e he
    obtain ⟨hfile, harray⟩ := h e he
    obtain ⟨s, hs⟩ := Value.isText_iff.mp hfile
    obtain ⟨t, ht⟩ := Value.isText_iff.mp harray
    rw [key, Key.unhashable?, hs, ht]
    rfl
  have hpairwise : (entities.map (·.key)).Nodup ↔
      entities.Pairwise fun e f => e.key.same f.key = false := by
    rw [List.Nodup, List.pairwise_map]
    constructor
    · intro hne
      refine hne.imp_of_mem fun {e f} _ hf hkeys => ?_
      obtain ⟨hfile, harray⟩ := h f hf
      exact Bool.eq_false_iff.mpr (mt (Key.same_iff hfile harray).mp hkeys)
    · intro hdiffer
      refine hdiffer.imp_of_mem fun {e f} _ hf hkeys => ?_
      obtain ⟨hfile, harray⟩ := h f hf
      exact mt (Key.same_iff hfile harray).mpr (Bool.eq_false_iff.mp hkeys)
  rw [merge, hhashable, Except.ok.injEq, List.flatten_singleton, firstOfKey_eq_self_iff, hpairwise]
  simp

end Entity

end Timeline
