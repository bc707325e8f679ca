import Mathlib.Data.List.Nodup
import Mathlib.Data.List.Perm.Subperm
import Timeline.Value.Basic

/-! # Fields with distinct keys

Giving a field a value keeps the keys of fields distinct, and fields whose keys are distinct
already are taken over as they are. Of fields with one key the last one counts.
-/

namespace Timeline.Fields

variable {fields : Fields}

theorem keys_insert (k : String) (v : Value) (fields : Fields) :
    (insert k v fields).map (·.1) =
      if k ∈ fields.map (·.1) then fields.map (·.1) else fields.map (·.1) ++ [k] := by
  induction fields with
  | nil => rfl
  | cons f rest ih =>
    obtain ⟨j, w⟩ := f
    rw [insert]
    by_cases hj : j = k
    · simp [hj]
    · rw [if_neg hj, List.map_cons, ih]
      by_cases hk : k ∈ rest.map (·.1) <;> simp [hk, Ne.symm hj]

theorem nodup_insert (h : (fields.map (·.1)).Nodup) (k : String) (v : Value) :
    ((insert k v fields).map (·.1)).Nodup := by
  rw [keys_insert]
  split
  · exact h
  · rename_i hk
    exact List.nodup_append_comm.mp (List.nodup_cons.mpr ⟨hk, h⟩)

theorem nodup_insertAll (h : (fields.map (·.1)).Nodup) (new : Fields) :
    ((fields.insertAll new).map (·.1)).Nodup := by
  induction new generalizing fields with
  | nil => exact h
  | cons f rest ih => exact ih (nodup_insert h f.1 f.2)

theorem nodup_ofList (fields : Fields) : ((ofList fields).map (·.1)).Nodup := by
  have hnil : (([] : Fields).map (·.1)).Nodup := List.nodup_nil
  exact nodup_insertAll hnil fields

theorem insert_of_notMem {k : String} (h : k ∉ fields.map (·.1)) (v : Value) :
    insert k v fields = fields ++ [(k, v)] := by
  induction fields with
  | nil => rfl
  | cons f rest ih =>
    obtain ⟨j, w⟩ := f
    obtain ⟨hj, hrest⟩ := not_or.mp (mt List.mem_cons.mpr h)
    rw [insert, if_neg (Ne.symm hj), ih hrest, List.cons_append]

theorem insertAll_eq_append {new : Fields} (h : ((fields ++ new).map (·.1)).Nodup) :
    fields.insertAll new = fields ++ new := by
  induction new generalizing fields with
  | nil => exact (List.append_nil fields).symm
  | cons f rest ih =>
    have hf : f.1 ∉ fields.map (·.1) := by
      rw [List.map_append, List.map_cons] at h
      have hdisjoint := (List.nodup_append.mp h).2.2
      exact fun hmem => hdisjoint _ hmem _ List.mem_cons_self rfl
    have hstep : fields.insertAll (f :: rest) = insertAll (insert f.1 f.2 fields) rest := rfl
    rw [hstep, insert_of_notMem hf, ih (by simpa using h), List.append_assoc]
    rfl

theorem ofList_eq_self (h : (fields.map (·.1)).Nodup) : ofList fields = fields :=
  insertAll_eq_append h

theorem get?_cons (f : String × Value) (rest : Fields) (k : String) :
    get? (f :: rest) k = if k = f.1 then some f.2 else get? rest k := by
  unfold get?
  rw [List.lookup_cons]
  by_cases hk : k = f.1
  · rw [if_pos hk, beq_iff_eq.mpr hk]
  · rw [if_neg hk, beq_false_of_ne hk]

theorem get?_of_mem (h : (fields.map (·.1)).Nodup) {k : String} {v : Value}
    (hv : (k, v) ∈ fields) : fields.get? k = some v := by
  induction fields with
  | nil => cases hv
  | cons f rest ih =>
    obtain ⟨hf, hrest⟩ := List.nodup_cons.mp h
    rw [get?_cons]
    rcases List.mem_cons.mp hv with rfl | hv
    · exact if_pos rfl
    · have hne : k ≠ f.1 := by
        rintro rfl
        exact hf (List.mem_map.mpr ⟨_, hv, rfl⟩)
      rw [if_neg hne]
      exact ih hrest hv

theorem mem_of_get? {k : String} {v : Value} (h : fields.get? k = some v) : (k, v) ∈ fields := by
  obtain ⟨before, behind, rfl, -⟩ := List.lookup_eq_some_iff.mp h
  exact List.mem_append_right before List.mem_cons_self

theorem mem_iff_get? (h : (fields.map (·.1)).Nodup) {k : String} {v : Value} :
    (k, v) ∈ fields ↔ fields.get? k = some v :=
  ⟨get?_of_mem h, mem_of_get?⟩

theorem eq_of_mem (h : (fields.map (·.1)).Nodup) {k : String} {v w : Value}
    (hv : (k, v) ∈ fields) (hw : (k, w) ∈ fields) : v = w :=
  Option.some.inj ((get?_of_mem h hv).symm.trans (get?_of_mem h hw))

theorem get?_eq_none_iff {k : String} : fields.get? k = none ↔ k ∉ fields.map (·.1) := by
  rw [get?, List.lookup_eq_none_iff, List.mem_map, not_exists]
  constructor
  · rintro h f ⟨hf, rfl⟩
    simpa using h f hf
  · exact fun h f hf => bne_iff_ne.mpr fun hk => h f ⟨hf, hk.symm⟩

theorem get?_append (fields new : Fields) (k : String) :
    get? (fields ++ new) k = (get? fields k).or (get? new k) :=
  List.lookup_append

theorem get?_insert (k : String) (v : Value) (fields : Fields) (j : String) :
    get? (insert k v fields) j = if j = k then some v else get? fields j := by
  induction fields with
  | nil => exact get?_cons (k, v) [] j
  | cons f rest ih =>
    obtain ⟨i, w⟩ := f
    rw [insert, get?_cons]
    by_cases hi : i = k
    · rw [if_pos hi, get?_cons, hi]
      split_ifs <;> rfl
    · rw [if_neg hi, get?_cons, ih]
      by_cases hj : j = i
      · rw [if_pos hj, if_pos hj, if_neg (hj ▸ hi)]
      · rw [if_neg hj, if_neg hj]

/-- The last one of the new values of a key counts. -/
theorem get?_insertAll (fields new : Fields) (k : String) :
    get? (fields.insertAll new) k = (get? new.reverse k).or (get? fields k) := by
  induction new generalizing fields with
  | nil => rfl
  | cons f rest ih =>
    have hstep : fields.insertAll (f :: rest) = insertAll (insert f.1 f.2 fields) rest := rfl
    rw [hstep, ih, get?_insert, List.reverse_cons, get?_append, get?_cons, Option.or_assoc]
    split_ifs <;> rfl

theorem get?_ofList (fields : Fields) (k : String) :
    get? (ofList fields) k = get? fields.reverse k :=
  (get?_insertAll [] fields k).trans Option.or_none

theorem mem_insertAll_iff {new : Fields} (h : (fields.map (·.1)).Nodup)
    (hnew : (new.map (·.1)).Nodup) {k : String} {v : Value} :
    (k, v) ∈ fields.insertAll new ↔ (k, v) ∈ new ∨ (k, v) ∈ fields ∧ k ∉ new.map (·.1) := by
  have hkeys : new.reverse.map (·.1) = (new.map (·.1)).reverse := List.map_reverse
  have hreverse : (new.reverse.map (·.1)).Nodup := hkeys ▸ List.nodup_reverse.mpr hnew
  rw [mem_iff_get? (nodup_insertAll h new), get?_insertAll, Option.or_eq_some_iff,
    ← mem_iff_get? hreverse, ← mem_iff_get? h, List.mem_reverse, get?_eq_none_iff, hkeys,
    List.mem_reverse, and_comm]

theorem mem_keys_insertAll {new : Fields} {k : String} :
    k ∈ (fields.insertAll new).map (·.1) ↔ k ∈ fields.map (·.1) ∨ k ∈ new.map (·.1) := by
  induction new generalizing fields with
  | nil => simp [insertAll]
  | cons f rest ih =>
    have hstep : fields.insertAll (f :: rest) = insertAll (insert f.1 f.2 fields) rest := rfl
    rw [hstep, ih, keys_insert, List.map_cons, List.mem_cons]
    split <;> grind

theorem length_ofList_eq_iff (fields : Fields) :
    (ofList fields).length = fields.length ↔ (fields.map (·.1)).Nodup := by
  constructor
  · intro h
    have hkeys : (ofList fields).map (·.1) ⊆ fields.map (·.1) := by
      intro k hk
      simpa using mem_keys_insertAll.mp hk
    have hperm := (List.subperm_of_subset (nodup_ofList fields) hkeys).perm_of_length_le
      (by simp [h])
    exact hperm.nodup_iff.mp (nodup_ofList fields)
  · intro h
    rw [ofList_eq_self h]

end Timeline.Fields
