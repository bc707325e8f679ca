import Mathlib.Data.List.Nodup
import Timeline.Proofs.Value.Document

/-! # Values up to the order of fields

Two values are the same up to the order of the fields of objects, at every depth, exactly if they
become equal when all fields are sorted by their keys.
-/

namespace Timeline

namespace Fields

variable {fields others : Fields}

def sorted (fields : Fields) : Fields :=
  fields.mergeSort fun a b => a.1 ≤ b.1

theorem perm_sorted (fields : Fields) : fields.sorted.Perm fields :=
  List.mergeSort_perm _ _

theorem pairwise_sorted (fields : Fields) : fields.sorted.Pairwise fun a b => a.1 ≤ b.1 := by
  have trans : ∀ a b c : String × Value, decide (a.1 ≤ b.1) = true → decide (b.1 ≤ c.1) = true →
      decide (a.1 ≤ c.1) = true := by
    simp only [decide_eq_true_eq]
    exact fun a b c => String.le_trans
  have total : ∀ a b : String × Value, (decide (a.1 ≤ b.1) || decide (b.1 ≤ a.1)) = true := by
    simp only [Bool.or_eq_true, decide_eq_true_eq]
    exact fun a b => String.le_total _ _
  simpa [sorted] using List.pairwise_mergeSort trans total fields

theorem sorted_eq_iff (h : (fields.map (·.1)).Nodup) :
    fields.sorted = others.sorted ↔ fields.Perm others := by
  constructor
  · intro heq
    have hperm := fields.perm_sorted
    rw [heq] at hperm
    exact hperm.symm.trans others.perm_sorted
  · intro hperm
    have hsorted := fields.perm_sorted.trans (hperm.trans others.perm_sorted.symm)
    refine List.Perm.eq_of_pairwise (fun a b ha hb hab hba => ?_) fields.pairwise_sorted
      others.pairwise_sorted hsorted
    exact List.inj_on_of_nodup_map h (fields.perm_sorted.mem_iff.mp ha)
      (hperm.mem_iff.mpr (others.perm_sorted.mem_iff.mp hb)) (String.le_antisymm hab hba)

end Fields

namespace Value

/-- The same value up to the order of the fields of objects, at every depth. -/
inductive Reorders : Value → Value → Prop
  | refl {v : Value} : Reorders v v
  | list {xs ys : List Value} : xs.length = ys.length →
    (∀ (i : Nat) (x y : Value), xs[i]? = some x → ys[i]? = some y → Reorders x y) →
      Reorders (.list xs) (.list ys)
  | object {fields others : Fields} : (fields.map (·.1)).Perm (others.map (·.1)) →
    (∀ k v w, (k, v) ∈ fields → (k, w) ∈ others → Reorders v w) →
      Reorders (.object fields) (.object others)

mutual

/-- A value with the fields of its objects in the order of their keys, at every depth. -/
def sorted : Value → Value
  | .list items => .list (sortedItems items)
  | .object fields => .object (Fields.sorted (sortedValues fields))
  | v => v

def sortedItems : List Value → List Value
  | [] => []
  | v :: rest => sorted v :: sortedItems rest

def sortedValues : Fields → Fields
  | [] => []
  | (k, v) :: rest => (k, sorted v) :: sortedValues rest

end

variable {v w : Value} {items : List Value} {fields others : Fields}

theorem sortedItems_eq (items : List Value) : sortedItems items = items.map sorted := by
  induction items with
  | nil => rfl
  | cons v rest ih => rw [sortedItems, ih, List.map_cons]

theorem sortedValues_eq (fields : Fields) :
    sortedValues fields = fields.map fun f => (f.1, f.2.sorted) := by
  induction fields with
  | nil => rfl
  | cons f rest ih => rw [sortedValues, ih, List.map_cons]

theorem keys_sortedValues (fields : Fields) :
    (sortedValues fields).map (·.1) = fields.map (·.1) := by
  rw [sortedValues_eq, List.map_map]
  rfl

theorem mem_sortedValues_iff {k : String} :
    (k, w) ∈ sortedValues fields ↔ ∃ v, (k, v) ∈ fields ∧ v.sorted = w := by
  simp only [sortedValues_eq, List.mem_map, Prod.mk.injEq, Prod.exists]
  constructor
  · rintro ⟨_, v, hv, rfl, hw⟩
    exact ⟨v, hv, hw⟩
  · rintro ⟨v, hv, hw⟩
    exact ⟨k, v, hv, rfl, hw⟩

theorem perm_sortedValues_iff (hfields : (fields.map (·.1)).Nodup)
    (hothers : (others.map (·.1)).Nodup) :
    (sortedValues fields).Perm (sortedValues others) ↔
      (fields.map (·.1)).Perm (others.map (·.1)) ∧
        ∀ k v w, (k, v) ∈ fields → (k, w) ∈ others → v.sorted = w.sorted := by
  have hnodup {fs : Fields} (h : (fs.map (·.1)).Nodup) : (sortedValues fs).Nodup :=
    List.Nodup.of_map (·.1) (keys_sortedValues fs ▸ h)
  constructor
  · intro hperm
    have hkeys := hperm.map (·.1)
    rw [keys_sortedValues, keys_sortedValues] at hkeys
    refine ⟨hkeys, fun k v w hv hw => ?_⟩
    have hmem := hperm.mem_iff.mp (mem_sortedValues_iff.mpr ⟨v, hv, rfl⟩)
    obtain ⟨u, hu, huv⟩ := mem_sortedValues_iff.mp hmem
    rw [← huv, Fields.eq_of_mem hothers hu hw]
  · rintro ⟨hkeys, hvalues⟩
    rw [List.perm_ext_iff_of_nodup (hnodup hfields) (hnodup hothers)]
    rintro ⟨k, u⟩
    simp only [mem_sortedValues_iff]
    constructor
    · rintro ⟨v, hv, rfl⟩
      obtain ⟨⟨_, w⟩, hw, rfl⟩ :=
        List.mem_map.mp (hkeys.mem_iff.mp (List.mem_map_of_mem (f := (·.1)) hv))
      exact ⟨w, hw, (hvalues _ v w hv hw).symm⟩
    · rintro ⟨w, hw, rfl⟩
      obtain ⟨⟨_, v⟩, hv, rfl⟩ :=
        List.mem_map.mp (hkeys.mem_iff.mpr (List.mem_map_of_mem (f := (·.1)) hw))
      exact ⟨v, hv, hvalues _ v w hv hw⟩

theorem Reorders.of_perm (h : fields.Perm others) (hfields : (fields.map (·.1)).Nodup) :
    (Value.object fields).Reorders (.object others) := by
  refine .object (h.map Prod.fst) fun k v w hv hw => ?_
  obtain rfl := Fields.eq_of_mem hfields hv (h.mem_iff.mpr hw)
  exact .refl

theorem Reorders.sorted_eq (h : v.Reorders w) (hv : v.Throughout IsPlain)
    (hw : w.Throughout IsPlain) : v.sorted = w.sorted := by
  induction h with
  | refl => rfl
  | @list xs ys hlength _ ih =>
    rw [sorted, sorted, sortedItems_eq, sortedItems_eq, list.injEq]
    refine List.ext_getElem (by simpa using hlength) fun i hx hy => ?_
    rw [List.length_map] at hx hy
    rw [List.getElem_map, List.getElem_map]
    exact ih i _ _ (List.getElem?_eq_getElem hx) (List.getElem?_eq_getElem hy)
      (hv.of_mem_items (List.getElem_mem hx)) (hw.of_mem_items (List.getElem_mem hy))
  | @object fields others hkeys _ ih =>
    have hnodup : ((sortedValues fields).map (·.1)).Nodup := keys_sortedValues fields ▸ hv.self
    rw [sorted, sorted, object.injEq, Fields.sorted_eq_iff hnodup,
      perm_sortedValues_iff hv.self hw.self]
    refine ⟨hkeys, fun k v w hkv hkw => ?_⟩
    exact ih k v w hkv hkw (hv.of_mem_fields hkv) (hw.of_mem_fields hkw)

@[simp] theorem sorted_of_isScalar (h : v.isScalar = true) : v.sorted = v := by
  cases v with
  | list => cases h
  | object => cases h
  | _ => rfl

theorem isScalar_sorted (v : Value) : v.sorted.isScalar = v.isScalar := by
  cases v <;> rfl

theorem reorders_of_sorted_eq (hv : v.Throughout IsPlain) (hw : w.Throughout IsPlain)
    (h : v.sorted = w.sorted) : v.Reorders w := by
  induction v using Value.induct generalizing w with
  | scalar v hscalar =>
    have hscalar' : w.isScalar = true := by
      rw [← isScalar_sorted, ← h, isScalar_sorted, hscalar]
    rw [sorted_of_isScalar hscalar, sorted_of_isScalar hscalar'] at h
    exact h ▸ .refl
  | list xs ih =>
    cases w with
    | list ys =>
      rw [sorted, sorted, sortedItems_eq, sortedItems_eq, list.injEq] at h
      refine .list (by simpa using congrArg List.length h) fun i x y hx hy => ?_
      have hxy := congrArg (·[i]?) h
      simp only [List.getElem?_map, hx, hy, Option.map_some, Option.some.injEq] at hxy
      have hxmem := List.mem_of_getElem? hx
      exact ih x hxmem (hv.of_mem_items hxmem) (hw.of_mem_items (List.mem_of_getElem? hy)) hxy
    | _ => cases h
  | object fields ih =>
    cases w with
    | object others =>
      have hnodup : ((sortedValues fields).map (·.1)).Nodup := keys_sortedValues fields ▸ hv.self
      rw [sorted, sorted, object.injEq, Fields.sorted_eq_iff hnodup,
        perm_sortedValues_iff hv.self hw.self] at h
      obtain ⟨hkeys, hvalues⟩ := h
      refine .object hkeys fun k v w hkv hkw => ?_
      exact ih (k, v) hkv (hv.of_mem_fields hkv) (hw.of_mem_fields hkw) (hvalues k v w hkv hkw)
    | _ => cases h

/-- Sorting the fields makes two values equal exactly if they differ only in their order. -/
theorem sorted_eq_iff (hv : v.Throughout IsPlain) (hw : w.Throughout IsPlain) :
    v.sorted = w.sorted ↔ v.Reorders w :=
  ⟨reorders_of_sorted_eq hv hw, fun h => h.sorted_eq hv hw⟩

end Value

end Timeline
