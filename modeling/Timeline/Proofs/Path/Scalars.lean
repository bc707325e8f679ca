import Timeline.Proofs.Path.Available
import Timeline.Proofs.Table.Leaves

/-! # The paths of scalars

The paths that are listed for the leaves of a value are those of the keys that lead to its scalars.
An item of a list has no key of its own, so what is below it has a path as if it stood in place of
the list. Where lists hold no objects, the keys lead from object to object.
-/

namespace Timeline

namespace Value

/-- Keys lead to a scalar. The items of a list are entered without a key. -/
inductive HasScalar : Value → List String → Prop
  | here {v : Value} : v.isScalar = true → HasScalar v []
  | item {items : List Value} {v : Value} {keys : List String} :
    v ∈ items → HasScalar v keys → HasScalar (.list items) keys
  | field {fields : Fields} {k : String} {v : Value} {keys : List String} :
    (k, v) ∈ fields → HasScalar v keys → HasScalar (.object fields) (k :: keys)

/-- No item of a list is an object. -/
def HoldsNoObjects : Value → Prop
  | .list items => ∀ v ∈ items, v.isObject = false
  | _ => True

variable {v : Value} {keys : List String}

theorem HasScalar.ne_null (h : v.HasScalar keys) (hne : keys ≠ []) : v ≠ .null := by
  cases h with
  | here => exact absurd rfl hne
  | item => exact Value.noConfusion
  | field => exact Value.noConfusion

theorem HasScalar.eq_nil (h : v.HasScalar keys) (hflat : v.Throughout HoldsNoObjects)
    (hv : v.isObject = false) : keys = [] := by
  induction h with
  | here => rfl
  | item hmem _ ih => exact ih (hflat.of_mem_items hmem) (hflat.self _ hmem)
  | field => cases hv

theorem HasScalar.isSome_walk (h : v.HasScalar keys) (hplain : v.Throughout IsPlain)
    (hflat : v.Throughout HoldsNoObjects) :
    ((Path.Address.ofKeys keys).walk v).isSome = true := by
  induction h with
  | here => rfl
  | item hmem hscalar _ =>
    obtain rfl := hscalar.eq_nil (hflat.of_mem_items hmem) (hflat.self _ hmem)
    rfl
  | field hmem _ ih =>
    rw [Path.Address.walk_ofKeys_of_mem hplain.self hmem]
    exact ih (hplain.of_mem_fields hmem) (hflat.of_mem_fields hmem)

theorem HasScalar.forall_keys {p : String → Prop} (h : v.HasScalar keys)
    (hkeys : v.Throughout (KeysAre p)) : ∀ k ∈ keys, p k := by
  induction h with
  | here => exact List.forall_mem_nil p
  | item hmem _ ih => exact ih (hkeys.of_mem_items hmem)
  | field hmem _ ih =>
    exact List.forall_mem_cons.mpr ⟨hkeys.self _ hmem, ih (hkeys.of_mem_fields hmem)⟩

end Value

namespace Path

variable {s : String} {v : Value} {keys : List String}

theorem leaves_of_isScalar (h : v.isScalar = true) (path : String) :
    leaves path v = if path = "" then [] else [path] := by
  cases v with
  | list items => cases h
  | object fields => cases h
  | _ => rfl

theorem leavesOfItems_eq (path : String) (items : List Value) :
    leavesOfItems path items = items.flatMap (leaves path) := by
  induction items with
  | nil => rfl
  | cons v rest ih => rw [leavesOfItems, ih, List.flatMap_cons]

theorem leavesOfFields_eq (path : String) (fields : Fields) :
    leavesOfFields path fields = fields.flatMap fun f =>
      if f.2.isScalar then [join path f.1] else leaves (join path f.1) f.2 := by
  induction fields with
  | nil => rfl
  | cons f rest ih =>
    obtain ⟨k, v⟩ := f
    rw [List.flatMap_cons, ← ih]
    cases v <;> rfl

theorem exists_hasScalar_of_mem_leaves {path : String} (h : s ∈ leaves path v) :
    ∃ keys, v.HasScalar keys ∧ keys.foldl join path = s ∧ (path = "" → keys ≠ []) := by
  induction v using Value.induct generalizing path with
  | scalar v hv =>
    rw [leaves_of_isScalar hv] at h
    split at h
    · cases h
    · rename_i hpath
      obtain rfl := List.mem_singleton.mp h
      exact ⟨[], .here hv, rfl, fun hempty => absurd hempty hpath⟩
  | list items ih =>
    rw [leaves, leavesOfItems_eq, List.mem_flatMap] at h
    obtain ⟨v, hv, h⟩ := h
    obtain ⟨keys, hscalar, hs⟩ := ih v hv h
    exact ⟨keys, .item hv hscalar, hs⟩
  | object fields ih =>
    rw [leaves, leavesOfFields_eq, List.mem_flatMap] at h
    obtain ⟨⟨k, v⟩, hv, h⟩ := h
    obtain ⟨keys, hscalar, hs⟩ :
        ∃ keys, v.HasScalar keys ∧ keys.foldl join (join path k) = s := by
      split at h
      · rename_i hleaf
        exact ⟨[], .here hleaf, (List.mem_singleton.mp h).symm⟩
      · obtain ⟨keys, hscalar, hs, -⟩ := ih (k, v) hv h
        exact ⟨keys, hscalar, hs⟩
    exact ⟨k :: keys, .field hv hscalar, hs, fun _ => List.cons_ne_nil k keys⟩

theorem mem_leaves_of_hasScalar (h : v.HasScalar keys) {path : String}
    (hpath : keys.foldl join path ≠ "") : keys.foldl join path ∈ leaves path v := by
  induction h generalizing path with
  | here hv =>
    have hne : path ≠ "" := hpath
    rw [leaves_of_isScalar hv, if_neg hne]
    exact List.mem_singleton_self path
  | item hmem _ ih =>
    rw [leaves, leavesOfItems_eq]
    exact List.mem_flatMap.mpr ⟨_, hmem, ih hpath⟩
  | @field fields k v keys hmem hscalar ih =>
    rw [leaves, leavesOfFields_eq]
    refine List.mem_flatMap.mpr ⟨(k, v), hmem, ?_⟩
    split
    · rename_i hv
      cases hscalar with
      | here => exact List.mem_singleton_self _
      | item => cases hv
      | field => cases hv
    · exact ih hpath

/-- The paths of the leaves of a value are those of the keys that lead to its scalars. The empty
path may be missing. -/
theorem mem_leaves_iff (hs : s ≠ "") :
    s ∈ leaves "" v ↔ ∃ keys, v.HasScalar keys ∧ keys.foldl join "" = s := by
  constructor
  · intro h
    obtain ⟨keys, hscalar, hkeys, -⟩ := exists_hasScalar_of_mem_leaves h
    exact ⟨keys, hscalar, hkeys⟩
  · rintro ⟨keys, hscalar, rfl⟩
    exact mem_leaves_of_hasScalar hscalar hs

theorem mem_sort_iff {texts : List String} : s ∈ sort texts ↔ s ∈ texts :=
  List.mem_mergeSort

theorem mem_keys_iff {parent : String} : s ∈ Path.keys v parent ↔ s ∈ leaves parent v := by
  rw [Path.keys, mem_sort_iff, mem_distinct_iff]

end Path

end Timeline
