import Timeline.Proofs.Path.Joined
import Timeline.Table

/-! # Leaves and their cells

A leaf of an object is what keys lead to that is no object with fields. Flattening an object gives
one cell for every leaf, in the order of the document and under the path of its keys. No cell is
lost, and by its path the leaf is found again.
-/

namespace Timeline

open Timeline.Path

namespace Value

def isLeaf : Value → Bool
  | .object (_ :: _) => false
  | _ => true

mutual

/-- The leaves below some fields, in order, each with the keys that lead to it. -/
def leavesOf : List (String × Value) → List (List String × Value)
  | [] => []
  | (k, v) :: rest => (leaves v).map (fun p => (k :: p.1, p.2)) ++ leavesOf rest

def leaves : Value → List (List String × Value)
  | .object (f :: fs) => leavesOf (f :: fs)
  | v => [([], v)]

end

/-- Some keys lead to an earlier place of a value than others: where they differ first, the key of
an earlier field is theirs. -/
inductive Precedes : Value → List String → List String → Prop
  | apart {fields : Fields} {j k : String} {js ks : List String} :
    [j, k].Sublist (fields.map (·.1)) → Precedes (.object fields) (j :: js) (k :: ks)
  | under {fields : Fields} {k : String} {v : Value} {js ks : List String} :
    (k, v) ∈ fields → Precedes v js ks → Precedes (.object fields) (k :: js) (k :: ks)

variable {v w : Value} {fields : Fields} {k : String} {keys others : List String}

theorem Throughout.forall_keys {p : String → Prop} (h : v.Throughout (KeysAre p))
    (hw : (Address.ofKeys keys).walk v = some w) : ∀ k ∈ keys, p k := by
  induction keys generalizing v with
  | nil => exact List.forall_mem_nil p
  | cons k keys ih =>
    rw [Address.walk_ofKeys_cons] at hw
    obtain ⟨u, hu, hw⟩ := Option.bind_eq_some_iff.mp hw
    exact List.forall_mem_cons.mpr ⟨h.self _ (Fields.mem_of_get? hu), ih (h.of_get? hu) hw⟩

theorem leaves_of_isLeaf (h : v.isLeaf = true) : leaves v = [([], v)] := by
  cases v with
  | object fields =>
    cases fields with
    | nil => rfl
    | cons f fs => cases h
  | _ => rfl

theorem exists_fields_of_isLeaf (h : v.isLeaf = false) : ∃ f fs, v = .object (f :: fs) := by
  cases v with
  | object fields =>
    cases fields with
    | nil => cases h
    | cons f fs => exact ⟨f, fs, rfl⟩
  | _ => cases h

theorem get?_of_isLeaf (h : v.isLeaf = true) (k : String) : v.fields.get? k = none := by
  cases v with
  | object fields =>
    cases fields with
    | nil => rfl
    | cons f fs => cases h
  | _ => rfl

theorem mem_leavesOf_iff_exists {p : List String × Value} :
    p ∈ leavesOf fields ↔ ∃ k v, (k, v) ∈ fields ∧ ∃ q ∈ leaves v, (k :: q.1, q.2) = p := by
  induction fields with
  | nil => simp [leavesOf]
  | cons f rest ih =>
    obtain ⟨k, v⟩ := f
    rw [leavesOf, List.mem_append, ih, List.mem_map]
    constructor
    · rintro (hq | ⟨j, w, hw, hq⟩)
      · exact ⟨k, v, List.mem_cons_self, hq⟩
      · exact ⟨j, w, List.mem_cons_of_mem _ hw, hq⟩
    · rintro ⟨j, w, hw, hq⟩
      rcases List.mem_cons.mp hw with heq | hw
      · cases heq
        exact .inl hq
      · exact .inr ⟨j, w, hw, hq⟩

theorem nil_notMem_leavesOf : ([], w) ∉ leavesOf fields := by
  intro h
  obtain ⟨k, v, -, q, -, hq⟩ := mem_leavesOf_iff_exists.mp h
  cases hq

theorem cons_mem_leavesOf_iff (h : (fields.map (·.1)).Nodup) :
    (k :: keys, w) ∈ leavesOf fields ↔ ∃ v, fields.get? k = some v ∧ (keys, w) ∈ leaves v := by
  rw [mem_leavesOf_iff_exists]
  constructor
  · rintro ⟨_, v, hv, q, hq, ⟨⟩⟩
    exact ⟨v, Fields.get?_of_mem h hv, hq⟩
  · rintro ⟨v, hv, hq⟩
    exact ⟨k, v, Fields.mem_of_get? hv, _, hq, rfl⟩

theorem mem_leaves_iff (h : v.Throughout IsPlain) :
    (keys, w) ∈ leaves v ↔ (Address.ofKeys keys).walk v = some w ∧ w.isLeaf = true := by
  induction keys generalizing v with
  | nil =>
    have hwalk : (Address.ofKeys []).walk v = some v := rfl
    rw [hwalk, Option.some.injEq]
    cases hleaf : v.isLeaf with
    | true =>
      rw [leaves_of_isLeaf hleaf]
      constructor
      · intro hmem
        cases List.mem_singleton.mp hmem
        exact ⟨rfl, hleaf⟩
      · rintro ⟨rfl, -⟩
        exact List.mem_singleton_self _
    | false =>
      obtain ⟨f, fs, rfl⟩ := exists_fields_of_isLeaf hleaf
      refine iff_of_false nil_notMem_leavesOf ?_
      rintro ⟨rfl, htrue⟩
      cases hleaf.symm.trans htrue
  | cons k keys ih =>
    rw [Address.walk_ofKeys_cons]
    cases hleaf : v.isLeaf with
    | true =>
      rw [leaves_of_isLeaf hleaf, get?_of_isLeaf hleaf]
      simp
    | false =>
      obtain ⟨f, fs, rfl⟩ := exists_fields_of_isLeaf hleaf
      rw [Option.bind_eq_some_iff, leaves, cons_mem_leavesOf_iff h.self]
      constructor
      · rintro ⟨u, hu, hmem⟩
        obtain ⟨hwalk, hw⟩ := (ih (h.of_get? hu)).mp hmem
        exact ⟨⟨u, hu, hwalk⟩, hw⟩
      · rintro ⟨⟨u, hu, hwalk⟩, hw⟩
        exact ⟨u, hu, (ih (h.of_get? hu)).mpr ⟨hwalk, hw⟩⟩

theorem mem_leavesOf_iff (h : (object fields).Throughout IsPlain) :
    (keys, w) ∈ leavesOf fields ↔
      keys ≠ [] ∧ (Address.ofKeys keys).walk (object fields) = some w ∧ w.isLeaf = true := by
  cases keys with
  | nil => exact iff_of_false nil_notMem_leavesOf fun hkeys => hkeys.1 rfl
  | cons k keys =>
    rw [cons_mem_leavesOf_iff h.self, Address.walk_ofKeys_cons, Option.bind_eq_some_iff]
    constructor
    · rintro ⟨u, hu, hmem⟩
      obtain ⟨hwalk, hw⟩ := (mem_leaves_iff (h.of_get? hu)).mp hmem
      exact ⟨List.cons_ne_nil k keys, ⟨u, hu, hwalk⟩, hw⟩
    · rintro ⟨-, ⟨u, hu, hwalk⟩, hw⟩
      exact ⟨u, hu, (mem_leaves_iff (h.of_get? hu)).mpr ⟨hwalk, hw⟩⟩

theorem Precedes.ne (h : v.Precedes keys others) (hplain : v.Throughout IsPlain) :
    keys ≠ others := by
  induction h with
  | apart hsub =>
    intro heq
    have hnodup := hsub.nodup hplain.self
    rw [(List.cons.inj heq).1] at hnodup
    simp at hnodup
  | under hv _ ih => exact fun heq => ih (hplain.of_mem_fields hv) (List.cons.inj heq).2

mutual

theorem pairwise_leavesOf (fields : Fields) : ∀ part : List (String × Value),
    part.Sublist fields → (leavesOf part).Pairwise fun p q => (object fields).Precedes p.1 q.1
  | [], _ => .nil
  | (k, v) :: rest, h => by
    have hrest := (List.sublist_cons_self (k, v) rest).trans h
    rw [leavesOf]
    refine List.pairwise_append.mpr ⟨?_, pairwise_leavesOf fields rest hrest, ?_⟩
    · rw [List.pairwise_map]
      exact (pairwise_leaves v).imp (.under (h.subset List.mem_cons_self))
    · intro p hp q hq
      obtain ⟨p, -, rfl⟩ := List.mem_map.mp hp
      obtain ⟨j, w, hw, q, -, rfl⟩ := mem_leavesOf_iff_exists.mp hq
      have hj : [j].Sublist (rest.map (·.1)) := List.singleton_sublist.mpr (List.mem_map_of_mem hw)
      have hkeys : (((k, v) :: rest).map (·.1)).Sublist (fields.map (·.1)) := h.map _
      exact .apart ((hj.cons_cons k).trans hkeys)

theorem pairwise_leaves : ∀ v : Value, (leaves v).Pairwise fun p q => v.Precedes p.1 q.1
  | .object (f :: fs) => pairwise_leavesOf (f :: fs) (f :: fs) (List.Sublist.refl _)
  | .object [] | .null | .bool _ | .int _ | .float _ | .text _ | .list _ | .moment _ | .day _
  | .tuple _ | .set _ => List.pairwise_singleton _ _

end

theorem nodup_leavesOf (h : (object fields).Throughout IsPlain) :
    ((leavesOf fields).map (·.1)).Nodup := by
  refine List.pairwise_map.mpr ?_
  exact (pairwise_leavesOf fields fields (List.Sublist.refl _)).imp (·.ne h)

end Value

namespace Table

variable {fields : Fields}

mutual

theorem flattenFields_eq (path : String) : ∀ fields : List (String × Value),
    flattenFields path fields =
      (Value.leavesOf fields).map fun p => (p.1.foldl join path, p.2.cell)
  | [] => rfl
  | (k, v) :: rest => by
    rw [flattenFields, flattenValue_eq (join path k) v, flattenFields_eq path rest, Value.leavesOf,
      List.map_append, List.map_map]
    rfl

theorem flattenValue_eq (path : String) : ∀ v : Value,
    flattenValue path v = (Value.leaves v).map fun p => (p.1.foldl join path, p.2.cell)
  | .object (f :: fs) => flattenFields_eq path (f :: fs)
  | .object [] | .null | .bool _ | .int _ | .float _ | .text _ | .list _ | .moment _ | .day _
  | .tuple _ | .set _ => rfl

end

theorem nodup_paths (hplain : (Value.object fields).Throughout Value.IsPlain)
    (hkeys : (Value.object fields).Throughout (Value.KeysAre (· ≠ ""))) :
    ((Value.leavesOf fields).map fun p => p.1.foldl join "").Nodup := by
  have hmap : ((Value.leavesOf fields).map fun p => p.1.foldl join "") =
      ((Value.leavesOf fields).map (·.1)).map fun keys => keys.foldl join "" := by
    rw [List.map_map]
    rfl
  have hfull : ∀ keys ∈ (Value.leavesOf fields).map (·.1), ∀ k ∈ keys, k ≠ "" := by
    intro keys hmem
    obtain ⟨⟨keys, w⟩, hp, rfl⟩ := List.mem_map.mp hmem
    exact hkeys.forall_keys ((Value.mem_leavesOf_iff hplain).mp hp).2.1
  rw [hmap]
  refine (Value.nodup_leavesOf hplain).map_on ?_
  exact fun keys hmem others hothers => foldl_join_inj (hfull keys hmem) (hfull others hothers)

/-- The cells of an object whose keys are not empty are the cells of its leaves, under the paths of
their keys. Every leaf has one, they stand in the order of the document, and their paths are
distinct. If the keys have no brackets, each path but that of the root leads to its leaf. -/
theorem flatten_leaves (hplain : (Value.object fields).Throughout Value.IsPlain)
    (hkeys : (Value.object fields).Throughout (Value.KeysAre (· ≠ ""))) :
    flatten "" (.object fields) =
        (Value.leavesOf fields).map (fun p => (p.1.foldl join "", p.2.cell)) ∧
      (∀ keys w, (keys, w) ∈ Value.leavesOf fields ↔ keys ≠ [] ∧
        (Address.ofKeys keys).walk (.object fields) = some w ∧ w.isLeaf = true) ∧
      (Value.leavesOf fields).Pairwise (fun p q => (Value.object fields).Precedes p.1 q.1) ∧
      ((flatten "" (.object fields)).map (·.1)).Nodup ∧
      ((Value.object fields).Throughout
          (Value.KeysAre fun k => '[' ∉ k.toList ∧ ']' ∉ k.toList) →
        ∀ p ∈ Value.leavesOf fields, p.1.foldl join "" ≠ root →
          resolve (.object fields) (p.1.foldl join "") = .ok (some p.2)) := by
  have hpaths := nodup_paths hplain hkeys
  have hcells : flatten "" (.object fields) =
      (Value.leavesOf fields).map fun p => (p.1.foldl join "", p.2.cell) := by
    rw [flatten, flattenFields_eq]
    exact Fields.ofList_eq_self (by rwa [List.map_map])
  refine ⟨hcells, fun keys w => Value.mem_leavesOf_iff hplain,
    Value.pairwise_leavesOf fields fields (List.Sublist.refl _), ?_, ?_⟩
  · rwa [hcells, List.map_map]
  · rintro hbrackets ⟨keys, w⟩ hp hroot
    obtain ⟨hne, hwalk, -⟩ := (Value.mem_leavesOf_iff hplain).mp hp
    have hkeyed : ∀ k ∈ keys, (Step.mk k none).IsKeyed := fun k hk =>
      have hfree := hbrackets.forall_keys hwalk k hk
      ⟨hkeys.forall_keys hwalk k hk, hfree.1, hfree.2⟩
    rw [resolve_foldl_join hkeyed hne hroot, hwalk]

/-- A null and an empty object below a key with a point, and a list. -/
theorem flatten_leaves_escaped :
    let fields : Fields := [("a.b", .object [("c\\", .null), ("d", .object [])]),
      ("x", .list [.int 1, .text "y"])]
    (Value.object fields).Throughout Value.IsPlain ∧
      (Value.object fields).Throughout (Value.KeysAre (· ≠ "")) ∧
      flatten "" (.object fields) =
        [("a\\.b.c\\\\", .null), ("a\\.b.d", .object []), ("x", .text "1, y")] ∧
      resolve (.object fields) "a\\.b.c\\\\" = .ok (some .null) := by
  intro fields
  have hplain : (Value.object fields).Throughout Value.IsPlain := by simp [fields, Value.IsPlain]
  have hkeys : (Value.object fields).Throughout (Value.KeysAre (· ≠ "")) := by
    simp [fields, Value.KeysAre, Value.fields]
  have hfree : (Value.object fields).Throughout
      (Value.KeysAre fun k => '[' ∉ k.toList ∧ ']' ∉ k.toList) := by
    simp [fields, Value.KeysAre, Value.fields]
  have hpath : ["a.b", "c\\"].foldl join "" = "a\\.b.c\\\\" := by decide +kernel
  obtain ⟨hcells, hleaf, -, -, hresolve⟩ := flatten_leaves hplain hkeys
  have hmem := (hleaf ["a.b", "c\\"] .null).mpr ⟨List.cons_ne_nil _ _, rfl, rfl⟩
  refine ⟨hplain, hkeys, hcells.trans rfl, ?_⟩
  rw [← hpath]
  exact hresolve hfree _ hmem (by decide +kernel)

end Table

end Timeline
