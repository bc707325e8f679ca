import Mathlib.Data.List.Sort
import Mathlib.Data.String.Basic
import Timeline.Proofs.Path.Scalars

/-! # The paths of lists

The paths that are found for the lists of a document are those of the keys that lead to them from
object to object. They are sorted below every object, and the whole is strictly increasing, since
keys that are not empty are told apart by their path.
-/

namespace Timeline

namespace Value

/-- Keys lead from object to object to a list. -/
inductive HasList : Value → List String → List Value → Prop
  | here {items : List Value} : HasList (.list items) [] items
  | field {fields : Fields} {k : String} {v : Value} {keys : List String} {items : List Value} :
    (k, v) ∈ fields → HasList v keys items → HasList (.object fields) (k :: keys) items

variable {v : Value} {keys : List String} {items : List Value}

theorem HasList.walk_eq (h : v.HasList keys items) (hplain : v.Throughout IsPlain) :
    (Path.Address.ofKeys keys).walk v = some (.list items) := by
  induction h with
  | here => rfl
  | field hmem _ ih =>
    rw [Path.Address.walk_ofKeys_of_mem hplain.self hmem]
    exact ih (hplain.of_mem_fields hmem)

theorem HasList.ne_nil {fields : Fields} (h : (Value.object fields).HasList keys items) :
    keys ≠ [] := by
  cases h
  exact List.cons_ne_nil _ _

theorem HasWritableKeys.keysAre (h : v.HasWritableKeys) :
    v.KeysAre fun k => k ≠ "" ∧ '[' ∉ k.toList ∧ ']' ∉ k.toList ∧ k ≠ Path.root := by
  cases v with
  | object fields => exact h
  | _ => exact List.forall_mem_nil _

end Value

namespace Path

variable {s path : String} {v : Value} {fields : Fields} {keys others texts : List String}
  {items : List Value}

theorem perm_sort (texts : List String) : (sort texts).Perm texts :=
  List.mergeSort_perm _ _

theorem pairwise_lt_sort (h : texts.Nodup) : (sort texts).Pairwise (· < ·) := by
  have hle : (sort texts).SortedLE := List.sortedLE_mergeSort
  have hnodup := (perm_sort texts).nodup_iff.mpr h
  exact (List.sortedLT_iff_nodup_and_sortedLE.mpr ⟨hnodup, hle⟩).pairwise

theorem listsBelow_eq (path : String) (fields : Fields) :
    listsBelow path fields = fields.flatMap fun f => listsAt (join path f.1) f.2 := by
  induction fields with
  | nil => rfl
  | cons f rest ih => rw [listsBelow, ih, List.flatMap_cons]

theorem listsAt_of_isScalar (h : v.isScalar = true) (path : String) : listsAt path v = [] := by
  cases v with
  | list items => cases h
  | object fields => cases h
  | _ => rfl

theorem mem_listsAt_iff :
    s ∈ listsAt path v ↔ ∃ keys items, v.HasList keys items ∧ keys.foldl join path = s := by
  induction v using Value.induct generalizing path with
  | scalar v hv =>
    rw [listsAt_of_isScalar hv]
    refine iff_of_false List.not_mem_nil ?_
    rintro ⟨keys, items, h, -⟩
    cases h <;> cases hv
  | list items =>
    rw [listsAt, List.mem_singleton]
    constructor
    · rintro rfl
      exact ⟨[], items, .here, rfl⟩
    · rintro ⟨keys, _, ⟨⟩, rfl⟩
      rfl
  | object fields ih =>
    rw [listsAt, mem_sort_iff, listsBelow_eq, List.mem_flatMap]
    constructor
    · rintro ⟨⟨k, v⟩, hv, hs⟩
      obtain ⟨keys, items, h, hpath⟩ := (ih (k, v) hv).mp hs
      exact ⟨k :: keys, items, .field hv h, hpath⟩
    · rintro ⟨_, items, ⟨⟩ | @⟨_, k, v, keys, _, hv, h⟩, hpath⟩
      exact ⟨(k, v), hv, (ih (k, v) hv).mpr ⟨keys, items, h, hpath⟩⟩

theorem nodup_listsAt (hplain : v.Throughout Value.IsPlain)
    (hkeys : v.Throughout (Value.KeysAre (· ≠ ""))) : (listsAt path v).Nodup := by
  induction v using Value.induct generalizing path with
  | scalar v hv =>
    rw [listsAt_of_isScalar hv]
    exact List.nodup_nil
  | list items => exact List.nodup_singleton path
  | object fields ih =>
    rw [listsAt, (perm_sort _).nodup_iff, listsBelow_eq, List.nodup_flatMap]
    refine ⟨fun f hf => ih f hf (hplain.of_mem_fields hf) (hkeys.of_mem_fields hf), ?_⟩
    have hdistinct : fields.Pairwise fun f g => f.1 ≠ g.1 := List.pairwise_map.mp hplain.self
    refine hdistinct.imp_of_mem fun {f g} hf hg hne s hs ht => hne ?_
    obtain ⟨js, _, hj, rfl⟩ := mem_listsAt_iff.mp hs
    obtain ⟨ks, _, hk, hpath⟩ := mem_listsAt_iff.mp ht
    have hsame : g.1 :: ks = f.1 :: js := foldl_join_below_inj
      (hkeys.forall_keys ((Value.HasList.field hg hk).walk_eq hplain))
      (hkeys.forall_keys ((Value.HasList.field hf hj).walk_eq hplain)) hpath
    exact (List.cons.inj hsame).1.symm

theorem foldl_join_ne_root (hkeyed : ∀ k ∈ keys, (Step.mk k none).IsKeyed)
    (hroot : ∀ k ∈ keys, k ≠ root) (hne : keys ≠ []) : keys.foldl join "" ≠ root := by
  rw [foldl_join_eq]
  refine Address.render_ne_root (Address.isWritable_ofKeys hkeyed hne) ?_
  exact List.forall_mem_map.mpr hroot

/-- In an object whose keys can be written, at any depth, the paths of the lists are strictly
increasing, they are those of the keys that lead from object to object to a list, such a path leads
to this list, and different keys to lists have different paths. -/
theorem lists_exact (hplain : (Value.object fields).Throughout Value.IsPlain)
    (hkeys : (Value.object fields).Throughout Value.HasWritableKeys) :
    (lists (.object fields) "").Pairwise (· < ·) ∧
      (∀ path, path ∈ lists (.object fields) "" ↔
        ∃ keys items, (Value.object fields).HasList keys items ∧ keys.foldl join "" = path) ∧
      (∀ keys items, (Value.object fields).HasList keys items →
        resolve (.object fields) (keys.foldl join "") = .ok (some (.list items))) ∧
      (∀ keys others items more, (Value.object fields).HasList keys items →
        (Value.object fields).HasList others more →
        keys.foldl join "" = others.foldl join "" → keys = others) := by
  have hwritable := hkeys.mono fun _ => Value.HasWritableKeys.keysAre
  have hfull : (Value.object fields).Throughout (Value.KeysAre (· ≠ "")) :=
    hwritable.mono fun _ h f hf => (h f hf).1
  have hlists : lists (.object fields) "" = listsAt "" (.object fields) := rfl
  refine ⟨?_, fun path => ?_, fun keys items h => ?_,
    fun keys others items more h hother hpath => ?_⟩
  · have hnodup : (listsAt "" (.object fields)).Nodup := nodup_listsAt hplain hfull
    rw [listsAt, (perm_sort _).nodup_iff] at hnodup
    exact pairwise_lt_sort hnodup
  · rw [hlists]
    exact mem_listsAt_iff
  · have hchain := hwritable.forall_keys (h.walk_eq hplain)
    have hkeyed : ∀ k ∈ keys, (Step.mk k none).IsKeyed := fun k hk =>
      ⟨(hchain k hk).1, (hchain k hk).2.1, (hchain k hk).2.2.1⟩
    have hroot := foldl_join_ne_root hkeyed (fun k hk => (hchain k hk).2.2.2) h.ne_nil
    rw [resolve_foldl_join hkeyed h.ne_nil hroot, h.walk_eq hplain]
  · exact foldl_join_inj (hfull.forall_keys (h.walk_eq hplain))
      (hfull.forall_keys (hother.walk_eq hplain)) hpath

/-- Two lists below a key with a point, and one beside it. -/
theorem lists_exact_nested :
    let fields : Fields := [("z", .list []),
      ("a.b", .object [("c", .list [.int 1]), ("a\\", .list [.null])])]
    (Value.object fields).Throughout Value.IsPlain ∧
      (Value.object fields).Throughout Value.HasWritableKeys ∧
      (lists (.object fields) "").Pairwise (· < ·) ∧
      "a\\.b.a\\\\" ∈ lists (.object fields) "" ∧
      resolve (.object fields) "a\\.b.a\\\\" = .ok (some (.list [.null])) := by
  intro fields
  have hplain : (Value.object fields).Throughout Value.IsPlain := by simp [fields, Value.IsPlain]
  have hkeys : (Value.object fields).Throughout Value.HasWritableKeys := by
    simp [fields, Value.HasWritableKeys, root]
  have hlist : (Value.object fields).HasList ["a.b", "a\\"] [.null] := by
    refine .field (v := .object [("c", .list [.int 1]), ("a\\", .list [.null])]) ?_ ?_
    · simp [fields]
    · exact .field (by simp) .here
  have hpath : ["a.b", "a\\"].foldl join "" = "a\\.b.a\\\\" := by decide +kernel
  obtain ⟨hsorted, hmem, hresolve, -⟩ := lists_exact hplain hkeys
  rw [← hpath]
  exact ⟨hplain, hkeys, hsorted, (hmem _).mpr ⟨_, _, hlist, rfl⟩, hresolve _ _ hlist⟩

end Path

end Timeline
