import Timeline.Path.Check
import Timeline.Proofs.Path.Resolve
import Timeline.Proofs.Value.Document

/-! # Paths of keys

Keys one below the other lead to a part of a document through objects only. They have a path, and
if they can be written nothing keeps the path from being resolved. A key that is written as it is
is its own path. Resolving a path can only fail at an index.
-/

namespace Timeline

theorem Value.child?_eq (v : Value) (k : String) : v.child? k = v.fields.get? k := by
  cases v <;> rfl

namespace Path

variable {k path : String} {keys : List String} {v w : Value}

/-- The steps to the value of the last of some keys. -/
def Address.ofKeys (keys : List String) : Address :=
  keys.map fun k => ⟨k, none⟩

theorem Address.walk_ofKeys_cons (v : Value) (k : String) (keys : List String) :
    (ofKeys (k :: keys)).walk v = (v.fields.get? k).bind fun w => (ofKeys keys).walk w := by
  rw [← Value.child?_eq]
  rfl

theorem Address.walk_ofKeys_of_mem {fields : Fields} {k : String} {v : Value}
    (hnodup : (fields.map (·.1)).Nodup) (hmem : (k, v) ∈ fields) (keys : List String) :
    (ofKeys (k :: keys)).walk (.object fields) = (ofKeys keys).walk v := by
  have hget : (Value.object fields).fields.get? k = some v := Fields.get?_of_mem hnodup hmem
  rw [walk_ofKeys_cons, hget]
  rfl

/-- The path of the value of the last of some keys; without keys it is the path of the root. -/
def ofKeys (keys : List String) : String :=
  if keys = [] then root else (Address.ofKeys keys).render

theorem ofKeys_ne_empty (h : keys.getLast? ≠ some "") : ofKeys keys ≠ "" := by
  rcases List.eq_nil_or_concat keys with rfl | ⟨before, k, rfl⟩
  · decide
  · have hk : k ≠ "" := by simpa using h
    rw [ofKeys, if_neg (by simp), Address.ofKeys, List.concat_eq_append, List.map_append,
      List.map_singleton, Address.render_key]
    exact join_ne_empty_of_key _ hk

theorem Address.throughout_walk {p : Value → Prop} {a : Address} (h : v.Throughout p)
    (hw : a.walk v = some w) : w.Throughout p := by
  induction a generalizing v with
  | nil =>
    cases hw
    exact h
  | cons s a ih =>
    obtain ⟨u, hu, hw⟩ := Option.bind_eq_some_iff.mp hw
    refine ih ?_ hw
    unfold Step.target? at hu
    split at hu
    · rw [Value.child?_eq] at hu
      exact h.of_get? hu
    · obtain ⟨list, hlist, hitem⟩ := Option.bind_eq_some_iff.mp hu
      rw [Value.child?_eq] at hlist
      cases list with
      | list items => exact (h.of_get? hlist).of_mem_items (List.mem_of_getElem? hitem)
      | _ => cases hitem

theorem throughout_of_resolve {p : Value → Prop} {document : Value} (h : document.Throughout p)
    (hv : resolve document path = .ok (some v)) : v.Throughout p := by
  obtain ⟨a, ha⟩ := exists_walk_of_resolve hv
  exact Address.throughout_walk h ha

/-- Keys that are told apart in a path: none is empty or has brackets, and they are not the single
key that is written like the root. -/
structure HavePath (keys : List String) : Prop where
  keyed : ∀ k ∈ keys, (Step.mk k none).IsKeyed
  ne_root : keys ≠ [root]

theorem Address.isWritable_ofKeys (h : ∀ k ∈ keys, (Step.mk k none).IsKeyed) (hne : keys ≠ []) :
    (Address.ofKeys keys).IsWritable := by
  refine ⟨by simpa [ofKeys] using hne, List.forall_mem_map.mpr fun k hk => ?_⟩
  obtain ⟨hempty, hopening, hclosing⟩ := h k hk
  exact ⟨hempty, hopening, hclosing, by simp⟩

theorem HavePath.render_ne_root (h : HavePath keys) : (Address.ofKeys keys).render ≠ root := by
  intro hrender
  have hroot : Address.render [⟨root, none⟩] = root := by decide
  have hkeyed : (Step.mk root none).IsKeyed := ⟨by decide, by decide, by decide⟩
  have hsame := Address.eq_of_render_eq (List.forall_mem_map.mpr h.keyed)
    (List.forall_mem_singleton.mpr hkeyed) (hrender.trans hroot.symm)
  obtain ⟨k, rfl, hk⟩ := List.map_eq_singleton_iff.mp hsame
  cases hk
  exact h.ne_root rfl

/-- The path of keys leads where the keys lead. -/
theorem HavePath.resolve (h : HavePath keys) (hwalk : (Address.ofKeys keys).walk v = some w)
    (hw : w ≠ .null) : resolve v (ofKeys keys) = .ok (some w) := by
  by_cases hne : keys = []
  · subst hne
    obtain rfl : v = w := Option.some.inj hwalk
    have hv : ¬v.isNull = true := mt Value.isNull_iff.mp hw
    have hroot : root ≠ "" := by decide
    simp [ofKeys, Path.resolve, hv, hroot]
  · rw [ofKeys, if_neg hne, ← hwalk]
    exact resolve_render v (Address.isWritable_ofKeys h.keyed hne) h.render_ne_root

theorem ReadsAs.malformed_eq {segments : List String} {a : Address} (h : ReadsAs segments a) :
    malformed segments = .ok [] := by
  induction h with
  | nil => rfl
  | cons hs _ ih =>
    rw [malformed, hs, ok_bind, ih]
    rfl

theorem structureProblems_render {a : Address} (ha : a.IsWritable) :
    structureProblems (.text a.render) = .ok [] := by
  unfold structureProblems
  split
  · rename_i heq
    exact absurd (Value.text.inj heq) (Address.render_ne_empty ha)
  · rename_i s _ heq
    cases heq
    rw [Address.split_render ha]
    split
    · rfl
    · split
      · rename_i hnil
        exact absurd (List.map_eq_nil_iff.mp hnil) ha.ne_nil
      · exact (readsAs_chars ha.step).malformed_eq
  · rename_i hother
    exact absurd rfl (hother _)

theorem HavePath.structureProblems (h : HavePath keys) :
    structureProblems (.text (ofKeys keys)) = .ok [] := by
  unfold ofKeys
  split
  · rfl
  · rename_i hne
    exact structureProblems_render (Address.isWritable_ofKeys h.keyed hne)

/-- A key that is its own path. -/
structure IsOwnPath (k : String) : Prop where
  keyed : (Step.mk k none).IsKeyed
  ne_root : k ≠ root
  escape_eq : escape k = k

namespace IsOwnPath

variable (h : IsOwnPath k)

include h

theorem havePath : HavePath [k] where
  keyed := List.forall_mem_singleton.mpr h.keyed
  ne_root := by simpa using h.ne_root

theorem ofKeys_eq : ofKeys [k] = k :=
  h.escape_eq

theorem structureProblems : structureProblems (.text k) = .ok [] := by
  have hkeys := h.havePath.structureProblems
  rwa [h.ofKeys_eq] at hkeys

theorem resolve (v : Value) : resolve v k = .ok (v.fields.get? k) := by
  have hrender : (Address.ofKeys [k]).render = k := h.escape_eq
  have hresolve := resolve_render v (Address.isWritable_ofKeys h.havePath.keyed (by simp))
    h.havePath.render_ne_root
  rw [hrender] at hresolve
  rw [hresolve, ← Value.child?_eq]
  exact congrArg Except.ok (Address.walk_key v k)

end IsOwnPath

theorem flatten_consFirst (c : Char) (ps : List (List Char)) :
    (consFirst c ps).flatten = c :: ps.flatten := by
  cases ps <;> rfl

theorem flatten_pieces (inside : Bool) (cs : List Char) :
    (pieces inside cs).flatten.Sublist cs := by
  fun_induction pieces inside cs
  case case1 => exact List.Sublist.refl []
  case case2 => exact List.Sublist.refl ['\\']
  case case3 ih =>
    rw [flatten_consFirst]
    exact (ih.cons_cons _).cons '\\'
  case case4 ih | case5 ih | case7 ih =>
    rw [flatten_consFirst]
    exact ih.cons_cons _
  case case6 ih => exact ih.cons _

theorem mem_of_mem_split {segment : String} (h : segment ∈ split path) :
    ∀ c ∈ segment.toList, c ∈ path.toList := by
  obtain ⟨piece, hpiece, rfl⟩ := List.mem_map.mp h
  intro c hc
  rw [String.toList_ofList] at hc
  have hflat := List.mem_flatten.mpr ⟨piece, (List.mem_filter.mp hpiece).1, hc⟩
  exact (flatten_pieces false path.toList).subset hflat

theorem Step.exists_read {segment : String} (h : '[' ∉ segment.toList) :
    ∃ step, Step.read segment = .ok step := by
  unfold Step.read
  dsimp only
  split
  · rw [indexed?_eq_none h]
    exact ⟨none, rfl⟩
  · exact ⟨_, rfl⟩

theorem exists_follow {segments : List String} (h : ∀ s ∈ segments, '[' ∉ s.toList) (v : Value) :
    ∃ found, follow v segments = .ok found := by
  induction segments generalizing v with
  | nil => exact ⟨_, rfl⟩
  | cons segment rest ih =>
    obtain ⟨hsegment, hrest⟩ := List.forall_mem_cons.mp h
    obtain ⟨step, hstep⟩ := Step.exists_read hsegment
    cases step with
    | none =>
      rw [follow, hstep]
      split <;> exact ⟨_, rfl⟩
    | some step =>
      rw [follow_cons hstep]
      cases step.target? v with
      | none => exact ⟨_, rfl⟩
      | some w => exact ih hrest w

theorem exists_resolve (h : '[' ∉ path.toList) (v : Value) :
    ∃ found, resolve v path = .ok found := by
  have hfollow := exists_follow (fun s hs hmem => h (mem_of_mem_split hs _ hmem)) v
  unfold resolve
  repeat' split
  · exact ⟨_, rfl⟩
  · exact ⟨_, rfl⟩
  · exact ⟨_, rfl⟩
  · exact ⟨_, rfl⟩
  · exact hfollow

end Path

end Timeline
