import Timeline.Proofs.Path.Scalars
import Timeline.Proofs.Workbench.Shown

/-! # Columns that can be looked up

The columns that are offered beside those of every entity are the paths of the scalars in the data
of the entities. A path does not enter a list without an index, so such a column has a value in some
entity exactly if its keys lead from object to object in the data of one.
-/

namespace Timeline

open Timeline.Path

variable {documents : Fields} {text c : String} {rules : List Rule} {x : Extracted}
  {entities : List Entity} {e : Entity} {keys : List String}

theorem Entity.column_eq (hc : c ∉ entityColumns) (e : Entity) : e.column c = resolve e.data c := by
  have hown : e.ownColumn? c = none := by
    unfold Entity.ownColumn?
    split <;> first | rfl | exact absurd (by decide) hc
  rw [Entity.column, hown]

def Entity.AnyHas (entities : List Entity) (c : String) : Prop :=
  ∃ e ∈ entities, Yields (e.column c) (·.isSome = true)

instance (entities : List Entity) (c : String) : Decidable (Entity.AnyHas entities c) :=
  inferInstanceAs (Decidable (∃ e ∈ entities, Yields (e.column c) (·.isSome = true)))

theorem Entity.anyHas_iff (hkeyed : ∀ k ∈ keys, (Step.mk k none).IsKeyed) (hne : keys ≠ [])
    (hroot : keys.foldl join "" ≠ root) (hc : keys.foldl join "" ∉ entityColumns) :
    Entity.AnyHas entities (keys.foldl join "") ↔
      ∃ e ∈ entities, ((Address.ofKeys keys).walk e.data).isSome = true := by
  simp only [Entity.AnyHas, Entity.column_eq hc, resolve_foldl_join hkeyed hne hroot, Yields.ok_iff]

namespace Extracted

theorem columns_of_byRules (h : (byRules documents rules).outcome = .ok x) :
    x.columns = columnsOf x.entities := by
  rw [outcome_byRules] at h
  obtain ⟨found, -, h⟩ := bind_eq_ok_iff.mp h
  obtain ⟨warnings, -, h⟩ := bind_eq_ok_iff.mp h
  obtain ⟨entities, -, h⟩ := bind_eq_ok_iff.mp h
  obtain ⟨arrays, -, h⟩ := bind_eq_ok_iff.mp h
  cases h
  rfl

theorem columns_of_ofDocuments (h : (ofDocuments documents text).outcome = .ok x) :
    x.columns = columnsOf x.entities := by
  have hnone : entityColumns = columnsOf [] := by decide +kernel
  unfold ofDocuments at h
  split at h
  · cases h
    exact hnone
  · dsimp only at h
    split at h
    · cases h
      exact hnone
    · rw [Journaled.outcome_bind] at h
      obtain ⟨rules, -, h⟩ := bind_eq_ok_iff.mp h
      exact columns_of_byRules h

theorem mem_columnsOf_iff (hc : c ∉ entityColumns) :
    c ∈ columnsOf entities ↔ ∃ e ∈ entities, c ∈ leaves "" e.data := by
  have hnew : (!entityColumns.contains c) = true := by simpa using hc
  rw [columnsOf, List.mem_append, List.mem_filter, mem_sort_iff, mem_distinct_iff, List.mem_flatMap]
  simp only [hc, false_or, hnew, and_true, mem_keys_iff]

theorem mem_columns_of_ofDocuments (h : (ofDocuments documents text).outcome = .ok x)
    (hc : c ∉ entityColumns) : c ∈ x.columns ↔ ∃ e ∈ x.entities, c ∈ leaves "" e.data := by
  rw [columns_of_ofDocuments h, mem_columnsOf_iff hc]

theorem exists_hasScalar_of_mem_columns (hx : x.columns = columnsOf x.entities) (h : c ∈ x.columns)
    (hc : c ∉ entityColumns) :
    ∃ e ∈ x.entities, ∃ keys, e.data.HasScalar keys ∧ keys.foldl join "" = c ∧ keys ≠ [] := by
  rw [hx, mem_columnsOf_iff hc] at h
  obtain ⟨e, he, hleaf⟩ := h
  obtain ⟨keys, hscalar, hkeys, hne⟩ := exists_hasScalar_of_mem_leaves hleaf
  exact ⟨e, he, keys, hscalar, hkeys, hne rfl⟩

theorem mem_columns_iff (hx : x.columns = columnsOf x.entities) (hne : c ≠ "")
    (hc : c ∉ entityColumns) :
    c ∈ x.columns ↔
      ∃ e ∈ x.entities, ∃ keys, e.data.HasScalar keys ∧ keys.foldl join "" = c := by
  rw [hx, mem_columnsOf_iff hc]
  simp only [mem_leaves_iff hne]

/-- A column of keys that can be written can be looked up exactly if they lead from object to object
in the data of an entity, or if they are written like the root. -/
theorem anyHas_column_iff (hx : x.columns = columnsOf x.entities) (hne : keys ≠ [])
    (hkeyed : ∀ k ∈ keys, (Step.mk k none).IsKeyed) (hmem : keys.foldl join "" ∈ x.columns)
    (hc : keys.foldl join "" ∉ entityColumns) :
    Entity.AnyHas x.entities (keys.foldl join "") ↔
      keys = [root] ∨ ∃ e ∈ x.entities, ((Address.ofKeys keys).walk e.data).isSome = true := by
  have hroot : [root].foldl join "" = root := by decide +kernel
  by_cases hkeys : keys = [root]
  · subst hkeys
    obtain ⟨e, he, others, hscalar, -, hothers⟩ := exists_hasScalar_of_mem_columns hx hmem hc
    refine iff_of_true ⟨e, he, some e.data, ?_, rfl⟩ (.inl rfl)
    have hnull : ¬e.data.isNull = true := mt Value.isNull_iff.mp (hscalar.ne_null hothers)
    have hempty : root ≠ "" := by decide
    rw [Entity.column_eq hc, hroot]
    simp [resolve, hnull, hempty]
  · have hpath : keys.foldl join "" ≠ root := by
      intro hpath
      have hfull : ∀ k ∈ [root], k ≠ "" := by decide
      exact hkeys (foldl_join_inj (fun k hk => (hkeyed k hk).key_ne) hfull (hpath.trans hroot.symm))
    rw [Entity.anyHas_iff hkeyed hne hpath hc, or_iff_right hkeys]

/-- Beside the columns of every entity those are offered that are the paths of scalars in the data
of extracted entities. Of these a column whose keys are not empty and have no brackets can be looked
up exactly if the keys lead from object to object in the data of an entity, or if it is written like
the root. So where lists hold no objects every such column can be looked up. -/
theorem columns_filled (h : (ofDocuments documents text).outcome = .ok x) :
    (∀ c, c ≠ "" → c ∉ entityColumns → (c ∈ x.columns ↔
      ∃ e ∈ x.entities, ∃ keys, e.data.HasScalar keys ∧ keys.foldl join "" = c)) ∧
    (∀ keys, keys ≠ [] → (∀ k ∈ keys, (Step.mk k none).IsKeyed) →
      keys.foldl join "" ∈ x.columns → keys.foldl join "" ∉ entityColumns →
        (Entity.AnyHas x.entities (keys.foldl join "") ↔ keys = [root] ∨
          ∃ e ∈ x.entities, ((Address.ofKeys keys).walk e.data).isSome = true)) ∧
    ((∀ e ∈ x.entities, e.data.Throughout Value.IsPlain ∧
        e.data.Throughout (Value.KeysAre fun k => (Step.mk k none).IsKeyed) ∧
        e.data.Throughout Value.HoldsNoObjects) →
      ∀ c ∈ x.columns, c ∉ entityColumns → Entity.AnyHas x.entities c) := by
  have hx := columns_of_ofDocuments h
  refine ⟨fun c hne hc => mem_columns_iff hx hne hc, fun keys => anyHas_column_iff hx, ?_⟩
  intro hdata c hmem hc
  obtain ⟨e, he, keys, hscalar, rfl, hne⟩ := exists_hasScalar_of_mem_columns hx hmem hc
  obtain ⟨hplain, hkeyed, hflat⟩ := hdata e he
  have hwalk := hscalar.isSome_walk hplain hflat
  exact (anyHas_column_iff hx hne (hscalar.forall_keys hkeyed) hmem hc).mpr (.inr ⟨e, he, hwalk⟩)

/-- A column below a key. -/
theorem columns_filled_below :
    let documents : Fields := [("d.json", .object [("events", .list [.object
      [("start", .int 1), ("owner", .object [("name", .text "Ann")])]])])]
    ∃ x, (ofDocuments documents "").outcome = .ok x ∧ "owner.name" ∈ x.columns ∧
      Entity.AnyHas x.entities "owner.name" := by
  intro documents
  obtain ⟨x, hx, hleaf, hwalk⟩ : Yields (ofDocuments documents "").outcome fun x =>
      (∃ e ∈ x.entities, "owner.name" ∈ leaves "" e.data) ∧ ∃ e ∈ x.entities,
        ((Address.ofKeys ["owner", "name"]).walk e.data).isSome = true := by
    decide +kernel
  have hkeyed : ∀ k ∈ ["owner", "name"], (Step.mk k none).IsKeyed := by
    refine List.forall_mem_cons.mpr ⟨?_, List.forall_mem_singleton.mpr ?_⟩
    · exact ⟨by decide, by decide, by decide⟩
    · exact ⟨by decide, by decide, by decide⟩
  have hpath : ["owner", "name"].foldl join "" = "owner.name" := by decide +kernel
  have hown : "owner.name" ∉ entityColumns := by decide
  have hmem := (mem_columns_of_ofDocuments hx hown).mpr hleaf
  have hfilled := (columns_filled hx).2.1 ["owner", "name"] (by simp) hkeyed
  rw [hpath] at hfilled
  exact ⟨x, hx, hmem, (hfilled hmem hown).mpr (.inr hwalk)⟩

/-- Neither what is below the items of a list nor a key with brackets can be looked up. -/
theorem columns_filled_unreachable :
    let documents : Fields := [("d.json", .object [("events", .list [.object
      [("start", .int 1), ("items", .list [.object [("a", .int 1)]]), ("b[c]", .int 2)]])])]
    ∃ x, (ofDocuments documents "").outcome = .ok x ∧ ∀ c ∈ ["items.a", "b[c]"],
      c ∈ x.columns ∧ c ∉ entityColumns ∧ ¬Entity.AnyHas x.entities c := by
  intro documents
  obtain ⟨x, hx, hfound⟩ : Yields (ofDocuments documents "").outcome fun x =>
      ∀ c ∈ ["items.a", "b[c]"],
        (∃ e ∈ x.entities, c ∈ leaves "" e.data) ∧ ¬Entity.AnyHas x.entities c := by
    decide +kernel
  have hown : ∀ c ∈ ["items.a", "b[c]"], c ∉ entityColumns := by decide
  refine ⟨x, hx, fun c hc => ?_⟩
  obtain ⟨hleaf, hnone⟩ := hfound c hc
  exact ⟨(mem_columns_of_ofDocuments hx (hown c hc)).mpr hleaf, hown c hc, hnone⟩

end Extracted

end Timeline
