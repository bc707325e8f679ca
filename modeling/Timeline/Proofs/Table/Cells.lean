import Timeline.Proofs.Table.Leaves
import Timeline.Proofs.Table.Row

/-! # Cells of the data in a row

A row holds the seven cells of the entity itself and the cells of its data, but a cell of the data
under the name of one of the seven columns is hidden by the one of the entity. Only a field of the
data itself can have such a name, so nothing is hidden where no field has one.
-/

namespace Timeline.Table

variable {e : Entity} {k : String} {v : Value} {keys : List String} {fields : Fields}

theorem keys_entityCells (e : Entity) : (entityCells e).map (·.1) = entityColumns :=
  rfl

theorem nodup_entityCells (e : Entity) : ((entityCells e).map (·.1)).Nodup :=
  keys_entityCells e ▸ by decide

theorem mem_row_iff :
    (k, v) ∈ row e ↔ (k, v) ∈ entityCells e ∨ (k, v) ∈ flatten "" e.data ∧ k ∉ entityColumns :=
  Fields.mem_insertAll_iff (nodup_flatten e.data) (nodup_entityCells e)

/-- A cell is hidden by another one under the same name. -/
def IsHidden (cells : Fields) (c : String × Value) : Prop :=
  ∃ v, (c.1, v) ∈ cells ∧ v ≠ c.2

theorem mem_row_iff_not_isHidden (h : (k, v) ∈ flatten "" e.data) :
    (k, v) ∈ row e ↔ ¬IsHidden (entityCells e) (k, v) := by
  rw [mem_row_iff]
  constructor
  · rintro hrow ⟨own, hown, hne⟩
    rcases hrow with hcell | ⟨-, hk⟩
    · exact hne (Fields.eq_of_mem (nodup_entityCells e) hown hcell)
    · exact hk (keys_entityCells e ▸ List.mem_map_of_mem hown)
  · intro hshown
    by_cases hk : k ∈ entityColumns
    · obtain ⟨⟨_, own⟩, hown, rfl⟩ := List.mem_map.mp (keys_entityCells e ▸ hk)
      obtain rfl : own = v := not_not.mp fun hne => hshown ⟨own, hown, hne⟩
      exact .inl hown
    · exact .inr ⟨h, hk⟩

theorem eq_singleton_of_mem_entityColumns (hkeys : ∀ k ∈ keys, k ≠ "")
    (h : keys.foldl Path.join "" ∈ entityColumns) : ∃ c ∈ entityColumns, keys = [c] := by
  have hnames : ∀ c ∈ entityColumns, c ≠ "" ∧ Path.join "" c = c := by decide +kernel
  obtain ⟨hne, hpath⟩ := hnames _ h
  exact ⟨_, h, Path.foldl_join_inj hkeys (List.forall_mem_singleton.mpr hne) hpath.symm⟩

theorem exists_leaf_of_mem_flatten (h : (k, v) ∈ flatten "" (.object fields)) :
    ∃ p ∈ Value.leavesOf fields, p.1.foldl Path.join "" = k := by
  have hk : k ∈ (flattenFields "" fields).map (·.1) := by
    have hmem := Fields.mem_keys_insertAll.mp (List.mem_map_of_mem (f := (·.1)) h)
    simpa using hmem
  rw [flattenFields_eq, List.map_map] at hk
  exact List.mem_map.mp hk

/-- No cell has the name of a column where no field of the data has one. -/
theorem notMem_entityColumns_of_mem_flatten
    (hplain : (Value.object fields).Throughout Value.IsPlain)
    (hkeys : (Value.object fields).Throughout (Value.KeysAre (· ≠ "")))
    (hnames : (Value.object fields).KeysAre (· ∉ entityColumns))
    (h : (k, v) ∈ flatten "" (.object fields)) : k ∉ entityColumns := by
  obtain ⟨⟨keys, w⟩, hleaf, rfl⟩ := exists_leaf_of_mem_flatten h
  obtain ⟨-, hwalk, -⟩ := (Value.mem_leavesOf_iff hplain).mp hleaf
  intro hmem
  obtain ⟨c, hc, rfl⟩ := eq_singleton_of_mem_entityColumns (hkeys.forall_keys hwalk) hmem
  obtain ⟨u, hu, -⟩ := (Value.cons_mem_leavesOf_iff hplain.self).mp hleaf
  exact hnames _ (Fields.mem_of_get? hu) hc

/-- A row holds seven cells of the entity itself, and no others than these and those of the data. A
cell of the data is missing exactly if one of the seven hides it, and none is if the keys of the
data are not empty and no field of the data itself is named like one of the seven. -/
theorem row_cells (e : Entity) :
    let cells : Fields := [("_id", .text e.id), ("_startDate", .text e.start.text),
      ("_endDate", .text e.finish.text), ("_yValue", e.category.cell), ("_sourceArray", e.array),
      ("_sourceFile", e.file), ("_duration", .int e.duration)]
    (∀ c ∈ cells, c ∈ row e) ∧
      (∀ c ∈ row e, c ∈ cells ∨ c ∈ flatten "" e.data) ∧
      (∀ c ∈ flatten "" e.data, c ∈ row e ↔ ¬IsHidden cells c) ∧
      (e.data.Throughout Value.IsPlain → e.data.Throughout (Value.KeysAre (· ≠ "")) →
        e.data.KeysAre (· ∉ cells.map (·.1)) → ∀ c ∈ flatten "" e.data, c ∈ row e) := by
  intro cells
  refine ⟨fun c hc => mem_row_iff.mpr (.inl hc), fun c hc => ?_,
    fun c => mem_row_iff_not_isHidden, fun hplain hkeys hnames c hc => ?_⟩
  · exact (mem_row_iff.mp hc).imp_right And.left
  · refine mem_row_iff.mpr (.inr ⟨hc, ?_⟩)
    cases hdata : e.data with
    | object fields =>
      rw [hdata] at hplain hkeys hnames hc
      exact notMem_entityColumns_of_mem_flatten hplain hkeys hnames hc
    | _ =>
      rw [hdata] at hc
      cases hc

/-- A field that is named like the column of identities is hidden. -/
theorem row_cells_hidden :
    let e : Entity := ⟨"E1", ⟨0⟩, ⟨0⟩, .text "events", .text "d.json",
      .object [("_id", .text "7"), ("start", .int 1)], .null⟩
    ("_id", .text "7") ∈ flatten "" e.data ∧ ("_id", .text "7") ∉ row e ∧
      ("_id", .text "E1") ∈ row e := by
  intro e
  have hflat : flatten "" e.data = [("_id", .text "7"), ("start", .int 1)] := rfl
  have hdata : ("_id", Value.text "7") ∈ flatten "" e.data := hflat ▸ List.mem_cons_self
  have hown : ("_id", Value.text "E1") ∈ entityCells e := List.mem_cons_self
  refine ⟨hdata, ?_, mem_row_iff.mpr (.inl hown)⟩
  rw [mem_row_iff_not_isHidden hdata, not_not]
  exact ⟨.text "E1", hown, by simp⟩

end Timeline.Table
