import Timeline.Proofs.Text.Distinct
import Timeline.Proofs.Value.Document
import Timeline.Proofs.Value.Fields
import Timeline.Table

/-! # Tables hold their rows

The columns of some rows are distinct and hold every key of every row. Under these columns each
cell of a row is in its place, and a column that the row lacks is null.
-/

namespace Timeline.Table

variable {columns found : List String} {row : Fields} {rows : List Fields}

theorem nodup_flatten (v : Value) : ((flatten "" v).map (·.1)).Nodup := by
  unfold flatten
  split
  · exact Fields.nodup_ofList _
  · exact List.nodup_nil

theorem nodup_row (e : Entity) : ((Table.row e).map (·.1)).Nodup :=
  Fields.nodup_insertAll (nodup_flatten e.data) (entityCells e)

/-- Some columns with those of a row that are new. -/
def withKeys (found : List String) (row : Fields) : List String :=
  row.foldl (fun found c => if found.contains c.1 then found else found ++ [c.1]) found

theorem columns_eq (rows : List Fields) : Table.columns rows = rows.foldl withKeys entityColumns :=
  rfl

theorem withKeys_eq (found : List String) (row : Fields) :
    withKeys found row = (row.map (·.1)).foldl Text.addNew found := by
  rw [List.foldl_map]
  rfl

theorem mem_withKeys {k : String} : k ∈ withKeys found row ↔ k ∈ found ∨ k ∈ row.map (·.1) := by
  rw [withKeys_eq, Text.mem_foldl_addNew]

theorem nodup_withKeys (h : found.Nodup) (row : Fields) : (withKeys found row).Nodup := by
  rw [withKeys_eq]
  exact Text.nodup_foldl_addNew h _

theorem mem_foldl_withKeys {k : String} :
    k ∈ rows.foldl withKeys found ↔ k ∈ found ∨ ∃ row ∈ rows, k ∈ row.map (·.1) := by
  induction rows generalizing found with
  | nil => simp
  | cons row rows ih =>
    rw [List.foldl_cons, ih, mem_withKeys, or_assoc]
    simp only [List.mem_cons, exists_eq_or_imp]

theorem nodup_foldl_withKeys (h : found.Nodup) (rows : List Fields) :
    (rows.foldl withKeys found).Nodup := by
  induction rows generalizing found with
  | nil => exact h
  | cons row rows ih => exact ih (nodup_withKeys h row)

theorem nodup_columns (rows : List Fields) : (Table.columns rows).Nodup := by
  rw [columns_eq]
  exact nodup_foldl_withKeys (by decide) rows

theorem mem_columns_of_mem {k : String} {v : Value} (hrow : row ∈ rows) (h : (k, v) ∈ row) :
    k ∈ Table.columns rows := by
  rw [columns_eq]
  exact mem_foldl_withKeys.mpr (.inr ⟨row, hrow, List.mem_map_of_mem h⟩)

/-- Cells under some columns are those of a row: each value of the row stands under its key, and
under every other column stands null. -/
structure Holds (columns : List String) (row : Fields) (cells : List Value) : Prop where
  length : cells.length = columns.length
  given : ∀ k v, (k, v) ∈ row → ∃ i : Nat, columns[i]? = some k ∧ cells[i]? = some v
  lacking : ∀ (i : Nat) (k : String), columns[i]? = some k → k ∉ row.map (·.1) →
    cells[i]? = some .null

theorem getElem?_cellsUnder {i : Nat} {k : String} (h : columns[i]? = some k) (row : Fields) :
    (cellsUnder columns row)[i]? = some (Value.orNull (row.get? k)) := by
  rw [cellsUnder, List.getElem?_map, h]
  rfl

theorem holds_cellsUnder (hkeys : (row.map (·.1)).Nodup)
    (hcolumns : ∀ k v, (k, v) ∈ row → k ∈ columns) :
    Holds columns row (cellsUnder columns row) where
  length := List.length_map _
  given k v hv := by
    obtain ⟨i, hi⟩ := List.mem_iff_getElem?.mp (hcolumns k v hv)
    refine ⟨i, hi, ?_⟩
    rw [getElem?_cellsUnder hi, Fields.get?_of_mem hkeys hv]
    rfl
  lacking i k hi hk := by
    rw [getElem?_cellsUnder hi, Fields.get?_eq_none_iff.mpr hk]
    rfl

theorem holds_rows (entities : List Entity) :
    List.Forall₂ (Holds (Table.columns (Table.rows entities))) (Table.rows entities)
      ((Table.rows entities).map (cellsUnder (Table.columns (Table.rows entities)))) := by
  rw [List.forall₂_map_right_iff, List.forall₂_same]
  intro row hrow
  obtain ⟨e, -, rfl⟩ := List.mem_map.mp hrow
  exact holds_cellsUnder (nodup_row e) fun k v => mem_columns_of_mem hrow

end Timeline.Table
