import Timeline.Entity
import Timeline.Path.Basic

/-! # Tables

An entity as a row of a table: one cell for each leaf of its data, under the path of the leaf,
and seven cells for its own parts.
-/

namespace Timeline

namespace Value

/-- Whether a value fits into a list that is shown without brackets. -/
def isSimple : Value → Bool
  | .null => true
  | .bool _ => true
  | .int _ => true
  | .float _ => true
  | .text _ => true
  | _ => false

/-- A value in a list that is shown without brackets; null is left empty. -/
def simpleText : Value → String
  | .null => ""
  | v => v.plain

/-- A value as one cell. A list becomes a text: its items with commas, or its JSON text if it
holds collections, or its literal if it has no JSON form. -/
def cell (v : Value) : Value :=
  match v with
  | .list items =>
    if items.all isSimple then .text (Text.join ", " (items.map simpleText))
    else
      match Json.write Json.compact v with
      | .ok s => .text s
      | .error _ => .text v.literal
  | v => v

end Value

namespace Table

mutual

/-- The cells of the leaves of some fields, each under its path. An empty object is a leaf. -/
def flattenFields (path : String) : List (String × Value) → Fields
  | [] => []
  | (k, v) :: rest => flattenValue (Path.join path k) v ++ flattenFields path rest

def flattenValue (path : String) : Value → Fields
  | .object [] => [(path, .object [])]
  | .object (f :: fs) => flattenFields path (f :: fs)
  | v => [(path, v.cell)]

end

/-- The cells of a value below a path. Only an object has cells below the empty path. -/
def flatten (path : String) (v : Value) : Fields :=
  match v with
  | .object fields => Fields.ofList (flattenFields path fields)
  | v => if path = "" then [] else [(path, v.cell)]

/-- The columns of the own parts of an entity. -/
def entityColumns : List String :=
  ["_id", "_startDate", "_endDate", "_yValue", "_sourceArray", "_sourceFile", "_duration"]

def entityCells (e : Entity) : Fields :=
  [("_id", .text e.id), ("_startDate", .text e.start.text), ("_endDate", .text e.finish.text),
    ("_yValue", e.category.cell), ("_sourceArray", e.array), ("_sourceFile", e.file),
    ("_duration", .int e.duration)]

/-- The row of an entity: the cells of its data, and those of its own parts in their place or
behind them. -/
def row (e : Entity) : Fields :=
  (flatten "" e.data).insertAll (entityCells e)

def rows (entities : List Entity) : List Fields :=
  entities.map row

/-- The columns of rows: those of the own parts first, then the others by their first place. -/
def columns (rows : List Fields) : List String :=
  rows.foldl (fun found r => r.foldl (fun found c => if found.contains c.1 then found
    else found ++ [c.1]) found) entityColumns

/-- The cells of a row under some columns; a column that it lacks is null. -/
def cellsUnder (columns : List String) (row : Fields) : List Value :=
  columns.map fun c => Value.orNull (row.get? c)

end Table

end Timeline
