import Timeline.Table
import Timeline.View
import Timeline.Workbench.Rules

/-! # Queries at the workbench

A query is what has been typed and chosen to narrow down the view. It gives a filter, and with it
a table of the entities that are shown.
-/

namespace Timeline

/-- The items that are chosen by a value; a value that does not count as given chooses none. -/
def Value.chosen (v : Value) : Except Failure (List Value) :=
  if v.truthy then v.elements else .ok []

structure Query where
  files : Value
  arrays : Value
  column : Value
  value : Value
  start : Value
  finish : Value

namespace Query

/-- The filter of a column: none without a column or with an empty value. -/
def columns (q : Query) : Except Failure Fields :=
  if q.column.truthy && !Filter.isEmptyValue q.value then
    match q.column.unhashable? with
    | some kind => .error (.unhashable kind)
    | none => .ok [(q.column.plain, q.value)]
  else .ok []

/-- The window of time: if one end is not given, it is the other one. -/
def window (q : Query) : Except Failure (Option Window) :=
  if q.start.truthy || q.finish.truthy then do
    let start ← q.start.instant
    let finish ← q.finish.instant
    if (q.start.truthy && start.isNone) || (q.finish.truthy && finish.isNone) then
      throw .badDateRange
    return some ⟨start.or finish, finish.or start⟩
  else .ok none

def filter (q : Query) : Except Failure Filter := do
  let columns ← q.columns
  let window ← q.window
  return ⟨columns, window, .list (← q.arrays.chosen)⟩

end Query

/-- A table of entities with its columns, if there are any, and what is said about it. -/
structure Shown where
  table : Option (List String × List (List Value))
  status : String

namespace Shown

/-- Whether a failure is a fault of something typed in. It is then what is said instead of a
table. -/
def isTyped : Failure → Bool
  | .tooManyDigits _ => true
  | .badDateRange => true
  | .rules _ => true
  | _ => false

/-- The table of entities that a view has chosen among all of them. -/
def ofView (entities : List Entity) (view : View) : Shown :=
  match Table.rows view.entities with
  | [] => ⟨none, "No entities match the current filters."⟩
  | rows =>
    let columns := Table.columns rows
    ⟨some (columns, rows.map (Table.cellsUnder columns)),
      s!"Showing {rows.length} of {entities.length} entities."⟩

def byFilter (entities : List Entity) (files : Value) (rules : List Rule) (filter : Filter) :
    Journaled Shown := do
  let files ← files.chosen
  let view ← View.make entities (Rule.shown rules entities) files filter
  return ofView entities view

/-- The rules in the text of an editor and the filter of a query. -/
def inputs (text : String) (q : Query) : Journaled (List Rule × Filter) := do
  let rules ← Rule.ofEditor text
  return (rules, ← q.filter)

/-- The table of the entities that the text of an editor and a query choose. -/
def ofQuery (entities : List Entity) (text : String) (q : Query) : Journaled Shown :=
  let read := inputs text q
  match read.outcome with
  | .error f => if isTyped f then ⟨.ok ⟨none, f.message⟩, read.journal⟩
    else ⟨.error f, read.journal⟩
  | .ok _ => do
    let (rules, filter) ← read
    byFilter entities q.files rules filter

end Shown

end Timeline
