import Timeline.Entity
import Timeline.Path.Resolve
import Timeline.Text.Casing

/-! # Filters

A filter keeps the entities that lie in a window of time, come from chosen arrays and have values
in their columns that match. An empty choice and an empty value keep everything.
-/

namespace Timeline

/-- A span of time. Spans that are read from values may lack an end. -/
structure Window where
  start : Option Instant
  finish : Option Instant
deriving DecidableEq, Repr

namespace Window

def kindOf (t : Option Instant) : Kind :=
  if t.isSome then .moment else .null

/-- Whether the first instant is not after the second; a missing one has no order. -/
def atMost : Option Instant → Option Instant → Except Failure Bool
  | some a, some b => .ok (a ≤ b)
  | a, b => .error (.unordered "<=" (kindOf a) (kindOf b))

def atLeast : Option Instant → Option Instant → Except Failure Bool
  | some a, some b => .ok (b ≤ a)
  | a, b => .error (.unordered ">=" (kindOf a) (kindOf b))

def overlaps (w : Window) (start finish : Option Instant) : Except Failure Bool := do
  if ← atMost start w.finish then atLeast finish w.start else return false

end Window

namespace Value

def elements : Value → Except Failure (List Value)
  | .list items => .ok items
  | .tuple items => .ok items
  | .set items => .ok items
  | .text s => .ok (s.toList.map fun c => .text (String.ofList [c]))
  | .object fields => .ok (fields.map fun f => .text f.1)
  | v => .error (.notIterable v.kind)

/-- Whether a value is an element of another one; in a text, whether it is a part of it. -/
def isElementOf (v container : Value) : Except Failure Bool :=
  match container with
  | .list items => .ok (v.isIn items)
  | .tuple items => .ok (v.isIn items)
  | .set items =>
    match v.unhashable? with
    | some kind => .error (.unhashable kind)
    | none => .ok (v.isIn items)
  | .object fields =>
    match v.unhashable? with
    | some kind => .error (.unhashable kind)
    | none => .ok (v.isIn (fields.map fun f => .text f.1))
  | .text s =>
    match v with
    | .text part => .ok (Text.occursIn part.toList s.toList)
    | v => .error (.notPartOfText v.kind)
  | container => .error (.notSearchable container.kind)

/-- The binary64 number of a number or of a text that writes one. -/
def toDouble? : Value → Except Failure (Option Double)
  | .int n =>
    if (Double.ofInt n).isFinite then .ok (some (Double.ofInt n)) else .error .integerTooLarge
  | .float x => .ok (some x)
  | .text s => .ok (readDouble? s.toList)
  | _ => .ok none

def sameIdentifier (v w : Value) : Except Failure Bool := do
  return (← v.identifier) == (← w.identifier)

def hasNumber (v : Value) (n : Number) : Except Failure Bool := do
  match ← v.toDouble? with
  | some x => return (Number.float x).same n
  | none => return false

/-- Whether a value matches the value of a filter: texts are looked for in any case, numbers are
compared by value, collections are searched, and all else is compared by identifier. -/
def hits (v wanted : Value) : Except Failure Bool :=
  match v, wanted with
  | .null, _ => .ok false
  | v, .text s => do
    return Text.occursIn (Text.lower s).toList (Text.lower (← v.identifier)).toList
  | v, .bool b => sameIdentifier v (.bool b)
  | v, .int n => hasNumber v (.int n)
  | v, .float x => hasNumber v (.float x)
  | .moment m, .moment n => .ok (m.same n)
  | _, .moment _ => .ok false
  | v, .list items => .ok (v.isIn items)
  | v, .tuple items => .ok (v.isIn items)
  | v, .set items => .ok (v.unhashable?.isNone && v.isIn items)
  | v, wanted => sameIdentifier v wanted

def matchesFilter (v : Option Value) (wanted : Value) : Except Failure Bool :=
  match v with
  | none => .ok false
  | some v => v.hits wanted

end Value

def entityColumns : List String :=
  ["id", "startDate", "endDate", "yValue", "sourceArray", "sourceFile"]

namespace Entity

def ownColumn? (e : Entity) (column : String) : Option Value :=
  match column with
  | "id" => some (.text e.id)
  | "startDate" => some (.moment (.ofInstant e.start))
  | "endDate" => some (.moment (.ofInstant e.finish))
  | "yValue" => some e.category
  | "sourceArray" => some e.array
  | "sourceFile" => some e.file
  | _ => none

/-- The value of an entity in a column: one of its own, or else a path in its data. -/
def column (e : Entity) (column : String) : Except Failure (Option Value) :=
  match e.ownColumn? column with
  | some v => .ok (some v)
  | none => Path.resolve e.data column

end Entity

/-- What entities are kept. -/
structure Filter where
  columns : Fields
  window : Option Window
  arrays : Value

namespace Filter

def everything : Filter := ⟨[], none, .list []⟩

def isEmptyValue (v : Value) : Bool :=
  v.isNull || v.same (.text "")

def activeColumns (f : Filter) : Fields :=
  f.columns.filter fun c => !isEmptyValue c.2

def keepsTime (f : Filter) (e : Entity) : Except Failure Bool :=
  match f.window with
  | none => .ok true
  | some w => w.overlaps (some e.start) (some e.finish)

def keepsArray (f : Filter) (e : Entity) : Except Failure Bool :=
  if f.arrays.truthy then e.array.isElementOf f.arrays else .ok true

def keepsColumn (column : String) (wanted : Value) (e : Entity) : Except Failure Bool := do
  Value.matchesFilter (← e.column column) wanted

def applyColumns : List (String × Value) → List Entity → Except Failure (List Entity)
  | [], entities => .ok entities
  | (column, wanted) :: rest, entities => do
    applyColumns rest (← entities.filterM (keepsColumn column wanted))

/-- The entities that a filter keeps: by time, then by array, then by each column. -/
def apply (f : Filter) (entities : List Entity) : Except Failure (List Entity) := do
  let inTime ← entities.filterM f.keepsTime
  let chosen ← inTime.filterM f.keepsArray
  applyColumns f.activeColumns chosen

end Filter

end Timeline
