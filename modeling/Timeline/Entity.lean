import Timeline.Json.Writer
import Timeline.Time.Reading

/-! # Entities

An entity is an event with a start and an end, found in an array of a document. A draft has the
same fields with any values in them; an entity is written as an object and read back from one.
-/

namespace Timeline

namespace Value

/-- The text of a value in identifiers and filters: the canonical JSON text of lists and objects
and of what JSON has words for, else the plain text. -/
def identifier (v : Value) : Except Failure String :=
  match v with
  | .null => Json.write Json.canonical v
  | .bool _ => Json.write Json.canonical v
  | .list _ => Json.write Json.canonical v
  | .object _ => Json.write Json.canonical v
  | v => .ok v.plain

end Value

/-- An event. The array is the name of the rule or the path that found it. -/
structure Entity where
  id : String
  start : Instant
  finish : Instant
  array : Value
  file : Value
  data : Value
  category : Value
deriving Repr

namespace Entity

structure Key where
  file : Value
  array : Value
  id : String

def key (e : Entity) : Key :=
  ⟨e.file, e.array, e.id⟩

def Key.same (a b : Key) : Bool :=
  a.file.same b.file && a.array.same b.array && a.id == b.id

def Key.unhashable? (k : Key) : Option Kind :=
  k.file.unhashable?.or k.array.unhashable?

/-- The length of an entity in whole milliseconds, by way of binary64 seconds and cut off. -/
def duration (e : Entity) : Int :=
  let micros := e.finish.micros - e.start.micros
  ((Double.ofRatio (micros < 0) micros.natAbs 1000000).mulNat 1000).truncate

def toFields (e : Entity) : Fields :=
  [("id", .text e.id), ("startDate", .text e.start.text), ("endDate", .text e.finish.text),
    ("sourceArray", e.array), ("sourceFile", e.file), ("originalData", e.data)] ++
    (if e.category.isNull then [] else [("yValue", e.category)])

def field (fields : Fields) (key : String) : Except Failure Value :=
  match fields.get? key with
  | some v => .ok v
  | none => .error (.missingField key)

/-- The entity of an object. Without an end that is a date it ends when it starts. -/
def ofFields (fields : Fields) : Except Failure Entity := do
  let start ← (← field fields "startDate").instant
  let finish ← (Value.orNull (fields.get? "endDate")).instant
  match start with
  | none => .error (.noStart (Value.orNull (fields.get? "id")))
  | some start => do
    let id ← field fields "id"
    let array ← field fields "sourceArray"
    let file ← field fields "sourceFile"
    return {
      id := id.plain
      start := start
      finish := finish.getD start
      array := array
      file := file
      data := Value.orNull (fields.get? "originalData")
      category := Value.orNull (fields.get? "yValue") }

end Entity

/-- The fields of an entity before anything is known about them. -/
structure Draft where
  id : Value
  start : Value
  finish : Value
  array : Value
  file : Value
  data : Value
  category : Value

namespace Draft

def ofEntity (e : Entity) : Draft where
  id := .text e.id
  start := .moment (.ofInstant e.start)
  finish := .moment (.ofInstant e.finish)
  array := e.array
  file := e.file
  data := e.data
  category := e.category

def entity? (d : Draft) : Option Entity :=
  match d.id, d.start, d.finish with
  | .text id, .moment start, .moment finish => do
    let start ← start.toInstant?
    let finish ← finish.toInstant?
    return ⟨id, start, finish, d.array, d.file, d.data, d.category⟩
  | _, _, _ => none

inductive Problem where
  | id
  | start
  | finish
  | order
  | array
  | file
deriving DecidableEq, Repr

def Problem.message : Problem → String
  | .id => "Missing ID"
  | .start => "Invalid start date"
  | .finish => "Invalid end date"
  | .order => "Start date must not be after end date"
  | .array => "Missing source array"
  | .file => "Missing source file"

def isAfter (a b : Moment) : Except Failure Bool :=
  if a.comparable b then .ok (b.utcMicros < a.utcMicros) else .error .mixedZones

def orderProblem (d : Draft) : Except Failure (List Problem) :=
  match d.id.truthy, d.start, d.finish with
  | true, .moment start, .moment finish => do
    return if ← isAfter start finish then [.order] else []
  | _, _, _ => .ok []

def isMoment : Value → Bool
  | .moment _ => true
  | _ => false

/-- What is wrong with a draft: its parts in order, and start and end together if they and the
identity are fine. -/
def problems (d : Draft) : Except Failure (List Problem) := do
  let order ← d.orderProblem
  return (if d.id.truthy then [] else [.id]) ++ (if isMoment d.start then [] else [.start]) ++
    (if isMoment d.finish then [] else [.finish]) ++ order ++
    (if d.array.truthy then [] else [.array]) ++ (if d.file.truthy then [] else [.file])

def validate : List Draft → Except Failure (List Draft × List (Draft × List Problem))
  | [] => .ok ([], [])
  | d :: rest => do
    let found ← d.problems
    let (valid, invalid) ← validate rest
    return if found.isEmpty then (d :: valid, invalid) else (valid, (d, found) :: invalid)

end Draft

end Timeline
