import Timeline.Detection
import Timeline.Entity
import Timeline.Path.Survey

/-! # Detected events

The events of a document without rules: in every array that can be reached through objects, and
through the objects in such arrays, each item with a date field is an event. Its array is named by
its path. The items of a document that is an array itself have no path of their own.
-/

namespace Timeline.Detected

def instantOf (fields : Fields) (key : Option String) : Except Failure (Option Instant) :=
  (Value.orNull (key.bind (Fields.get? fields))).instant

/-- The event of an object with known date fields, if its start is a date. Without an end it ends
when it starts. -/
def event? (fields : Fields) (array : String) (start finish : Option String) (file : Value)
    (index : Nat) : Except Failure (Option Entity) := do
  let first ← instantOf fields start
  let last ← instantOf fields finish
  match first with
  | none => return none
  | some first => do
    let id ←
      match fields.id? with
      | some key => (Value.orNull (Fields.get? fields key)).identifier
      | none => pure (array ++ "-" ++ naturalText index)
    return some {
      id := id
      start := first
      finish := last.getD first
      array := .text array
      file := file
      data := .object fields
      category := Value.orNull (fields.category?.bind (Fields.get? fields)) }

def itemEvent? (array : String) (file : Value) (index : Nat) (item : Value) :
    Except Failure (Option Entity) := do
  match ← item.dates? with
  | none => return none
  | some keys => event? item.fields array (some keys.start) (some keys.finish) file index

def events (array : String) (file : Value) (index : Nat) : List Value → Except Failure (List Entity)
  | [] => .ok []
  | item :: rest => do
    let here ← itemEvent? array file index item
    return here.toList ++ (← events array file (index + 1) rest)

def itemPath (array : String) (index : Nat) : String :=
  if array = Path.root then "" else Path.element array index

mutual

def inFields (file : Value) (path : String) : List (String × Value) → Except Failure (List Entity)
  | [] => .ok []
  | (k, v) :: rest => do
    let here ← inValue file (Path.join path k) v
    return here ++ (← inFields file path rest)

def inValue (file : Value) (path : String) : Value → Except Failure (List Entity)
  | .list items => do
    let own ← events path file 0 items
    return own ++ (← inItems file path 0 items)
  | .object fields => inFields file path fields
  | _ => .ok []

def inItems (file : Value) (path : String) (index : Nat) :
    List Value → Except Failure (List Entity)
  | [] => .ok []
  | .object fields :: rest => do
    let here ← inFields file (itemPath path index) fields
    return here ++ (← inItems file path (index + 1) rest)
  | _ :: rest => inItems file path (index + 1) rest

end

def inDocument (file document : Value) : Except Failure (List Entity) :=
  match document with
  | .object fields => inFields file "" fields
  | v => inValue file Path.root v

end Timeline.Detected
