import Timeline.Path.Basic

/-! # Paths from values of any kind

Keys and paths that may be other values than texts: a key is written as its plain text, and null
is the path without segments.
-/

namespace Timeline.Path

def escapeValue (key : Value) : String :=
  escape key.plain

/-- The path of a key below a path, where a parent that does not count as given is none. -/
def joinValue (parent key : Value) : String :=
  join (if parent.truthy then parent.plain else "") key.plain

def splitValue (path : Value) : List String :=
  if path.isNull then [] else split path.plain

/-- The key that is written as a value. Only texts and null write one. -/
def unescapeValue (v : Value) : Except Failure String :=
  match v with
  | .text s => .ok (unescape s)
  | .null => .ok ""
  | v => .error (.noLength v.kind)

/-- The step that a value writes. A collection is a key itself, and of the other values only texts
write a step. -/
def Step.readValue (segment : Value) : Except Failure (Option (Value × Option Nat)) :=
  match segment with
  | .text s => do return (← Step.read s).map fun step => (.text step.key, step.index)
  | .list _ => .ok (some (segment, none))
  | .object _ => .ok (some (segment, none))
  | v => .error (.notSearchable v.kind)

end Timeline.Path
