import Timeline.Journal
import Timeline.Path.Check
import Timeline.Rule.Basic

/-! # Warnings

What extraction leaves out, and why.
-/

namespace Timeline

/-- What is left out: an item of an array, the array of a rule, or a file. -/
inductive Scope where
  | item
  | rule
  | file
deriving DecidableEq, Repr

inductive Skipped where
  /-- There is nothing at the path of the start. -/
  | absent (path : Value)
  /-- What is there is no date. -/
  | noDate (v : Value)

def Skipped.message : Skipped → String
  | .absent path => s!"no value at '{path.plain}'"
  | .noDate v => s!"unparseable start date {v.literal}"

inductive Cause where
  /-- An item has no start. -/
  | skipped (reason : Skipped)
  /-- A path of a rule is malformed. -/
  | malformed (label : String) (path : Value) (problems : List Path.Problem)
  /-- Following a rule has failed. -/
  | failed (failure : Failure)
  /-- A file cannot be loaded. -/
  | unloaded (failure : LoadFailure)

def Cause.scope : Cause → Scope
  | .skipped _ => .item
  | .malformed .. => .rule
  | .failed _ => .rule
  | .unloaded _ => .file

def Cause.message : Cause → String
  | .skipped reason => s!"Skipped item: {reason.message}"
  | .malformed label path problems =>
    let found := Text.join "; " (problems.map (·.message))
    s!"Invalid {label} {path.literal}: {found}"
  | .failed failure => s!"Extraction failed: {failure.message}"
  | .unloaded failure => failure.message

structure Warning where
  cause : Cause
  file : Value
  array : Option Value
  index : Option Nat

namespace Warning

/-- Puts texts behind a value, which has to be a text if there are any. -/
def joined (start : Value) (parts : List String) : Except Failure String :=
  match start, parts with
  | .text s, parts => .ok (s ++ String.join parts)
  | v, [] => .ok v.plain
  | v, _ :: _ => .error (.notJoinable v.kind)

def text (w : Warning) : Except Failure String := do
  let array := Value.orNull w.array
  let parts := (if array.truthy then [":" ++ array.plain] else []) ++
    (w.index.map fun n => "[" ++ naturalText n ++ "]").toList
  let place ← joined w.file parts
  return s!"{place}: {w.cause.message}"

def texts : List Warning → Except Failure (List String)
  | [] => .ok []
  | w :: rest => do return (← w.text) :: (← texts rest)

end Warning

end Timeline
