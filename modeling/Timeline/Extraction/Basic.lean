import Timeline.Extraction.Warning

/-! # Extraction by rules

The entities that a rule finds in a document: one for each item of its array that has a start.
What is left out is reported as warnings, and a failure in the middle of an array costs the
entities of this rule, not those of others.
-/

namespace Timeline

/-- Entities and warnings, with what was reported on the way. -/
structure Extraction where
  entities : List Entity
  warnings : List Warning
  journal : List Entry

namespace Extraction

def empty : Extraction := ⟨[], [], []⟩

instance : Append Extraction where
  append x y := ⟨x.entities ++ y.entities, x.warnings ++ y.warnings, x.journal ++ y.journal⟩

def concat (xs : List Extraction) : Extraction :=
  xs.foldr (· ++ ·) empty

def report (level : Level) (message : String) : Extraction :=
  ⟨[], [], [⟨level, .extraction, message⟩]⟩

def warn (warning : Warning) (level : Level) (message : String) : Extraction :=
  ⟨[], [warning], [⟨level, .extraction, message⟩]⟩

end Extraction

namespace Rule

def instantAt (item path : Value) : Except Failure (Option Instant) := do
  match ← Path.resolveAt item path with
  | none => return none
  | some v => v.instant

def categoryOf (r : Rule) (item : Value) : Except Failure Value :=
  match r.category.bind (·.ifTruthy) with
  | none => .ok .null
  | some path => do return Value.orNull (← Path.resolveAt item path)

/-- The identity of an item: the value at its path if it counts as given, else the name of the
rule with the index of the item. -/
def idOf (r : Rule) (item : Value) (index : Nat) : Except Failure String := do
  let found ←
    match r.id.bind (·.ifTruthy) with
    | none => pure none
    | some path => Path.resolveAt item path
  match found.bind (·.ifTruthy) with
  | some v => v.identifier
  | none => return r.name.plain ++ "-" ++ naturalText index

/-- The entity of an item that starts at an instant. -/
def entityFrom (r : Rule) (file item : Value) (index : Nat) (start : Instant) :
    Except Failure Entity := do
  let finish ← instantAt item r.finish
  let category ← r.categoryOf item
  let id ← r.idOf item index
  return {
    id := id
    start := start
    finish := finish.getD start
    array := r.name
    file := file
    data := item
    category := category }

def build (r : Rule) (file item : Value) (index : Nat) :
    Except Failure (Except Skipped Entity) := do
  match ← Path.resolveAt item r.start with
  | none => return .error (.absent r.start)
  | some v =>
    match ← v.instant with
    | none => return .error (.noDate v)
    | some start => return .ok (← r.entityFrom file item index start)

def skip (r : Rule) (file : Value) (index : Nat) (reason : Skipped) : Extraction :=
  .warn ⟨.skipped reason, file, some r.name, some index⟩ .warning
    s!"Skipping item {index} in {r.name.plain} ({file.plain}): {reason.message}"

/-- What a run through the items of an array gives, and the failure that ended it early. -/
structure Run where
  found : Extraction
  failure : Option Failure

def collect (r : Rule) (file : Value) (index : Nat) : List Value → Run
  | [] => ⟨.empty, none⟩
  | item :: rest =>
    match r.build file item index with
    | .error e => ⟨.empty, some e⟩
    | .ok built =>
      let here : Extraction := match built with
        | .ok e => ⟨[e], [], []⟩
        | .error reason => r.skip file index reason
      let later := r.collect file (index + 1) rest
      ⟨here ++ later.found, later.failure⟩

/-- The problems of the first of the paths of a rule that cannot be resolved. -/
def malformedPath? (r : Rule) : Except Failure (Option (String × Value × List Path.Problem)) := do
  match ← Path.structureProblems r.array with
  | [] =>
    match ← Path.structureProblems r.start with
    | [] => return none
    | found => return some ("start date path", r.start, found)
  | found => return some ("array path", r.array, found)

/-- What a failure leaves of a rule: its warnings, and one about the failure. -/
def giveUp (r : Rule) (file : Value) (failure : Failure) : Extraction :=
  .warn ⟨.failed failure, file, some r.name, none⟩ .error
    s!"Failed to extract data for rule {r.name.plain} in {file.plain}"

def extractItems (r : Rule) (file : Value) (items : List Value) : Extraction :=
  let run := r.collect file 0 items
  match run.failure with
  | none => run.found
  | some failure => { run.found with entities := [] } ++ r.giveUp file failure

def malformedWarning (r : Rule) (file : Value) (label : String) (path : Value)
    (problems : List Path.Problem) : Extraction :=
  let cause := Cause.malformed label path problems
  .warn ⟨cause, file, some r.name, none⟩ .warning
    s!"Rule {r.name.plain} skipped for {file.plain}: {cause.message}"

def extract (r : Rule) (file document : Value) : Extraction :=
  match r.malformedPath? with
  | .error failure => r.giveUp file failure
  | .ok (some (label, path, problems)) => r.malformedWarning file label path problems
  | .ok none =>
    match Path.resolveAt document r.array with
    | .error failure => r.giveUp file failure
    | .ok (some (.list items)) => r.extractItems file items
    | .ok _ =>
      .report .debug
        s!"Rule {r.name.plain}: no array at '{r.array.plain}' in {file.plain}"

end Rule

end Timeline
