import Timeline.Extraction.Basic

/-! # Results that are shared

Rules that write one after another into one result. What a run through an array warns of is in the
result at once, its entities only if it comes to the end.
-/

namespace Timeline

namespace Rule

/-- A run that adds its warnings to a result that is passed in. -/
structure Tally where
  passed : Extraction
  entities : List Entity
  failure : Option Failure

/-- The next item of a run: its entity is found, or its warning is passed on. A run that has failed
goes no further. -/
def tallyItem (r : Rule) (file : Value) (t : Tally) (p : Value × Nat) : Tally :=
  match t.failure with
  | some _ => t
  | none =>
    match r.build file p.1 p.2 with
    | .error f => { t with failure := some f }
    | .ok (.ok e) => { t with entities := t.entities ++ [e] }
    | .ok (.error reason) => { t with passed := t.passed ++ r.skip file p.2 reason }

def tally (r : Rule) (file : Value) (passed : Extraction) (items : List Value) : Tally :=
  items.zipIdx.foldl (r.tallyItem file) ⟨passed, [], none⟩

/-- A rule runs through its array with a result that is passed in. The warnings are in it at once,
the entities only if the rule comes to the end. -/
def itemsInto (r : Rule) (file : Value) (passed : Extraction) (items : List Value) : Extraction :=
  let t := r.tally file passed items
  match t.failure with
  | none => { t.passed with entities := t.passed.entities ++ t.entities }
  | some failure => t.passed ++ r.giveUp file failure

/-- A rule writes what it finds in a document into a result that is passed in. -/
def extractInto (r : Rule) (file document : Value) (passed : Extraction) : Extraction :=
  match r.malformedPath? with
  | .error failure => passed ++ r.giveUp file failure
  | .ok (some (label, path, problems)) => passed ++ r.malformedWarning file label path problems
  | .ok none =>
    match Path.resolveAt document r.array with
    | .error failure => passed ++ r.giveUp file failure
    | .ok (some (.list items)) => r.itemsInto file passed items
    | .ok _ =>
      passed ++ .report .debug
        s!"Rule {r.name.plain}: no array at '{r.array.plain}' in {file.plain}"

end Rule

def Extraction.writtenBy (file document : Value) (rules : List Rule) : Extraction :=
  rules.foldl (fun shared r => r.extractInto file document shared) empty

end Timeline
