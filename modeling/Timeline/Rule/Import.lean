import Timeline.Journal
import Timeline.Rule.Validity

/-! # Importing rules

A rule set is a JSON list of objects, or an object with such a list as its configurations.
Entries that are no rules are passed over. Of the rules with one name the last one counts, at the
place of the first.
-/

namespace Timeline.Rule

/-- Puts a rule in the place of the first one with its name, or at the end. -/
def put (r : Rule) : List Rule → List Rule
  | [] => [r]
  | s :: rest => if s.name.same r.name then r :: rest else s :: put r rest

/-- The rules of a list with distinct names, each at its first place and with its last value. -/
def lastOfName (rules : List Rule) : List Rule :=
  rules.foldl (fun kept r => put r kept) []

def distinct (rules : List Rule) : Except Failure (List Rule) :=
  match rules.findSome? (·.name.unhashable?) with
  | some kind => .error (.unhashable kind)
  | none => .ok (lastOfName rules)

def entries (v : Value) : Except Failure (List Value) :=
  let found := match v with
    | .object fields => Value.orNull (Fields.get? fields "configurations")
    | v => v
  match found with
  | .list items => .ok items
  | _ => .error (.rules .noList)

def validEntries (items : List Value) : List Value :=
  items.filter fun v => (problems v).isEmpty

def ofEntries : List Value → Except Failure (List Rule)
  | [] => .ok []
  | v :: rest => do return (← ofFields v.fields) :: (← ofEntries rest)

/-- The report of an entry that is passed over, with its place. -/
def ignored (index : Nat) (v : Value) : List Entry :=
  match problems v with
  | [] => []
  | found =>
    let causes := Text.join "; " (found.map (·.message))
    [⟨.warning, .rules, s!"Ignoring configuration {index}: {causes}"⟩]

def allIgnored (items : List Value) : List Entry :=
  (items.zipIdx.map fun (v, index) => ignored index v).flatten

def readSet (s : String) : Except Failure Value :=
  match Json.read s.toList with
  | .ok v => .ok v
  | .error (.fault f) => .error (.rules (.notJson f))
  | .error (.tooManyDigits n) => .error (.tooManyDigits n)

def ofSet (items : List Value) : Except Failure (List Rule) :=
  match validEntries items with
  | [] => .error (.rules .noRule)
  | valid => do distinct (← ofEntries valid)

def parse (s : String) : Journaled (List Rule) := do
  let v ← readSet s
  let items ← entries v
  Journaled.report (allIgnored items)
  ofSet items

def parseValue (v : Value) : Journaled (List Rule) :=
  match v with
  | .text s => parse s
  | v => .ofExcept (.error (.rules (.notText v.kind)))

end Timeline.Rule
