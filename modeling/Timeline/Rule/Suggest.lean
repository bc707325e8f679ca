import Timeline.Detection
import Timeline.Path.Survey
import Timeline.Rule.Basic

/-! # Suggesting rules

A rule for every array of a document whose first item has a date field. It has the name of the
key of the array, or the path of the array if a rule of that name has been suggested already.
-/

namespace Timeline.Rule

/-- An array that a rule may be suggested for, with its first item. -/
structure Candidate where
  key : String
  path : String
  first : Value

mutual

/-- The arrays among the fields of an object and of the objects in it, but the empty ones. -/
def candidatesIn (path : String) : List (String × Value) → List Candidate
  | [] => []
  | (k, v) :: rest => candidatesAt k (Path.join path k) v ++ candidatesIn path rest

def candidatesAt (key path : String) : Value → List Candidate
  | .list (first :: _) => [⟨key, path, first⟩]
  | .object fields => candidatesIn path fields
  | _ => []

end

def candidates (document : Value) : List Candidate :=
  match document with
  | .object fields => candidatesIn "" fields
  | .list (first :: _) => [⟨"root", Path.root, first⟩]
  | _ => []

/-- The rule for an array, if its first item has a date field. -/
def ofCandidate (name : String) (color : Value) (c : Candidate) :
    Except Failure (Option Rule) := do
  match ← c.first.dates? with
  | none => return none
  | some keys =>
    let fields := c.first.fields
    return some {
      name := .text name
      array := .text c.path
      start := .text keys.start
      finish := .text keys.finish
      color := color
      enabled := .bool true
      category := (fields.category?.or fields.numeric.head?).map .text
      id := fields.id?.map .text }

/-- A color by its number; the colors are used in turn. -/
def colorAt (palette : List Value) (n : Nat) : Except Failure Value :=
  match palette[n % palette.length]? with
  | some color => .ok color
  | none => .error .emptyPalette

/-- The name for the rule of an array: its key, or its path if the key is taken. -/
def nameFor (taken : List Rule) (c : Candidate) : String :=
  if taken.any (fun r => r.name.same (.text c.key)) then c.path else c.key

/-- The rules for arrays, behind those suggested already. -/
def suggestFrom (palette : List Value) (found : List Rule) :
    List Candidate → Except Failure (List Rule)
  | [] => .ok found
  | c :: rest => do
    let color ← colorAt palette found.length
    let rule ← ofCandidate (nameFor found c) color c
    suggestFrom palette (found ++ rule.toList) rest

/-- The colors of a choice, or the usual ones if it is empty. -/
def paletteOr (usual chosen : List Value) : List Value :=
  if chosen.isEmpty then usual else chosen

def suggest (palette : List Value) (document : Value) : Except Failure (List Rule) :=
  suggestFrom palette [] (candidates document)

end Timeline.Rule
