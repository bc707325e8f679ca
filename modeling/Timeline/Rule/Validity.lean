import Timeline.Path.Check
import Timeline.Rule.Basic

/-! # Valid rules

What keeps an object from being a rule, and notes on the style of the paths of rules.
-/

namespace Timeline.Rule

inductive Problem where
  /-- It is no object. -/
  | noObject
  /-- A part is missing or no text. -/
  | missing (label : String)
  /-- The color is missing or no text. -/
  | noColor
  /-- The color is not a sharp sign and six hexadecimal digits. -/
  | badColor
  /-- The flag is no boolean. -/
  | badFlag
  /-- A part that may be missing is there and no text. -/
  | noText (label : String)
deriving DecidableEq, Repr

def Problem.message : Problem → String
  | .noObject => "Configuration must be an object"
  | .missing label => s!"{label} is required and must be a string"
  | .noColor => "Color is required and must be a string"
  | .badColor => "Color must be a valid hex color (e.g., #1f77b4)"
  | .badFlag => "Enabled flag must be a boolean"
  | .noText label => s!"{label} must be a string if provided"

def isGivenText : Value → Bool
  | .text s => s != ""
  | _ => false

/-- A sharp sign and six hexadecimal digits, with maybe a line end behind them. -/
def isHexColor (s : String) : Bool :=
  match s.toList with
  | '#' :: cs =>
    let body := if cs.getLast? = some '\n' then cs.dropLast else cs
    body.length = 6 && body.all fun c => (Text.hexDigit? c).isSome
  | _ => false

def requiredProblems (fields : Fields) (key label : String) : List Problem :=
  if isGivenText (Value.orNull (fields.get? key)) then [] else [.missing label]

def colorProblems (fields : Fields) : List Problem :=
  match Value.orNull (fields.get? "color") with
  | .text s => if s = "" then [.noColor] else if isHexColor s then [] else [.badColor]
  | _ => [.noColor]

def flagProblems (fields : Fields) : List Problem :=
  match Value.orNull (fields.get? "enabled") with
  | .bool _ => []
  | _ => [.badFlag]

def optionalProblems (fields : Fields) (key label : String) : List Problem :=
  match Value.orNull (fields.get? key) with
  | .null => []
  | .text _ => []
  | _ => [.noText label]

/-- What is wrong with a value that should be the object form of a rule. -/
def problems (v : Value) : List Problem :=
  match v with
  | .object fields =>
    requiredProblems fields "name" "Configuration name" ++
      requiredProblems fields "arrayPath" "Array path" ++
      requiredProblems fields "startDatePath" "Start date path" ++
      requiredProblems fields "endDatePath" "End date path" ++
      colorProblems fields ++ flagProblems fields ++
      optionalProblems fields "yAxisPath" "Y-axis path" ++
      optionalProblems fields "idPath" "ID path"
  | _ => [.noObject]

/-- Whether a value is the object form of a rule, and what keeps it from being one. -/
structure Verdict where
  isValid : Bool
  problems : List Problem
deriving DecidableEq, Repr

def validate (v : Value) : Verdict :=
  let found := problems v
  ⟨found.isEmpty, found⟩

def noteText (r : Rule) (label : String) (path : Value) (problem : Path.Problem) : String :=
  s!"{r.name.plain}: {label} {path.literal}: {problem.message}"

/-- The note on a path of a rule: the first thing about it that is not advised. -/
def pathNote (r : Rule) (label : String) (path : Value) : Except Failure (List String) := do
  match ← Path.styleProblems path with
  | [] => return []
  | problem :: _ => return [r.noteText label path problem]

def notes (r : Rule) : Except Failure (List String) := do
  return (← r.pathNote "array path" r.array) ++ (← r.pathNote "start date path" r.start) ++
    (← r.pathNote "end date path" r.finish)

def allNotes : List Rule → Except Failure (List String)
  | [] => .ok []
  | r :: rest => do return (← r.notes) ++ (← allNotes rest)

end Timeline.Rule
