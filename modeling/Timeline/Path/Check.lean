import Timeline.Path.Resolve

/-! # Checking paths

What keeps a path from being resolved in any document, and the stricter style that is advised
for the paths of rules.
-/

namespace Timeline.Path

inductive Problem where
  /-- It is empty or no text. -/
  | noText
  /-- It has no segment. -/
  | noKey
  /-- A segment has brackets, but not the form of a key with an index. -/
  | malformedIndex (segment : String)
  /-- It holds a character that is not advised. -/
  | unusualCharacter
  /-- It has more brackets of one kind than of the other. -/
  | unmatchedBrackets
  /-- Two points follow each other. -/
  | doublePoint
  /-- A point stands at an end. -/
  | pointAtEnd
deriving DecidableEq, Repr

def Problem.message : Problem → String
  | .noText => "Path must be a non-empty string"
  | .noKey => "Path must contain at least one key"
  | .malformedIndex segment =>
    s!"Invalid array access '{segment}'; use name[index] with a non-negative integer"
  | .unusualCharacter =>
    "Path contains invalid characters. Use only letters, numbers, underscores, hyphens, dots, " ++
      "and square brackets"
  | .unmatchedBrackets => "Unmatched square brackets in path"
  | .doublePoint => "Path cannot contain consecutive dots"
  | .pointAtEnd => "Path cannot start or end with a dot"

def malformed : List String → Except Failure (List Problem)
  | [] => .ok []
  | segment :: rest => do
    let found := if (← Step.read segment).isNone then [Problem.malformedIndex segment] else []
    return found ++ (← malformed rest)

/-- What keeps a path from being resolved. -/
def structureProblems (path : Value) : Except Failure (List Problem) :=
  match path with
  | .text "" => .ok [.noText]
  | .text s =>
    if s = root then .ok []
    else
      match split s with
      | [] => .ok [.noKey]
      | segments => malformed segments
  | _ => .ok [.noText]

def isUsual (c : Char) : Bool :=
  ('A' ≤ c && c ≤ 'Z') || ('a' ≤ c && c ≤ 'z') || ('0' ≤ c && c ≤ '9') || c = '_' || c = '-' ||
    c = '.' || c = '[' || c = ']' || c = '\\'

/-- Whether a path has advised characters only; a line end behind them is passed over. -/
def hasUsualCharacters (cs : List Char) : Bool :=
  let body := if cs.getLast? = some '\n' then cs.dropLast else cs
  !body.isEmpty && body.all isUsual

/-- The problem with the brackets of a path: their numbers, or else the segments around them. -/
def bracketProblems (s : String) : Except Failure (List Problem) :=
  let cs := s.toList
  if cs.count '[' ≠ cs.count ']' then .ok [.unmatchedBrackets]
  else if cs.contains '[' then malformed (split s)
  else .ok []

def styleProblems (path : Value) : Except Failure (List Problem) :=
  match path with
  | .text "" => .ok [.noText]
  | .text s =>
    if s = root then .ok []
    else do
      let cs := s.toList
      let characters := if hasUsualCharacters cs then [] else [Problem.unusualCharacter]
      let brackets ← bracketProblems s
      let doubled := if Text.occursIn ['.', '.'] cs then [Problem.doublePoint] else []
      let ends :=
        if cs.head? = some '.' ∨ cs.getLast? = some '.' then [Problem.pointAtEnd] else []
      return characters ++ brackets ++ doubled ++ ends
  | _ => .ok [.noText]

end Timeline.Path
