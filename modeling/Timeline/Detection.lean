import Timeline.Text.Casing
import Timeline.Time.Reading

/-! # Detecting fields

Which fields of an object hold its start, its end, its identity and its category. Keywords and
keys are compared in lower case, and the keywords are tried in order: the first match wins.
-/

namespace Timeline

/-- Keys that name the start of an event. -/
def startKeywords : List String :=
  ["startDate", "start", "startTime", "startDateTime", "begin", "beginDate", "from", "fromDate",
    "createdAt", "created", "deployedAt", "targetDate"]

def endKeywords : List String :=
  ["endDate", "end", "endTime", "endDateTime", "finish", "finishDate", "to", "toDate",
    "completedAt", "completed", "actualDate", "dueDate"]

/-- Keys that name the identity of an object, the best first. -/
def idKeys : List String :=
  ["id", "ID", "_id", "uuid", "key", "name", "title", "identifier", "taskId", "eventId",
    "projectId", "phaseId", "sprintId", "milestoneId", "version", "deploymentId"]

/-- Keys that name the category of an object, the best first. -/
def categoryKeys : List String :=
  ["priority", "level", "status", "type", "category", "environment", "team", "assignee",
    "budget", "cost", "value", "importance", "criticality", "severity", "velocity", "capacity"]

/-- The keys of the fields with the start and the end of an object. -/
structure DateFields where
  start : String
  finish : String
deriving DecidableEq, Repr

namespace Fields

def likeKeyword? (fields : Fields) (keyword : String) : Option (String × Value) :=
  fields.find? fun f => Text.lower f.1 = Text.lower keyword

/-- The key of the first keyword that has a field with a date. -/
def exactMatch? (fields : Fields) : List String → Except Failure (Option String)
  | [] => .ok none
  | keyword :: rest =>
    match likeKeyword? fields keyword with
    | none => exactMatch? fields rest
    | some (key, v) => do
      if (← v.instant).isSome then return some key
      exactMatch? fields rest

/-- The keys that hold a keyword and whose values look like dates, but those already found. -/
def partialMatchesOf (keyword : String) (found : List String) :
    List (String × Value) → Except Failure (List String)
  | [] => .ok []
  | (key, v) :: rest => do
    let matched ←
      if !found.contains key && Text.occursIn (Text.lower keyword).toList (Text.lower key).toList
      then v.looksLikeDate else pure false
    let later ← partialMatchesOf keyword (if matched then found ++ [key] else found) rest
    return if matched then key :: later else later

/-- The keys that hold one of some keywords and whose values look like dates, in the order of the
keywords. -/
def partialMatches (fields : Fields) (found : List String) :
    List String → Except Failure (List String)
  | [] => .ok found
  | keyword :: rest => do
    let new ← partialMatchesOf keyword found fields
    partialMatches fields (found ++ new) rest

def firstDate? (except : List String) : List (String × Value) → Except Failure (Option String)
  | [] => .ok none
  | (key, v) :: rest => do
    if !except.contains key && (← v.looksLikeDate) then return some key
    firstDate? except rest

/-- The first key that satisfies a lazy test, or else what a later search finds. -/
def orElse? (found : Option String) (later : Except Failure (Option String)) :
    Except Failure (Option String) :=
  match found with
  | some key => .ok (some key)
  | none => later

/-- The keys of the start and the end of an object. Without an end the start is also the end, and
a lone date is a start whatever its key. -/
def dates? (fields : Fields) : Except Failure (Option DateFields) := do
  let ends ← partialMatches fields [] endKeywords
  let finish := (← exactMatch? fields endKeywords).or ends.head?
  let start ← orElse? (← exactMatch? fields startKeywords) do
    let starts ← partialMatches fields [] startKeywords
    orElse? (starts.find? (fun key => some key ≠ finish)) do
      orElse? (← firstDate? (ends ++ finish.toList) fields) do
        match finish with
        | none => return none
        | some key =>
          if ends.all (· = key) && (← (Value.orNull (get? fields key)).looksLikeDate)
          then return some key
          else return none
  return start.map fun key => ⟨key, finish.getD key⟩

def firstPresent? (fields : Fields) (keys : List String) : Option String :=
  keys.find? fun key => !(Value.orNull (get? fields key)).isNull

def id? (fields : Fields) : Option String :=
  firstPresent? fields idKeys

def category? (fields : Fields) : Option String :=
  firstPresent? fields categoryKeys

def numeric (fields : Fields) : List String :=
  (fields.filter fun f => f.2.properNumber?.isSome).map (·.1)

end Fields

namespace Value

def dates? (v : Value) : Except Failure (Option DateFields) :=
  match v.fields with
  | [] => .ok none
  | fields => fields.dates?

end Value

end Timeline
