import Timeline.Entity

/-! # Rules

A rule says which array of a document holds events and where in its items their parts are. The
fields may hold any values until `Rule.problems` has found nothing wrong with them.
-/

namespace Timeline

structure Rule where
  name : Value
  array : Value
  start : Value
  finish : Value
  color : Value
  enabled : Value
  category : Option Value
  id : Option Value
deriving Repr

namespace Rule

/-- The object form of a rule; parts that are not set are left out. -/
def toFields (r : Rule) : Fields :=
  [("name", r.name), ("arrayPath", r.array), ("startDatePath", r.start),
    ("endDatePath", r.finish)] ++
    (r.category.map ("yAxisPath", ·)).toList ++ (r.id.map ("idPath", ·)).toList ++
    [("color", r.color), ("enabled", r.enabled)]

/-- The rule of an object. A rule is enabled if it does not say otherwise, and an empty path is
none. -/
def ofFields (fields : Fields) : Except Failure Rule := do
  let name ← Entity.field fields "name"
  let array ← Entity.field fields "arrayPath"
  let start ← Entity.field fields "startDatePath"
  let finish ← Entity.field fields "endDatePath"
  let color ← Entity.field fields "color"
  return {
    name := name
    array := array
    start := start
    finish := finish
    color := color
    enabled := (fields.get? "enabled").getD (.bool true)
    category := (fields.get? "yAxisPath").bind (·.ifTruthy)
    id := (fields.get? "idPath").bind (·.ifTruthy) }

def isEnabled (r : Rule) : Bool :=
  r.enabled.truthy

/-- A value of a part that may not be set, where null unsets it. -/
def optional (v : Value) : Option Value :=
  if v.isNull then none else some v

/-- A rule with another value in the field of a name, if there is such a field that may change. -/
def set? (r : Rule) (field : String) (v : Value) : Option Rule :=
  match field with
  | "array_path" => some { r with array := v }
  | "start_date_path" => some { r with start := v }
  | "end_date_path" => some { r with finish := v }
  | "color" => some { r with color := v }
  | "enabled" => some { r with enabled := v }
  | "y_axis_path" => some { r with category := optional v }
  | "id_path" => some { r with id := optional v }
  | _ => none

/-- A rule with other values in some fields. -/
def change (r : Rule) : Fields → Except Failure Rule
  | [] => .ok r
  | (field, v) :: rest =>
    match r.set? field v with
    | some r => r.change rest
    | none => .error (.unknownField field)

/-- An enabled rule with all its parts. -/
def preset (name array start finish color category id : String) : Rule :=
  { name := .text name
    array := .text array
    start := .text start
    finish := .text finish
    color := .text color
    enabled := .bool true
    category := some (.text category)
    id := some (.text id) }

/-- The rules for documents of the usual forms. -/
def defaults : List Rule :=
  [preset "events" "events" "startDate" "endDate" "#1f77b4" "priority" "id",
    preset "timeline" "timeline" "start" "end" "#ff7f0e" "level" "name",
    preset "tasks" "data.tasks" "startTime" "endTime" "#2ca02c" "priority" "taskId",
    preset "deployments" "deployments" "deployedAt" "completedAt" "#d62728" "environment"
      "version",
    preset "projects" "projects" "startDate" "endDate" "#9467bd" "budget" "projectName"]

end Rule

end Timeline
