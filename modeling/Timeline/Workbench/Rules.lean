import Timeline.Rule.Store
import Timeline.Rule.Suggest

/-! # The rule editor

The rules in the text of an editor, and how this text is loaded, saved and suggested. An empty
editor holds no rules.
-/

namespace Timeline

namespace Rule

def ofEditor (text : String) : Journaled (List Rule) :=
  if (Text.trim text.toList).isEmpty then pure [] else parse text

def standIn (array : Value) : Rule :=
  { name := array
    array := array
    start := .text ""
    finish := .text ""
    color := .text "#1f77b4"
    enabled := .bool true
    category := none
    id := none }

def arraysOf (entities : List Entity) : List Value :=
  entities.foldl (fun found e => if e.array.isIn found then found else found ++ [e.array]) []

/-- The rules by which entities are shown: without an enabled rule every array is shown. -/
def shown (rules : List Rule) (entities : List Entity) : List Rule :=
  if rules.any (·.isEnabled) then rules else (arraysOf entities).map standIn

/-- The rules suggested for documents; of each name the first one counts. -/
def suggestAll (palette : List Value) (s : RuleStore) :
    List (String × Value) → Except Failure RuleStore
  | [] => .ok s
  | (_, document) :: rest => do
    let suggested ← suggest palette document
    let s := suggested.foldl (fun s r => if (s.get? r.name).isSome then s else s.add r) s
    suggestAll palette s rest

end Rule

/-- The text of the rules of an editor, if there is a new one, and what is said about it. -/
structure EditorText where
  rules : Option String
  status : String

namespace EditorText

def load (w : Workspace) (settings : Settings) (path : Option String) :
    Journaled EditorText := do
  let store ← RuleStore.load w settings path
  let text ← store.exported
  return ⟨some text,
    s!"Loaded {store.rules.length} rule(s) from {store.path.getD settings.rulesFile}."⟩

def suggest (settings : Settings) (documents : Fields) : Except Failure EditorText :=
  if documents.isEmpty then .ok ⟨none, "Upload a JSON file first."⟩
  else do
    let store ← Rule.suggestAll settings.palette ⟨[], none⟩ documents
    if store.rules.isEmpty then return ⟨none, "No timeline-shaped arrays found."⟩
    else return ⟨some (← store.exported), s!"Suggested {store.rules.length} rule(s)."⟩

def store (text : String) (path : Option String) : Journaled RuleStore := do
  let rules ← Rule.ofEditor text
  RuleStore.make rules path

/-- The workspace with the rules in the text of an editor in the file at a path, and the store of
these rules. -/
def save (w : Workspace) (settings : Settings) (text : String) (path : Option String) :
    Workspace × Journaled RuleStore :=
  let made := store text path
  match made.outcome with
  | .error f => (w, ⟨.error f, made.journal⟩)
  | .ok store =>
    let (w, saved) := store.save w settings none
    (w, ⟨saved, made.journal⟩)

def savedStatus (settings : Settings) (store : RuleStore) : Except Failure String := do
  let notes ← Rule.allNotes store.rules
  let noted := if notes.isEmpty then "" else " Path notes: " ++ Text.join " | " notes
  return s!"Saved {store.rules.length} rule(s) to {store.path.getD settings.rulesFile}." ++ noted

end EditorText

end Timeline
