import Timeline.Workbench.Documents
import Timeline.Workbench.Export
import Timeline.Workbench.Extract
import Timeline.Workbench.Query

/-! # Sessions at the workbench

What is kept between the operations of a session: the loaded documents, the text of the rule
editor and the extracted entities. An operation that fails leaves them as they were, but saving
rules may fail after the file has been written.
-/

namespace Timeline

structure Workbench where
  settings : Settings
  workspace : Workspace
  exportDirectory : String
  documents : Fields
  rulesText : String
  entities : List Entity

structure Turn (α : Type) where
  bench : Workbench
  answer : Journaled α

namespace Turn

def map {α β : Type} (f : α → β) (t : Turn α) : Turn β :=
  ⟨t.bench, do return f (← t.answer)⟩

end Turn

namespace Workbench

def start (settings : Settings) (workspace : Workspace) (exportDirectory rulesText : String) :
    Workbench :=
  { settings := settings
    workspace := workspace
    exportDirectory := exportDirectory
    documents := []
    rulesText := rulesText
    entities := [] }

/-- A turn that changes the workbench by its answer, if there is one. -/
def turn {α : Type} (b : Workbench) (answer : Journaled α) (change : α → Workbench) : Turn α :=
  match answer.outcome with
  | .ok a => ⟨change a, answer⟩
  | .error _ => ⟨b, answer⟩

structure Loaded where
  documents : Fields
  status : String
  paths : List String

def loaded (b : Workbench) (uploads : List Upload) : Except Failure Loaded :=
  if uploads.isEmpty then .ok ⟨[], "No file uploaded.", []⟩
  else do
    let ds ← Documents.ofUploads b.workspace b.settings.maxFileSize uploads
    return ⟨ds.loaded, ds.status, ds.paths b.settings.maxPathDepth⟩

def load (b : Workbench) (uploads : List Upload) : Turn Loaded :=
  b.turn (.ofExcept (b.loaded uploads)) fun found => { b with documents := found.documents }

def withText (b : Workbench) (found : EditorText) : Workbench :=
  { b with rulesText := found.rules.getD b.rulesText }

def loadRules (b : Workbench) (path : Option String) : Turn EditorText :=
  b.turn (EditorText.load b.workspace b.settings path) b.withText

/-- Saves the rules of the rule editor in the file at a path. Rules that cannot be read are
reported. -/
def saveRules (b : Workbench) (path : Option String) : Turn String :=
  let (w, saved) := EditorText.save b.workspace b.settings b.rulesText path
  let b := { b with workspace := w }
  match saved.outcome with
  | .ok store => ⟨b, ⟨EditorText.savedStatus b.settings store, saved.journal⟩⟩
  | .error (.rules f) => ⟨b, ⟨.ok f.message, saved.journal⟩⟩
  | .error f => ⟨b, ⟨.error f, saved.journal⟩⟩

def suggest (b : Workbench) : Turn EditorText :=
  b.turn (.ofExcept (EditorText.suggest b.settings b.documents)) b.withText

def extract (b : Workbench) : Turn Extracted :=
  b.turn (Extracted.ofDocuments b.documents b.rulesText) fun found =>
    { b with entities := found.entities }

def refresh (b : Workbench) (q : Query) : Turn Shown :=
  ⟨b, Shown.ofQuery b.entities b.rulesText q⟩

def shownRules (b : Workbench) : Turn (List Rule) :=
  ⟨b, do return Rule.shown (← Rule.ofEditor b.rulesText) b.entities⟩

def exportEntities (b : Workbench) (asked : String) : Turn Exported :=
  let written := Exported.ofEntities b.workspace b.exportDirectory asked b.entities
  (b.turn written fun found => { b with workspace := found.1 }).map (·.2)

end Workbench

end Timeline
