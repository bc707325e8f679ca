import Timeline.Extraction.Basic
import Timeline.Extraction.Detected
import Timeline.Files.Document

/-! # Extraction from documents

What the enabled rules find in a document, each on its own, or else the events that are detected
in it; and the same for several files, of which those that cannot be loaded are left out with a
warning.
-/

namespace Timeline

/-- The name under which a document is known, from its path or any other value. -/
def documentName (id : Value) : Value :=
  if id.truthy then .text (FileName.ofPath id.plain) else id

namespace Extraction

def detect (file document : Value) : Except Failure Extraction := do
  let found ← Detected.inDocument file document
  return ⟨found, [], []⟩ ++
    report .info s!"Auto-detected {found.length} entities in {file.plain}"

def byRules (file document : Value) (rules : List Rule) : Extraction :=
  let found := concat (rules.map fun r => r.extract file document)
  found ++ report .info
    (s!"Extracted {found.entities.length} entities from {file.plain} " ++
      s!"with {rules.length} rules ({found.warnings.length} warnings)")

def ofDocument (id document : Value) (rules : List Rule) : Except Failure Extraction :=
  let file := documentName id
  match rules.filter (·.isEnabled) with
  | [] => detect file document
  | enabled => .ok (byRules file document enabled)

def journaled (x : Except Failure Extraction) : Journaled Extraction :=
  match x with
  | .ok e => ⟨.ok e, e.journal⟩
  | .error f => ⟨.error f, []⟩

def ofFile (w : Workspace) (settings : Settings) (rules : List Rule) (path : String) :
    Except Failure Extraction :=
  match (Upload.file path).read w settings.maxFileSize with
  | .ok document => ofDocument (.text path) document rules
  | .error (.load f) =>
    .ok (warn ⟨.unloaded f, documentName (.text path), none, none⟩ .warning
      s!"Skipping {path}: {f.message}")
  | .error f => .error f

def ofFiles (w : Workspace) (settings : Settings) (rules : List Rule) :
    List String → Journaled Extraction
  | [] => pure empty
  | path :: rest => do
    let here ← journaled (ofFile w settings rules path)
    return here ++ (← ofFiles w settings rules rest)

end Extraction

end Timeline
