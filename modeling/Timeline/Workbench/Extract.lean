import Timeline.Extraction.Document
import Timeline.Summary
import Timeline.Workbench.Rules

/-! # Extraction at the workbench

The entities of all loaded documents without repetitions, and the choices that they offer to
filters.
-/

namespace Timeline

/-- Entities with what is said about them and what filters can choose from. -/
structure Extracted where
  entities : List Entity
  status : String
  arrays : List Value
  columns : List String

namespace Extracted

def nothing (status : String) : Extracted :=
  ⟨[], status, [], entityColumns⟩

def fromEach (rules : List Rule) : List (String × Value) → Journaled (List Extraction)
  | [] => pure []
  | (name, document) :: rest => do
    let here ← Extraction.journaled (Extraction.ofDocument (.text name) document rules)
    return here :: (← fromEach rules rest)

/-- The columns of entities: those that every entity has, then the paths of the leaves of their
data, sorted. -/
def columnsOf (entities : List Entity) : List String :=
  let leaves := Path.sort (Path.distinct (entities.flatMap fun e => Path.keys e.data ""))
  entityColumns ++ leaves.filter fun c => !entityColumns.contains c

def statusOf (entities : List Entity) (documents : Fields) (warnings : List String) : String :=
  let warned := if warnings.isEmpty then ""
    else s!" {warnings.length} warning(s):\n" ++ Text.join "\n" warnings
  s!"Extracted {entities.length} entities from {documents.length} file(s)." ++ warned

def byRules (documents : Fields) (rules : List Rule) : Journaled Extracted := do
  let found ← fromEach rules documents
  let warnings ← Warning.texts (found.flatMap (·.warnings))
  let entities ← Entity.merge (found.map (·.entities))
  let arrays ← Value.sort (Rule.arraysOf entities)
  return ⟨entities, statusOf entities documents warnings, arrays, columnsOf entities⟩

/-- The entities of documents by the rules in the text of an editor. -/
def ofDocuments (documents : Fields) (text : String) : Journaled Extracted :=
  if documents.isEmpty then pure (nothing "Upload a JSON file first.")
  else
    let rules := Rule.ofEditor text
    match rules.outcome with
    | .error (.rules f) => ⟨.ok (nothing f.message), rules.journal⟩
    | _ => rules >>= byRules documents

end Extracted

end Timeline
