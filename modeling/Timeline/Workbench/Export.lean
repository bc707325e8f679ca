import Timeline.Entity
import Timeline.Files.Workspace
import Timeline.Journal

/-! # Exporting entities

Entities are written as a JSON list into a file of one directory. Of the name that is asked for
only the part behind the last slash counts, and the file always has the extension `.json`.
-/

namespace Timeline

/-- Where entities have been written to, if they have, and what is said about it. -/
structure Exported where
  path : Option String
  status : String

namespace Exported

def extension : List Char := ['.', 'j', 's', 'o', 'n']

/-- The name of the file, without its extension if that has to be added. -/
def baseName (asked : String) : List Char :=
  match FileName.behindSlash (Text.trim asked.toList) with
  | [] => "timeline_entities".toList
  | name => name

def fileName (asked : String) : String :=
  let name := baseName asked
  String.ofList
    (if extension.isSuffixOf (Text.lower (String.ofList name)).toList then name
      else name ++ extension)

def pathIn (directory asked : String) : String :=
  FileName.join directory (fileName asked)

def listOf (entities : List Entity) : Value :=
  .list (entities.map fun e => .object e.toFields)

/-- Writes entities into the file at a path. The file is opened before they are written out: a part
that has no JSON form leaves it with what was written before. -/
def write (w : Workspace) (path : String) (entities : List Entity) :
    Workspace × Except Failure Unit :=
  if path.toList.contains '\x00' then (w, .error .nulInPath)
  else
    match w.writeText path (Json.writtenText Json.pretty (listOf entities)) with
    | .error f => (w, .error f)
    | .ok files =>
      (files, do
        let _ ← Json.write Json.pretty (listOf entities)
        return ())

/-- Whether a failure is reported and goes no further. -/
def isReported : Failure → Bool
  | .file .. => true
  | .notJson _ => true
  | _ => false

def ofEntities (w : Workspace) (directory asked : String) (entities : List Entity) :
    Journaled (Workspace × Exported) :=
  if entities.isEmpty then pure (w, ⟨none, "Nothing to export."⟩)
  else
    let path := pathIn directory asked
    match write w path entities with
    | (files, .ok ()) => pure (files, ⟨some path, s!"Export successful! Saved to {path}"⟩)
    | (files, .error f) =>
      if isReported f then
        ⟨.ok (files, ⟨none, s!"Error during export: {f.message}"⟩),
          [⟨.error, .workbench, s!"Export to {path} failed"⟩]⟩
      else .ofExcept (.error f)

end Exported

end Timeline
