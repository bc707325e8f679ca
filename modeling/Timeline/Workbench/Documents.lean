import Timeline.Files.Document
import Timeline.Path.Survey

/-! # Loaded documents

Documents by the names of their files. Of two files with one name the last one counts, at the
place of the first; a file that cannot be loaded is reported and left out.
-/

namespace Timeline

structure Documents where
  loaded : Fields
  faults : List LoadFailure

namespace Documents

def empty : Documents := ⟨[], []⟩

/-- Adds the document of the file at a place, or its fault. -/
def add (w : Workspace) (limit : Number) (ds : Documents) (place : Nat) (u : Upload) :
    Except Failure Documents :=
  match u.read w limit with
  | .ok v =>
    .ok { ds with loaded := Fields.insert (FileName.ofPath (u.identifier place)) v ds.loaded }
  | .error (.load f) => .ok { ds with faults := ds.faults ++ [f] }
  | .error f => .error f

def addAll (w : Workspace) (limit : Number) (ds : Documents) (place : Nat) :
    List Upload → Except Failure Documents
  | [] => .ok ds
  | u :: rest => do addAll w limit (← ds.add w limit place u) (place + 1) rest

def ofUploads (w : Workspace) (limit : Number) (uploads : List Upload) :
    Except Failure Documents :=
  addAll w limit empty 0 uploads

def names (ds : Documents) : List String :=
  ds.loaded.map (·.1)

def status (ds : Documents) : String :=
  let faults := if ds.faults.isEmpty then ""
    else " Errors: " ++ Text.join " | " (ds.faults.map (·.message))
  s!"Loaded {ds.loaded.length} file(s)." ++ faults

def paths (ds : Documents) (maxDepth : Int) : List String :=
  Path.distinct (ds.loaded.flatMap fun d => Path.available d.2 maxDepth)

end Documents

/-- The files of a choice of one, which may be no file or an empty path. -/
def Upload.alone : Upload → List Upload
  | .nothing => []
  | .file "" => []
  | u => [u]

end Timeline
