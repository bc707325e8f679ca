import Timeline.Failure
import Timeline.Files.Name
import Timeline.Path.Survey

/-! # The workspace

The files and directories that can be reached, each under the names that lead to it. A path is
followed name by name; what stands before the last name has to be a directory.
-/

namespace Timeline

inductive Node where
  | file (bytes : List UInt8)
  | directory
deriving DecidableEq, Repr

/-- Files and directories by the names that lead to them. -/
structure Workspace where
  entries : List (List String × Node)
deriving Repr

namespace Workspace

def empty : Workspace := ⟨[]⟩

def longestName : Nat := 255

def longestPath : Nat := 4095

/-- What some names lead to. The workspace itself, what lies above it and the root of the system
are directories. -/
def find? (w : Workspace) (names : List String) : Option Node :=
  if names.all (· = "..") || names = ["/"] then some .directory else w.entries.lookup names

def put (w : Workspace) (names : List String) (node : Node) : Workspace :=
  ⟨(names, node) :: w.entries.filter (fun e => e.1 ≠ names)⟩

def above (names : List String) : List String :=
  if names = ["/"] then names
  else if names.all (· = "..") then names ++ [".."]
  else names.dropLast

/-- Follows names from a directory. The last one may be missing. -/
def follow (w : Workspace) (base : List String) :
    List String → Except FileFault (List String × Option Node)
  | [] => .ok (base, some .directory)
  | name :: rest =>
    if name = "" ∨ name = "." then follow w base rest
    else if name = ".." then follow w (above base) rest
    else if name.utf8ByteSize > longestName then .error .nameTooLong
    else
      let here := base ++ [name]
      match w.find? here with
      | some .directory => follow w here rest
      | some (.file bytes) =>
        if rest.isEmpty then .ok (here, some (.file bytes)) else .error .notDirectory
      | none => if rest.isEmpty then .ok (here, none) else .error .missing

def locate (w : Workspace) (path : String) : Except FileFault (List String × Option Node) :=
  if path = "" then .error .missing
  else if path.utf8ByteSize > longestPath then .error .nameTooLong
  else
    let names := (Text.splitAt '/' path.toList).map String.ofList
    w.follow (if path.toList.head? = some '/' then ["/"] else []) names

def node (w : Workspace) (path : String) : Except FileFault Node :=
  match w.locate path with
  | .ok (_, some n) => .ok n
  | .ok (_, none) => .error .missing
  | .error e => .error e

def directorySize : Nat := 4096

def size (w : Workspace) (path : String) : Except FileFault Nat :=
  match w.node path with
  | .ok (.file bytes) => .ok bytes.length
  | .ok .directory => .ok directorySize
  | .error e => .error e

def read (w : Workspace) (path : String) : Except FileFault (List UInt8) :=
  match w.node path with
  | .ok (.file bytes) => .ok bytes
  | .ok .directory => .error .isDirectory
  | .error e => .error e

def write (w : Workspace) (path : String) (bytes : List UInt8) : Except FileFault Workspace :=
  match w.locate path with
  | .ok (_, some .directory) => .error .isDirectory
  | .ok (names, _) => .ok (w.put names (.file bytes))
  | .error e => .error e

def writeText (w : Workspace) (path text : String) : Except Failure Workspace :=
  match w.write path (Utf8.encode text.toList) with
  | .ok w => .ok w
  | .error f => .error (.file path f)

def isDirectory (w : Workspace) (path : String) : Bool :=
  match w.node path with
  | .ok .directory => true
  | _ => false

def filesIn (w : Workspace) (names : List String) : List String :=
  w.entries.filterMap fun
    | (base, .file _) =>
      if base.dropLast = names ∧ base ≠ [] then base.getLast? else none
    | _ => none

def addParents (w : Workspace) (names : List String) : Workspace :=
  (List.range names.length).foldl
    (fun w n => if n = 0 ∨ (w.find? (names.take n)).isSome then w
      else w.put (names.take n) .directory) w

def add (w : Workspace) (path : String) (node : Node) : Workspace :=
  let names := (FileName.parts path.toList).map String.ofList
  (w.addParents names).put names node

/-- The paths of the files in a directory with one of some extensions, sorted. Extensions are
compared in lower case. -/
def documents (w : Workspace) (directory : String) (extensions : List String) : List String :=
  let known := extensions.map Text.lower
  let place := if directory = "" then "." else directory
  match w.locate place with
  | .ok (names, some .directory) =>
    let chosen := (w.filesIn names).filter fun name =>
      known.contains (Text.lower (String.ofList (FileName.extension name.toList)))
    Path.sort (chosen.map (FileName.inDirectory directory))
  | _ => []

end Workspace

end Timeline
