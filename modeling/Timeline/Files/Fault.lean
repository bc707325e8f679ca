import Timeline.Text.Quoted

/-! # Faults of files

Why a file cannot be opened.
-/

namespace Timeline

inductive FileFault where
  | missing
  | notDirectory
  | isDirectory
  | nameTooLong
deriving DecidableEq, Repr

namespace FileFault

def code : FileFault → Nat
  | .missing => 2
  | .notDirectory => 20
  | .isDirectory => 21
  | .nameTooLong => 36

def wording : FileFault → String
  | .missing => "No such file or directory"
  | .notDirectory => "Not a directory"
  | .isDirectory => "Is a directory"
  | .nameTooLong => "File name too long"

def message (f : FileFault) (path : String) : String :=
  s!"[Errno {f.code}] {f.wording}: " ++ Text.quoted path

end FileFault

end Timeline
