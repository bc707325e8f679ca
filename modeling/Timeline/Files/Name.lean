import Timeline.Text.Casing
import Timeline.Text.Search

/-! # Names of files

The last part of a path, its extension, and the plain form of a path without empty parts and
without parts that stay in place.
-/

namespace Timeline.FileName

/-- The parts of a path that lead somewhere: no empty ones and no single points. -/
def parts (path : List Char) : List (List Char) :=
  (Text.splitAt '/' path).filter fun part => !part.isEmpty && part ≠ ['.']

def last (path : List Char) : List Char :=
  ((parts path).getLast?).getD []

def behindSlash (path : List Char) : List Char :=
  ((Text.splitAt '/' path).getLast?).getD []

def withSlashes (path : List Char) : List Char :=
  path.map fun c => if c = '\\' then '/' else c

/-- The name under which a document at a path is known: the last part of the path, whichever
slashes it uses, or else the whole path. -/
def ofPath (path : String) : String :=
  match last (withSlashes path.toList) with
  | [] => path
  | name => String.ofList name

/-- The extension of a name, with its point. A point at the start or at the end of the name makes
none. -/
def extension (name : List Char) : List Char :=
  let behind := (name.reverse.takeWhile (· ≠ '.')).reverse
  let stem := name.length - behind.length
  if behind.isEmpty || stem ≤ 1 then [] else '.' :: behind

def plain (path : String) : String :=
  let inner := Text.join "/" ((parts path.toList).map String.ofList)
  if path.toList.head? = some '/' then "/" ++ inner else inner

/-- The path of a file in a directory, as the two are written. A name that begins with a slash is a
path of its own. -/
def join (directory name : String) : String :=
  if name.toList.head? = some '/' then name
  else if directory = "" ∨ directory.toList.getLast? = some '/' then directory ++ name
  else directory ++ "/" ++ name

/-- The path of a file in a directory, in plain form. -/
def inDirectory (directory name : String) : String :=
  let d := plain directory
  if d = "" then name else if d = "/" then "/" ++ name else d ++ "/" ++ name

end Timeline.FileName
