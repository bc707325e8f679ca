import Timeline.Files.Workspace
import Timeline.Json.Reader
import Timeline.Settings

/-! # Loading documents

A document is the JSON value in a file, an upload that is known by its path, or a stream. The
size of a text stream is counted in characters, any other size in bytes.
-/

namespace Timeline

inductive Upload where
  /-- No file at all. -/
  | nothing
  /-- The file at a path. -/
  | file (path : String)
  /-- A stream of text, maybe with a name. -/
  | textStream (content : List Char) (name : Option String)
  /-- A stream of bytes, maybe with a name. -/
  | byteStream (content : List UInt8) (name : Option String)

namespace Upload

/-- The path or the name of a document. A stream without a name is told apart from other ones by
its place among the files. -/
def identifier (place : Nat) : Upload → String
  | .nothing => "None"
  | .file path => path
  | .textStream _ name => name.getD ("<_io.StringIO object at " ++ naturalText place ++ ">")
  | .byteStream _ name => name.getD ("<_io.BytesIO object at " ++ naturalText place ++ ">")

def isOver (size : Nat) (limit : Number) : Bool :=
  !limit.same (.int 0) && limit.lt (.int size)

def checkSize (size : Nat) (label : String) (limit : Number) : Except Failure Unit :=
  if isOver size limit then
    .error (.load (.tooLarge label size (Value.ofNumber limit).plain))
  else .ok ()

def decode (label : String) (bytes : List UInt8) : Except Failure (List Char) :=
  match Utf8.decode bytes with
  | .ok cs => .ok cs
  | .error f => .error (.load (.notUtf8 label f))

/-- The result of an operation on a file, with its fault as a failure to load. -/
def opened {α : Type} (path : String) (x : Except FileFault α) : Except Failure α :=
  match x with
  | .ok a => .ok a
  | .error f => .error (.load (.unreadable path f))

def label : Upload → String
  | .nothing => ""
  | .file path => path
  | .textStream _ name => name.getD "upload"
  | .byteStream _ name => name.getD "upload"

/-- The text of a document. In the text of a file every line ends with `\n`. -/
def content (w : Workspace) (limit : Number) (u : Upload) : Except Failure (List Char) :=
  match u with
  | .nothing => .error (.load .nothing)
  | .file path =>
    if path.toList.contains '\x00' then .error .nulInPath
    else do
      let size ← opened path (w.size path)
      checkSize size path limit
      let bytes ← opened path (w.read path)
      return Text.unifyLineEnds (← decode path bytes)
  | .textStream cs _ => do
    checkSize cs.length "Upload" limit
    return cs
  | .byteStream bytes _ => do
    checkSize bytes.length "Upload" limit
    decode u.label bytes

def read (w : Workspace) (limit : Number) (u : Upload) : Except Failure Value := do
  let cs ← u.content w limit
  match Json.read cs with
  | .ok v => return v
  | .error (.fault f) => throw (.load (.notJson u.label f))
  | .error (.tooManyDigits n) => throw (.tooManyDigits n)

end Upload

end Timeline
