import Timeline.Text.Blank

/-! # Files of assignments

A file of lines `NAME=value`. A name may stand behind `export`, and a name or a value between
quotes; a comment starts with a sharp sign, and a line that is no assignment is passed over. In a
value `${NAME}` stands for what the name is bound to, and `${NAME:-text}` for the text if it is
bound to nothing. All line ends are `\n`, and a byte order mark may stand at the start.
-/

namespace Timeline

structure Assignment where
  name : String
  value : Option String
deriving DecidableEq, Repr

namespace Assignment

def isInlineBlank (c : Char) : Bool :=
  Text.isBlank c && c != '\n' && c != '\r'

/-- A text without the blanks of its first line in front. -/
def skipInline (cs : List Char) : List Char :=
  cs.dropWhile isInlineBlank

/-- A text behind the word `export` and at least one blank, if it starts so. -/
def behindExport (cs : List Char) : List Char :=
  let word := ['e', 'x', 'p', 'o', 'r', 't']
  let rest := cs.drop word.length
  if word.isPrefixOf cs && (rest.head?.map isInlineBlank).getD false then skipInline rest else cs

/-- What stands before the closing quote of a text, and what follows the quote. A character behind
a backslash closes nothing. -/
def quotedPart? (quote : Char) : List Char → Option (List Char × List Char)
  | [] => none
  | '\\' :: c :: cs =>
    (quotedPart? quote cs).map fun (inside, rest) => ('\\' :: c :: inside, rest)
  | c :: cs =>
    if c = quote then some ([], cs)
    else (quotedPart? quote cs).map fun (inside, rest) => (c :: inside, rest)

/-- The character that an escape between double quotes writes. -/
def escaped? : Char → Option Char
  | '\\' => some '\\'
  | '\x27' => some '\x27'
  | '\x22' => some '\x22'
  | 'a' => some '\x07'
  | 'b' => some '\x08'
  | 'f' => some '\x0c'
  | 'n' => some '\n'
  | 'r' => some '\r'
  | 't' => some '\t'
  | 'v' => some '\x0b'
  | _ => none

/-- The character that an escape between single quotes writes. -/
def escapedPlain? : Char → Option Char
  | '\\' => some '\\'
  | '\x27' => some '\x27'
  | _ => none

/-- A text with its escapes replaced; a backslash before any other character stands for itself. -/
def unescape (known : Char → Option Char) : List Char → List Char
  | [] => []
  | ['\\'] => ['\\']
  | '\\' :: c :: cs =>
    match known c with
    | some d => d :: unescape known cs
    | none => '\\' :: unescape known (c :: cs)
  | c :: cs => c :: unescape known cs
termination_by cs => cs.length

/-- A value without quotes up to a comment, which has a blank in front. -/
def beforeComment : List Char → List Char
  | [] => []
  | c :: cs =>
    if Text.isBlank c && (cs.dropWhile Text.isBlank).head? == some '#' then []
    else c :: beforeComment cs

def line (cs : List Char) : List Char × List Char :=
  (cs.takeWhile (· ≠ '\n'), cs.dropWhile (· ≠ '\n'))

/-- What an attempt to read yields: a result and the rest of the text, or the place of the fault. -/
abbrev Attempt (α : Type) := Except (List Char) (α × List Char)

/-- A result, or a fault at the start of a text. -/
def orFault {α : Type} (cs : List Char) : Option (α × List Char) → Attempt α
  | some found => .ok found
  | none => .error cs

def readName (cs : List Char) : Attempt (Option (List Char)) :=
  match cs with
  | '#' :: _ => .ok (none, cs)
  | '\x27' :: rest =>
    let inside := rest.takeWhile (· ≠ '\x27')
    match rest.dropWhile (· ≠ '\x27') with
    | _ :: behind => if inside.isEmpty then .error cs else .ok (some inside, behind)
    | [] => .error cs
  | _ =>
    let isPart := fun c => !(c == '=' || c == '#' || Text.isBlank c)
    if (cs.takeWhile isPart).isEmpty then .error cs
    else .ok (some (cs.takeWhile isPart), cs.dropWhile isPart)

/-- Reads a value behind the sign of equality. Blanks before a value do not belong to it, but make
a sharp sign start a comment. -/
def readValue (cs : List Char) : Attempt (List Char) :=
  match skipInline cs with
  | '\x27' :: rest =>
    orFault cs ((quotedPart? '\x27' rest).map fun (v, rest) => (unescape escapedPlain? v, rest))
  | '\x22' :: rest =>
    orFault cs ((quotedPart? '\x22' rest).map fun (v, rest) => (unescape escaped? v, rest))
  | _ =>
    let (text, rest) := line cs
    .ok (Text.trim (beforeComment text), rest)

/-- Reads the sign of equality and a value, if there is one. -/
def optionalValue (cs : List Char) : Attempt (Option (List Char)) :=
  match cs with
  | '=' :: rest => (readValue rest).map fun (v, rest) => (some v, rest)
  | _ => .ok (none, cs)

/-- The text from the end of its first line on, with maybe a comment before the line end. -/
def lineEnd (cs : List Char) : Except (List Char) (List Char) :=
  let cs := match skipInline cs with
    | '#' :: rest => (line rest).2
    | _ => cs
  match skipInline cs with
  | [] => .ok []
  | '\n' :: rest => .ok rest
  | _ => .error cs

def read (cs : List Char) : Except (List Char) (Option Assignment × List Char) := do
  let (name, cs) ← readName (behindExport cs)
  let (value, cs) ← optionalValue (skipInline cs)
  let rest ← lineEnd cs
  return (name.map fun n => ⟨String.ofList n, value.map String.ofList⟩, rest)

/-- The assignments of a text, where `fuel` bounds the number of lines. -/
def readLines : Nat → List Char → List Assignment
  | 0, _ => []
  | fuel + 1, cs =>
    match cs.dropWhile Text.isBlank with
    | [] => []
    | cs =>
      match read cs with
      | .ok (found, rest) => found.toList ++ readLines fuel rest
      | .error rest => readLines fuel ((line rest).2.drop 1)

/-- The name and the replacement of a variable behind its opening `${`, and what follows it. -/
def reference? (cs : List Char) : Option (String × String × List Char) :=
  let isPart := fun c => !(c == '\x7d' || c == ':')
  let name := String.ofList (cs.takeWhile isPart)
  match cs.dropWhile isPart with
  | '\x7d' :: rest => some (name, "", rest)
  | ':' :: '-' :: rest =>
    match rest.dropWhile (· ≠ '\x7d') with
    | _ :: behind => some (name, String.ofList (rest.takeWhile (· ≠ '\x7d')), behind)
    | [] => none
  | _ => none

/-- A value with its variables replaced, where `bound?` says what the names are bound to. -/
def expand (bound? : String → Option String) : Nat → List Char → List Char
  | 0, cs => cs
  | _ + 1, [] => []
  | fuel + 1, '$' :: '\x7b' :: cs =>
    match reference? cs with
    | some (name, replacement, rest) =>
      ((bound? name).getD replacement).toList ++ expand bound? fuel rest
    | none => '$' :: expand bound? fuel ('\x7b' :: cs)
  | fuel + 1, c :: cs => c :: expand bound? fuel cs

/-- What a name is bound to: by the last assignment before, or else from outside. A name alone is
bound to the empty text. -/
def boundTo (outside : List (String × String)) (before : List Assignment) (name : String) :
    Option String :=
  match before.find? (·.name = name) with
  | some a => some (a.value.getD "")
  | none => outside.lookup name

/-- Assignments with their variables replaced, where `before` holds those already done, the last
one first. -/
def resolve (outside : List (String × String)) (before : List Assignment) :
    List Assignment → List Assignment
  | [] => before.reverse
  | a :: rest =>
    let value := a.value.map fun v =>
      String.ofList (expand (boundTo outside before) (v.length + 1) v.toList)
    resolve outside (⟨a.name, value⟩ :: before) rest

/-- A text without a byte order mark at its start. -/
def behindMark : List Char → List Char
  | '\uFEFF' :: cs => cs
  | cs => cs

def ofText (outside : List (String × String)) (cs : List Char) : List Assignment :=
  resolve outside [] (readLines (cs.length + 1) (behindMark cs))

end Assignment

end Timeline
