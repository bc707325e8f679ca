import Timeline.Failure

/-! # Writing JSON

The JSON text of a value on one line or indented by two blanks, with or without escapes for what
is not ASCII, and with the fields in their order or sorted by key. A tuple is written as a list.
Moments, days and sets have no JSON form.
-/

namespace Timeline.Json

/-- How a value is written. -/
structure Style where
  /-- Characters beyond ASCII are written as escapes. -/
  ascii : Bool
  /-- Fields are sorted by key. -/
  sorted : Bool
  /-- Every item and every field has a line of its own. -/
  indented : Bool
deriving DecidableEq, Repr

/-- The escape of a code unit. -/
def unitEscape (n : Nat) : List Char :=
  '\\' :: 'u' :: Text.hexPadded 4 n

def charText (ascii : Bool) (c : Char) : List Char :=
  if c = '\x22' then ['\\', '\x22']
  else if c = '\\' then ['\\', '\\']
  else if c = '\n' then ['\\', 'n']
  else if c = '\r' then ['\\', 'r']
  else if c = '\t' then ['\\', 't']
  else if c = '\x08' then ['\\', 'b']
  else if c = '\x0c' then ['\\', 'f']
  else if c.toNat < 0x20 then unitEscape c.toNat
  else if ascii = false ∨ c.toNat < 0x7F then [c]
  else if c.toNat < 0x10000 then unitEscape c.toNat
  else
    let n := c.toNat - 0x10000
    unitEscape (0xD800 + n / 0x400) ++ unitEscape (0xDC00 + n % 0x400)

def stringText (ascii : Bool) (s : String) : List Char :=
  '\x22' :: s.toList.flatMap (charText ascii) ++ ['\x22']

/-- A binary64 number. -/
def doubleText : Double → List Char
  | .nan => ['N', 'a', 'N']
  | .infinite false => ['I', 'n', 'f', 'i', 'n', 'i', 't', 'y']
  | .infinite true => ['-', 'I', 'n', 'f', 'i', 'n', 'i', 't', 'y']
  | x => x.text.toList

/-- What stands between brackets and items at a depth: nothing, or a new line. -/
def lineStart (style : Style) (depth : Nat) : List Char :=
  if style.indented then '\n' :: List.replicate (2 * depth) ' ' else []

/-- What stands between two items at a depth. -/
def itemSeparator (style : Style) (depth : Nat) : List Char :=
  if style.indented then ',' :: lineStart style depth else [',', ' ']

/-- The parts of a list or an object between its brackets. -/
def bracketed (style : Style) (depth : Nat) (opening closing : Char) (parts : List (List Char)) :
    List Char :=
  if parts.isEmpty then [opening, closing]
  else
    opening :: lineStart style (depth + 1) ++
      (itemSeparator style (depth + 1)).intercalate parts ++ lineStart style depth ++ [closing]

/-- The parts of an object, each with its key, in the order of a style. -/
def ordered (style : Style) (parts : List (String × List Char)) : List (String × List Char) :=
  if style.sorted then parts.mergeSort (fun a b => a.1 ≤ b.1) else parts

mutual

/-- The characters of a value at a depth. What has no JSON form is left out. -/
def chars (style : Style) (depth : Nat) : Value → List Char
  | .null => ['n', 'u', 'l', 'l']
  | .bool true => ['t', 'r', 'u', 'e']
  | .bool false => ['f', 'a', 'l', 's', 'e']
  | .int n => integerChars n
  | .float x => doubleText x
  | .text s => stringText style.ascii s
  | .list items => bracketed style depth '[' ']' (itemChars style (depth + 1) items)
  | .tuple items => bracketed style depth '[' ']' (itemChars style (depth + 1) items)
  | .object fields =>
    bracketed style depth '{' '}' ((ordered style (fieldChars style (depth + 1) fields)).map (·.2))
  | .moment _ => []
  | .day _ => []
  | .set _ => []

def itemChars (style : Style) (depth : Nat) : List Value → List (List Char)
  | [] => []
  | v :: rest => chars style depth v :: itemChars style depth rest

/-- The key of each field with the characters of the field. -/
def fieldChars (style : Style) (depth : Nat) : List (String × Value) → List (String × List Char)
  | [] => []
  | (k, v) :: rest =>
    (k, stringText style.ascii k ++ ':' :: ' ' :: chars style depth v) ::
      fieldChars style depth rest

end

mutual

/-- The kind of the first part of a value that has no JSON form. -/
def foreign? (sorted : Bool) : Value → Option Kind
  | .moment _ => some .moment
  | .day _ => some .day
  | .set _ => some .set
  | .list items => foreignItem? sorted items
  | .tuple items => foreignItem? sorted items
  | .object fields =>
    let found := foreignFields sorted fields
    let found := if sorted then found.mergeSort (fun a b => a.1 ≤ b.1) else found
    (found.head?).map (·.2)
  | _ => none

def foreignItem? (sorted : Bool) : List Value → Option Kind
  | [] => none
  | v :: rest => (foreign? sorted v).or (foreignItem? sorted rest)

/-- The keys of the fields that have no JSON form, with the kind of what has none. -/
def foreignFields (sorted : Bool) : List (String × Value) → List (String × Kind)
  | [] => []
  | (k, v) :: rest => ((foreign? sorted v).map (k, ·)).toList ++ foreignFields sorted rest

end

mutual

/-- The characters of a value that has no JSON form, up to its first part that has none. The
fields are in their order. -/
def begun (style : Style) (depth : Nat) : Value → List Char
  | .list items => '[' :: lineStart style (depth + 1) ++ begunItems style (depth + 1) items
  | .tuple items => '[' :: lineStart style (depth + 1) ++ begunItems style (depth + 1) items
  | .object fields => '{' :: lineStart style (depth + 1) ++ begunFields style (depth + 1) fields
  | _ => []

def begunItems (style : Style) (depth : Nat) : List Value → List Char
  | [] => []
  | v :: rest =>
    if (foreign? false v).isSome then begun style depth v
    else chars style depth v ++ itemSeparator style depth ++ begunItems style depth rest

def begunFields (style : Style) (depth : Nat) : List (String × Value) → List Char
  | [] => []
  | (k, v) :: rest =>
    stringText style.ascii k ++ ':' :: ' ' ::
      if (foreign? false v).isSome then begun style depth v
      else chars style depth v ++ itemSeparator style depth ++ begunFields style depth rest

end

def text (style : Style) (v : Value) : String :=
  String.ofList (chars style 0 v)

/-- The JSON text of a value, if it has one. -/
def write (style : Style) (v : Value) : Except Failure String :=
  match foreign? style.sorted v with
  | some kind => .error (.notJson kind)
  | none => .ok (text style v)

/-- What is written of a value before the first part that has no JSON form stops the writing. The
fields are in their order. -/
def writtenText (style : Style) (v : Value) : String :=
  if (foreign? false v).isSome then String.ofList (begun style 0 v) else text style v

/-- The style of identifiers: one line, sorted fields, all characters as they are. -/
def canonical : Style := ⟨false, true, false⟩

/-- The style of table cells: one line, all characters as they are. -/
def compact : Style := ⟨false, false, false⟩

/-- The style of files: indented and in ASCII. -/
def pretty : Style := ⟨true, false, true⟩

end Timeline.Json
