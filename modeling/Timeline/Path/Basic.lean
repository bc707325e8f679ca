import Timeline.Number.Reading

/-! # Paths

A path addresses a part of a document by keys with points between them. In a key a point and a
backslash are written with a backslash in front; a point between square brackets does not
separate. A key may be followed by an index in brackets. `split` takes a written path apart into
its segments, `Step.read` a segment into its key and its index.
-/

namespace Timeline.Path

/-- The path of a document as a whole. -/
def root : String := "(root)"

def escapeChars : List Char → List Char
  | [] => []
  | c :: cs =>
    if c = '\\' ∨ c = '.' then '\\' :: c :: escapeChars cs else c :: escapeChars cs

def escape (key : String) : String :=
  String.ofList (escapeChars key.toList)

/-- The characters of a written key; a backslash at the end stands for itself. -/
def unescapeChars : List Char → List Char
  | [] => []
  | ['\\'] => ['\\']
  | '\\' :: c :: cs => c :: unescapeChars cs
  | c :: cs => c :: unescapeChars cs

def unescape (s : String) : String :=
  String.ofList (unescapeChars s.toList)

def consFirst (c : Char) : List (List Char) → List (List Char)
  | [] => [[c]]
  | piece :: rest => (c :: piece) :: rest

/-- The pieces of a path between its points, without the backslashes that escape. `inside` says
whether the text starts between brackets. -/
def pieces (inside : Bool) : List Char → List (List Char)
  | [] => [[]]
  | ['\\'] => [['\\']]
  | '\\' :: c :: cs => consFirst c (pieces inside cs)
  | c :: cs =>
    if c = '[' then consFirst c (pieces true cs)
    else if c = ']' then consFirst c (pieces false cs)
    else if c = '.' ∧ inside = false then [] :: pieces false cs
    else consFirst c (pieces inside cs)

def splitChars (cs : List Char) : List (List Char) :=
  (pieces false cs).filter (fun piece => !piece.isEmpty)

def split (path : String) : List String :=
  (splitChars path.toList).map String.ofList

/-- The path of a key below a path; below the empty path it is the key alone. -/
def join (parent key : String) : String :=
  if parent = "" then escape key else parent ++ "." ++ escape key

def element (path : String) (index : Nat) : String :=
  path ++ "[" ++ naturalText index ++ "]"

/-- One step of a path: the field with a key, and maybe an element of the list in it. -/
structure Step where
  key : String
  index : Option Nat
deriving DecidableEq, Repr

def isBracket (c : Char) : Bool :=
  c = '[' || c = ']'

/-- The key and the digits of a segment of the form `key[digits]`, with maybe a line end behind
it. -/
def indexed? (cs : List Char) : Option (List Char × List Char) :=
  let key := cs.takeWhile (!isBracket ·)
  match cs.dropWhile (!isBracket ·) with
  | '[' :: rest =>
    let digits := rest.takeWhile Text.isDigit
    let behind := rest.dropWhile Text.isDigit
    if key.isEmpty || digits.isEmpty then none
    else if behind = [']'] ∨ behind = [']', '\n'] then some (key, digits)
    else none
  | _ => none

/-- The step that a segment writes: a key without brackets, or a key with an index. -/
def Step.read (segment : String) : Except Failure (Option Step) :=
  let cs := segment.toList
  if cs.any isBracket then
    match indexed? cs with
    | some (key, digits) => do
      let index ← readNatural digits
      return some ⟨String.ofList key, some index⟩
    | none => .ok none
  else .ok (some ⟨segment, none⟩)

theorem Step.read_key {s : String} (h : s.toList.any isBracket = false) :
    Step.read s = .ok (some ⟨s, none⟩) := by
  simp [Step.read, h]

theorem unescapeChars_escapeChars (cs : List Char) : unescapeChars (escapeChars cs) = cs := by
  induction cs with
  | nil => rfl
  | cons c cs ih =>
    by_cases h : c = '\\' ∨ c = '.'
    · simp [escapeChars, h, unescapeChars, ih]
    · have hc : c ≠ '\\' := fun e => h (.inl e)
      have : unescapeChars (c :: escapeChars cs) = c :: unescapeChars (escapeChars cs) := by
        rw [unescapeChars] <;> simp [hc]
      simp [escapeChars, h, this, ih]

end Timeline.Path
