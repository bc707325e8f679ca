import Timeline.Files.Workspace
import Timeline.Json.Reader
import Timeline.Settings
import Timeline.Settings.Assignments

/-! # Settings from the environment

Settings are taken from variables whose names start with `TIMELINE_` in any case, or else from a
file of assignments. Lists are JSON texts. All faults are found before any of them is reported.
-/

namespace Timeline

namespace Settings

/-- Where settings are taken from: texts by lower-case names, where a name may be without one. Of
several entries for a name the first one counts. -/
structure Source where
  label : String
  texts : List (String × Option String)

namespace Source

def text? (s : Source) (field : String) : Option String :=
  (s.texts.lookup ("timeline_" ++ field)).getD none

def value? (s : Source) (field : String) : Except Failure (Option Value) :=
  match s.text? field with
  | none => .ok none
  | some text =>
    match Json.read text.toList with
    | .ok v => .ok (if v.isNull then none else some v)
    | .error _ => .error (.unreadableSetting field s.label)

/-- The source of some variables; of those whose names differ in case only the last one counts. -/
def ofPairs (label : String) (pairs : List (String × Option String)) : Source :=
  ⟨label, pairs.reverse.map fun p => (Text.lower p.1, p.2)⟩

/-- The source of the variables of the environment. -/
def ofEnvironment (bindings : List (String × String)) : Source :=
  ofPairs "EnvSettingsSource" (bindings.map fun b => (b.1, some b.2))

/-- Gives a name a new value at its place, or adds it at the end. -/
def assign (a : Assignment) : List (String × Option String) → List (String × Option String)
  | [] => [(a.name, a.value)]
  | p :: rest => if p.1 = a.name then (a.name, a.value) :: rest else p :: assign a rest

/-- The source of a file of assignments. A name that is assigned twice keeps its first place and
its last value; a name alone takes its value away. -/
def ofAssignments (found : List Assignment) : Source :=
  ofPairs "DotEnvSettingsSource" (found.foldl (fun pairs a => assign a pairs) [])

end Source

/-- A setting as far as it could be read, with its faults. -/
structure Checked (α : Type) where
  value : α
  faults : List SettingFault

/-- A text behind zeros at its start, with underscores among them; `previous` is the last one of
these. A zero stays before a point and at the end of the text. -/
def behindZeros? (previous : Char) : List Char → Option (List Char)
  | [] => some [previous]
  | c :: rest =>
    if c = '0' ∨ c = '_' then behindZeros? c rest
    else if c = '.' then some (previous :: c :: rest)
    else if c = '-' ∨ Text.isAsciiDigit c then some (c :: rest)
    else none

/-- A text that starts with a digit, without zeros at its start. -/
def dropZeros? : List Char → Option (List Char)
  | [] => none
  | c :: rest =>
    if c = '0' then behindZeros? c rest
    else if Text.isAsciiDigit c then some (c :: rest)
    else none

/-- A text without a plus sign, and without zeros at its start or behind a minus sign. -/
def plainStart? : List Char → Option (List Char)
  | '+' :: rest => dropZeros? rest
  | '-' :: rest => (dropZeros? rest).map ('-' :: ·)
  | cs => dropZeros? cs

/-- A text without a point and zeros at its end. -/
def dropZeroPlaces (cs : List Char) : List Char :=
  let places := (cs.dropWhile (· ≠ '.')).drop 1
  if !places.isEmpty && places.all (· = '0') then cs.takeWhile (· ≠ '.') else cs

/-- A text without its underscores, which have to stand alone and inside the text. -/
def dropSingleUnderscores (cs : List Char) : List Char :=
  if cs.head? = some '_' ∨ cs.getLast? = some '_' ∨ Text.occursIn ['_', '_'] cs then cs
  else cs.filter (· ≠ '_')

/-- A text without what may stand around and between the digits of an integer: blanks, a plus sign,
zeros at the start, a point with zeros, and underscores. -/
def tidied? (cs : List Char) : Option (List Char) :=
  (plainStart? (Text.trimNumber cs)).map fun cs => dropSingleUnderscores (dropZeroPlaces cs)

/-- What is wrong with a text that should write an integer. -/
inductive IntegerFault where
  | malformed
  | tooLong
deriving DecidableEq, Repr

/-- The rule that a text with a fault breaks. -/
def IntegerFault.rule : IntegerFault → String
  | .malformed => "int_parsing"
  | .tooLong => "int_parsing_size"

/-- The integer that digits write behind maybe a minus sign, without zeros at their start. Too many
digits are a fault of their own, whatever follows them; the sign is no digit. -/
def strictInteger (cs : List Char) : Except IntegerFault Int :=
  let negative := cs.head? = some '-'
  let (digits, rest) := Json.digits (if negative then cs.drop 1 else cs)
  if digits.isEmpty ∨ (digits.head? = some '0' ∧ digits ≠ ['0']) then .error .malformed
  else if Json.digitLimit < digits.length then .error .tooLong
  else if rest.isEmpty then
    let n : Int := Text.decimal digits
    .ok (if negative then -n else n)
  else .error .malformed

/-- The integer that a text writes, as it stands or else tidied. Only a text as it stands is too
long; one that is so when tidied is malformed. -/
def readInteger (cs : List Char) : Except IntegerFault Int :=
  match strictInteger cs with
  | .error .malformed =>
    match (tidied? cs).map strictInteger with
    | some (.ok n) => .ok n
    | _ => .error .malformed
  | found => found

def integer (field : String) (text : Option String) (default : Int) : Checked Int :=
  match text with
  | none => ⟨default, []⟩
  | some s =>
    match readInteger s.toList with
    | .ok n => ⟨n, []⟩
    | .error fault => ⟨default, [⟨field, none, fault.rule⟩]⟩

/-- An integer setting that must not be negative. -/
def natural (field : String) (text : Option String) (default : Int) : Checked Int :=
  let found := integer field text default
  if found.value < 0 then { found with faults := [⟨field, none, "greater_than_equal"⟩] } else found

def itemText? : Value → Option String
  | .text s => some s
  | _ => none

def texts (field : String) (found : Option Value) (default : List String) :
    Checked (List String) :=
  match found with
  | none => ⟨default, []⟩
  | some (.list items) =>
    ⟨items.filterMap itemText?,
      (items.zipIdx.filter fun (v, _) => !v.isText).map fun (_, n) =>
        ⟨field, some n, "string_type"⟩⟩
  | some _ => ⟨default, [⟨field, none, "list_type"⟩]⟩

/-- The settings of two sources, where the first one comes first. -/
def ofSources (first second : Source) : Except Failure Settings := do
  let usual : Settings := {}
  let extensions ← first.value? "supported_extensions"
  let palette ← first.value? "color_palette"
  let extensions2 ← second.value? "supported_extensions"
  let palette2 ← second.value? "color_palette"
  let text? := fun field => (first.text? field).or (second.text? field)
  let size := integer "max_file_size" (text? "max_file_size") 10485760
  let extensions :=
    texts "supported_extensions" (extensions.or extensions2) usual.supportedExtensions
  let depth := natural "available_paths_max_depth" (text? "available_paths_max_depth")
    usual.maxPathDepth
  let palette := texts "color_palette" (palette.or palette2) defaultPalette
  let port := integer "server_port" (text? "server_port") usual.serverPort
  let faults := size.faults ++ extensions.faults ++ depth.faults ++ palette.faults ++ port.faults
  if faults.isEmpty then
    return {
      logLevel := (text? "log_level").getD usual.logLevel
      logFile := (text? "log_file").or usual.logFile
      maxFileSize := .int size.value
      supportedExtensions := extensions.value
      maxPathDepth := depth.value
      palette := palette.value.map .text
      rulesFile := (text? "rules_file").getD usual.rulesFile
      serverName := (text? "server_name").getD usual.serverName
      serverPort := port.value }
  else throw (.settings faults)

/-- The assignments of the file at a path, if there is a file. -/
def assignmentsAt (w : Workspace) (bindings : List (String × String)) (path : String) :
    Except Failure (List Assignment) :=
  match w.node path with
  | .ok (.file bytes) =>
    match Utf8.decode bytes with
    | .ok cs => .ok (Assignment.ofText bindings (Text.unifyLineEnds cs))
    | .error f => .error (.notUtf8 f)
  | _ => .ok []

/-- The settings of the variables of the environment and maybe a file of assignments. -/
def ofEnvironment (w : Workspace) (bindings : List (String × String)) (file : Option String) :
    Except Failure Settings := do
  let assignments ← (file.map (assignmentsAt w bindings)).getD (.ok [])
  ofSources (.ofEnvironment bindings) (.ofAssignments assignments)

/-- The number of a level of importance by its name in any case; other names count as `INFO`. -/
def levelNumber (name : String) : Nat :=
  match Text.lower (name.map fun c => if c = 'ı' then 'i' else c) with
  | "debug" => 10
  | "warning" => 30
  | "error" => 40
  | "critical" => 50
  | _ => 20

end Settings

end Timeline
