import Timeline.Files.Fault
import Timeline.Json.Fault
import Timeline.Text.Utf8
import Timeline.Value.Literal

/-! # Failures

Why an operation gives no result. Each cause is a constructor, and `Failure.message` holds all
the wording.
-/

namespace Timeline

inductive LoadFailure where
  /-- There is no file. -/
  | nothing
  /-- A file holds more than the limit. -/
  | tooLarge (label : String) (size : Nat) (limit : String)
  /-- The bytes are not UTF-8. -/
  | notUtf8 (label : String) (fault : Utf8.Fault)
  /-- The file cannot be opened. -/
  | unreadable (path : String) (fault : FileFault)
  /-- The text is not JSON. -/
  | notJson (label : String) (fault : Json.Fault)
deriving DecidableEq, Repr

def LoadFailure.message : LoadFailure → String
  | .nothing => "No file uploaded."
  | .tooLarge label size limit => s!"{label} is {size} bytes, over the {limit} byte limit."
  | .notUtf8 label fault => s!"{label} is not valid UTF-8: {fault.message}"
  | .unreadable path fault => s!"Cannot read {path}: " ++ fault.message path
  | .notJson label fault =>
    s!"Invalid JSON in {label} (line {fault.line}, column {fault.column}): {fault.reason.message}"

inductive ImportFailure where
  /-- What is imported is no text. -/
  | notText (kind : Kind)
  /-- The text is not JSON. -/
  | notJson (fault : Json.Fault)
  /-- There is no list of rules. -/
  | noList
  /-- No entry of the list is a rule. -/
  | noRule
deriving DecidableEq, Repr

def ImportFailure.wording : ImportFailure → String
  | .notText kind =>
    s!"invalid JSON (the JSON object must be str, bytes or bytearray, not {kind.shortName})"
  | .notJson fault => s!"invalid JSON ({fault.message})"
  | .noList => "expected a list of configurations"
  | .noRule => "no valid configurations found in import data"

def ImportFailure.message (f : ImportFailure) : String :=
  s!"Failed to import configurations: {f.wording}"

structure SettingFault where
  field : String
  item : Option Nat
  rule : String
deriving DecidableEq, Repr

def SettingFault.message (f : SettingFault) : String :=
  match f.item with
  | some n => s!"{f.field}.{n}: {f.rule}"
  | none => s!"{f.field}: {f.rule}"

inductive Failure where
  /-- An integer has more digits than are read. -/
  | tooManyDigits (count : Nat)
  /-- An integer lies outside the range of binary64. -/
  | integerTooLarge
  /-- A moment lies outside the calendar once it is taken to UTC. -/
  | outsideCalendar
  /-- Two values have no order. -/
  | unordered (symbol : String) (left right : Kind)
  /-- A moment with a zone and one without have no order. -/
  | mixedZones
  /-- A value cannot be a key. -/
  | unhashable (kind : Kind)
  /-- A value has no elements. -/
  | notIterable (kind : Kind)
  /-- A value cannot be searched for a text. -/
  | notSearchable (kind : Kind)
  /-- A value has no length. -/
  | noLength (kind : Kind)
  /-- Only a text can be part of a text. -/
  | notPartOfText (kind : Kind)
  /-- A value is no number of milliseconds. -/
  | notMillis (kind : Kind)
  /-- A value has no JSON form. -/
  | notJson (kind : Kind)
  /-- A value cannot be put before a text. -/
  | notJoinable (kind : Kind)
  /-- An object lacks a field. -/
  | missingField (key : String)
  /-- An entity has no start. -/
  | noStart (id : Value)
  /-- A range has an end that is no date. -/
  | badDateRange
  /-- A rule has no such field. -/
  | unknownField (name : String)
  /-- The name of a rule is given twice. -/
  | repeatedName
  /-- There is no color to choose from. -/
  | emptyPalette
  /-- A path holds the character NUL. -/
  | nulInPath
  /-- A file cannot be opened. -/
  | file (path : String) (fault : FileFault)
  /-- Bytes are not UTF-8. -/
  | notUtf8 (fault : Utf8.Fault)
  /-- A document cannot be loaded. -/
  | load (cause : LoadFailure)
  /-- A rule set cannot be imported. -/
  | rules (cause : ImportFailure)
  /-- The text of a setting cannot be taken apart. -/
  | unreadableSetting (field source : String)
  /-- Settings have faults. -/
  | settings (faults : List SettingFault)
deriving Repr

def Failure.message : Failure → String
  | .tooManyDigits count =>
    s!"Exceeds the limit (4300 digits) for integer string conversion: value has {count} digits; " ++
      "use sys.set_int_max_str_digits() to increase the limit"
  | .integerTooLarge => "int too large to convert to float"
  | .outsideCalendar => "date value out of range"
  | .unordered symbol left right =>
    s!"'{symbol}' not supported between instances of '{left.name}' and '{right.name}'"
  | .mixedZones => "can't compare offset-naive and offset-aware datetimes"
  | .unhashable kind => s!"unhashable type: '{kind.name}'"
  | .notIterable kind => s!"'{kind.name}' object is not iterable"
  | .notSearchable kind => s!"argument of type '{kind.name}' is not iterable"
  | .noLength kind => s!"object of type '{kind.name}' has no len()"
  | .notPartOfText kind => s!"'in <string>' requires string as left operand, not {kind.name}"
  | .notMillis kind => s!"unsupported type for timedelta milliseconds component: {kind.name}"
  | .notJson kind => s!"Object of type {kind.shortName} is not JSON serializable"
  | .notJoinable kind => s!"unsupported operand type(s) for +=: '{kind.name}' and 'str'"
  | .missingField key => Text.quoted key
  | .noStart id => s!"Entity {id.literal} has no valid startDate"
  | .badDateRange => "Date range values must be valid dates (e.g. 2024-01-31)."
  | .unknownField name => s!"ExtractionRule.__init__() got an unexpected keyword argument '{name}'"
  | .repeatedName => "RuleStore.update_rule() got multiple values for argument 'name'"
  | .emptyPalette => "integer modulo by zero"
  | .nulInPath => "embedded null byte"
  | .file path fault => fault.message path
  | .notUtf8 fault => fault.message
  | .load cause => cause.message
  | .rules cause => cause.message
  | .unreadableSetting field source =>
    s!"error parsing value for field \"{field}\" from source \"{source}\""
  | .settings faults => Text.join "; " (faults.map (·.message))

end Timeline
