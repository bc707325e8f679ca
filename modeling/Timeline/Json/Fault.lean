/-! # Faults of JSON texts

Why a text is no JSON and where: the place is counted in characters, and lines end with `\n`.
-/

namespace Timeline.Json

/-- What is wrong at a place. -/
inductive Reason where
  | value
  | propertyName
  | colon
  | comma
  | extraData
  | unterminatedString
  | controlCharacter
  | escape
  | unicodeEscape
  | byteOrderMark
deriving DecidableEq, Repr

def Reason.message : Reason → String
  | .value => "Expecting value"
  | .propertyName => "Expecting property name enclosed in double quotes"
  | .colon => "Expecting ':' delimiter"
  | .comma => "Expecting ',' delimiter"
  | .extraData => "Extra data"
  | .unterminatedString => "Unterminated string starting at"
  | .controlCharacter => "Invalid control character at"
  | .escape => "Invalid \\escape"
  | .unicodeEscape => "Invalid \\uXXXX escape"
  | .byteOrderMark => "Unexpected UTF-8 BOM (decode using utf-8-sig)"

/-- A reason with its place; lines and columns are counted from one. -/
structure Fault where
  reason : Reason
  place : Nat
  line : Nat
  column : Nat
deriving DecidableEq, Repr

/-- The fault behind the characters `before`. -/
def Fault.behind (reason : Reason) (before : List Char) : Fault :=
  { reason := reason
    place := before.length
    line := before.count '\n' + 1
    column := (before.reverse.takeWhile (· ≠ '\n')).length + 1 }

def Fault.message (f : Fault) : String :=
  s!"{f.reason.message}: line {f.line} column {f.column} (char {f.place})"

end Timeline.Json
