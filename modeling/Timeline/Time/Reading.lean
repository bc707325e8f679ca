import Timeline.Number.Reading
import Timeline.Time.Iso

/-! # Reading dates

The instant that a value stands for: moments and days, numbers as milliseconds from the start of
1970, and texts in ISO 8601, as such a number or in one of three plain forms. A value that does
not count as given stands for none, so a zero in a numeric field is never the start of 1970.
-/

namespace Timeline

namespace Instant

/-- The microseconds of a finite number of milliseconds. The whole milliseconds are exact; a
thousand times the fraction is rounded to binary64, and the sum to the nearest microsecond, in a
tie to the even one. -/
def microsOfMillis (x : Double) : Int :=
  let part := (Double.finite false x.fraction).mulNat 1000
  let behind := match part with
    | .finite _ units => units
    | _ => 0
  let total := x.truncate.natAbs * 1000 * Double.one + behind
  let rounded : Int := roundDiv total Double.one
  if x.isNegative then -rounded else rounded

/-- The instant of a number of milliseconds; other values than numbers have none at all. -/
def ofMillisValue (v : Value) : Except Failure (Option Instant) :=
  match v with
  | .bool b => .ok (ofMillis? b.toNat)
  | .int n => .ok (ofMillis? n)
  | .float x => .ok (if x.isFinite then ofMicros? (microsOfMillis x) else none)
  | v => .error (.notMillis v.kind)

end Instant

/-- A sign and digits of any script, or digits alone. -/
def isIntegerText (cs : List Char) : Bool :=
  let (_, digits) := signPart cs
  !digits.isEmpty && digits.all Text.isDigit

/-- The length of a text without signs at its start. -/
def unsignedLength (cs : List Char) : Nat :=
  (cs.dropWhile fun c => c = '+' || c = '-').length

/-- The parts of a date in one of the plain forms. -/
structure DateParts where
  year : List Char
  month : List Char
  day : List Char

/-- The parts of a text of groups of digits of any script with a separator between them. -/
def digitGroups? (separator : Char) (widths : List Nat) (cs : List Char) :
    Option (List (List Char)) :=
  let groups := Text.splitAt separator cs
  if groups.map List.length = widths ∧ groups.all (·.all Text.isDigit) then some groups else none

/-- The parts of a text `YYYY-MM-DD`. -/
def yearFirst? (cs : List Char) : Option DateParts :=
  match digitGroups? '-' [4, 2, 2] cs with
  | some [y, m, d] => some ⟨y, m, d⟩
  | _ => none

def monthFirst? (separator : Char) (cs : List Char) : Option DateParts :=
  match digitGroups? separator [2, 2, 4] cs with
  | some [m, d, y] => some ⟨y, m, d⟩
  | _ => none

/-- Two ASCII digits from `01` to `12`. -/
def isMonthText : List Char → Bool
  | ['0', c] => '1' ≤ c && c ≤ '9'
  | ['1', c] => '0' ≤ c && c ≤ '2'
  | _ => false

/-- Two digits from `01` to `31`; behind a one or a two the second may be of any script. -/
def isDayText : List Char → Bool
  | ['0', c] => '1' ≤ c && c ≤ '9'
  | ['1', c] => Text.isDigit c
  | ['2', c] => Text.isDigit c
  | ['3', c] => c = '0' || c = '1'
  | _ => false

/-- The start of the day that some parts write. -/
def DateParts.instant? (p : DateParts) : Option Instant :=
  let date : Date := ⟨Text.decimal p.year, Text.decimal p.month, Text.decimal p.day⟩
  if isMonthText p.month ∧ isDayText p.day ∧ date.IsValid then
    Instant.ofMicros? (((date.day : Int) - Date.epoch) * microsPerDay)
  else none

/-- The instant of a text in one of the plain forms `YYYY-MM-DD`, `MM/DD/YYYY` and
`MM-DD-YYYY`. -/
def plainDate? (cs : List Char) : Option Instant :=
  ((yearFirst? cs).bind (·.instant?)).or
    (((monthFirst? '/' cs).bind (·.instant?)).or ((monthFirst? '-' cs).bind (·.instant?)))

/-- The instant of a text in ISO 8601. Digits alone, up to a sign, are only a date if there are
at most four of them. -/
def isoInstant? (cs : List Char) : Option Instant :=
  if isIntegerText cs && unsignedLength cs > 4 then none
  else (Iso.read? cs).bind (·.toInstant?)

def millisInstant (cs : List Char) : Except Failure (Option Instant) :=
  if isIntegerText cs then do
    let (negative, digits) := signPart cs
    let n ← readNatural digits
    return Instant.ofMillis? (if negative then -n else n)
  else .ok none

/-- The instant that a text writes between blanks: ISO 8601 first, then milliseconds, then the
plain forms. -/
def readInstant (s : String) : Except Failure (Option Instant) :=
  let cs := Text.trim s.toList
  match isoInstant? cs with
  | some t => .ok (some t)
  | none => do
    match ← millisInstant cs with
    | some t => return some t
    | none => return plainDate? cs

namespace Value

def instant (v : Value) : Except Failure (Option Instant) :=
  if v.truthy then
    match v with
    | .moment m =>
      match m.toInstant? with
      | some t => .ok (some t)
      | none => .error .outsideCalendar
    | .day d => .ok (Instant.ofMicros? (((d.day : Int) - Date.epoch) * microsPerDay))
    | .int n => .ok (Instant.ofMillis? n)
    | .float x => Instant.ofMillisValue (.float x)
    | .text s => readInstant s
    | _ => .ok none
  else .ok none

/-- The milliseconds of the start of year 2000. Earlier numbers do not look like dates. -/
def plausibleMillis : Int := 946684800000

/-- Whether a text starts with `YYYY-MM-DD` or `MM/DD/YYYY`, in digits of any script. -/
def startsLikeDate (cs : List Char) : Bool :=
  (yearFirst? (cs.take 10)).isSome || (monthFirst? '/' (cs.take 10)).isSome

/-- Whether a value looks like a date: a moment, a day, a plausible number of milliseconds, or a
text that starts like a date; numbers and texts have to stand for an instant too. -/
def looksLikeDate (v : Value) : Except Failure Bool :=
  match v with
  | .moment _ => .ok true
  | .day _ => .ok true
  | .int n => do
    if plausibleMillis < n then return (← (Value.int n).instant).isSome
    return false
  | .float x => do
    if (Number.int plausibleMillis).lt (.float x) then return (← (Value.float x).instant).isSome
    return false
  | .text s => do
    if startsLikeDate (Text.trim s.toList) then return (← readInstant s).isSome
    return false
  | _ => .ok false

end Value

end Timeline
