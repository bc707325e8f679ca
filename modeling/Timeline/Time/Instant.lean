import Timeline.Text.Digit
import Timeline.Time.Calendar

/-! # Instants

An instant is a number of microseconds from the start of 1970 in UTC, within the years 1 to 9999.
A moment is what a clock shows, with or without the distance of its zone from UTC; without one it
counts as UTC.
-/

namespace Timeline

/-- Microseconds from 1970-01-01T00:00:00Z. -/
structure Instant where
  micros : Int
deriving DecidableEq, Repr

def microsPerDay : Int := 86400000000

namespace Instant

/-- The first instant of year 1. -/
def first : Int := -(Date.epoch * microsPerDay)

def pastLast : Int := (Date.lastDay + 1 - Date.epoch) * microsPerDay

/-- The instant of a number of microseconds, within the calendar. -/
def ofMicros? (n : Int) : Option Instant :=
  if first ≤ n ∧ n < pastLast then some ⟨n⟩ else none

def ofMillis? (n : Int) : Option Instant :=
  ofMicros? (n * 1000)

instance : LE Instant := ⟨fun a b => a.micros ≤ b.micros⟩

instance (a b : Instant) : Decidable (a ≤ b) :=
  inferInstanceAs (Decidable (a.micros ≤ b.micros))

end Instant

structure Clock where
  date : Date
  hour : Nat
  minute : Nat
  second : Nat
  micro : Nat
deriving DecidableEq, Repr

namespace Clock

/-- The microseconds from the start of 1970 to what a clock shows. -/
def micros (c : Clock) : Int :=
  ((c.date.day : Int) - Date.epoch) * microsPerDay +
    (((c.hour * 60 + c.minute) * 60 + c.second) * 1000000 + c.micro : Nat)

/-- What a clock shows a number of microseconds after the start of 1970. -/
def ofMicros (n : Int) : Clock :=
  let left := (n % microsPerDay).toNat
  { date := Date.ofDay (n / microsPerDay + Date.epoch).toNat
    hour := left / 3600000000
    minute := left / 60000000 % 60
    second := left / 1000000 % 60
    micro := left % 1000000 }

end Clock

/-- What a clock shows, in microseconds from the start of 1970, and how many seconds it is ahead
of UTC, if it says so. -/
structure Moment where
  wall : Int
  offset : Option Int
deriving DecidableEq, Repr

namespace Moment

def ofInstant (t : Instant) : Moment :=
  ⟨t.micros, some 0⟩

/-- The microseconds in UTC; a clock without a zone shows UTC. -/
def utcMicros (m : Moment) : Int :=
  m.wall - m.offset.getD 0 * 1000000

/-- The instant of a moment, unless it lies outside the calendar. -/
def toInstant? (m : Moment) : Option Instant :=
  Instant.ofMicros? m.utcMicros

/-- Whether both moments have a zone or neither has one: others have no order. -/
def comparable (a b : Moment) : Bool :=
  a.offset.isSome == b.offset.isSome

/-- Equality as instants; moments without an order are different. -/
def same (a b : Moment) : Bool :=
  a.comparable b && a.utcMicros == b.utcMicros

end Moment

/-- The month and the day of a date behind its year, as in `-01-31`. -/
def Date.monthDayText (d : Date) : List Char :=
  '-' :: Text.decimalPadded 2 d.month ++ '-' :: Text.decimalPadded 2 d.dayOfMonth

/-- The text of a date, as in `2024-01-31`. -/
def Date.text (d : Date) : List Char :=
  Text.decimalPadded 4 d.year ++ d.monthDayText

/-- The text of a time of day in whole seconds, as in `09:30:00`. -/
def Clock.timeText (c : Clock) : List Char :=
  Text.decimalPadded 2 c.hour ++ ':' :: Text.decimalPadded 2 c.minute ++
    ':' :: Text.decimalPadded 2 c.second

/-- The text of an instant with milliseconds, as in `2024-01-31T09:30:00.000Z`. The year has no
leading zeros and the microseconds are cut off. -/
def Instant.text (t : Instant) : String :=
  let c := Clock.ofMicros t.micros
  String.ofList (Nat.toDigits 10 c.date.year ++ c.date.monthDayText ++ 'T' :: c.timeText ++
    '.' :: Text.decimalPadded 3 (c.micro / 1000) ++ ['Z'])

/-- The text of the distance from UTC, as in `+02:00`; seconds are shown if there are any. -/
def offsetText (offset : Int) : List Char :=
  let n := offset.natAbs
  let seconds := if n % 60 = 0 then [] else ':' :: Text.decimalPadded 2 (n % 60)
  (if offset < 0 then '-' else '+') :: Text.decimalPadded 2 (n / 3600) ++
    ':' :: Text.decimalPadded 2 (n / 60 % 60) ++ seconds

/-- The text of a moment, as in `2024-01-31 09:30:00.000500+02:00`; the microseconds are shown if
there are any. -/
def Moment.text (m : Moment) : String :=
  let c := Clock.ofMicros m.wall
  let micros := if c.micro = 0 then [] else '.' :: Text.decimalPadded 6 c.micro
  String.ofList (c.date.text ++ ' ' :: c.timeText ++ micros ++ (m.offset.map offsetText).getD [])

end Timeline
