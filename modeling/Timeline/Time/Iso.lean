import Timeline.Time.Instant

/-! # ISO 8601

A reader of dates and times in the forms of ISO 8601: a calendar date, a week date or an ordinal
date, then maybe any one character, a time of day and a zone. The parts of a date and the parts
of a time are joined consistently, with a separator everywhere or nowhere.

The reader is the strict `isoparse` of dateutil 4.0.0: a number has exactly the digits of its
field, all of ASCII, so `2024-W1`, `2024-01-01T1` and `2024-01-01T10:3` are refused.
-/

namespace Timeline.Iso

/-- The number that some digits at the start of a text write, and the rest of the text. -/
def field? : Nat → List Char → Option (Nat × List Char)
  | 0, cs => some (0, cs)
  | width + 1, c :: cs => do
    let d ← Text.asciiDigit? c
    let (n, rest) ← field? width cs
    return (d * Nat.pow 10 width + n, rest)
  | _ + 1, [] => none

def hyphen : List Char → Bool × List Char
  | '-' :: rest => (true, rest)
  | rest => (false, rest)

def dayOf? (year : Nat) (days : Nat → Nat) : Option Nat :=
  if 1 ≤ year ∧ year ≤ 9999 then
    let day := days year
    if day ≤ Date.lastDay then some day else none
  else none

/-- The parts of a calendar date, which need not exist: `YYYY`, `YYYY-MM`, `YYYY-MM-DD` or
`YYYYMMDD`. -/
def calendarFields? (cs : List Char) : Option (Date × List Char) := do
  let (year, rest) ← field? 4 cs
  if rest.isEmpty then return (⟨year, 1, 1⟩, [])
  let (separated, rest) := hyphen rest
  let (month, rest) ← field? 2 rest
  if separated && rest.isEmpty then return (⟨year, month, 1⟩, [])
  let (again, rest) := hyphen rest
  if again ≠ separated then none
  let (dayOfMonth, rest) ← field? 2 rest
  return (⟨year, month, dayOfMonth⟩, rest)

/-- A week date behind its year and the letter: `ww` or `ww-D` or `wwD`, with a hyphen if there
was one before. The first day counts if none is given. -/
def weekDay? (year : Nat) (separated : Bool) (cs : List Char) : Option (Nat × List Char) := do
  let (week, rest) ← field? 2 cs
  let (weekday, rest) ←
    if rest.isEmpty then some (1, [])
    else
      let (again, rest) := hyphen rest
      if again = separated then field? 1 rest else none
  if 1 ≤ week ∧ week ≤ 53 ∧ 1 ≤ weekday ∧ weekday ≤ 7 then
    let day ← dayOf? year fun y => Date.firstWeek y + 7 * (week - 1) + (weekday - 1)
    return (day, rest)
  else none

/-- An ordinal date behind its year: `DDD`. -/
def ordinalDay? (year : Nat) (cs : List Char) : Option (Nat × List Char) := do
  let (ordinal, rest) ← field? 3 cs
  if 1 ≤ ordinal ∧ ordinal ≤ yearLength year then
    let day ← dayOf? year fun y => daysBeforeYear y + (ordinal - 1)
    return (day, rest)
  else none

/-- A date at the start of a text by its number of days. A text that does not have the form of a
calendar date is read as a week date or an ordinal date. -/
def day? (cs : List Char) : Option (Nat × List Char) :=
  match calendarFields? cs with
  | some (date, rest) => if date.IsValid then some (date.day, rest) else none
  | none => do
    let (year, rest) ← field? 4 cs
    let (separated, rest) := hyphen rest
    match rest with
    | 'W' :: rest => weekDay? year separated rest
    | rest => ordinalDay? year rest

/-- A zone, which ends a text: `Z`, or a sign with `hh`, `hhmm` or `hh:mm`; in seconds. -/
def zone? : List Char → Option Int
  | ['Z'] => some 0
  | ['z'] => some 0
  | sign :: cs => do
    let negative ← if sign = '-' then some true else if sign = '+' then some false else none
    let (hours, rest) ← field? 2 cs
    let minutes ←
      match rest with
      | [] => some 0
      | ':' :: rest => do
        let (minutes, rest) ← field? 2 rest
        if rest.isEmpty then some minutes else none
      | rest => do
        let (minutes, rest) ← field? 2 rest
        if rest.isEmpty then some minutes else none
    if hours ≤ 23 ∧ minutes ≤ 59 then
      let seconds : Int := (hours * 60 + minutes) * 60
      return if negative then -seconds else seconds
    else none
  | [] => none

/-- A time of day with the zone behind it, if there is one. -/
structure Time where
  hour : Nat := 0
  minute : Nat := 0
  second : Nat := 0
  micro : Nat := 0
  offset : Option Int := none

def startsZone (c : Char) : Bool :=
  c = '-' || c = '+' || c = 'Z' || c = 'z'

/-- What follows a part of a time: nothing, a zone, or the next part. -/
def orZone? (t : Time) (next : List Char → Option Time) (cs : List Char) : Option Time :=
  match cs with
  | [] => some t
  | c :: rest =>
    if startsZone c then (zone? (c :: rest)).map fun offset => { t with offset := some offset }
    else next (c :: rest)

/-- The fraction of a second: a point or a comma and digits, of which six count. -/
def fraction? (t : Time) : List Char → Option Time
  | mark :: cs =>
    if mark = '.' ∨ mark = ',' then
      let places := cs.takeWhile Text.isAsciiDigit
      let counted := places.take 6
      if places.isEmpty then none
      else
        let micro := Text.decimal counted * Nat.pow 10 (6 - counted.length)
        orZone? { t with micro := micro } (fun _ => none) (cs.dropWhile Text.isAsciiDigit)
    else none
  | [] => none

/-- The seconds of a time, behind a colon if the minutes are. -/
def second? (t : Time) (separated : Bool) (cs : List Char) : Option Time := do
  let rest ←
    match separated, cs with
    | true, ':' :: rest => some rest
    | true, _ => none
    | false, rest => some rest
  let (second, rest) ← field? 2 rest
  let t := { t with second := second }
  orZone? t (fraction? t) rest

def minute? (t : Time) (cs : List Char) : Option Time := do
  let (separated, rest) : Bool × List Char :=
    match cs with
    | ':' :: rest => (true, rest)
    | rest => (false, rest)
  let (minute, rest) ← field? 2 rest
  let t := { t with minute := minute }
  orZone? t (second? t separated) rest

def hour? (t : Time) (cs : List Char) : Option Time := do
  let (hour, rest) ← field? 2 cs
  let t := { t with hour := hour }
  orZone? t (minute? t) rest

/-- A time of day, of at least two characters. Without hours it is midnight. -/
def time? (cs : List Char) : Option Time :=
  if cs.length < 2 then none else orZone? {} (hour? {}) cs

/-- The fields of a time are within their ranges; the hour 24 is midnight at the end of a day. -/
def Time.IsValid (t : Time) : Prop :=
  (t.hour ≤ 23 ∧ t.minute ≤ 59 ∧ t.second ≤ 59) ∨
    (t.hour = 24 ∧ t.minute = 0 ∧ t.second = 0 ∧ t.micro = 0)

instance (t : Time) : Decidable t.IsValid :=
  inferInstanceAs (Decidable ((_ ∧ _ ∧ _) ∨ (_ ∧ _ ∧ _ ∧ _)))

/-- The microseconds from the start of the day. -/
def Time.micros (t : Time) : Nat :=
  ((t.hour * 60 + t.minute) * 60 + t.second) * 1000000 + t.micro

/-- The moment of a day and a time, if it lies within the calendar. -/
def moment? (day : Nat) (t : Time) : Option Moment :=
  if t.IsValid then
    let wall := ((day : Int) - Date.epoch) * microsPerDay + t.micros
    (Instant.ofMicros? wall).map fun _ => ⟨wall, t.offset⟩
  else none

/-- The moment that an ASCII text writes. Any character may stand between the date and the time. -/
def read? (cs : List Char) : Option Moment := do
  if cs.any (fun c => 128 ≤ c.toNat) then none
  let (day, rest) ← day? cs
  match rest with
  | [] => moment? day {}
  | _ :: rest => moment? day (← time? rest)

end Timeline.Iso
