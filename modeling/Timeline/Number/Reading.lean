import Timeline.Json.Reader
import Timeline.Text.Blank
import Timeline.Text.Casing

/-! # Reading numbers

Numbers in texts that people write: with the digits of any script, with blanks around them, and
with single underscores between digits.
-/

namespace Timeline

/-- The number that digits write, of which there may be up to the limit. -/
def readNatural (digits : List Char) : Except Failure Nat :=
  if digits.length > Json.digitLimit then .error (.tooManyDigits digits.length)
  else .ok (Text.decimal digits)

/-- A sign in front of a text, and what follows it. -/
def signPart : List Char → Bool × List Char
  | '-' :: rest => (true, rest)
  | '+' :: rest => (false, rest)
  | rest => (false, rest)

/-- Digits in ASCII and all blanks around numbers as one kind; a character beyond ASCII that is
neither has no place in a number. -/
def plainChar (c : Char) : Char :=
  match Text.digitValue? c with
  | some n => Char.ofNat (48 + n)
  | none => if Text.isNumberBlank c then ' ' else if c.toNat < 128 then c else '?'

/-- Drops underscores, each of which has to stand between two digits; `previous` is the character
before the text. -/
def dropUnderscores (previous : Char) : List Char → Option (List Char)
  | [] => if previous = '_' then none else some []
  | '_' :: rest => if Text.isAsciiDigit previous then dropUnderscores '_' rest else none
  | c :: rest =>
    if previous = '_' ∧ Text.isAsciiDigit c = false then none
    else (dropUnderscores c rest).map (c :: ·)

/-- The binary64 number of a word in any case. -/
def wordNumber? (cs : List Char) : Option Double :=
  let word := String.ofList (cs.map Text.lowerChar)
  if word = "nan" then some .nan
  else if word = "inf" ∨ word = "infinity" then some (.infinite false)
  else none

def Double.negate : Double → Double
  | .nan => .nan
  | .infinite s => .infinite !s
  | .finite s u => .finite (!s) u

/-- The binary64 number of a decimal without a sign: digits with a point among them or at an end,
and maybe an exponent. -/
def unsignedNumber? (cs : List Char) : Option Double :=
  let (whole, rest) := Json.digits cs
  let (places, rest) : List Char × List Char :=
    match rest with
    | '.' :: rest => Json.digits rest
    | rest => ([], rest)
  if whole.isEmpty && places.isEmpty then none
  else
    let exponent := Json.exponentPart? rest
    if ((exponent.map (·.2)).getD rest).isEmpty then
      let power := (exponent.map (·.1)).getD 0 - places.length
      some (.ofDecimal false (Text.decimal (whole ++ places)) power)
    else none

/-- The binary64 number that a text writes. -/
def readDouble? (cs : List Char) : Option Double := do
  let cs ← dropUnderscores ' ' (Text.trimNumber (cs.map plainChar))
  let (negative, body) := signPart cs
  let x ← (wordNumber? body).or (unsignedNumber? body)
  return if negative then x.negate else x

end Timeline
