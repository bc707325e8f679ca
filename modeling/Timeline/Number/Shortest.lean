import Timeline.Number.Double

/-! # The shortest decimal of a binary64 number

The decimal with the fewest digits that reads back as the number, and among these the nearest
one; of two equally near ones the one with the even last digit. The interval of the reals that
read back and the decimals themselves are compared as natural numbers.
-/

namespace Timeline.Double

structure Decimal where
  digits : Nat
  exponent : Int
deriving DecidableEq, Repr

/-- The reals that round to a number, in quarters of a unit; the ends belong to them if the last
bit of the number is even. -/
structure Basin where
  low : Nat
  high : Nat
  closed : Bool

/-- The reals that round to a positive number of units. Below a power of two the neighbour is
half as far away, unless the numbers are at their densest. -/
def basin (units : Nat) : Basin :=
  let above := spacing units
  let below := if above = 1 ∨ units ≠ Nat.pow 2 52 * above then above else above / 2
  { low := 4 * units - 2 * below, high := 4 * units + 2 * above, closed := units / above % 2 = 0 }

/-- Whether `n / d` quarters of a unit lie in a basin. -/
def Basin.holds (b : Basin) (n d : Nat) : Bool :=
  if b.closed then b.low * d ≤ n && n ≤ b.high * d else b.low * d < n && n < b.high * d

/-- Whether a positive number of units is at least `10 ^ k`. -/
def reachesPower (units : Nat) (k : Int) : Bool :=
  one * Nat.pow 10 k.toNat ≤ units * Nat.pow 10 (-k).toNat

/-- The exponent of the first decimal digit of a positive number of units: an estimate from the
number of bits, moved by one where it is too low or too high. -/
def decimalExponent (units : Nat) : Int :=
  let estimate := Int.fdiv (((units.log2 : Int) - 1074) * 30102999566) 100000000000
  if reachesPower units (estimate + 1) then estimate + 1
  else if reachesPower units estimate then estimate
  else estimate - 1

/-- The decimal on the grid `10 ^ p` that reads back as a number of units, if there is one. -/
def onGrid? (units : Nat) (b : Basin) (p : Int) : Option Decimal :=
  let up := Nat.pow 10 (-p).toNat
  let cell := 4 * one * Nat.pow 10 p.toNat
  let value := 4 * units * up
  let below := value / cell
  let lowFits := b.holds (below * cell) up
  let highFits := value % cell ≠ 0 && b.holds ((below + 1) * cell) up
  if lowFits && highFits then some ⟨roundDiv value cell, p⟩
  else if lowFits then some ⟨below, p⟩
  else if highFits then some ⟨below + 1, p⟩
  else none

/-- The decimal on the first of some grids, from coarse to fine, that holds one. -/
def firstOnGrid (units : Nat) (b : Basin) (finest : Int) : Nat → Decimal
  | 0 => (onGrid? units b finest).getD ⟨0, 0⟩
  | left + 1 =>
    match onGrid? units b (finest + (left + 1)) with
    | some d => d
    | none => firstOnGrid units b finest left

/-- The shortest decimal of a positive number of units. Seventeen digits are always enough. -/
def shortest (units : Nat) : Decimal :=
  firstOnGrid units (basin units) (decimalExponent units - 16) 16

/-- Digits without the zeros at their end, and how many zeros these are. -/
def dropZeros (digits : List Char) : List Char × Nat :=
  let kept := (digits.reverse.dropWhile (· = '0')).reverse
  (kept, digits.length - kept.length)

def pointed : List Char → List Char
  | [] => []
  | [c] => [c]
  | c :: rest => c :: '.' :: rest

/-- The text of a positive decimal: positional with at least one digit behind the point if the
exponent of its first digit lies between -4 and 15, else with a signed exponent of at least two
digits. -/
def Decimal.text (d : Decimal) : List Char :=
  let (digits, zeros) := dropZeros (Nat.toDigits 10 d.digits)
  let exponent : Int := d.exponent + zeros + digits.length - 1
  if exponent < -4 ∨ 16 ≤ exponent then
    let size := Nat.toDigits 10 exponent.natAbs
    let sign := if exponent < 0 then '-' else '+'
    pointed digits ++ 'e' :: sign :: List.replicate (2 - size.length) '0' ++ size
  else if exponent < 0 then
    '0' :: '.' :: List.replicate (exponent.natAbs - 1) '0' ++ digits
  else
    let whole := exponent.toNat + 1
    let behind := digits.drop whole
    digits.take whole ++ List.replicate (whole - digits.length) '0' ++
      '.' :: (if behind.isEmpty then ['0'] else behind)

def signText (negative : Bool) : String :=
  if negative then "-" else ""

/-- The text of a number: the shortest decimal that reads back as it. -/
def text : Double → String
  | .nan => "nan"
  | .infinite s => signText s ++ "inf"
  | .finite s 0 => signText s ++ "0.0"
  | .finite s u => signText s ++ String.ofList (shortest u).text

end Timeline.Double
