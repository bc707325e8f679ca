import Timeline.Number.Rounding

/-! # Binary64 numbers

The numbers of IEEE 754 binary64 in exact arithmetic. Every finite one is a whole multiple of
the smallest positive one, 2^-1074, and is stored as that multiple beside its sign. A result is
computed exactly and then rounded once, to the nearest number and in a tie to the even one.
-/

namespace Timeline

/-- A binary64 number. The units of a finite one are multiples of 2^-1074. -/
inductive Double where
  | nan
  | infinite (negative : Bool)
  | finite (negative : Bool) (units : Nat)
deriving DecidableEq, Repr

namespace Double

/-- The number of units in one. -/
def one : Nat := Nat.pow 2 1074

/-- The first number of units past the largest finite number. -/
def tooLarge : Nat := Nat.pow 2 2098

/-- The distance between neighbours around a number of units: 53 bits are kept. -/
def spacing (units : Nat) : Nat :=
  Nat.pow 2 (units.log2 + 1 - 53)

/-- The number of units nearest to the quotient `n / d` among those with 53 significant bits. -/
def roundUnits (n d : Nat) : Nat :=
  let step := spacing (n / d)
  roundDiv n (d * step) * step

def ofUnits (negative : Bool) (units : Nat) : Double :=
  if units < tooLarge then .finite negative units else .infinite negative

/-- The number nearest to the quotient `n / d` with a sign. -/
def ofRatio (negative : Bool) (n d : Nat) : Double :=
  ofUnits negative (roundUnits (n * one) d)

def ofInt (n : Int) : Double :=
  ofRatio (n < 0) n.natAbs 1

/-- The number nearest to `digits * 10 ^ exponent`. Exponents far outside the range are decided
by the number of digits. -/
def ofDecimal (negative : Bool) (digits : Nat) (exponent : Int) : Double :=
  if digits = 0 then .finite negative 0
  else
    let places : Int := (Nat.toDigits 10 digits).length + exponent
    if places > 310 then .infinite negative
    else if places < -330 then .finite negative 0
    else ofRatio negative (digits * Nat.pow 10 exponent.toNat) (Nat.pow 10 (-exponent).toNat)

def isFinite : Double → Bool
  | .finite .. => true
  | _ => false

def isZero : Double → Bool
  | .finite _ 0 => true
  | _ => false

def mulNat (k : Nat) : Double → Double
  | .nan => .nan
  | .infinite s => if k = 0 then .nan else .infinite s
  | .finite s u => ofUnits s (roundUnits (u * k) 1)

/-- The whole part of a finite number, rounded toward zero. -/
def truncate : Double → Int
  | .finite false u => u / one
  | .finite true u => -(u / one : Nat)
  | _ => 0

def fraction : Double → Nat
  | .finite _ u => u % one
  | _ => 0

def isNegative : Double → Bool
  | .nan => false
  | .infinite s => s
  | .finite s _ => s

end Double

/-- A place on the line of the numbers: the two ends, or a whole number of units of 2^-1074. -/
inductive Place where
  | low
  | units (n : Int)
  | high
deriving DecidableEq, Repr

def Place.lt : Place → Place → Bool
  | .low, .low => false
  | .low, _ => true
  | .units m, .units n => m < n
  | .units _, .high => true
  | _, _ => false

inductive Number where
  | int (n : Int)
  | float (x : Double)
deriving DecidableEq, Repr

namespace Number

/-- Where a number lies; not-a-number lies nowhere. -/
def place? : Number → Option Place
  | .int n => some (.units (n * Double.one))
  | .float .nan => none
  | .float (.infinite true) => some .low
  | .float (.infinite false) => some .high
  | .float (.finite true u) => some (.units (-u))
  | .float (.finite false u) => some (.units u)

/-- Equality by value, exact also between an integer and a binary64 number. -/
def same (a b : Number) : Bool :=
  match a.place?, b.place? with
  | some p, some q => p == q
  | _, _ => false

/-- The order by value, exact also between an integer and a binary64 number. -/
def lt (a b : Number) : Bool :=
  match a.place?, b.place? with
  | some p, some q => p.lt q
  | _, _ => false

end Number

end Timeline
