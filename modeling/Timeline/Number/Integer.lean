import Timeline.Text.Digit

/-! # Decimal integers

Integers as decimal texts, without leading zeros and with a minus sign in front of negative ones.
-/

namespace Timeline

def integerChars : Int → List Char
  | .ofNat n => Nat.toDigits 10 n
  | .negSucc n => '-' :: Nat.toDigits 10 (n + 1)

def integerText (n : Int) : String :=
  String.ofList (integerChars n)

def naturalText (n : Nat) : String :=
  String.ofList (Nat.toDigits 10 n)

end Timeline
