import Timeline.Text.Digit

/-! # UTF-8

Texts as bytes and back. A fault names the bytes that cannot be read: the longest start of a
sequence that some character could have, or a single byte.
-/

namespace Timeline.Utf8

inductive Reason where
  | startByte
  | continuationByte
  | endOfData
deriving DecidableEq, Repr

/-- The bytes from `start` up to, and without, `stop` cannot be read. -/
structure Fault where
  first : UInt8
  start : Nat
  stop : Nat
  reason : Reason
deriving DecidableEq, Repr

def Reason.message : Reason → String
  | .startByte => "invalid start byte"
  | .continuationByte => "invalid continuation byte"
  | .endOfData => "unexpected end of data"

/-- The wording of a fault: one byte by its value, several by their places. -/
def Fault.message (f : Fault) : String :=
  if f.stop = f.start + 1 then
    let byte := String.ofList (Text.hexPadded 2 f.first.toNat)
    s!"'utf-8' codec can't decode byte 0x{byte} in position {f.start}: {f.reason.message}"
  else
    let last := f.stop - 1
    s!"'utf-8' codec can't decode bytes in position {f.start}-{last}: {f.reason.message}"

def encodeChar (c : Char) : List UInt8 :=
  let n := c.toNat
  if n < 0x80 then [n.toUInt8]
  else if n < 0x800 then [(0xC0 + n / 64).toUInt8, (0x80 + n % 64).toUInt8]
  else if n < 0x10000 then
    [(0xE0 + n / 4096).toUInt8, (0x80 + n / 64 % 64).toUInt8, (0x80 + n % 64).toUInt8]
  else
    [(0xF0 + n / 262144).toUInt8, (0x80 + n / 4096 % 64).toUInt8, (0x80 + n / 64 % 64).toUInt8,
      (0x80 + n % 64).toUInt8]

def encode (cs : List Char) : List UInt8 :=
  cs.flatMap encodeChar

/-- The number of bytes of a sequence with this first byte, and the bounds of its second byte. -/
def lead? (b : UInt8) : Option (Nat × Nat × Nat) :=
  let n := b.toNat
  if n < 0x80 then some (1, 0, 0)
  else if n < 0xC2 then none
  else if n < 0xE0 then some (2, 0x80, 0xBF)
  else if n = 0xE0 then some (3, 0xA0, 0xBF)
  else if n = 0xED then some (3, 0x80, 0x9F)
  else if n < 0xF0 then some (3, 0x80, 0xBF)
  else if n = 0xF0 then some (4, 0x90, 0xBF)
  else if n < 0xF4 then some (4, 0x80, 0xBF)
  else if n = 0xF4 then some (4, 0x80, 0x8F)
  else none

/-- The value of a byte in a sequence, if it lies within bounds. -/
def within? (low high : Nat) (b : UInt8) : Option Nat :=
  if low ≤ b.toNat ∧ b.toNat ≤ high then some (b.toNat % 64) else none

/-- What stands at the start of some bytes: a character with the number of its bytes, or the
reason why there is none with the number of bytes to blame. -/
def decodeFirst (b : UInt8) (rest : List UInt8) : Except (Reason × Nat) (Char × Nat) :=
  match lead? b with
  | none => .error (.startByte, 1)
  | some (1, _, _) => .ok (Char.ofNat b.toNat, 1)
  | some (size, low, high) =>
    match rest with
    | [] => .error (.endOfData, 1)
    | b₁ :: rest =>
      match within? low high b₁ with
      | none => .error (.continuationByte, 1)
      | some m₁ =>
        if size = 2 then .ok (Char.ofNat ((b.toNat - 0xC0) * 64 + m₁), 2)
        else
          match rest with
          | [] => .error (.endOfData, 2)
          | b₂ :: rest =>
            match within? 0x80 0xBF b₂ with
            | none => .error (.continuationByte, 2)
            | some m₂ =>
              if size = 3 then .ok (Char.ofNat (((b.toNat - 0xE0) * 64 + m₁) * 64 + m₂), 3)
              else
                match rest with
                | [] => .error (.endOfData, 3)
                | b₃ :: _ =>
                  match within? 0x80 0xBF b₃ with
                  | none => .error (.continuationByte, 3)
                  | some m₃ =>
                    .ok (Char.ofNat ((((b.toNat - 0xF0) * 64 + m₁) * 64 + m₂) * 64 + m₃), 4)

/-- Reads the bytes behind the first `place` ones; the first `skip` of them belong to a character
that has been read. -/
def decodeFrom (place : Nat) (skip : Nat) : List UInt8 → Except Fault (List Char)
  | [] => .ok []
  | b :: rest =>
    match skip with
    | skip + 1 => decodeFrom (place + 1) skip rest
    | 0 =>
      match decodeFirst b rest with
      | .ok (c, size) => (decodeFrom (place + 1) (size - 1) rest).map (c :: ·)
      | .error (reason, size) =>
        .error { first := b, start := place, stop := place + size, reason := reason }

def decode (bytes : List UInt8) : Except Fault (List Char) :=
  decodeFrom 0 0 bytes

end Timeline.Utf8
