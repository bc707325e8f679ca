import Timeline.Failure

/-! # Reading JSON

A reader of JSON texts that says what is wrong with a text and where. It also takes `NaN`,
`Infinity` and `-Infinity`. A number with a fraction or an exponent is a binary64 number, any
other an integer, and a repeated key of an object keeps its first place and its last value.
-/

namespace Timeline.Json

/-- Why reading stops: a fault before some characters, or an integer that is too long. -/
inductive Stop where
  | fault (reason : Reason) (rest : List Char)
  | tooManyDigits (count : Nat)

/-- A value and the characters behind it. -/
abbrev Read (α : Type) := Except Stop (α × List Char)

def isSpace (c : Char) : Bool :=
  c = ' ' || c = '\t' || c = '\n' || c = '\r'

/-- The text behind its leading blanks. -/
def skip (cs : List Char) : List Char :=
  cs.dropWhile isSpace

/-- The character behind a backslash that stands for a single character. -/
def simpleEscape? : Char → Option Char
  | '\x22' => some '\x22'
  | '\\' => some '\\'
  | '/' => some '/'
  | 'b' => some '\x08'
  | 'f' => some '\x0c'
  | 'n' => some '\n'
  | 'r' => some '\r'
  | 't' => some '\t'
  | _ => none

/-- The number that four hexadecimal digits write. -/
def hex4? (a b c d : Char) : Option Nat := do
  let a ← Text.hexDigit? a
  let b ← Text.hexDigit? b
  let c ← Text.hexDigit? c
  let d ← Text.hexDigit? d
  return ((a * 16 + b) * 16 + c) * 16 + d

def isHighSurrogate (n : Nat) : Bool :=
  0xD800 ≤ n && n < 0xDC00

def isLowSurrogate (n : Nat) : Bool :=
  0xDC00 ≤ n && n < 0xE000

/-- The character of a code unit; half a pair without the other half is the replacement
character. -/
def unitChar (n : Nat) : Char :=
  if isHighSurrogate n || isLowSurrogate n then '\uFFFD' else Char.ofNat n

def pairChar (high low : Nat) : Char :=
  Char.ofNat (0x10000 + (high - 0xD800) * 0x400 + (low - 0xDC00))

def Read.cons (c : Char) (r : Read (List Char)) : Read (List Char) :=
  r.map fun (cs, rest) => (c :: cs, rest)

/-- Reads the characters of a string up to and with its closing quote; `whole` starts with the
opening one. An escape `\u` is only read if a character follows it. -/
def string (whole : List Char) : List Char → Read (List Char)
  | [] => .error (.fault .unterminatedString whole)
  | '\\' :: 'u' :: a :: b :: c :: d :: '\\' :: 'u' :: e :: f :: g :: h :: i :: rest =>
    match hex4? a b c d with
    | none => .error (.fault .unicodeEscape
        ('u' :: a :: b :: c :: d :: '\\' :: 'u' :: e :: f :: g :: h :: i :: rest))
    | some high =>
      if isHighSurrogate high then
        match hex4? e f g h with
        | none => .error (.fault .unicodeEscape ('u' :: e :: f :: g :: h :: i :: rest))
        | some low =>
          if isLowSurrogate low then Read.cons (pairChar high low) (string whole (i :: rest))
          else
            Read.cons (unitChar high) (string whole ('\\' :: 'u' :: e :: f :: g :: h :: i :: rest))
      else Read.cons (unitChar high) (string whole ('\\' :: 'u' :: e :: f :: g :: h :: i :: rest))
  | '\\' :: 'u' :: a :: b :: c :: d :: e :: rest =>
    match hex4? a b c d with
    | none => .error (.fault .unicodeEscape ('u' :: a :: b :: c :: d :: e :: rest))
    | some n => Read.cons (unitChar n) (string whole (e :: rest))
  | '\\' :: 'u' :: rest => .error (.fault .unicodeEscape ('u' :: rest))
  | ['\\'] => .error (.fault .unterminatedString whole)
  | '\\' :: c :: rest =>
    match simpleEscape? c with
    | some e => Read.cons e (string whole rest)
    | none => .error (.fault .escape ('\\' :: c :: rest))
  | c :: rest =>
    if c = '\x22' then .ok ([], rest)
    else if c.toNat < 0x20 then .error (.fault .controlCharacter (c :: rest))
    else Read.cons c (string whole rest)

def digits (cs : List Char) : List Char × List Char :=
  (cs.takeWhile Text.isAsciiDigit, cs.dropWhile Text.isAsciiDigit)

/-- The digits behind a point, if there are any. -/
def fractionPart? : List Char → Option (List Char × List Char)
  | '.' :: rest =>
    let (ds, rest) := digits rest
    if ds.isEmpty then none else some (ds, rest)
  | _ => none

/-- The value of an exponent, if there is one with a digit. -/
def exponentPart? : List Char → Option (Int × List Char)
  | e :: rest =>
    if e = 'e' ∨ e = 'E' then
      let (negative, rest) : Bool × List Char :=
        match rest with
        | '-' :: rest => (true, rest)
        | '+' :: rest => (false, rest)
        | rest => (false, rest)
      let (ds, rest) := digits rest
      if ds.isEmpty then none
      else some (if negative then -(Text.decimal ds) else Text.decimal ds, rest)
    else none
  | [] => none

/-- The whole digits of a number: a single zero, or digits that do not start with one. -/
def wholePart? : List Char → Option (List Char × List Char)
  | '0' :: rest => some (['0'], rest)
  | cs =>
    let (ds, rest) := digits cs
    if ds.isEmpty then none else some (ds, rest)

/-- Reads a number. An integer may have up to `limit` digits. -/
def number (limit : Nat) (cs : List Char) : Read Value :=
  let (negative, body) : Bool × List Char :=
    match cs with
    | '-' :: rest => (true, rest)
    | rest => (false, rest)
  match wholePart? body with
  | none => .error (.fault .value cs)
  | some (whole, rest) =>
    let fraction := fractionPart? rest
    let behind := (fraction.map (·.2)).getD rest
    let exponent := exponentPart? behind
    if fraction.isNone && exponent.isNone then
      if whole.length > limit then .error (.tooManyDigits whole.length)
      else
        let n : Int := Text.decimal whole
        .ok (.int (if negative then -n else n), rest)
    else
      let places := (fraction.map (·.1)).getD []
      let power := (exponent.map (·.1)).getD 0 - places.length
      .ok (.float (Double.ofDecimal negative (Text.decimal (whole ++ places)) power),
        (exponent.map (·.2)).getD behind)

/-- Reads one of the words that stand for values. -/
def word? : List Char → Option (Value × List Char)
  | 'n' :: 'u' :: 'l' :: 'l' :: rest => some (.null, rest)
  | 't' :: 'r' :: 'u' :: 'e' :: rest => some (.bool true, rest)
  | 'f' :: 'a' :: 'l' :: 's' :: 'e' :: rest => some (.bool false, rest)
  | 'N' :: 'a' :: 'N' :: rest => some (.float .nan, rest)
  | 'I' :: 'n' :: 'f' :: 'i' :: 'n' :: 'i' :: 't' :: 'y' :: rest =>
    some (.float (.infinite false), rest)
  | '-' :: 'I' :: 'n' :: 'f' :: 'i' :: 'n' :: 'i' :: 't' :: 'y' :: rest =>
    some (.float (.infinite true), rest)
  | _ => none

mutual

/-- Reads a value. The first number bounds the depth of the calls. -/
def value (limit : Nat) : Nat → List Char → Read Value
  | 0, cs => .error (.fault .value cs)
  | _, [] => .error (.fault .value [])
  | fuel + 1, c :: rest =>
    if c = '\x22' then
      (string (c :: rest) rest).map fun (s, rest) => (.text (String.ofList s), rest)
    else if c = '[' then
      match skip rest with
      | ']' :: rest => .ok (.list [], rest)
      | rest => (items limit fuel rest).map fun (vs, rest) => (.list vs, rest)
    else if c = '{' then
      match skip rest with
      | '}' :: rest => .ok (.object [], rest)
      | rest => (members limit fuel rest).map fun (fs, rest) => (.object (Fields.ofList fs), rest)
    else
      match word? (c :: rest) with
      | some found => .ok found
      | none => number limit (c :: rest)

def items (limit : Nat) : Nat → List Char → Read (List Value)
  | 0, cs => .error (.fault .value cs)
  | fuel + 1, cs =>
    match value limit fuel cs with
    | .error e => .error e
    | .ok (v, rest) =>
      match skip rest with
      | ']' :: rest => .ok ([v], rest)
      | ',' :: rest => (items limit fuel (skip rest)).map fun (vs, rest) => (v :: vs, rest)
      | rest => .error (.fault .comma rest)

def members (limit : Nat) : Nat → List Char → Read Fields
  | 0, cs => .error (.fault .value cs)
  | fuel + 1, cs =>
    match cs with
    | '\x22' :: rest =>
      match string cs rest with
      | .error e => .error e
      | .ok (key, rest) =>
        match skip rest with
        | ':' :: rest =>
          match value limit fuel (skip rest) with
          | .error e => .error e
          | .ok (v, rest) =>
            match skip rest with
            | '}' :: rest => .ok ([(String.ofList key, v)], rest)
            | ',' :: rest =>
              (members limit fuel (skip rest)).map fun (fs, rest) =>
                ((String.ofList key, v) :: fs, rest)
            | rest => .error (.fault .comma rest)
        | rest => .error (.fault .colon rest)
    | cs => .error (.fault .propertyName cs)

end

/-- Reads a text that holds one value between blanks. -/
def document (limit : Nat) (cs : List Char) : Except Stop Value :=
  match cs with
  | '\uFEFF' :: _ => .error (.fault .byteOrderMark cs)
  | _ =>
    match value limit (2 * cs.length + 2) (skip cs) with
    | .error e => .error e
    | .ok (v, rest) =>
      match skip rest with
      | [] => .ok v
      | rest => .error (.fault .extraData rest)

/-- Why a text is no value: a fault with its place, or an integer that is too long. -/
inductive ReadFailure where
  | fault (f : Fault)
  | tooManyDigits (count : Nat)

/-- The value that a text holds, with integers of up to `limit` digits. -/
def readWith (limit : Nat) (cs : List Char) : Except ReadFailure Value :=
  match document limit cs with
  | .ok v => .ok v
  | .error (.tooManyDigits n) => .error (.tooManyDigits n)
  | .error (.fault reason rest) =>
    .error (.fault (.behind reason (cs.take (cs.length - rest.length))))

/-- The number of digits of the longest integers that are read. -/
def digitLimit : Nat := 4300

/-- The value that a text holds. -/
def read (cs : List Char) : Except ReadFailure Value :=
  readWith digitLimit cs

end Timeline.Json
