import Timeline.Text.CaseTable

/-! # Lower case

The lower-case form of a text by the full Unicode mapping. Two characters need more than the
table of single forms: a capital I with a dot becomes two characters, and a capital sigma at the
end of a word becomes the final sigma.
-/

namespace Timeline.Text

def inRanges (ranges : List (Nat × Nat)) (n : Nat) : Bool :=
  ranges.any fun r => r.1 ≤ n && n ≤ r.2

/-- A character that the search for the letter beside a sigma passes over. -/
def isCaseIgnorable (c : Char) : Bool :=
  inRanges caseIgnorableRanges c.toNat

def isCased (c : Char) : Bool :=
  inRanges casedRanges c.toNat

/-- The place of a code point in a run of capitals, as its lower-case form. -/
def CapitalRun.lower? (run : CapitalRun) (n : Nat) : Option Nat :=
  if run.first ≤ n ∧ n ≤ run.last ∧ (n - run.first) % run.step = 0 then
    some (run.lower + (n - run.first))
  else none

/-- The lower-case form of a character that has a single one. -/
def lowerChar (c : Char) : Char :=
  if c.toNat < 128 then
    if 'A' ≤ c ∧ c ≤ 'Z' then Char.ofNat (c.toNat + 32) else c
  else
    match capitalRuns.findSome? (·.lower? c.toNat) with
    | some n => Char.ofNat n
    | none => c

/-- Whether the nearest character that counts is a letter with case. -/
def nextIsCased (cs : List Char) : Bool :=
  match cs.dropWhile isCaseIgnorable with
  | [] => false
  | c :: _ => isCased c

/-- Lower case, where `before` holds the characters already read, the last one first. -/
def lowerFrom (before : List Char) : List Char → List Char
  | [] => []
  | c :: cs =>
    let low :=
      if c = 'Σ' then
        if nextIsCased before && !nextIsCased cs then ['ς'] else ['σ']
      else if c = 'İ' then ['i', '\u0307']
      else [lowerChar c]
    low ++ lowerFrom (c :: before) cs

def lower (s : String) : String :=
  String.ofList (lowerFrom [] s.toList)

end Timeline.Text
