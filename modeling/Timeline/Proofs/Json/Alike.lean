import Mathlib.Tactic.SplitIfs
import Timeline.Json.Reader
import Timeline.Proofs.Text.LineEnds

/-! # Line ends in the parts of JSON texts

Words, strings and numbers hold no line ends, so they are read alike from a text and from the text
with unified line ends.
-/

namespace Timeline.Json

open Text (unifyLineEnds unifyLineEnds_cons unifyLineEnds_return eq_cons_of_unifyLineEnds
  unifyLineEnds_append eq_append_of_unifyLineEnds unifyLineEnds_eq_nil_iff
  takeWhile_unifyLineEnds dropWhile_unifyLineEnds)

variable {α β : Type} {a : α} {c : Char} {cs rest behind whole : List Char} {n m limit low : Nat}

/-- A part with the characters behind it, with unified line ends. -/
def unifiedBehind (found : α × List Char) : α × List Char :=
  (found.1, unifyLineEnds found.2)

theorem map_unifiedBehind_eq_some_iff {found : Option (α × List Char)} :
    found.map unifiedBehind = some (a, rest) ↔
      ∃ behind, found = some (a, behind) ∧ unifyLineEnds behind = rest := by
  rw [Option.map_eq_some_iff]
  constructor
  · rintro ⟨⟨b, behind⟩, hfound, heq⟩
    cases heq
    exact ⟨behind, hfound, rfl⟩
  · rintro ⟨behind, hfound, rfl⟩
    exact ⟨(a, behind), hfound, rfl⟩

/-- A part at the start of texts that is not empty and holds no line end: it is found in a text
exactly if it is found in the text with unified line ends. -/
structure Unbroken (part : List Char → Option (α × List Char)) : Prop where
  unified : ∀ cs, part (unifyLineEnds cs) = (part cs).map unifiedBehind
  shorter : ∀ {cs a rest}, part cs = some (a, rest) → rest.length < cs.length

theorem Unbroken.cases {part : List Char → Option (α × List Char)} (h : Unbroken part)
    (cs : List Char) :
    part cs = none ∧ part (unifyLineEnds cs) = none ∨
      ∃ a rest, part cs = some (a, rest) ∧
        part (unifyLineEnds cs) = some (a, unifyLineEnds rest) ∧
        rest.length < cs.length ∧ (unifyLineEnds rest).length < (unifyLineEnds cs).length := by
  have hunified := h.unified cs
  cases hpart : part cs with
  | none =>
    rw [hpart] at hunified
    exact .inl ⟨rfl, hunified⟩
  | some found =>
    obtain ⟨a, rest⟩ := found
    rw [hpart] at hunified
    exact .inr ⟨a, rest, rfl, hunified, h.shorter hpart, h.shorter hunified⟩

/-- What is read from a text and from the text with unified line ends, of which fewer than `n`
characters are left behind it. -/
inductive Alike (n : Nat) : Read α → Read α → Prop
  | ok {a : α} {rest : List Char} : (unifyLineEnds rest).length < n →
    Alike n (.ok (a, rest)) (.ok (a, unifyLineEnds rest))
  | fault {reason : Reason} {rest rest' : List Char} :
    Alike n (.error (.fault reason rest)) (.error (.fault reason rest'))
  | tooManyDigits {count : Nat} :
    Alike n (.error (.tooManyDigits count)) (.error (.tooManyDigits count))

theorem Alike.mono {r r' : Read α} (h : Alike n r r') (hnm : n ≤ m) : Alike m r r' := by
  cases h with
  | ok hrest => exact .ok (Nat.lt_of_lt_of_le hrest hnm)
  | fault => exact .fault
  | tooManyDigits => exact .tooManyDigits

theorem Alike.map {r r' : Read α} (h : Alike n r r') (f : α → β) :
    Alike n (r.map fun (a, rest) => (f a, rest)) (r'.map fun (a, rest) => (f a, rest)) := by
  cases h with
  | ok hrest => exact .ok hrest
  | fault => exact .fault
  | tooManyDigits => exact .tooManyDigits

theorem skip_unifyLineEnds (cs : List Char) : skip (unifyLineEnds cs) = unifyLineEnds (skip cs) :=
  dropWhile_unifyLineEnds rfl cs

theorem length_skip_le (cs : List Char) : (skip cs).length ≤ cs.length :=
  (List.dropWhile_sublist _).length_le

def words : List (List Char × Value) :=
  [("null".toList, .null), ("true".toList, .bool true), ("false".toList, .bool false),
    ("NaN".toList, .float .nan), ("Infinity".toList, .float (.infinite false)),
    ("-Infinity".toList, .float (.infinite true))]

theorem word?_eq_some_iff {v : Value} :
    word? cs = some (v, rest) ↔ ∃ word, (word, v) ∈ words ∧ cs = word ++ rest := by
  constructor
  · intro h
    unfold word? at h
    split at h <;> cases h
    · exact ⟨"null".toList, by simp [words], rfl⟩
    · exact ⟨"true".toList, by simp [words], rfl⟩
    · exact ⟨"false".toList, by simp [words], rfl⟩
    · exact ⟨"NaN".toList, by simp [words], rfl⟩
    · exact ⟨"Infinity".toList, by simp [words], rfl⟩
    · exact ⟨"-Infinity".toList, by simp [words], rfl⟩
  · rintro ⟨word, hword, rfl⟩
    simp only [words, List.mem_cons, Prod.mk.injEq, List.not_mem_nil, or_false] at hword
    rcases hword with ⟨rfl, rfl⟩ | ⟨rfl, rfl⟩ | ⟨rfl, rfl⟩ | ⟨rfl, rfl⟩ | ⟨rfl, rfl⟩ | ⟨rfl, rfl⟩ <;>
      rfl

theorem words_spec : ∀ f ∈ words, f.1 ≠ [] ∧ '\r' ∉ f.1 ∧ '\n' ∉ f.1 := by
  simp [words]

theorem unbroken_word? : Unbroken word? where
  unified cs := by
    refine Option.ext fun (v, rest) => ?_
    rw [map_unifiedBehind_eq_some_iff, word?_eq_some_iff]
    constructor
    · rintro ⟨word, hword, h⟩
      obtain ⟨behind, rfl, hrest⟩ := eq_append_of_unifyLineEnds (words_spec _ hword).2.2 h
      exact ⟨behind, word?_eq_some_iff.mpr ⟨word, hword, rfl⟩, hrest⟩
    · rintro ⟨behind, h, rfl⟩
      obtain ⟨word, hword, rfl⟩ := word?_eq_some_iff.mp h
      exact ⟨word, hword, unifyLineEnds_append (words_spec _ hword).2.1 behind⟩
  shorter h := by
    obtain ⟨word, hword, rfl⟩ := word?_eq_some_iff.mp h
    have hpos : 0 < word.length := List.length_pos_iff.mpr (words_spec _ hword).1
    rw [List.length_append]
    omega

/-- The code unit that four hexadecimal digits write, if a character follows them. -/
def unit? : List Char → Option (Nat × List Char)
  | a :: b :: c :: d :: e :: rest => (hex4? a b c d).map fun n => (n, e :: rest)
  | _ => none

/-- The second half of a surrogate pair, if a first half stands before it. -/
def low? (high : Nat) : List Char → Option (Nat × List Char)
  | '\\' :: 'u' :: rest =>
    if isHighSurrogate high then (unit? rest).filter (isLowSurrogate ·.1) else none
  | _ => none

theorem unit?_eq_some_iff : unit? cs = some (n, rest) ↔ ∃ a b c d e more,
    cs = [a, b, c, d] ++ e :: more ∧ hex4? a b c d = some n ∧ rest = e :: more := by
  constructor
  · intro h
    unfold unit? at h
    split at h
    · obtain ⟨m, hm, heq⟩ := Option.map_eq_some_iff.mp h
      cases heq
      exact ⟨_, _, _, _, _, _, rfl, hm, rfl⟩
    · cases h
  · rintro ⟨a, b, c, d, e, more, rfl, hn, rfl⟩
    simp [unit?, hn]

theorem low?_eq_some_iff : low? n rest = some (low, behind) ↔ isHighSurrogate n = true ∧
    ∃ more, rest = ['\\', 'u'] ++ more ∧ unit? more = some (low, behind) ∧
      isLowSurrogate low = true := by
  unfold low?
  split
  · simp [Option.filter_eq_some_iff]
  · rename_i hrest
    simp only [reduceCtorEq, false_iff, not_and, not_exists]
    rintro - more rfl
    exact absurd rfl (hrest more)

theorem string_unit_none (h : unit? cs = none) :
    string whole ('\\' :: 'u' :: cs) = .error (.fault .unicodeEscape ('u' :: cs)) := by
  rw [string.eq_def]
  split <;> grind [unit?]

theorem string_unit_pair (hunit : unit? cs = some (n, rest))
    (hlow : low? n rest = some (low, behind)) :
    string whole ('\\' :: 'u' :: cs) = Read.cons (pairChar n low) (string whole behind) := by
  obtain ⟨hhigh, more, rfl, hmore, hsecond⟩ := low?_eq_some_iff.mp hlow
  obtain ⟨a, b, c, d, e, tail, rfl, hn, hrest⟩ := unit?_eq_some_iff.mp hunit
  obtain ⟨a', b', c', d', e', tail', rfl, hn', rfl⟩ := unit?_eq_some_iff.mp hmore
  obtain ⟨rfl, rfl⟩ : '\\' = e ∧ 'u' :: a' :: b' :: c' :: d' :: e' :: tail' = tail := by
    simpa using hrest
  simp only [List.cons_append, List.nil_append]
  rw [string.eq_2, hn]
  simp [hhigh, hn', hsecond]

theorem Read.cons_error (c : Char) (e : Stop) : Read.cons c (.error e) = .error e :=
  rfl

theorem string_unit_single (hunit : unit? cs = some (n, rest)) (hlow : low? n rest = none) :
    string whole ('\\' :: 'u' :: cs) = Read.cons (unitChar n) (string whole rest) := by
  obtain ⟨a, b, c, d, e, more, rfl, hn, rfl⟩ := unit?_eq_some_iff.mp hunit
  rw [string.eq_def]
  split <;> grind [low?, unit?, string_unit_none, Read.cons_error]

theorem notMem_of_hex4? {a b c d : Char} (h : hex4? a b c d = some n) {e : Char}
    (he : Text.hexDigit? e = none) : e ∉ [a, b, c, d] := by
  obtain ⟨_, ha, h⟩ := Option.bind_eq_some_iff.mp h
  obtain ⟨_, hb, h⟩ := Option.bind_eq_some_iff.mp h
  obtain ⟨_, hc, h⟩ := Option.bind_eq_some_iff.mp h
  obtain ⟨_, hd, -⟩ := Option.bind_eq_some_iff.mp h
  simp only [List.mem_cons, List.not_mem_nil, or_false]
  rintro (rfl | rfl | rfl | rfl) <;> simp_all

theorem unbroken_unit? : Unbroken unit? where
  unified cs := by
    refine Option.ext fun (n, rest) => ?_
    rw [map_unifiedBehind_eq_some_iff, unit?_eq_some_iff]
    constructor
    · rintro ⟨a, b, c, d, e, more, h, hn, rfl⟩
      obtain ⟨behind, rfl, hbehind⟩ := eq_append_of_unifyLineEnds (notMem_of_hex4? hn rfl) h
      obtain ⟨e', more', rfl⟩ : ∃ e' more', behind = e' :: more' := by
        refine List.exists_cons_of_ne_nil ?_
        rintro rfl
        cases hbehind
      exact ⟨_, unit?_eq_some_iff.mpr ⟨a, b, c, d, e', more', rfl, hn, rfl⟩, hbehind⟩
    · rintro ⟨behind, h, rfl⟩
      obtain ⟨a, b, c, d, e, more, rfl, hn, rfl⟩ := unit?_eq_some_iff.mp h
      obtain ⟨e', more', hmore⟩ : ∃ e' more', unifyLineEnds (e :: more) = e' :: more' :=
        List.exists_cons_of_ne_nil (mt unifyLineEnds_eq_nil_iff.mp (List.cons_ne_nil e more))
      refine ⟨a, b, c, d, e', more', ?_, hn, hmore⟩
      rw [unifyLineEnds_append (notMem_of_hex4? hn rfl), hmore]
  shorter h := by
    obtain ⟨a, b, c, d, e, more, rfl, -, rfl⟩ := unit?_eq_some_iff.mp h
    simp only [List.length_append, List.length_cons, List.length_nil]
    omega

theorem unbroken_low? (high : Nat) : Unbroken (low? high) where
  unified cs := by
    refine Option.ext fun (low, rest) => ?_
    rw [map_unifiedBehind_eq_some_iff, low?_eq_some_iff]
    constructor
    · rintro ⟨hhigh, more, h, hmore, hlow⟩
      obtain ⟨behind, rfl, rfl⟩ := eq_append_of_unifyLineEnds (by decide) h
      rw [unbroken_unit?.unified, map_unifiedBehind_eq_some_iff] at hmore
      obtain ⟨rest, hunit, hrest⟩ := hmore
      exact ⟨rest, low?_eq_some_iff.mpr ⟨hhigh, behind, rfl, hunit, hlow⟩, hrest⟩
    · rintro ⟨behind, h, rfl⟩
      obtain ⟨hhigh, more, rfl, hunit, hlow⟩ := low?_eq_some_iff.mp h
      refine ⟨hhigh, unifyLineEnds more, unifyLineEnds_append (by decide) more, ?_, hlow⟩
      rw [unbroken_unit?.unified, hunit]
      rfl
  shorter h := by
    obtain ⟨-, more, rfl, hunit, -⟩ := low?_eq_some_iff.mp h
    have hmore := unbroken_unit?.shorter hunit
    simp only [List.length_append, List.length_cons, List.length_nil]
    omega

theorem Alike.cons {r r' : Read (List Char)} (h : Alike n r r') (c : Char) :
    Alike n (Read.cons c r) (Read.cons c r') :=
  h.map (c :: ·)

theorem string_of_ne (hc : c ≠ '\\') : string whole (c :: rest) =
    if c = '\x22' then .ok ([], rest)
    else if c.toNat < 0x20 then .error (.fault .controlCharacter (c :: rest))
    else Read.cons c (string whole rest) := by
  rw [string.eq_def]
  split <;> grind

theorem string_escape (hc : c ≠ 'u') : string whole ('\\' :: c :: rest) =
    match simpleEscape? c with
    | some e => Read.cons e (string whole rest)
    | none => .error (.fault .escape ('\\' :: c :: rest)) := by
  rw [string.eq_def]
  split <;> grind

section Strings

variable {whole' : List Char}

def AlikeBelow (n : Nat) (whole whole' : List Char) : Prop :=
  ∀ cs, cs.length < n →
    Alike (unifyLineEnds cs).length (string whole cs) (string whole' (unifyLineEnds cs))

theorem AlikeBelow.unit (h : AlikeBelow (cs.length + 2) whole whole') :
    Alike ((unifyLineEnds cs).length + 2) (string whole ('\\' :: 'u' :: cs))
      (string whole' ('\\' :: 'u' :: unifyLineEnds cs)) := by
  rcases unbroken_unit?.cases cs with ⟨hunit, hunit'⟩ | ⟨n, rest, hunit, hunit', hlt, hlt'⟩
  · rw [string_unit_none hunit, string_unit_none hunit']
    exact .fault
  rcases (unbroken_low? n).cases rest with ⟨hlow, hlow'⟩ | ⟨low, behind, hlow, hlow', hlt₂, hlt₂'⟩
  · rw [string_unit_single hunit hlow, string_unit_single hunit' hlow']
    exact ((h rest (by omega)).mono (by omega)).cons _
  · rw [string_unit_pair hunit hlow, string_unit_pair hunit' hlow']
    exact ((h behind (by omega)).mono (by omega)).cons _

theorem AlikeBelow.escape (h : AlikeBelow (cs.length + 1) whole whole') :
    Alike ((unifyLineEnds cs).length + 1) (string whole ('\\' :: cs))
      (string whole' ('\\' :: unifyLineEnds cs)) := by
  cases cs with
  | nil => exact .fault
  | cons c cs =>
    by_cases hreturn : c = '\r'
    · -- an escaped line end is at fault, in either form
      obtain ⟨rest, hrest, -⟩ := unifyLineEnds_return cs
      rw [hreturn, hrest, string_escape (by decide), string_escape (by decide)]
      exact .fault
    rw [unifyLineEnds_cons hreturn]
    by_cases hunit : c = 'u'
    · rw [hunit]
      exact AlikeBelow.unit h
    · rw [string_escape hunit, string_escape hunit]
      cases simpleEscape? c with
      | none => exact .fault
      | some e =>
        have hshorter : cs.length < (c :: cs).length + 1 := by
          rw [List.length_cons]
          omega
        exact ((h cs hshorter).mono (Nat.le_add_right _ 2)).cons e

theorem AlikeBelow.string (h : AlikeBelow cs.length whole whole') :
    Alike (unifyLineEnds cs).length (string whole cs) (string whole' (unifyLineEnds cs)) := by
  cases cs with
  | nil => exact .fault
  | cons c cs =>
    by_cases hreturn : c = '\r'
    · -- a line end is at fault, in either form
      obtain ⟨rest, hrest, -⟩ := unifyLineEnds_return cs
      rw [hreturn, hrest, string_of_ne (by decide), string_of_ne (by decide)]
      exact .fault
    rw [unifyLineEnds_cons hreturn]
    by_cases hbackslash : c = '\\'
    · rw [hbackslash]
      exact AlikeBelow.escape h
    · rw [string_of_ne hbackslash, string_of_ne hbackslash]
      split_ifs
      · exact .ok (Nat.lt_succ_self _)
      · exact .fault
      · exact ((h cs (Nat.lt_succ_self _)).mono (Nat.le_succ _)).cons c

theorem string_alike (whole whole' cs : List Char) :
    Alike (unifyLineEnds cs).length (string whole cs) (string whole' (unifyLineEnds cs)) := by
  have hbelow : ∀ n, AlikeBelow n whole whole' := by
    intro n
    induction n with
    | zero => exact fun cs hcs => absurd hcs (Nat.not_lt_zero _)
    | succ n ih =>
      intro cs hcs
      exact AlikeBelow.string fun cs' hcs' => ih cs' (by omega)
  exact (hbelow cs.length).string

end Strings

theorem digits_unifyLineEnds (cs : List Char) :
    digits (unifyLineEnds cs) = unifiedBehind (digits cs) :=
  Prod.ext (takeWhile_unifyLineEnds rfl rfl cs) (dropWhile_unifyLineEnds rfl cs)

theorem length_digits_lt (h : (digits cs).1 ≠ []) : (digits cs).2.length < cs.length := by
  have hsum : (digits cs).1 ++ (digits cs).2 = cs := List.takeWhile_append_dropWhile
  have hlength := congrArg List.length hsum
  have hpos : 0 < (digits cs).1.length := List.length_pos_iff.mpr h
  rw [List.length_append] at hlength
  omega

def digits? (cs : List Char) : Option (List Char × List Char) :=
  if (digits cs).1.isEmpty then none else some (digits cs)

theorem unbroken_digits? : Unbroken digits? where
  unified cs := by
    unfold digits?
    rw [digits_unifyLineEnds, unifiedBehind]
    split <;> rfl
  shorter h := by
    unfold digits? at h
    split at h
    · cases h
    · rename_i hne
      have hlt := length_digits_lt fun hnil => hne (List.isEmpty_iff.mpr hnil)
      rwa [Option.some.inj h] at hlt

/-- Whether a minus stands at the start of a text, and what follows the sign; `plus` says whether
there may be a plus instead. -/
def sign (plus : Bool) : List Char → Bool × List Char
  | [] => (false, [])
  | c :: rest =>
    if c = '-' then (true, rest)
    else if plus && c = '+' then (false, rest)
    else (false, c :: rest)

theorem sign_unifyLineEnds (plus : Bool) (cs : List Char) :
    sign plus (unifyLineEnds cs) = unifiedBehind (sign plus cs) := by
  cases cs with
  | nil => rfl
  | cons c cs =>
    by_cases hreturn : c = '\r'
    · obtain ⟨rest, hrest, -⟩ := unifyLineEnds_return cs
      rw [hreturn, hrest, sign, sign]
      simp [unifiedBehind, hrest]
    · rw [unifyLineEnds_cons hreturn, sign, sign]
      split_ifs
      · rfl
      · rfl
      · rw [unifiedBehind, unifyLineEnds_cons hreturn]

theorem length_sign_le (plus : Bool) (cs : List Char) :
    (sign plus cs).2.length ≤ cs.length := by
  unfold sign
  split
  · exact Nat.le_refl 0
  · split_ifs <;> simp

theorem fractionPart?_of_ne (hc : c ≠ '.') (cs : List Char) : fractionPart? (c :: cs) = none := by
  unfold fractionPart?
  split <;> grind

theorem Unbroken.of_cons {part : List Char → Option (α × List Char)} (hnil : part [] = none)
    (hreturn : ∀ cs, part ('\r' :: cs) = none) (hline : ∀ cs, part ('\n' :: cs) = none)
    (hcons : ∀ c cs, c ≠ '\r' →
      part (c :: unifyLineEnds cs) = (part (c :: cs)).map unifiedBehind)
    (hshorter : ∀ {cs a rest}, part cs = some (a, rest) → rest.length < cs.length) :
    Unbroken part where
  unified cs := by
    cases cs with
    | nil =>
      rw [hnil]
      exact hnil
    | cons c cs =>
      by_cases hc : c = '\r'
      · obtain ⟨rest, hrest, -⟩ := unifyLineEnds_return cs
        rw [hc, hrest, hline, hreturn]
        rfl
      · rw [unifyLineEnds_cons hc, hcons c cs hc]
  shorter := hshorter

theorem unbroken_fractionPart? : Unbroken fractionPart? := by
  refine .of_cons rfl (fun _ => rfl) (fun _ => rfl) ?_ ?_
  · intro c cs hc
    by_cases hpoint : c = '.'
    · rw [hpoint]
      exact unbroken_digits?.unified cs
    · rw [fractionPart?_of_ne hpoint, fractionPart?_of_ne hpoint]
      rfl
  · intro cs places rest h
    unfold fractionPart? at h
    split at h
    · rename_i behind
      have hdigits : digits? behind = some (places, rest) := h
      exact Nat.lt_succ_of_lt (unbroken_digits?.shorter hdigits)
    · cases h

theorem wholePart?_of_ne (hc : c ≠ '0') (cs : List Char) :
    wholePart? (c :: cs) = digits? (c :: cs) := by
  unfold wholePart? digits?
  split <;> grind

theorem unbroken_wholePart? : Unbroken wholePart? := by
  refine .of_cons rfl (fun _ => rfl) (fun _ => rfl) ?_ ?_
  · intro c cs hc
    by_cases hzero : c = '0'
    · rw [hzero]
      rfl
    · have hdigits := unbroken_digits?.unified (c :: cs)
      rw [unifyLineEnds_cons hc] at hdigits
      rw [wholePart?_of_ne hzero, wholePart?_of_ne hzero, hdigits]
  · intro cs ds rest h
    cases cs with
    | nil => cases h
    | cons c cs =>
      by_cases hzero : c = '0'
      · rw [hzero] at h
        cases h
        exact Nat.lt_succ_self _
      · rw [wholePart?_of_ne hzero] at h
        exact unbroken_digits?.shorter h

def exponent (negative : Bool) (ds : List Char) : Int :=
  if negative then -(Text.decimal ds) else Text.decimal ds

theorem exponentPart?_cons (c : Char) (cs : List Char) : exponentPart? (c :: cs) =
    if c = 'e' ∨ c = 'E' then
      (digits? (sign true cs).2).map fun found => (exponent (sign true cs).1 found.1, found.2)
    else none := by
  by_cases hletter : c = 'e' ∨ c = 'E'
  · cases cs with
    | nil =>
      simp only [exponentPart?, hletter, if_true]
      rfl
    | cons d cs =>
      by_cases hminus : d = '-'
      · simp only [exponentPart?, hletter, hminus, if_true, sign, digits?, exponent]
        split_ifs <;> rfl
      by_cases hplus : d = '+'
      · simp only [exponentPart?, hletter, hplus, ↓reduceIte, sign, Char.reduceEq, decide_true,
          Bool.and_self, digits?, exponent, Bool.false_eq_true]
        split_ifs <;> rfl
      · simp only [exponentPart?, hletter, ↓reduceIte, List.cons.injEq, hminus, hplus, false_and,
          imp_self, implies_true, sign, decide_false, Bool.and_false, digits?, exponent,
          Bool.false_eq_true]
        split_ifs <;> rfl
  · simp only [exponentPart?, hletter, if_false]

theorem unbroken_exponentPart? : Unbroken exponentPart? := by
  refine .of_cons rfl (fun _ => rfl) (fun _ => rfl) ?_ ?_
  · intro c cs _
    rw [exponentPart?_cons, exponentPart?_cons, sign_unifyLineEnds, unifiedBehind,
      unbroken_digits?.unified]
    split_ifs
    · cases digits? (sign true cs).2 <;> rfl
    · rfl
  · intro cs k rest h
    cases cs with
    | nil => cases h
    | cons c cs =>
      rw [exponentPart?_cons] at h
      split_ifs at h
      obtain ⟨found, hfound, heq⟩ := Option.map_eq_some_iff.mp h
      cases heq
      have hlt := unbroken_digits?.shorter hfound
      have hle := length_sign_le true cs
      rw [List.length_cons]
      omega

/-- The number whose sign and whole digits have been read. -/
def unsigned (limit : Nat) (negative : Bool) (whole rest : List Char) : Read Value :=
  let fraction := fractionPart? rest
  let behind := (fraction.map (·.2)).getD rest
  let exponent := exponentPart? behind
  if fraction.isNone && exponent.isNone then
    if whole.length > limit then .error (.tooManyDigits whole.length)
    else
      let n : Int := Text.decimal whole
      .ok (.int (if negative then -n else n), rest)
  else
    let places := (fraction.map (·.1)).getD []
    let power := (exponent.map (·.1)).getD 0 - places.length
    .ok (.float (Double.ofDecimal negative (Text.decimal (whole ++ places)) power),
      (exponent.map (·.2)).getD behind)

theorem number_eq (limit : Nat) (cs : List Char) : number limit cs =
    match wholePart? (sign false cs).2 with
    | none => .error (.fault .value cs)
    | some (whole, rest) => unsigned limit (sign false cs).1 whole rest := by
  cases cs with
  | nil => rfl
  | cons d cs =>
    by_cases hminus : d = '-'
    · rw [hminus]
      rfl
    · have hsign : sign false (d :: cs) = (false, d :: cs) := by
        simp only [sign, hminus, ↓reduceIte, Bool.false_and, Bool.false_eq_true]
      rw [hsign]
      -- not by its equation: Lean evaluates a large power of two to state it
      delta number
      split
      rename_i hbody
      split at hbody
      · rename_i heq
        exact absurd (List.cons.inj heq).1 hminus
      · cases hbody
        rfl

theorem unsigned_alike (limit : Nat) (negative : Bool) (whole : List Char)
    (h : (unifyLineEnds rest).length < n) :
    Alike n (unsigned limit negative whole rest)
      (unsigned limit negative whole (unifyLineEnds rest)) := by
  unfold unsigned
  rcases unbroken_fractionPart?.cases rest with
    ⟨hfraction, hfraction'⟩ | ⟨places, behind, hfraction, hfraction', -, hlt⟩
  · rcases unbroken_exponentPart?.cases rest with
      ⟨hexponent, hexponent'⟩ | ⟨k, behind, hexponent, hexponent', -, hlt⟩
    · simp only [hfraction, hfraction', hexponent, hexponent', Option.map_none, Option.getD_none,
        Option.isNone_none, Bool.and_self, if_true]
      split_ifs
      · exact .tooManyDigits
      · exact .ok h
      · exact .ok h
    · simp only [hfraction, hfraction', hexponent, hexponent', Option.map_none, Option.getD_none]
      exact .ok (Nat.lt_trans hlt h)
  · have hn := Nat.lt_trans hlt h
    rcases unbroken_exponentPart?.cases behind with
      ⟨hexponent, hexponent'⟩ | ⟨k, rest, hexponent, hexponent', -, hlt⟩
    · simp only [hfraction, hfraction', hexponent, hexponent', Option.map_some, Option.getD_some]
      exact .ok hn
    · simp only [hfraction, hfraction', hexponent, hexponent', Option.map_some, Option.getD_some]
      exact .ok (Nat.lt_trans hlt hn)

theorem number_alike (limit : Nat) (cs : List Char) :
    Alike (unifyLineEnds cs).length (number limit cs) (number limit (unifyLineEnds cs)) := by
  have hsign := length_sign_le false (unifyLineEnds cs)
  rw [number_eq, number_eq, sign_unifyLineEnds]
  rw [sign_unifyLineEnds] at hsign
  rcases unbroken_wholePart?.cases (sign false cs).2 with
    ⟨hwhole, hwhole'⟩ | ⟨whole, rest, hwhole, hwhole', -, hlt⟩
  · simp only [hwhole, hwhole', unifiedBehind]
    exact .fault
  · simp only [hwhole, hwhole', unifiedBehind]
    exact unsigned_alike _ _ _ (Nat.lt_of_lt_of_le hlt hsign)

end Timeline.Json
