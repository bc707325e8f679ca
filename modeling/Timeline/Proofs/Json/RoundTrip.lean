import Mathlib.Data.List.Lemmas
import Timeline.Proofs.Json.Strings
import Timeline.Proofs.Number.Natural
import Timeline.Proofs.Value.Document
import Timeline.Proofs.Value.Fields

/-! # Written values are read back

Reading the JSON text of a value gives the value, if it is made of nulls, booleans, texts, integers
with no more digits than are read, lists, and objects with distinct keys. This holds of every style
that leaves the fields in their order.
-/

namespace Timeline

namespace Json

/-- A value whose text is read back exactly, if its parts are. -/
def IsExact (limit : Nat) : Value → Prop
  | .null => True
  | .bool _ => True
  | .int n => (Nat.toDigits 10 n.natAbs).length ≤ limit
  | .text _ => True
  | .list _ => True
  | .object fields => (fields.map (·.1)).Nodup
  | _ => False

/-- No number goes on with these characters. -/
def EndsNumber (rest : List Char) : Prop :=
  ∀ c ∈ rest.head?, Text.isAsciiDigit c = false ∧ c ≠ '.' ∧ c ≠ 'e' ∧ c ≠ 'E'

variable {limit : Nat} {rest : List Char}

theorem isAsciiDigit_of_mem_toDigits {c : Char} {n : Nat} (h : c ∈ Nat.toDigits 10 n) :
    Text.isAsciiDigit c = true :=
  Text.isAsciiDigit_of_isDigit (Nat.isDigit_of_mem_toDigits (by decide) (by decide) h)

theorem exists_digit_toDigits (n : Nat) :
    ∃ d ds, Nat.toDigits 10 n = d :: ds ∧ Text.isAsciiDigit d = true := by
  obtain ⟨d, ds, hds⟩ := List.exists_cons_of_ne_nil (Nat.toDigits_ne_nil (b := 10) (n := n))
  exact ⟨d, ds, hds, isAsciiDigit_of_mem_toDigits (n := n) (hds ▸ List.mem_cons_self)⟩

/-- The characters that tell another value, or what stands around one, from a number. -/
def others : List Char :=
  ['\x22', '[', ']', '{', '}', 'n', 't', 'f', 'N', 'I', ' ', '\t', '\n', '\r', '\uFEFF']

theorem notMem_others_of_isAsciiDigit {c : Char} (h : Text.isAsciiDigit c = true) : c ∉ others := by
  have hall : others.all (fun d => !Text.isAsciiDigit d) = true := by decide
  intro hc
  have hno := List.all_eq_true.mp hall c hc
  rw [h] at hno
  cases hno

theorem digits_append {ds : List Char} (hds : ∀ c ∈ ds, Text.isAsciiDigit c = true)
    (hrest : EndsNumber rest) : digits (ds ++ rest) = (ds, rest) := by
  unfold digits
  rw [List.takeWhile_append_of_pos hds, List.dropWhile_append_of_pos hds]
  cases rest with
  | nil => simp
  | cons c rest => simp [(hrest c rfl).1]

theorem exists_cons_toDigits {n : Nat} (h : n ≠ 0) :
    ∃ d ds, Nat.toDigits 10 n = d :: ds ∧ d ≠ '0' := by
  induction n using Nat.strongRecOn with
  | ind n ih =>
    by_cases hn : n < 10
    · exact ⟨_, [], Nat.toDigits_of_lt_base hn, fun hzero => h (Nat.digitChar_eq_zero.mp hzero)⟩
    · obtain ⟨d, ds, hds, hd⟩ := ih (n / 10) (by omega) (by omega)
      refine ⟨d, ds ++ [(n % 10).digitChar], ?_, hd⟩
      rw [Nat.toDigits_of_base_le (by decide) (Nat.le_of_not_lt hn), hds]
      rfl

theorem wholePart?_toDigits (n : Nat) (hrest : EndsNumber rest) :
    wholePart? (Nat.toDigits 10 n ++ rest) = some (Nat.toDigits 10 n, rest) := by
  by_cases hn : n = 0
  · rw [hn, Nat.toDigits_zero]
    rfl
  · obtain ⟨d, ds, hds, hd⟩ := exists_cons_toDigits hn
    have hdigits := digits_append (fun _ hc => isAsciiDigit_of_mem_toDigits (n := n) hc) hrest
    rw [hds] at hdigits ⊢
    unfold wholePart?
    split
    · rename_i heq
      exact absurd (List.cons.inj heq).1 hd
    · rw [hdigits]
      rfl

theorem fractionPart?_eq_none (hrest : EndsNumber rest) : fractionPart? rest = none := by
  unfold fractionPart?
  split
  · exact absurd rfl (hrest _ rfl).2.1
  · rfl

theorem exponentPart?_eq_none (hrest : EndsNumber rest) : exponentPart? rest = none := by
  unfold exponentPart?
  split
  · rename_i c _
    rw [if_neg (not_or.mpr (hrest c rfl).2.2)]
  · rfl

theorem number_integerChars {n : Int} (hn : IsExact limit (.int n)) (hrest : EndsNumber rest) :
    number limit (integerChars n ++ rest) = .ok (.int n, rest) := by
  have hshort : (Nat.toDigits 10 n.natAbs).length ≤ limit := hn
  cases n with
  | ofNat m =>
    obtain ⟨d, ds, hds, hdigit⟩ := exists_digit_toDigits m
    have hd : d ≠ '-' := by
      rintro rfl
      cases hdigit
    have hwhole := wholePart?_toDigits m hrest
    have hdecimal := Text.decimal_toDigits m
    simp only [integerChars, Int.ofNat_eq_natCast, Int.natAbs_natCast] at hshort ⊢
    rw [hds] at hwhole hdecimal hshort ⊢
    rw [List.cons_append] at hwhole ⊢
    unfold number
    simp [hd, hwhole, fractionPart?_eq_none hrest, exponentPart?_eq_none hrest, hdecimal]
    simpa using hshort
  | negSucc m =>
    simp only [integerChars, Int.natAbs_negSucc] at hshort ⊢
    unfold number
    simp [wholePart?_toDigits (m + 1) hrest, fractionPart?_eq_none hrest,
      exponentPart?_eq_none hrest, Text.decimal_toDigits, Int.negSucc_eq]
    exact hshort

theorem skip_append {blanks : List Char} (h : ∀ c ∈ blanks, isSpace c = true) (rest : List Char) :
    skip (blanks ++ rest) = skip rest :=
  List.dropWhile_append_of_pos h

theorem isSpace_of_mem_lineStart {style : Style} {depth : Nat} {c : Char}
    (h : c ∈ lineStart style depth) : isSpace c = true := by
  unfold lineStart at h
  split at h
  · rcases List.mem_cons.mp h with rfl | h
    · rfl
    · rw [List.eq_of_mem_replicate h]
      rfl
  · cases h

theorem exists_blanks_itemSeparator (style : Style) (depth : Nat) :
    ∃ blanks, itemSeparator style depth = ',' :: blanks ∧ ∀ c ∈ blanks, isSpace c = true := by
  unfold itemSeparator
  split
  · exact ⟨_, rfl, fun _ => isSpace_of_mem_lineStart⟩
  · exact ⟨[' '], rfl, by simp [isSpace]⟩

theorem length_itemSeparator_pos (style : Style) (depth : Nat) :
    0 < (itemSeparator style depth).length := by
  obtain ⟨blanks, hseparator, -⟩ := exists_blanks_itemSeparator style depth
  rw [hseparator]
  exact Nat.zero_lt_succ _

/-- A text starts with a character that a value may start with. -/
def Opens (cs : List Char) : Prop :=
  ∃ c rest, cs = c :: rest ∧ isSpace c = false ∧ c ∉ [']', '}', '\uFEFF']

theorem Opens.skip_eq {cs : List Char} (h : Opens cs) : skip cs = cs := by
  obtain ⟨c, rest, rfl, hc, -⟩ := h
  simp [skip, hc]

theorem Opens.append {cs : List Char} (h : Opens cs) (rest : List Char) : Opens (cs ++ rest) := by
  obtain ⟨c, tail, rfl, hc⟩ := h
  exact ⟨c, tail ++ rest, rfl, hc⟩

theorem Opens.intercalate {part : List Char} (h : Opens part) (separator : List Char)
    (parts : List (List Char)) : Opens (separator.intercalate (part :: parts)) := by
  cases parts with
  | nil => simpa using h
  | cons next parts =>
    rw [List.intercalate_cons_cons, List.append_assoc]
    exact h.append _

theorem opens_integerChars (n : Int) : Opens (integerChars n) := by
  cases n with
  | ofNat m =>
    obtain ⟨d, ds, hds, hd⟩ := exists_digit_toDigits m
    have hother := notMem_others_of_isAsciiDigit hd
    refine ⟨d, ds, hds, ?_, ?_⟩
    · simp [others] at hother
      simp [isSpace, hother]
    · simp [others] at hother
      simp [hother]
  | negSucc m => exact ⟨_, _, rfl, rfl, by decide⟩

theorem opens_stringText (ascii : Bool) (s : String) (rest : List Char) :
    Opens (stringText ascii s ++ rest) :=
  ⟨_, _, rfl, rfl, by decide⟩

theorem opens_bracketed {opening closing : Char} (h : opening = '[' ∨ opening = '{')
    (style : Style) (depth : Nat) (parts : List (List Char)) :
    Opens (bracketed style depth opening closing parts) := by
  unfold bracketed
  split <;> rcases h with rfl | rfl <;> exact ⟨_, _, rfl, rfl, by decide⟩

theorem opens_chars (style : Style) (depth : Nat) {v : Value} (h : IsExact limit v) :
    Opens (chars style depth v) := by
  cases v with
  | null => exact ⟨_, _, rfl, rfl, by decide⟩
  | bool b => cases b <;> exact ⟨_, _, rfl, rfl, by decide⟩
  | int n => exact opens_integerChars n
  | text s => exact ⟨_, _, rfl, rfl, by decide⟩
  | list items => exact opens_bracketed (.inl rfl) _ _ _
  | object fields => exact opens_bracketed (.inr rfl) _ _ _
  | _ => exact h.elim

theorem skip_itemSeparator (style : Style) (depth : Nat) {cs : List Char} (h : Opens cs) :
    ∃ blanks, itemSeparator style depth ++ cs = ',' :: blanks ∧ skip blanks = cs := by
  obtain ⟨blanks, hseparator, hblanks⟩ := exists_blanks_itemSeparator style depth
  refine ⟨blanks ++ cs, by rw [hseparator, List.cons_append], ?_⟩
  rw [skip_append hblanks, h.skip_eq]

theorem endsNumber_cons {c : Char} {cs : List Char} (h : c ∈ [',', ']', '}', '\n']) :
    EndsNumber (c :: cs) := by
  simp only [List.mem_cons, List.not_mem_nil, or_false] at h
  rintro d ⟨⟩
  rcases h with rfl | rfl | rfl | rfl <;> decide

theorem closing_lineStart (style : Style) (depth : Nat) {closing : Char}
    (h : closing = ']' ∨ closing = '}') (rest : List Char) :
    EndsNumber (lineStart style depth ++ closing :: rest) ∧
      skip (lineStart style depth ++ closing :: rest) = closing :: rest := by
  constructor
  · unfold lineStart
    split
    · exact endsNumber_cons (by simp)
    · rcases h with rfl | rfl <;> exact endsNumber_cons (by simp)
  · rw [skip_append fun _ => isSpace_of_mem_lineStart]
    rcases h with rfl | rfl <;> rfl

theorem value_integerChars {n : Int} (hn : IsExact limit (.int n)) (hrest : EndsNumber rest)
    (fuel : Nat) : value limit (fuel + 1) (integerChars n ++ rest) = .ok (.int n, rest) := by
  have hnumber := number_integerChars hn hrest
  cases n with
  | ofNat m =>
    obtain ⟨d, ds, hds, hd⟩ := exists_digit_toDigits m
    have hother := notMem_others_of_isAsciiDigit hd
    have hsign : d ≠ '-' := by
      rintro rfl
      cases hd
    simp only [others, List.mem_cons, not_or] at hother
    simp only [integerChars, hds, List.cons_append] at hnumber ⊢
    have hword : word? (d :: (ds ++ rest)) = none := by
      unfold word?
      split <;> simp_all
    simp only [value, hother, if_false, hword, hnumber]
  | negSucc m =>
    obtain ⟨d, ds, hds, hd⟩ := exists_digit_toDigits (m + 1)
    have hother := notMem_others_of_isAsciiDigit hd
    simp only [others, List.mem_cons, not_or] at hother
    simp only [integerChars, hds, List.cons_append] at hnumber ⊢
    have hword : word? ('-' :: d :: (ds ++ rest)) = none := by
      unfold word?
      split <;> simp_all
    simp [value, hword, hnumber]

theorem value_list {body cs : List Char} (hskip : skip body = cs) (h : Opens cs) (fuel : Nat) :
    value limit (fuel + 1) ('[' :: body) =
      (items limit fuel cs).map fun (vs, rest) => (.list vs, rest) := by
  obtain ⟨c, tail, rfl, -, hc⟩ := h
  simp only [List.mem_cons, not_or] at hc
  simp [value, hskip, hc]

theorem value_object {body cs : List Char} (hskip : skip body = cs) (h : Opens cs) (fuel : Nat) :
    value limit (fuel + 1) ('{' :: body) =
      (members limit fuel cs).map fun (fs, rest) => (.object (Fields.ofList fs), rest) := by
  obtain ⟨c, tail, rfl, -, hc⟩ := h
  simp only [List.mem_cons, not_or] at hc
  simp [value, hskip, hc]

theorem members_stringText {cs tail : List Char} {v : Value} {fuel : Nat} (ascii : Bool)
    (k : String) (h : Opens cs) (hv : value limit fuel cs = .ok (v, tail)) :
    (∀ rest, skip tail = '}' :: rest →
      members limit (fuel + 1) (stringText ascii k ++ ':' :: ' ' :: cs) = .ok ([(k, v)], rest)) ∧
    ∀ rest, skip tail = ',' :: rest →
      members limit (fuel + 1) (stringText ascii k ++ ':' :: ' ' :: cs) =
        (members limit fuel (skip rest)).map fun (fs, rest) => ((k, v) :: fs, rest) := by
  obtain ⟨body, hbody, hstring⟩ := string_stringText ascii k (':' :: ' ' :: cs)
  have hcolon : skip (':' :: ' ' :: cs) = ':' :: ' ' :: cs := rfl
  have hblank : skip (' ' :: cs) = cs := h.skip_eq
  rw [hbody, members]
  simp only [hstring, hcolon, hblank, hv, String.ofList_toList]
  constructor
  · intro rest hskip
    simp only [hskip]
  · intro rest hskip
    simp only [hskip]

section Values

variable {style : Style}

def fieldParts (style : Style) (depth : Nat) (fields : Fields) : List (List Char) :=
  (fieldChars style depth fields).map (·.2)

theorem fieldParts_cons (depth : Nat) (k : String) (v : Value) (fields : Fields) :
    fieldParts style depth ((k, v) :: fields) =
      (stringText style.ascii k ++ ':' :: ' ' :: chars style depth v) ::
        fieldParts style depth fields :=
  rfl

theorem chars_object (hstyle : style.sorted = false) (depth : Nat) (fields : Fields) :
    chars style depth (.object fields) =
      bracketed style depth '{' '}' (fieldParts style (depth + 1) fields) := by
  simp [chars, ordered, hstyle, fieldParts]

theorem length_bracketed (depth : Nat) (opening closing : Char) (part : List Char)
    (parts : List (List Char)) :
    ((itemSeparator style (depth + 1)).intercalate (part :: parts)).length + 2 ≤
      (bracketed style depth opening closing (part :: parts)).length := by
  simp only [bracketed, List.isEmpty_cons, Bool.false_eq_true, if_false, List.length_append,
    List.length_cons, List.length_nil]
  omega

theorem bracketed_append (style : Style) (depth : Nat) (opening : Char) {closing : Char}
    (hclosing : closing = ']' ∨ closing = '}')
    {part : List Char} (h : Opens part) (parts : List (List Char)) (rest : List Char) :
    ∃ body tail, bracketed style depth opening closing (part :: parts) ++ rest = opening :: body ∧
      skip body = (itemSeparator style (depth + 1)).intercalate (part :: parts) ++ tail ∧
      EndsNumber tail ∧ skip tail = closing :: rest := by
  obtain ⟨hend, hskip⟩ := closing_lineStart style depth hclosing rest
  refine ⟨lineStart style (depth + 1) ++
      ((itemSeparator style (depth + 1)).intercalate (part :: parts) ++
        (lineStart style depth ++ closing :: rest)), _, ?_, ?_, hend, hskip⟩
  · simp [bracketed]
  · rw [skip_append fun _ => isSpace_of_mem_lineStart]
    exact ((h.intercalate _ _).append _).skip_eq

mutual

/-- A written value is read back, if there are calls enough for its characters. -/
theorem value_chars (hstyle : style.sorted = false) (depth : Nat) : ∀ v : Value,
    v.Throughout (IsExact limit) → ∀ fuel rest, (chars style depth v).length ≤ fuel →
      EndsNumber rest → value limit fuel (chars style depth v ++ rest) = .ok (v, rest)
  | .null, _, _ + 1, _, _, _ => rfl
  | .bool true, _, _ + 1, _, _, _ => rfl
  | .bool false, _, _ + 1, _, _, _ => rfl
  | .int _, h, fuel + 1, _, _, hrest => value_integerChars h.self hrest fuel
  | .text s, _, fuel + 1, rest, _, _ => by
    obtain ⟨body, hbody, hstring⟩ := string_stringText style.ascii s rest
    simp only [chars, hbody, value, if_true, hstring]
    simp [Except.map]
  | .list [], _, fuel + 1, _, _, _ => rfl
  | .list (v :: vs), h, fuel + 1, rest, hfuel, _ => by
    have hv := opens_chars style (depth + 1) (h.of_mem_items List.mem_cons_self).self
    obtain ⟨body, tail, hbody, hskip, hend, hclosing⟩ :=
      bracketed_append style depth '[' (.inl rfl) hv (itemChars style (depth + 1) vs) rest
    have hlength := Nat.le_trans (length_bracketed depth '[' ']' _ _) hfuel
    have hitems := items_itemChars hstyle (depth + 1) (v :: vs) (List.cons_ne_nil v vs)
      (fun _ => h.of_mem_items) fuel tail rest (Nat.lt_of_succ_lt_succ hlength) hend hclosing
    rw [chars, itemChars, hbody, value_list hskip ((hv.intercalate _ _).append _), ← itemChars,
      hitems]
    rfl
  | .object [], _, fuel + 1, _, _, _ => by
    rw [chars_object hstyle]
    rfl
  | .object ((k, v) :: fields), h, fuel + 1, rest, hfuel, _ => by
    have hpart := opens_stringText style.ascii k (':' :: ' ' :: chars style (depth + 1) v)
    obtain ⟨body, tail, hbody, hskip, hend, hclosing⟩ :=
      bracketed_append style depth '{' (.inr rfl) hpart (fieldParts style (depth + 1) fields) rest
    rw [chars_object hstyle] at hfuel ⊢
    have hlength := Nat.le_trans (length_bracketed depth '{' '}' _ _) hfuel
    have hmembers := members_fieldParts hstyle (depth + 1) ((k, v) :: fields)
      (List.cons_ne_nil _ _) (fun _ => h.of_mem_fields) fuel tail rest
      (Nat.lt_of_succ_lt_succ hlength) hend hclosing
    rw [fieldParts_cons, hbody, value_object hskip ((hpart.intercalate _ _).append _),
      ← fieldParts_cons, hmembers]
    simp only [Except.map, Fields.ofList_eq_self h.self]
  | .float _, h, _, _, _, _ | .tuple _, h, _, _, _, _ | .set _, h, _, _, _, _
  | .moment _, h, _, _, _, _ | .day _, h, _, _, _, _ => h.self.elim
  | v, h, 0, rest, hfuel, _ => by
    obtain ⟨c, cs, hcs, -⟩ := opens_chars style depth h.self
    rw [hcs] at hfuel
    cases hfuel

theorem items_itemChars (hstyle : style.sorted = false) (depth : Nat) : ∀ vs : List Value,
    vs ≠ [] → (∀ v ∈ vs, v.Throughout (IsExact limit)) → ∀ fuel closing rest,
      ((itemSeparator style depth).intercalate (itemChars style depth vs)).length < fuel →
      EndsNumber closing → skip closing = ']' :: rest →
        items limit fuel ((itemSeparator style depth).intercalate (itemChars style depth vs) ++
          closing) = .ok (vs, rest)
  | _, _, _, 0, _, _, hfuel, _, _ => absurd hfuel (Nat.not_lt_zero _)
  | [], hne, _, _, _, _, _, _, _ => absurd rfl hne
  | [v], _, h, fuel + 1, closing, rest, hfuel, hend, hskip => by
    have hv := value_chars hstyle depth v (h v List.mem_cons_self) fuel closing
      (Nat.le_of_lt_succ (by simpa [itemChars] using hfuel)) hend
    simp [itemChars, items, hv, hskip]
  | v :: w :: vs, _, h, fuel + 1, closing, rest, hfuel, hend, hskip => by
    obtain ⟨hv, hvs⟩ := List.forall_mem_cons.mp h
    have hopens := ((opens_chars style depth (hvs w List.mem_cons_self).self).intercalate
      (itemSeparator style depth) (itemChars style depth vs)).append closing
    obtain ⟨blanks, hblanks, hbehind⟩ := skip_itemSeparator style depth hopens
    have hpos := length_itemSeparator_pos style depth
    rw [itemChars, itemChars, List.intercalate_cons_cons] at hfuel ⊢
    simp only [List.length_append] at hfuel
    rw [List.append_assoc, List.append_assoc, hblanks, items,
      value_chars hstyle depth v hv fuel _ (by omega) (endsNumber_cons (by simp))]
    have hitems := items_itemChars hstyle depth (w :: vs) (List.cons_ne_nil w vs) hvs fuel closing
      rest (by rw [itemChars]; omega) hend hskip
    have hcomma : skip (',' :: blanks) = ',' :: blanks := rfl
    simp only [hcomma, hbehind]
    rw [← itemChars, hitems]
    rfl

theorem members_fieldParts (hstyle : style.sorted = false) (depth : Nat) : ∀ fields : Fields,
    fields ≠ [] → (∀ f ∈ fields, f.2.Throughout (IsExact limit)) → ∀ fuel closing rest,
      ((itemSeparator style depth).intercalate (fieldParts style depth fields)).length < fuel →
      EndsNumber closing → skip closing = '}' :: rest →
        members limit fuel ((itemSeparator style depth).intercalate
          (fieldParts style depth fields) ++ closing) = .ok (fields, rest)
  | _, _, _, 0, _, _, hfuel, _, _ => absurd hfuel (Nat.not_lt_zero _)
  | [], hne, _, _, _, _, _, _, _ => absurd rfl hne
  | [(k, v)], _, h, fuel + 1, closing, rest, hfuel, hend, hskip => by
    obtain ⟨hv, -⟩ := List.forall_mem_cons.mp h
    have hopens := (opens_chars style depth hv.self).append closing
    have hnil : fieldParts style depth [] = [] := rfl
    rw [fieldParts_cons, hnil, List.intercalate_singleton] at hfuel ⊢
    simp only [List.length_append, List.length_cons] at hfuel
    rw [List.append_assoc, List.cons_append, List.cons_append]
    have hvalue := value_chars hstyle depth v hv fuel closing (by omega) hend
    exact (members_stringText style.ascii k hopens hvalue).1 rest hskip
  | (k, v) :: (j, w) :: fields, _, h, fuel + 1, closing, rest, hfuel, hend, hskip => by
    obtain ⟨hv, hfields⟩ := List.forall_mem_cons.mp h
    have hparts := ((opens_stringText style.ascii j (':' :: ' ' :: chars style depth w)).intercalate
      (itemSeparator style depth) (fieldParts style depth fields)).append closing
    obtain ⟨blanks, hblanks, hbehind⟩ := skip_itemSeparator style depth hparts
    have hpos := length_itemSeparator_pos style depth
    rw [fieldParts_cons, fieldParts_cons, List.intercalate_cons_cons] at hfuel ⊢
    simp only [List.length_append, List.length_cons] at hfuel
    rw [List.append_assoc, List.append_assoc, List.append_assoc, List.cons_append,
      List.cons_append, hblanks]
    have hvalue := value_chars hstyle depth v hv fuel (',' :: blanks) (by omega)
      (endsNumber_cons (by simp))
    have hrest := members_fieldParts hstyle depth ((j, w) :: fields) (List.cons_ne_nil _ _) hfields
      fuel closing rest (by rw [fieldParts_cons]; omega) hend hskip
    have hopens := (opens_chars style depth hv.self).append (',' :: blanks)
    rw [(members_stringText style.ascii k hopens hvalue).2 blanks rfl]
    rw [hbehind, ← fieldParts_cons, hrest]
    rfl

end

end Values

theorem readWith_chars {style : Style} (hstyle : style.sorted = false) {v : Value}
    (h : v.Throughout (IsExact limit)) : readWith limit (chars style 0 v) = .ok v := by
  have hopens := opens_chars style 0 h.self
  have hvalue := value_chars hstyle 0 v h (2 * (chars style 0 v).length + 2) [] (by omega)
    (by simp [EndsNumber])
  rw [List.append_nil] at hvalue
  have hdocument : document limit (chars style 0 v) = .ok v := by
    unfold document
    rw [hopens.skip_eq, hvalue]
    obtain ⟨c, cs, hcs, -, hc⟩ := hopens
    simp only [List.mem_cons, not_or] at hc
    simp [hcs, hc, skip]
  rw [readWith, hdocument]

end Json

end Timeline
