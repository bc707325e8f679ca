import Timeline.Proofs.Json.Alike

/-! # Line ends between JSON values

A JSON text holds the same value with unified line ends: line ends are blanks between the parts of
the text, and no part holds one. The bound of the depth is never met, so it does not matter that it
is lower for the text with unified line ends.
-/

namespace Timeline.Json

open Text (unifyLineEnds unifyLineEnds_cons unifyLineEnds_return eq_cons_of_unifyLineEnds
  length_unifyLineEnds_le)

variable {α β : Type} {c : Char} {cs rest behind : List Char} {m n limit fuel fuel' : Nat}
  {r r' : Read α}

/-- What stands behind a character, if there are only blanks before it. -/
def after? (c : Char) (cs : List Char) : Option (List Char) :=
  match skip cs with
  | [] => none
  | d :: rest => if d = c then some rest else none

theorem after?_eq_some_iff : after? c cs = some rest ↔ skip cs = c :: rest := by
  unfold after?
  split
  · simp [*]
  · rename_i d behind hskip
    rw [hskip]
    constructor
    · intro h
      split_ifs at h with hd
      cases h
      rw [hd]
    · intro h
      cases h
      exact if_pos rfl

theorem length_lt_of_after? (h : after? c cs = some rest) : rest.length < cs.length := by
  have hlength := length_skip_le cs
  rw [after?_eq_some_iff.mp h] at hlength
  exact hlength

theorem after?_cases (hreturn : c ≠ '\r') (hline : c ≠ '\n') (cs : List Char) :
    after? c cs = none ∧ after? c (unifyLineEnds cs) = none ∨
      ∃ rest, after? c cs = some rest ∧ after? c (unifyLineEnds cs) = some (unifyLineEnds rest) ∧
        (unifyLineEnds rest).length < (unifyLineEnds cs).length := by
  have hunified : after? c (unifyLineEnds cs) = (after? c cs).map unifyLineEnds := by
    refine Option.ext fun rest => ?_
    rw [after?_eq_some_iff, skip_unifyLineEnds, Option.map_eq_some_iff]
    constructor
    · intro h
      obtain ⟨behind, hskip, rfl⟩ := eq_cons_of_unifyLineEnds hline h
      exact ⟨behind, after?_eq_some_iff.mpr hskip, rfl⟩
    · rintro ⟨behind, h, rfl⟩
      rw [after?_eq_some_iff.mp h, unifyLineEnds_cons hreturn]
  cases hafter : after? c cs with
  | none =>
    rw [hafter] at hunified
    exact .inl ⟨rfl, hunified⟩
  | some rest =>
    rw [hafter] at hunified
    exact .inr ⟨rest, rfl, hunified, length_lt_of_after? hunified⟩

/-- Goes on behind what has been read. -/
def Read.andThen (r : Read α) (f : α → List Char → Read β) : Read β :=
  match r with
  | .error e => .error e
  | .ok (a, rest) => f a rest

theorem Alike.andThen {f f' : α → List Char → Read β} (h : Alike n r r')
    (hf : ∀ a rest, (unifyLineEnds rest).length < n →
      Alike (unifyLineEnds rest).length (f a rest) (f' a (unifyLineEnds rest))) :
    Alike n (r.andThen f) (r'.andThen f') := by
  cases h with
  | ok hrest => exact (hf _ _ hrest).mono (Nat.le_of_lt hrest)
  | fault => exact .fault
  | tooManyDigits => exact .tooManyDigits

/-- What stands behind a part of a collection: the closing, or a comma and more parts. -/
def separated (closing : Char) (more : List Char → Read (List α)) (a : α) (rest : List Char) :
    Read (List α) :=
  match after? closing rest with
  | some behind => .ok ([a], behind)
  | none =>
    match after? ',' rest with
    | some behind => (more (skip behind)).map fun (as, rest) => (a :: as, rest)
    | none => .error (.fault .comma (skip rest))

theorem separated_eq (closing : Char) (more : List Char → Read (List α)) (a : α)
    (rest : List Char) : separated closing more a rest =
      match skip rest with
      | [] => .error (.fault .comma [])
      | c :: behind =>
        if c = closing then .ok ([a], behind)
        else if c = ',' then (more (skip behind)).map fun (as, rest) => (a :: as, rest)
        else .error (.fault .comma (c :: behind)) := by
  unfold separated after?
  cases skip rest with
  | nil => rfl
  | cons c behind =>
    dsimp only
    split_ifs <;> rfl

theorem separated_alike {closing : Char} (hreturn : closing ≠ '\r') (hline : closing ≠ '\n')
    {more more' : List Char → Read (List α)} (a : α) (rest : List Char)
    (h : ∀ cs, (unifyLineEnds cs).length < (unifyLineEnds rest).length →
      Alike (unifyLineEnds cs).length (more cs) (more' (unifyLineEnds cs))) :
    Alike (unifyLineEnds rest).length (separated closing more a rest)
      (separated closing more' a (unifyLineEnds rest)) := by
  unfold separated
  rcases after?_cases hreturn hline rest with ⟨hnone, hnone'⟩ | ⟨behind, hsome, hsome', hlt⟩
  · rw [hnone, hnone']
    rcases after?_cases (c := ',') (by decide) (by decide) rest with
      ⟨hnone, hnone'⟩ | ⟨behind, hsome, hsome', hlt⟩
    · rw [hnone, hnone']
      exact .fault
    · rw [hsome, hsome']
      have hskip := length_skip_le (unifyLineEnds behind)
      rw [skip_unifyLineEnds] at hskip
      simp only [skip_unifyLineEnds]
      exact ((h (skip behind) (by omega)).mono (by omega)).map (a :: ·)
  · rw [hsome, hsome']
    exact .ok hlt

theorem value_nil (limit fuel : Nat) : value limit fuel [] = .error (.fault .value []) := by
  cases fuel <;> rfl

theorem value_string (limit fuel : Nat) (rest : List Char) :
    value limit (fuel + 1) ('\x22' :: rest) =
      (string ('\x22' :: rest) rest).map fun (s, rest) => (.text (String.ofList s), rest) :=
  rfl

theorem value_brackets (limit fuel : Nat) (rest : List Char) :
    value limit (fuel + 1) ('[' :: rest) =
      match after? ']' rest with
      | some behind => .ok (.list [], behind)
      | none => (items limit fuel (skip rest)).map fun (vs, rest) => (.list vs, rest) := by
  rw [value, after?]
  split <;> grind

theorem value_braces (limit fuel : Nat) (rest : List Char) :
    value limit (fuel + 1) ('{' :: rest) =
      match after? '}' rest with
      | some behind => .ok (.object [], behind)
      | none => (members limit fuel (skip rest)).map fun (fs, rest) =>
          (.object (Fields.ofList fs), rest) := by
  rw [value, after?]
  split <;> grind

/-- A value that is no collection and no string. -/
def scalar (limit : Nat) (cs : List Char) : Read Value :=
  match word? cs with
  | some found => .ok found
  | none => number limit cs

theorem value_scalar (hquote : c ≠ '\x22') (hbracket : c ≠ '[') (hbrace : c ≠ '{')
    (limit fuel : Nat) (rest : List Char) :
    value limit (fuel + 1) (c :: rest) = scalar limit (c :: rest) := by
  rw [value, if_neg hquote, if_neg hbracket, if_neg hbrace]
  rfl

theorem scalar_alike (limit : Nat) (cs : List Char) :
    Alike (unifyLineEnds cs).length (scalar limit cs) (scalar limit (unifyLineEnds cs)) := by
  unfold scalar
  rcases unbroken_word?.cases cs with ⟨hword, hword'⟩ | ⟨v, rest, hword, hword', -, hlt⟩
  · rw [hword, hword']
    exact number_alike limit cs
  · rw [hword, hword']
    exact .ok hlt

theorem items_succ (limit fuel : Nat) (cs : List Char) :
    items limit (fuel + 1) cs =
      (value limit fuel cs).andThen fun v rest => separated ']' (items limit fuel) v rest := by
  rw [items]
  cases value limit fuel cs with
  | error e => rfl
  | ok found =>
    simp only [Read.andThen, separated_eq]
    cases skip found.2 with
    | nil => rfl
    | cons c behind =>
      dsimp only
      split <;> simp_all

theorem members_quote (limit fuel : Nat) (rest : List Char) :
    members limit (fuel + 1) ('\x22' :: rest) =
      (string ('\x22' :: rest) rest).andThen fun key rest =>
        match after? ':' rest with
        | some behind =>
          (value limit fuel (skip behind)).andThen fun v rest =>
            separated '}' (members limit fuel) (String.ofList key, v) rest
        | none => .error (.fault .colon (skip rest)) := by
  rw [members]
  cases string ('\x22' :: rest) rest with
  | error e => rfl
  | ok found =>
    simp only [Read.andThen, separated_eq, after?]
    cases skip found.2 with
    | nil => rfl
    | cons c behind =>
      by_cases hcolon : c = ':'
      · simp only [hcolon, if_true]
        cases value limit fuel (skip behind) with
        | error e => rfl
        | ok found =>
          obtain ⟨v, rest⟩ := found
          dsimp only
          cases skip rest with
          | nil => rfl
          | cons c behind =>
            dsimp only
            split <;> simp_all
      · split <;> simp_all

theorem members_of_ne (hc : c ≠ '\x22') (limit fuel : Nat) (rest : List Char) :
    members limit (fuel + 1) (c :: rest) = .error (.fault .propertyName (c :: rest)) := by
  rw [members]
  rintro behind heq
  exact hc (List.cons.inj heq).1

/-- The parts of collections of fewer than `n` characters are read alike with two bounds of the
depth. -/
structure PartsAlike (limit n fuel fuel' : Nat) : Prop where
  items : ∀ cs, (unifyLineEnds cs).length < n →
    Alike (unifyLineEnds cs).length (items limit fuel cs) (items limit fuel' (unifyLineEnds cs))
  members : ∀ cs, (unifyLineEnds cs).length < n →
    Alike (unifyLineEnds cs).length (members limit fuel cs)
      (members limit fuel' (unifyLineEnds cs))

/-- The value at the start of a text is read alike with two bounds of the depth. -/
def ValueAlike (limit fuel fuel' : Nat) (cs : List Char) : Prop :=
  Alike (unifyLineEnds cs).length (value limit fuel cs) (value limit fuel' (unifyLineEnds cs))

namespace PartsAlike

theorem value (h : PartsAlike limit (unifyLineEnds cs).length fuel fuel') :
    ValueAlike limit (fuel + 1) (fuel' + 1) cs := by
  unfold ValueAlike
  cases cs with
  | nil => exact .fault
  | cons c rest =>
    have hscalar := scalar_alike limit (c :: rest)
    by_cases hreturn : c = '\r'
    · obtain ⟨behind, hbehind, -⟩ := unifyLineEnds_return rest
      rw [hreturn, hbehind] at hscalar ⊢
      rwa [value_scalar (by decide) (by decide) (by decide),
        value_scalar (by decide) (by decide) (by decide)]
    rw [unifyLineEnds_cons hreturn] at h hscalar ⊢
    rw [List.length_cons] at h ⊢
    have hskip : (unifyLineEnds (skip rest)).length < (unifyLineEnds rest).length + 1 := by
      rw [← skip_unifyLineEnds]
      exact Nat.lt_succ_of_le (length_skip_le _)
    by_cases hquote : c = '\x22'
    · rw [hquote, value_string, value_string]
      exact ((string_alike _ _ rest).mono (Nat.le_succ _)).map fun s => Value.text (String.ofList s)
    by_cases hbracket : c = '['
    · rw [hbracket, value_brackets, value_brackets, skip_unifyLineEnds]
      rcases after?_cases (c := ']') (by decide) (by decide) rest with
        ⟨hnone, hnone'⟩ | ⟨behind, hsome, hsome', hlt⟩
      · rw [hnone, hnone']
        exact ((h.items _ hskip).mono (Nat.le_of_lt hskip)).map Value.list
      · rw [hsome, hsome']
        exact .ok (Nat.lt_succ_of_lt hlt)
    by_cases hbrace : c = '{'
    · rw [hbrace, value_braces, value_braces, skip_unifyLineEnds]
      rcases after?_cases (c := '}') (by decide) (by decide) rest with
        ⟨hnone, hnone'⟩ | ⟨behind, hsome, hsome', hlt⟩
      · rw [hnone, hnone']
        exact ((h.members _ hskip).mono (Nat.le_of_lt hskip)).map
          fun fs => Value.object (Fields.ofList fs)
      · rw [hsome, hsome']
        exact .ok (Nat.lt_succ_of_lt hlt)
    rwa [value_scalar hquote hbracket hbrace, value_scalar hquote hbracket hbrace]

theorem items_succ (h : PartsAlike limit (unifyLineEnds cs).length fuel fuel')
    (hvalue : ValueAlike limit fuel fuel' cs) :
    Alike (unifyLineEnds cs).length (Json.items limit (fuel + 1) cs)
      (Json.items limit (fuel' + 1) (unifyLineEnds cs)) := by
  rw [Json.items_succ, Json.items_succ]
  refine Alike.andThen hvalue fun v rest hrest => ?_
  exact separated_alike (by decide) (by decide) v rest
    fun cs hcs => h.items cs (Nat.lt_trans hcs hrest)

theorem members_succ (h : PartsAlike limit (unifyLineEnds cs).length fuel fuel')
    (hvalue : ∀ cs', (unifyLineEnds cs').length < (unifyLineEnds cs).length →
      ValueAlike limit fuel fuel' cs') :
    Alike (unifyLineEnds cs).length (Json.members limit (fuel + 1) cs)
      (Json.members limit (fuel' + 1) (unifyLineEnds cs)) := by
  cases cs with
  | nil => exact .fault
  | cons c rest =>
    by_cases hreturn : c = '\r'
    · obtain ⟨behind, hbehind, -⟩ := unifyLineEnds_return rest
      rw [hreturn, hbehind, members_of_ne (by decide), members_of_ne (by decide)]
      exact .fault
    rw [unifyLineEnds_cons hreturn, List.length_cons] at h hvalue ⊢
    by_cases hquote : c = '\x22'
    · rw [hquote, members_quote, members_quote]
      refine ((string_alike _ _ rest).mono (Nat.le_succ _)).andThen fun key rest hrest => ?_
      rcases after?_cases (c := ':') (by decide) (by decide) rest with
        ⟨hnone, hnone'⟩ | ⟨behind, hsome, hsome', hlt⟩
      · rw [hnone, hnone']
        exact .fault
      · have hskip := length_skip_le (unifyLineEnds behind)
        rw [skip_unifyLineEnds] at hskip
        simp only [hsome, hsome', skip_unifyLineEnds]
        have hbehind := hvalue (skip behind) (by omega)
        refine (Alike.mono hbehind (by omega)).andThen fun v rest hrest => ?_
        exact separated_alike (by decide) (by decide) _ rest
          fun cs hcs => h.members cs (by omega)
    · rw [members_of_ne hquote, members_of_ne hquote]
      exact .fault

theorem mono (h : PartsAlike limit n fuel fuel') (hmn : m ≤ n) : PartsAlike limit m fuel fuel' where
  items cs hcs := h.items cs (Nat.lt_of_lt_of_le hcs hmn)
  members cs hcs := h.members cs (Nat.lt_of_lt_of_le hcs hmn)

/-- Bounds of the depth that are not met in the parts are not met in a value around them. -/
theorem valueAlike (h : ∀ fuel fuel', 2 * n ≤ fuel + 1 → 2 * n ≤ fuel' + 1 →
      PartsAlike limit n fuel fuel')
    (hcs : (unifyLineEnds cs).length ≤ n) (hfuel : 2 * n ≤ fuel) (hfuel' : 2 * n ≤ fuel') :
    ValueAlike limit fuel fuel' cs := by
  by_cases hnil : cs = []
  · rw [ValueAlike, hnil, Text.unifyLineEnds_eq_nil_iff.mpr rfl, value_nil, value_nil]
    exact .fault
  · have hpos : 0 < (unifyLineEnds cs).length :=
      List.length_pos_iff.mpr (mt Text.unifyLineEnds_eq_nil_iff.mp hnil)
    obtain ⟨fuel, rfl⟩ := Nat.exists_eq_add_of_le' (show 1 ≤ fuel by omega)
    obtain ⟨fuel', rfl⟩ := Nat.exists_eq_add_of_le' (show 1 ≤ fuel' by omega)
    exact ((h fuel fuel' hfuel hfuel').mono hcs).value

theorem of_bounds (limit n : Nat) : ∀ fuel fuel', 2 * n ≤ fuel + 1 → 2 * n ≤ fuel' + 1 →
    PartsAlike limit n fuel fuel' := by
  induction n with
  | zero =>
    intro fuel fuel' _ _
    constructor <;> exact fun cs hcs => absurd hcs (Nat.not_lt_zero _)
  | succ n ih =>
    intro fuel fuel' hfuel hfuel'
    obtain ⟨fuel, rfl⟩ := Nat.exists_eq_add_of_le' (show 1 ≤ fuel by omega)
    obtain ⟨fuel', rfl⟩ := Nat.exists_eq_add_of_le' (show 1 ≤ fuel' by omega)
    have hparts := ih fuel fuel' (by omega) (by omega)
    have hvalue : ∀ cs, (unifyLineEnds cs).length ≤ n → ValueAlike limit fuel fuel' cs :=
      fun cs hcs => valueAlike ih hcs (by omega) (by omega)
    constructor
    · intro cs hcs
      have hcs := Nat.le_of_lt_succ hcs
      exact (hparts.mono hcs).items_succ (hvalue cs hcs)
    · intro cs hcs
      have hcs := Nat.le_of_lt_succ hcs
      exact (hparts.mono hcs).members_succ fun cs' hcs' => hvalue cs' (by omega)

end PartsAlike

theorem value_alike (hfuel : 2 * (unifyLineEnds cs).length ≤ fuel)
    (hfuel' : 2 * (unifyLineEnds cs).length ≤ fuel') : ValueAlike limit fuel fuel' cs :=
  PartsAlike.valueAlike (PartsAlike.of_bounds limit _) (Nat.le_refl _) hfuel hfuel'

/-- What a text holds, and what another one holds: the same value, a fault of the same kind, or an
integer of the same length. -/
inductive AlikeOutcome : Except ReadFailure Value → Except ReadFailure Value → Prop
  | value {v : Value} : AlikeOutcome (.ok v) (.ok v)
  | fault {f g : Fault} : f.reason = g.reason → AlikeOutcome (.error (.fault f)) (.error (.fault g))
  | tooManyDigits {count : Nat} :
    AlikeOutcome (.error (.tooManyDigits count)) (.error (.tooManyDigits count))

/-- Reads one value between blanks. -/
def single (limit fuel : Nat) (cs : List Char) : Except Stop Value :=
  match value limit fuel (skip cs) with
  | .error e => .error e
  | .ok (v, rest) =>
    match skip rest with
    | [] => .ok v
    | rest => .error (.fault .extraData rest)

theorem document_mark (limit : Nat) (rest : List Char) :
    document limit ('\uFEFF' :: rest) = .error (.fault .byteOrderMark ('\uFEFF' :: rest)) :=
  rfl

theorem document_of_ne (h : cs.head? ≠ some '\uFEFF') (limit : Nat) :
    document limit cs = single limit (2 * cs.length + 2) cs := by
  unfold document
  split
  · exact absurd rfl h
  · rfl

/-- Unless both stop at a fault of the same kind, or at an integer of the same length, a text and
the text with unified line ends hold the same value. -/
theorem single_cases (limit : Nat) (hfuel : 2 * (unifyLineEnds cs).length ≤ fuel)
    (hfuel' : 2 * (unifyLineEnds cs).length ≤ fuel') :
    (∃ v, single limit fuel cs = .ok v ∧ single limit fuel' (unifyLineEnds cs) = .ok v) ∨
      (∃ reason rest rest', single limit fuel cs = .error (.fault reason rest) ∧
        single limit fuel' (unifyLineEnds cs) = .error (.fault reason rest')) ∨
      ∃ count, single limit fuel cs = .error (.tooManyDigits count) ∧
        single limit fuel' (unifyLineEnds cs) = .error (.tooManyDigits count) := by
  have hskip := length_skip_le (unifyLineEnds cs)
  rw [skip_unifyLineEnds] at hskip
  have hvalue : ValueAlike limit fuel fuel' (skip cs) := value_alike (by omega) (by omega)
  unfold single
  rw [skip_unifyLineEnds]
  unfold ValueAlike at hvalue
  generalize value limit fuel (skip cs) = r, value limit fuel' (unifyLineEnds (skip cs)) = r'
    at hvalue
  cases hvalue with
  | @ok v rest _ =>
    dsimp only
    rw [skip_unifyLineEnds]
    cases hrest : skip rest with
    | nil => exact .inl ⟨v, rfl, rfl⟩
    | cons c behind =>
      obtain ⟨d, behind', hbehind⟩ : ∃ d behind', unifyLineEnds (c :: behind) = d :: behind' :=
        List.exists_cons_of_ne_nil
          (mt Text.unifyLineEnds_eq_nil_iff.mp (List.cons_ne_nil c behind))
      rw [hbehind]
      exact .inr (.inl ⟨.extraData, _, _, rfl, rfl⟩)
  | fault => exact .inr (.inl ⟨_, _, _, rfl, rfl⟩)
  | tooManyDigits => exact .inr (.inr ⟨_, rfl, rfl⟩)

theorem readWith_unifyLineEnds (limit : Nat) (cs : List Char) :
    AlikeOutcome (readWith limit cs) (readWith limit (unifyLineEnds cs)) := by
  by_cases hmark : cs.head? = some '\uFEFF'
  · obtain ⟨rest, rfl⟩ := List.head?_eq_some_iff.mp hmark
    rw [unifyLineEnds_cons (by decide), readWith, readWith, document_mark, document_mark]
    exact .fault rfl
  · have hmark' : (unifyLineEnds cs).head? ≠ some '\uFEFF' := by
      intro hhead
      obtain ⟨rest, hrest⟩ := List.head?_eq_some_iff.mp hhead
      obtain ⟨behind, rfl, -⟩ := eq_cons_of_unifyLineEnds (by decide) hrest
      exact hmark rfl
    have hlength := length_unifyLineEnds_le cs
    have hfuel : 2 * (unifyLineEnds cs).length ≤ 2 * cs.length + 2 := by omega
    have hfuel' : 2 * (unifyLineEnds cs).length ≤ 2 * (unifyLineEnds cs).length + 2 :=
      Nat.le_add_right _ 2
    rw [readWith, readWith, document_of_ne hmark, document_of_ne hmark']
    rcases single_cases limit hfuel hfuel' with
      ⟨v, h, h'⟩ | ⟨reason, rest, rest', h, h'⟩ | ⟨count, h, h'⟩
    · rw [h, h']
      exact .value
    · rw [h, h']
      exact .fault rfl
    · rw [h, h']
      exact .tooManyDigits

end Timeline.Json
