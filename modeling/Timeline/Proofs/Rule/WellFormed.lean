import Timeline.Proofs.Rule.Valid

/-! # Well-formed rules

A value has no problems exactly if it is an object with a text for each part that is asked for, a
color, a flag, and texts or nothing for the other parts. A color may have a line end behind it.
-/

namespace Timeline

namespace Text

/-- One of the digits `0` to `9`, or a letter from `A` to `F` in either case. -/
def IsHexDigit (c : Char) : Prop :=
  ('0' ≤ c ∧ c ≤ '9') ∨ ('A' ≤ c ∧ c ≤ 'F') ∨ ('a' ≤ c ∧ c ≤ 'f')

theorem isSome_hexDigit?_iff {c : Char} : (hexDigit? c).isSome ↔ IsHexDigit c := by
  unfold hexDigit? IsHexDigit
  split_ifs <;> simp_all

end Text

namespace Rule

variable {fields : Fields} {key label : String}

def IsColor (s : String) : Prop :=
  ∃ digits, s.toList = '#' :: digits ∧ digits.length = 6 ∧ ∀ c ∈ digits, Text.IsHexDigit c

/-- A color, or one with a single line end behind it. -/
def IsColorLine (s : String) : Prop :=
  IsColor s ∨ ∃ color, IsColor color ∧ s = color ++ "\n"

theorem isColorLine_iff {s : String} : IsColorLine s ↔ ∃ digits : List Char, digits.length = 6 ∧
    (∀ c ∈ digits, Text.IsHexDigit c) ∧
    (s.toList = '#' :: digits ∨ s.toList = '#' :: (digits ++ ['\n'])) := by
  constructor
  · rintro (⟨digits, hs, hlength, hdigits⟩ | ⟨color, ⟨digits, hcolor, hlength, hdigits⟩, rfl⟩)
    · exact ⟨digits, hlength, hdigits, .inl hs⟩
    · exact ⟨digits, hlength, hdigits, .inr (by simp [hcolor])⟩
  · rintro ⟨digits, hlength, hdigits, hs | hs⟩
    · exact .inl ⟨digits, hs, hlength, hdigits⟩
    · refine .inr ⟨String.ofList ('#' :: digits), ⟨digits, by simp, hlength, hdigits⟩, ?_⟩
      rw [← String.toList_inj, hs]
      simp

theorem not_isHexDigit_lineEnd : ¬Text.IsHexDigit '\n' := by
  unfold Text.IsHexDigit
  decide

theorem isHexColor_iff {s : String} : isHexColor s = true ↔ IsColorLine s := by
  have hbody : ∀ cs : List Char,
      (decide (cs.length = 6) && cs.all fun c => (Text.hexDigit? c).isSome) = true ↔
        cs.length = 6 ∧ ∀ c ∈ cs, Text.IsHexDigit c := by
    simp [Text.isSome_hexDigit?_iff]
  rw [isColorLine_iff, isHexColor]
  split
  · rename_i cs hs
    dsimp only
    simp only [hbody, hs, List.cons.injEq, true_and]
    by_cases hlast : cs.getLast? = some '\n'
    · have hcs : cs.dropLast ++ ['\n'] = cs := List.dropLast_append_getLast? '\n' hlast
      rw [if_pos hlast]
      constructor
      · rintro ⟨hlength, hdigits⟩
        exact ⟨cs.dropLast, hlength, hdigits, .inr hcs.symm⟩
      · rintro ⟨digits, hlength, hdigits, rfl | rfl⟩
        · exact absurd (hdigits _ (List.mem_of_getLast? hlast)) not_isHexDigit_lineEnd
        · rw [List.dropLast_concat]
          exact ⟨hlength, hdigits⟩
    · rw [if_neg hlast]
      constructor
      · rintro ⟨hlength, hdigits⟩
        exact ⟨cs, hlength, hdigits, .inl rfl⟩
      · rintro ⟨digits, hlength, hdigits, rfl | rfl⟩
        · exact ⟨hlength, hdigits⟩
        · exact absurd List.getLast?_concat hlast
  · rename_i hsharp
    refine iff_of_false Bool.false_ne_true ?_
    rintro ⟨digits, -, -, hs | hs⟩
    · exact hsharp _ hs
    · exact hsharp _ hs

/-- A text under a key that is not empty. -/
def HoldsText (fields : Fields) (key : String) : Prop :=
  ∃ s, fields.get? key = some (.text s) ∧ s ≠ ""

/-- A text, null or nothing under a key. -/
def MayHoldText (fields : Fields) (key : String) : Prop :=
  fields.get? key = none ∨ fields.get? key = some .null ∨ ∃ s, fields.get? key = some (.text s)

/-- The fields of the object form of a rule whose color is of some form. -/
structure IsRuleObject (isColor : String → Prop) (fields : Fields) : Prop where
  name : HoldsText fields "name"
  array : HoldsText fields "arrayPath"
  start : HoldsText fields "startDatePath"
  finish : HoldsText fields "endDatePath"
  color : ∃ s, fields.get? "color" = some (.text s) ∧ isColor s
  enabled : ∃ b, fields.get? "enabled" = some (.bool b)
  category : MayHoldText fields "yAxisPath"
  id : MayHoldText fields "idPath"

theorem orNull_eq_iff {v : Option Value} {w : Value} (hw : w ≠ .null) :
    Value.orNull v = w ↔ v = some w := by
  cases v <;> simp [Value.orNull, hw.symm]

theorem requiredProblems_eq_nil_iff_holdsText :
    requiredProblems fields key label = [] ↔ HoldsText fields key := by
  simp [requiredProblems_eq_nil_iff, isGivenText_iff, orNull_eq_iff, HoldsText]

theorem optionalProblems_eq_nil_iff_mayHoldText :
    optionalProblems fields key label = [] ↔ MayHoldText fields key := by
  rw [optionalProblems_eq_nil_iff, MayHoldText]
  cases Fields.get? fields key <;> simp [Value.orNull]

theorem problems_eq_nil_iff_isRuleObject {v : Value} : problems v = [] ↔
    ∃ fields, v = .object fields ∧ IsRuleObject IsColorLine fields := by
  cases v with
  | object fields =>
    simp only [problems, List.append_eq_nil_iff, requiredProblems_eq_nil_iff_holdsText,
      colorProblems_eq_nil_iff, flagProblems_eq_nil_iff, optionalProblems_eq_nil_iff_mayHoldText,
      orNull_eq_iff, isHexColor_iff, Value.object.injEq, exists_eq_left', ne_eq, reduceCtorEq,
      not_false_eq_true]
    constructor
    · rintro ⟨⟨⟨⟨⟨⟨⟨hname, harray⟩, hstart⟩, hfinish⟩, hcolor⟩, henabled⟩, hcategory⟩, hid⟩
      exact ⟨hname, harray, hstart, hfinish, hcolor, henabled, hcategory, hid⟩
    · rintro ⟨hname, harray, hstart, hfinish, hcolor, henabled, hcategory, hid⟩
      exact ⟨⟨⟨⟨⟨⟨⟨hname, harray⟩, hstart⟩, hfinish⟩, hcolor⟩, henabled⟩, hcategory⟩, hid⟩
  | _ => simp [problems]

/-- A value is valid exactly if it is an object of this form, with a color that may have a line end
behind it, and exactly if nothing is reported. -/
theorem validate_exact (v : Value) :
    ((validate v).isValid = true ↔
      ∃ fields, v = .object fields ∧ IsRuleObject IsColorLine fields) ∧
    ((validate v).problems = [] ↔ (validate v).isValid = true) := by
  have hvalid : (validate v).isValid = true ↔ problems v = [] := List.isEmpty_iff
  exact ⟨hvalid.trans problems_eq_nil_iff_isRuleObject, hvalid.symm⟩

/-- A line end behind the color is not noticed. -/
theorem validate_exact_lineEnd :
    let fields : Fields := [("name", .text "events"), ("arrayPath", .text "events"),
      ("startDatePath", .text "start"), ("endDatePath", .text "end"),
      ("color", .text "#1f77b4\n"), ("enabled", .bool true)]
    (validate (.object fields)).isValid = true ∧ ¬IsRuleObject IsColor fields := by
  intro fields
  refine ⟨by decide, fun h => ?_⟩
  obtain ⟨s, hs, digits, hcolor, hlength, -⟩ := h.color
  cases hs
  have hchars := congrArg List.length hcolor
  rw [List.length_cons, hlength] at hchars
  revert hchars
  decide

end Rule

end Timeline
