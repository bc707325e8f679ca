import Timeline.Proofs.Rule.Import

/-! # Valid rules and their object form

The rules that are made of valid objects have texts where texts are asked for, and the object form
of such a rule is valid again and gives the rule back.
-/

namespace Timeline

theorem Value.ifTruthy_eq_some_iff {v w : Value} :
    v.ifTruthy = some w ↔ v.truthy = true ∧ v = w := by
  unfold ifTruthy
  split <;> simp_all

namespace Rule

variable {fields : Fields} {key label : String} {r : Rule}

theorem isGivenText_iff {v : Value} : isGivenText v = true ↔ ∃ s, v = .text s ∧ s ≠ "" := by
  cases v <;> simp [isGivenText]

theorem isGivenText_text_iff {s : String} : isGivenText (.text s) = true ↔ s ≠ "" := by
  simp [isGivenText]

theorem requiredProblems_eq_nil_iff : requiredProblems fields key label = [] ↔
    isGivenText (Value.orNull (fields.get? key)) = true := by
  unfold requiredProblems
  split <;> simp_all

theorem colorProblems_eq_nil_iff : colorProblems fields = [] ↔
    ∃ s, Value.orNull (fields.get? "color") = .text s ∧ isHexColor s = true := by
  unfold colorProblems
  constructor
  · intro h
    split at h
    · rename_i s hs
      refine ⟨s, hs, ?_⟩
      split_ifs at h with hempty hhex
      exact hhex
    · cases h
  · rintro ⟨s, hs, hhex⟩
    have hne : s ≠ "" := by
      rintro rfl
      cases hhex
    simp [hs, hne, hhex]

theorem flagProblems_eq_nil_iff : flagProblems fields = [] ↔
    ∃ b, Value.orNull (fields.get? "enabled") = .bool b := by
  unfold flagProblems
  split <;> simp_all

theorem optionalProblems_eq_nil_iff : optionalProblems fields key label = [] ↔
    Value.orNull (fields.get? key) = .null ∨ ∃ s, Value.orNull (fields.get? key) = .text s := by
  unfold optionalProblems
  split <;> simp_all

/-- A rule with the texts, the color and the flag that are asked for. -/
structure IsValid (r : Rule) : Prop where
  name : isGivenText r.name = true
  array : isGivenText r.array = true
  start : isGivenText r.start = true
  finish : isGivenText r.finish = true
  color : ∃ s, r.color = .text s ∧ isHexColor s = true
  enabled : ∃ b, r.enabled = .bool b
  category : ∀ v, r.category = some v → isGivenText v = true
  id : ∀ v, r.id = some v → isGivenText v = true

theorem isGivenText_of_ifTruthy {v : Option Value} {w : Value}
    (h : Value.orNull v = .null ∨ ∃ s, Value.orNull v = .text s)
    (hw : v.bind Value.ifTruthy = some w) : isGivenText w = true := by
  obtain ⟨u, rfl, hu⟩ := Option.bind_eq_some_iff.mp hw
  obtain ⟨htruthy, rfl⟩ := Value.ifTruthy_eq_some_iff.mp hu
  rcases h with hnull | ⟨s, hs⟩
  · cases hnull
    cases htruthy
  · cases hs
    exact htruthy

theorem isValid_of_problems_eq_nil {v : Value} (hv : problems v = [])
    (hr : ofFields v.fields = .ok r) : r.IsValid := by
  cases v with
  | object fields =>
    simp only [problems, List.append_eq_nil_iff, requiredProblems_eq_nil_iff,
      colorProblems_eq_nil_iff, flagProblems_eq_nil_iff, optionalProblems_eq_nil_iff] at hv
    obtain ⟨⟨⟨⟨⟨⟨⟨hname, harray⟩, hstart⟩, hfinish⟩, hcolor⟩, hflag⟩, hcategory⟩, hid⟩ := hv
    obtain ⟨hname', harray', hstart', hfinish', hcolor', henabled, hcategory', hid'⟩ :=
      ofFields_eq_ok_iff.mp (show ofFields fields = .ok r from hr)
    rw [hname'] at hname
    rw [harray'] at harray
    rw [hstart'] at hstart
    rw [hfinish'] at hfinish
    rw [hcolor'] at hcolor
    refine ⟨hname, harray, hstart, hfinish, hcolor, ?_, ?_, ?_⟩
    · obtain ⟨b, hb⟩ := hflag
      rw [henabled]
      cases hget : Fields.get? fields "enabled" with
      | none => exact ⟨true, rfl⟩
      | some w => exact ⟨b, by simpa [Value.orNull, hget] using hb⟩
    · exact fun w hw => isGivenText_of_ifTruthy hcategory (hcategory'.symm.trans hw)
    · exact fun w hw => isGivenText_of_ifTruthy hid (hid'.symm.trans hw)
  | _ => exact absurd hv (by simp [problems])

theorem get?_toFields (r : Rule) :
    Fields.get? r.toFields "name" = some r.name ∧
      Fields.get? r.toFields "arrayPath" = some r.array ∧
      Fields.get? r.toFields "startDatePath" = some r.start ∧
      Fields.get? r.toFields "endDatePath" = some r.finish ∧
      Fields.get? r.toFields "color" = some r.color ∧
      Fields.get? r.toFields "enabled" = some r.enabled ∧
      Fields.get? r.toFields "yAxisPath" = r.category ∧
      Fields.get? r.toFields "idPath" = r.id := by
  obtain ⟨name, array, start, finish, color, enabled, category, id⟩ := r
  cases category <;> cases id <;> exact ⟨rfl, rfl, rfl, rfl, rfl, rfl, rfl, rfl⟩

theorem problems_toFields_eq_nil_iff : problems (.object r.toFields) = [] ↔
    (isGivenText r.name = true ∧ isGivenText r.array = true ∧ isGivenText r.start = true ∧
      isGivenText r.finish = true) ∧
    (∃ s, r.color = .text s ∧ isHexColor s = true) ∧ (∃ b, r.enabled = .bool b) ∧
    (Value.orNull r.category = .null ∨ ∃ s, Value.orNull r.category = .text s) ∧
    (Value.orNull r.id = .null ∨ ∃ s, Value.orNull r.id = .text s) := by
  obtain ⟨hname, harray, hstart, hfinish, hcolor, henabled, hcategory, hid⟩ := get?_toFields r
  simp only [problems, List.append_eq_nil_iff, requiredProblems_eq_nil_iff,
    colorProblems_eq_nil_iff, flagProblems_eq_nil_iff, optionalProblems_eq_nil_iff, hname, harray,
    hstart, hfinish, hcolor, henabled, hcategory, hid, and_assoc]
  rfl

namespace IsValid

variable (h : r.IsValid)

include h

theorem problems_toFields : problems (.object r.toFields) = [] := by
  have hoptional : ∀ v : Option Value, (∀ w, v = some w → isGivenText w = true) →
      Value.orNull v = .null ∨ ∃ s, Value.orNull v = .text s := by
    rintro (_ | w) hw
    · exact .inl rfl
    · obtain ⟨s, rfl, -⟩ := isGivenText_iff.mp (hw w rfl)
      exact .inr ⟨s, rfl⟩
  exact problems_toFields_eq_nil_iff.mpr ⟨⟨h.name, h.array, h.start, h.finish⟩, h.color, h.enabled,
    hoptional _ h.category, hoptional _ h.id⟩

theorem ofFields_toFields : ofFields r.toFields = .ok r := by
  obtain ⟨hname, harray, hstart, hfinish, hcolor, henabled, hcategory, hid⟩ := get?_toFields r
  have hoptional : ∀ v : Option Value, (∀ w, v = some w → isGivenText w = true) →
      v.bind Value.ifTruthy = v := by
    rintro (_ | w) hw
    · rfl
    · have htruthy : w.truthy = true := by
        obtain ⟨s, rfl, hs⟩ := isGivenText_iff.mp (hw w rfl)
        simpa [Value.truthy] using hs
      simp [Value.ifTruthy, htruthy]
  simp only [ofFields, Entity.field, hname, harray, hstart, hfinish, hcolor, henabled, hcategory,
    hid, ok_bind, hoptional _ h.category, hoptional _ h.id]
  rfl

theorem isNamed : r.IsNamed := by
  obtain ⟨s, hs, -⟩ := isGivenText_iff.mp h.name
  exact isNamed_of_name_eq hs

end IsValid

end Rule

end Timeline
