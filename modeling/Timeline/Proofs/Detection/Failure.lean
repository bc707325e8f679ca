import Timeline.Proofs.Detection.Dates

/-! # Failing to look for dates

Looking for the dates of an object fails exactly if, among the fields of keywords, an integer text
with too many digits comes before any date. A key that only holds a keyword leads to no failure.
-/

namespace Timeline

namespace Fields

/-- Among the fields of keywords, one after the other, an integer text with too many digits comes
before any date. -/
inductive StopsAt (fields : Fields) : List String → Failure → Prop
  | here {keyword key : String} {v : Value} {keywords : List String} {f : Failure} :
    likeKeyword? fields keyword = some (key, v) → v.IsOverlong f →
    StopsAt fields (keyword :: keywords) f
  | later {keyword : String} {keywords : List String} {f : Failure} :
    (∀ key v, likeKeyword? fields keyword = some (key, v) → v.instant = .ok none) →
    StopsAt fields keywords f → StopsAt fields (keyword :: keywords) f

/-- An integer text with too many digits stops the search for the end or for the start. -/
def Stops (fields : Fields) (f : Failure) : Prop :=
  fields.StopsAt endKeywords f ∨ fields.StopsAt startKeywords f

variable {fields : Fields} {keyword : String} {keywords : List String} {f : Failure}

theorem StopsAt.exists_count (h : fields.StopsAt keywords f) :
    ∃ n, Json.digitLimit < n ∧ f = .tooManyDigits n := by
  induction h with
  | here _ hlong =>
    cases hlong with
    | text _ hcount => exact ⟨_, hcount, rfl⟩
  | later _ _ ih => exact ih

theorem stopsAt_cons_iff_of_none (h : likeKeyword? fields keyword = none) :
    fields.StopsAt (keyword :: keywords) f ↔ fields.StopsAt keywords f := by
  constructor
  · intro hstops
    cases hstops with
    | here hlike => cases h.symm.trans hlike
    | later _ hstops => exact hstops
  · exact .later fun key v hlike => by cases h.symm.trans hlike

theorem stopsAt_cons_iff_of_some {key : String} {v : Value}
    (h : likeKeyword? fields keyword = some (key, v)) :
    fields.StopsAt (keyword :: keywords) f ↔
      v.IsOverlong f ∨ v.instant = .ok none ∧ fields.StopsAt keywords f := by
  constructor
  · intro hstops
    cases hstops with
    | here hlike hlong =>
      cases h.symm.trans hlike
      exact .inl hlong
    | later hnone hstops => exact .inr ⟨hnone key v h, hstops⟩
  · rintro (hlong | ⟨hnone, hstops⟩)
    · exact .here h hlong
    · refine .later (fun key' v' hlike => ?_) hstops
      cases h.symm.trans hlike
      exact hnone

section Plain

variable (hplain : ∀ f ∈ fields, f.2.IsPlain)

include hplain

theorem failsBy_exactMatch (keywords : List String) :
    FailsBy (exactMatch? fields keywords) (fields.StopsAt keywords) := by
  induction keywords with
  | nil => exact (FailsBy.of_ok none).congr fun f => iff_of_false id nofun
  | cons keyword rest ih =>
    unfold exactMatch?
    cases hlike : likeKeyword? fields keyword with
    | none => exact ih.congr fun f => (stopsAt_cons_iff_of_none hlike).symm
    | some found =>
      obtain ⟨key, v⟩ := found
      have hread : FailsBy v.instant v.IsOverlong := .of_iff fun f =>
        Value.instant_eq_error_iff (hplain _ (List.mem_of_find?_eq_some hlike))
      refine (hread.bind fun t ht => ?_).congr fun f => (stopsAt_cons_iff_of_some hlike).symm
      cases t with
      | none => exact ih.congr fun f => (and_iff_right ht).symm
      | some t =>
        refine (FailsBy.of_ok (some key)).congr fun f => iff_of_false id ?_
        rintro ⟨hnone, -⟩
        cases ht.symm.trans hnone

/-- Looking for the dates of an object fails exactly if a text stops it. -/
theorem failsBy_dates : FailsBy fields.dates? fields.Stops := by
  obtain ⟨ends, hends⟩ := exists_partialMatches hplain endKeywords
  rw [dates?_eq_stages, hends, ok_bind]
  refine (failsBy_exactMatch hplain endKeywords).bind fun exactEnd _ => ?_
  refine (failsBy_exactMatch hplain startKeywords).bind_ok fun exactStart _ => ?_
  obtain ⟨start, hstart⟩ := exists_start hplain ends (exactEnd.or ends.head?) exactStart
  exact ⟨_, bind_eq_ok_iff.mpr ⟨start, hstart, rfl⟩⟩

end Plain

end Fields

namespace Value

theorem dates?_eq (v : Value) : v.dates? = v.fields.dates? := by
  have hempty : Fields.dates? [] = .ok none := rfl
  unfold dates?
  split
  · rename_i hfields
    rw [hfields, hempty]
  · rfl

theorem failsBy_dates {v : Value} (h : v.Throughout IsPlain) : FailsBy v.dates? v.fields.Stops := by
  have hfields : ∀ f ∈ v.fields, f.2.IsPlain := by
    cases v with
    | object fields => exact fun f hf => (h.of_mem_fields hf).self
    | _ => exact List.forall_mem_nil _
  rw [dates?_eq]
  exact Fields.failsBy_dates hfields

end Value

end Timeline
