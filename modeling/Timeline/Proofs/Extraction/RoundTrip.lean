import Timeline.Proofs.Extraction.Marks
import Timeline.Proofs.Time.Reading

/-! # Entities written and read back

An extracted entity that starts in a year of four digits is read back from the object it is
written as, with its start and end at the start of the millisecond. An earlier end is lost: the
entity read back ends when it starts. From an entity with an earlier start nothing is read back.
-/

namespace Timeline

namespace Entity

variable {e : Entity}

structure IsInCalendar (e : Entity) : Prop where
  start : e.start.IsInCalendar
  finish : e.finish.IsInCalendar

/-- What is left of an entity once it has been written and read back. -/
def reread (e : Entity) : Entity :=
  { e with
    start := e.start.wholeMillis
    finish := if e.finish.year < 1000 then e.start.wholeMillis else e.finish.wholeMillis }

theorem get?_category (e : Entity) :
    Value.orNull (Fields.get? e.toFields "yValue") = e.category := by
  unfold toFields
  split_ifs with hnull
  · cases hcategory : e.category with
    | null => rfl
    | _ => simp [hcategory, Value.isNull] at hnull
  · rfl

theorem ofFields_toFields (h : e.IsInCalendar) : ofFields e.toFields =
    if e.start.year < 1000 then .error (.noStart (.text e.id)) else .ok e.reread := by
  have hstart : field e.toFields "startDate" = .ok (.text e.start.text) := rfl
  have hfinish : Value.orNull (Fields.get? e.toFields "endDate") = .text e.finish.text := rfl
  rw [ofFields, hstart, ok_bind, Instant.instant_text h.start, ok_bind, hfinish,
    Instant.instant_text h.finish, ok_bind]
  by_cases hyear : e.start.year < 1000
  · simp only [if_pos hyear]
    rfl
  · simp only [if_neg hyear, get?_category]
    by_cases hend : e.finish.year < 1000
    · simp only [if_pos hend, reread]
      rfl
    · simp only [if_neg hend, reread]
      rfl

theorem reread_reread (hyear : 1000 ≤ e.start.year) : e.reread.reread = e.reread := by
  have hearly : ¬e.start.year < 1000 := Nat.not_lt.mpr hyear
  by_cases hend : e.finish.year < 1000 <;>
    simp [reread, hend, hearly, Instant.year_wholeMillis, Instant.wholeMillis_wholeMillis]

theorem IsInCalendar.reread (h : e.IsInCalendar) : e.reread.IsInCalendar := by
  refine ⟨h.start.wholeMillis, ?_⟩
  unfold Entity.reread
  dsimp only
  split_ifs
  · exact h.start.wholeMillis
  · exact h.finish.wholeMillis

end Entity

variable {e : Entity}

theorem Entity.isInCalendar_of_getD {last : Option Instant} (hstart : e.start.IsInCalendar)
    (hfinish : e.finish = last.getD e.start) (hlast : ∀ t, last = some t → t.IsInCalendar) :
    e.IsInCalendar := by
  refine ⟨hstart, ?_⟩
  rw [hfinish]
  cases last with
  | none => exact hstart
  | some t => exact hlast t rfl

theorem Rule.isInCalendar_of_instantAt {item path : Value} {t : Instant}
    (h : instantAt item path = .ok (some t)) : t.IsInCalendar := by
  unfold instantAt at h
  obtain ⟨found, -, h⟩ := bind_eq_ok_iff.mp h
  cases found with
  | none => cases h
  | some v => exact Instant.isInCalendar_of_instant h

theorem Rule.isInCalendar_of_build {r : Rule} {file item : Value} {index : Nat}
    (h : r.build file item index = .ok (.ok e)) : e.IsInCalendar := by
  have hholds := holds_of_build h
  obtain ⟨v, -, hstart⟩ := hholds.start
  obtain ⟨last, hlast, hfinish⟩ := hholds.finish
  refine Entity.isInCalendar_of_getD (Instant.isInCalendar_of_instant hstart) hfinish ?_
  rintro t rfl
  exact isInCalendar_of_instantAt hlast

theorem Detected.isInCalendar_of_isFound {file : Value} (h : IsFound file e) : e.IsInCalendar := by
  obtain ⟨array, index, item, h⟩ := h
  unfold itemEvent? at h
  obtain ⟨keys, -, h⟩ := bind_eq_ok_iff.mp h
  cases keys with
  | none => cases h
  | some keys =>
    obtain ⟨hstart, last, hlast, hfinish⟩ := dates_of_event? h
    refine Entity.isInCalendar_of_getD (Instant.isInCalendar_of_instant hstart) hfinish ?_
    rintro t rfl
    exact Instant.isInCalendar_of_instant hlast

namespace Extraction

variable {id document : Value} {rules : List Rule} {found : Extraction}

theorem isInCalendar_of_mem_ofDocument (h : ofDocument id document rules = .ok found)
    (he : e ∈ found.entities) : e.IsInCalendar := by
  rcases exists_build_of_mem_ofDocument h he with ⟨r, -, -, item, index, hbuild⟩ | ⟨-, hdetected⟩
  · exact Rule.isInCalendar_of_build hbuild
  · exact Detected.isInCalendar_of_isFound hdetected

/-- An extracted entity that starts in a year of four digits survives being written and read back,
up to whole milliseconds and an end in an earlier year, and a second time changes nothing. Of an
entity that starts earlier the start is not understood. -/
theorem read_written (h : ofDocument id document rules = .ok found) (he : e ∈ found.entities) :
    (1000 ≤ e.start.year → Entity.ofFields e.toFields = .ok e.reread ∧
        Entity.ofFields e.reread.toFields = .ok e.reread) ∧
      (e.start.year < 1000 → Entity.ofFields e.toFields = .error (.noStart (.text e.id))) := by
  have hcalendar := isInCalendar_of_mem_ofDocument h he
  constructor
  · intro hyear
    have hearly : ¬e.start.year < 1000 := Nat.not_lt.mpr hyear
    have hagain : ¬e.reread.start.year < 1000 := by
      rwa [Entity.reread, Instant.year_wholeMillis]
    rw [Entity.ofFields_toFields hcalendar, if_neg hearly,
      Entity.ofFields_toFields hcalendar.reread, if_neg hagain, Entity.reread_reread hyear]
    exact ⟨rfl, rfl⟩
  · intro hyear
    rw [Entity.ofFields_toFields hcalendar, if_pos hyear]

/-- An event of a leap day with an end that is cut off to whole milliseconds. -/
theorem read_written_leapDay :
    let event := Value.object [("id", .text "E1"), ("start", .text "2024-02-29"),
      ("end", .text "2024-02-29T23:59:59.999999Z")]
    let document := Value.object [("events", .list [event])]
    ∃ found, ofDocument (.text "d.json") document [] = .ok found ∧ ∃ e ∈ found.entities,
      1000 ≤ e.start.year ∧ e.reread.finish = ⟨1709251199999000⟩ ∧
        Entity.ofFields e.toFields = .ok e.reread := by
  intro event document
  have hfound : ∃ found, ofDocument (.text "d.json") document [] = .ok found ∧
      ∃ e ∈ found.entities, 1000 ≤ e.start.year ∧ e.reread.finish = ⟨1709251199999000⟩ := by
    refine ⟨_, rfl, _, List.mem_cons_self, ?_, ?_⟩ <;> decide +kernel
  obtain ⟨found, hfound, e, he, hyear, hfinish⟩ := hfound
  exact ⟨found, hfound, e, he, hyear, hfinish, ((read_written hfound he).1 hyear).1⟩

/-- An event of the year 999 cannot be read back. -/
theorem read_written_early :
    let event := Value.object [("id", .text "E1"), ("start", .text "0999-06-05")]
    let document := Value.object [("events", .list [event])]
    ∃ found, ofDocument (.text "d.json") document [] = .ok found ∧
      ∃ e ∈ found.entities, Entity.ofFields e.toFields = .error (.noStart (.text "E1")) := by
  intro event document
  have hfound : ∃ found, ofDocument (.text "d.json") document [] = .ok found ∧
      ∃ e ∈ found.entities, e.start.year < 1000 ∧ e.id = "E1" := by
    refine ⟨_, rfl, _, List.mem_cons_self, ?_, ?_⟩ <;> decide +kernel
  obtain ⟨found, hfound, e, he, hyear, hid⟩ := hfound
  have hread := Entity.ofFields_toFields (isInCalendar_of_mem_ofDocument hfound he)
  rw [if_pos hyear, hid] at hread
  exact ⟨found, hfound, e, he, hread⟩

end Extraction

end Timeline
