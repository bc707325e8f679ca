import Timeline.Proofs.Detected.Complete
import Timeline.Proofs.Detected.Event
import Timeline.Proofs.Detection.Keywords

/-! # Detected events have their dates

An object in which a start is found is always an event, which starts and ends at the dates of the
two fields. An end of its own is a field whose key holds a keyword of ends.
-/

namespace Timeline.Detected

open Fields

variable {fields : Fields} {keys : DateFields}

theorem exists_get?_of_instant {k : String} {t : Instant}
    (h : (Value.orNull (fields.get? k)).instant = .ok (some t)) :
    ∃ v, fields.get? k = some v ∧ v.instant = .ok (some t) := by
  cases hget : fields.get? k with
  | none =>
    rw [hget] at h
    cases h
  | some v =>
    rw [hget] at h
    exact ⟨v, rfl, h⟩

theorem holdsKeyword_finish {found : Option DateFields} (h : fields.dates? = .ok found)
    (hkeys : keys ∈ found) (hne : keys.finish ≠ keys.start) :
    HoldsKeyword endKeywords keys.finish := by
  obtain ⟨exactStart, exactEnd, ends, hfound⟩ := exists_foundBy h
  rcases hfound.finish_cases hkeys with ⟨-, hexact⟩ | ⟨hholds, -⟩ | hsame
  · exact hexact.holdsKeyword
  · exact hholds
  · exact absurd hsame hne

/-- The fields that are found as the start and the end of an object of a document are dates, and
the object is an event between these dates, whatever its array, its file and its index. If the end
is another field than the start, its key holds a keyword of ends. -/
theorem event?_dates (hplain : (Value.object fields).Throughout Value.IsPlain)
    (hkeys : (Value.object fields).dates? = .ok (some keys)) :
    ∃ start finish,
      (∃ v, fields.get? keys.start = some v ∧ v.instant = .ok (some start)) ∧
      (∃ v, fields.get? keys.finish = some v ∧ v.instant = .ok (some finish)) ∧
      (∀ array file index, ∃ e, e.start = start ∧ e.finish = finish ∧
        event? fields array (some keys.start) (some keys.finish) file index = .ok (some e)) ∧
      (keys.finish ≠ keys.start → HoldsKeyword endKeywords keys.finish) := by
  obtain ⟨⟨start, hstart⟩, finish, hfinish⟩ := Value.exists_instants hplain hkeys
  refine ⟨start, finish, exists_get?_of_instant hstart, exists_get?_of_instant hfinish, ?_, ?_⟩
  · intro array file index
    obtain ⟨found, hfound, hdata, -⟩ : Yields
        (event? fields array (some keys.start) (some keys.finish) file index) _ :=
      yields_event hplain ⟨start, hstart⟩ ⟨_, hfinish⟩ index
    obtain ⟨e, rfl, -⟩ := Option.map_eq_some_iff.mp hdata
    obtain ⟨hfirst, last, hlast, hend⟩ := dates_of_event? hfound
    cases hstart.symm.trans hfirst
    cases hfinish.symm.trans hlast
    exact ⟨e, rfl, hend, hfound⟩
  · rw [Value.dates?_eq] at hkeys
    exact holdsKeyword_finish hkeys rfl

/-- A start that only looks like a date and an end that only holds a keyword. -/
theorem event?_dates_lone :
    let fields : Fields := [("label", .text "L"), ("day", .text "2024-01-01"),
      ("theEnd", .int 1704326400000)]
    (Value.object fields).Throughout Value.IsPlain ∧
      (Value.object fields).dates? = .ok (some ⟨"day", "theEnd"⟩) ∧
      HoldsKeyword endKeywords "theEnd" ∧
      ∃ e, e.finish.text = "2024-01-04T00:00:00.000Z" ∧
        event? fields "events" (some "day") (some "theEnd") .null 0 = .ok (some e) := by
  intro fields
  have hplain : (Value.object fields).Throughout Value.IsPlain := by simp [fields, Value.IsPlain]
  have hkeys : (Value.object fields).dates? = .ok (some ⟨"day", "theEnd"⟩) := rfl
  obtain ⟨start, finish, -, ⟨v, hv, hfinish⟩, hevent, hkeyword⟩ := event?_dates hplain hkeys
  obtain ⟨e, -, rfl, he⟩ := hevent "events" .null 0
  refine ⟨hplain, hkeys, hkeyword (by decide), e, ?_, he⟩
  cases hv
  rw [← Option.some.inj (Except.ok.inj hfinish)]
  rfl

end Timeline.Detected
