import Timeline.Proofs.Outcome
import Timeline.Proofs.Text.Pieces
import Timeline.Proofs.Time.Iso
import Timeline.Time.Reading

/-! # Instants and their texts

Every instant that a value stands for lies in the calendar. The text of an instant with a year of
four digits stands for the instant at the start of the millisecond, and the text of an earlier one
for none, since its year is not filled up with zeros.
-/

namespace Timeline

namespace Instant

variable {t : Instant}

theorem isInCalendar_of_ofMicros? {n : Int} (h : ofMicros? n = some t) : t.IsInCalendar :=
  (ofMicros?_eq_some_iff.mp h).2

theorem isInCalendar_of_instant? {p : DateParts} (h : p.instant? = some t) : t.IsInCalendar := by
  unfold DateParts.instant? at h
  dsimp only at h
  split_ifs at h
  exact isInCalendar_of_ofMicros? h

theorem isInCalendar_of_plainDate? {cs : List Char} (h : plainDate? cs = some t) :
    t.IsInCalendar := by
  simp only [plainDate?, Option.or_eq_some_iff, Option.bind_eq_some_iff] at h
  rcases h with ⟨p, -, h⟩ | ⟨-, ⟨p, -, h⟩ | ⟨-, p, -, h⟩⟩ <;> exact isInCalendar_of_instant? h

theorem isInCalendar_of_isoInstant? {cs : List Char} (h : isoInstant? cs = some t) :
    t.IsInCalendar := by
  unfold isoInstant? at h
  split_ifs at h
  obtain ⟨m, -, h⟩ := Option.bind_eq_some_iff.mp h
  exact isInCalendar_of_ofMicros? h

theorem isInCalendar_of_millisInstant {cs : List Char} (h : millisInstant cs = .ok (some t)) :
    t.IsInCalendar := by
  unfold millisInstant at h
  split_ifs at h
  · obtain ⟨n, -, h⟩ := bind_eq_ok_iff.mp h
    exact isInCalendar_of_ofMicros? (Except.ok.inj h)
  · cases h

theorem isInCalendar_of_readInstant {s : String} (h : readInstant s = .ok (some t)) :
    t.IsInCalendar := by
  unfold readInstant at h
  dsimp only at h
  split at h
  · rename_i u hiso
    cases h
    exact isInCalendar_of_isoInstant? hiso
  · obtain ⟨found, hmillis, h⟩ := bind_eq_ok_iff.mp h
    cases found with
    | some u =>
      cases h
      exact isInCalendar_of_millisInstant hmillis
    | none => exact isInCalendar_of_plainDate? (Except.ok.inj h)

theorem isInCalendar_of_instant {v : Value} (h : v.instant = .ok (some t)) : t.IsInCalendar := by
  unfold Value.instant at h
  split_ifs at h
  · cases v with
    | moment m =>
      dsimp only at h
      split at h
      · rename_i u hu
        cases h
        exact isInCalendar_of_ofMicros? hu
      · cases h
    | day d => exact isInCalendar_of_ofMicros? (Except.ok.inj h)
    | int n => exact isInCalendar_of_ofMicros? (Except.ok.inj h)
    | float x =>
      have hx := Except.ok.inj h
      split_ifs at hx
      exact isInCalendar_of_ofMicros? hx
    | text s => exact isInCalendar_of_readInstant h
    | _ => cases h
  · cases h

end Instant

section Texts

variable {cs : List Char} {c : Char}

theorem mem_signPart (h : c ∈ cs) (hsign : c ≠ '-' ∧ c ≠ '+') : c ∈ (signPart cs).2 := by
  unfold signPart
  split <;> grind

theorem isIntegerText_eq_false (h : c ∈ cs) (hsign : c ≠ '-' ∧ c ≠ '+')
    (hdigit : Text.isDigit c = false) : isIntegerText cs = false := by
  have hall : (signPart cs).2.all Text.isDigit = false := by
    rw [List.all_eq_false]
    exact ⟨c, mem_signPart h hsign, by simp [hdigit]⟩
  simp [isIntegerText, hall]

theorem digitGroups?_eq_none {separator : Char} (widths : List Nat) (h : c ∈ cs)
    (hc : c ≠ separator) (hdigit : Text.isDigit c = false) :
    digitGroups? separator widths cs = none := by
  obtain ⟨piece, hpiece, hmem⟩ := Text.exists_mem_splitAt h hc
  refine if_neg fun hgroups => ?_
  have hall := List.all_eq_true.mp (List.all_eq_true.mp hgroups.2 piece hpiece) c hmem
  rw [hdigit] at hall
  cases hall

theorem plainDate?_eq_none (h : c ∈ cs) (hc : c ≠ '-' ∧ c ≠ '/')
    (hdigit : Text.isDigit c = false) : plainDate? cs = none := by
  simp [plainDate?, yearFirst?, monthFirst?, digitGroups?_eq_none _ h hc.1 hdigit,
    digitGroups?_eq_none _ h hc.2 hdigit]

theorem readInstant_of_not_integer {s : String}
    (h : isIntegerText (Text.trim s.toList) = false) :
    readInstant s = .ok (((Iso.read? (Text.trim s.toList)).bind (·.toInstant?)).or
      (plainDate? (Text.trim s.toList))) := by
  have hiso : isoInstant? (Text.trim s.toList) =
      (Iso.read? (Text.trim s.toList)).bind (·.toInstant?) := by
    simp [isoInstant?, h]
  have hmillis : millisInstant (Text.trim s.toList) = .ok none := by
    simp [millisInstant, h]
  simp only [readInstant, hiso, hmillis]
  cases (Iso.read? (Text.trim s.toList)).bind (·.toInstant?) <;> rfl

theorem Value.instant_of_trim_ne_nil {s : String} (h : Text.trim s.toList ≠ []) :
    (Value.text s).instant = readInstant s := by
  have htruthy : (Value.text s).truthy = true := by
    have hne : s ≠ "" := by
      rintro rfl
      exact h rfl
    simpa [truthy] using hne
  rw [instant, if_pos htruthy]

end Texts

namespace Instant

variable {t : Instant}

theorem trim_text (t : Instant) : Text.trim t.text.toList = t.text.toList := by
  have hblank : ∀ c ∈ t.text.toList, Text.isBlank c = false := by
    intro c hc
    rcases isDigit_or_mark_of_mem_text hc with hdigit | hmark
    · exact Text.isBlank_of_isDigit hdigit
    · have hall : ∀ c ∈ ['-', 'T', ':', '.', 'Z'], Text.isBlank c = false := by simp [Text.isBlank]
      exact hall c hmark
  exact Text.trim_eq_self (fun c hc => hblank c (List.mem_of_mem_head? hc))
    fun c hc => hblank c (List.mem_of_getLast? hc)

theorem mem_text (t : Instant) : 'T' ∈ t.text.toList := by
  rw [toList_text]
  simp

/-- The text of an instant stands for the start of the millisecond if its year has four digits,
and for no instant otherwise. -/
theorem readInstant_text (h : t.IsInCalendar) :
    readInstant t.text = .ok (if t.year < 1000 then none else some t.wholeMillis) := by
  have hinteger : isIntegerText (Text.trim t.text.toList) = false := by
    rw [trim_text]
    exact isIntegerText_eq_false t.mem_text (by decide) rfl
  rw [readInstant_of_not_integer hinteger, trim_text]
  split_ifs with hyear
  · rw [read?_text_eq_none hyear, plainDate?_eq_none t.mem_text (by decide) rfl]
    rfl
  · have htoInstant : (Moment.ofInstant t.wholeMillis).toInstant? = some t.wholeMillis :=
      h.wholeMillis.toInstant? (by simp [Moment.utcMicros, Moment.ofInstant])
    simp [read?_text (Nat.le_of_not_lt hyear) h, htoInstant]

theorem instant_text (h : t.IsInCalendar) : (Value.text t.text).instant =
    .ok (if t.year < 1000 then none else some t.wholeMillis) := by
  have htrim : Text.trim t.text.toList ≠ [] := by
    rw [trim_text]
    exact List.ne_nil_of_mem t.mem_text
  rw [Value.instant_of_trim_ne_nil htrim, readInstant_text h]

theorem text_wholeMillis (t : Instant) : t.wholeMillis.text = t.text := by
  have hclock := t.clock_wholeMillis
  unfold clock at hclock
  simp [text, hclock, Clock.timeText]

/-- The text of an instant of the years 1000 to 9999 stands for the start of the millisecond, which
has the same text. Two such instants have the same text exactly if they agree up to this start. -/
theorem text_inverse (hfirst : 1000 ≤ t.year) (hlast : t.year ≤ 9999) :
    (Value.text t.text).instant = .ok (some t.wholeMillis) ∧
      (∃ u, (Value.text t.text).instant = .ok (some u) ∧ u.text = t.text) ∧
      ∀ u : Instant, 1000 ≤ u.year → u.year ≤ 9999 →
        (t.text = u.text ↔ t.wholeMillis = u.wholeMillis) := by
  have hreads : ∀ u : Instant, 1000 ≤ u.year → u.year ≤ 9999 →
      (Value.text u.text).instant = .ok (some u.wholeMillis) := by
    intro u hu hu'
    rw [instant_text (isInCalendar_of_year (by omega) hu'), if_neg (by omega)]
  refine ⟨hreads t hfirst hlast, ⟨_, hreads t hfirst hlast, t.text_wholeMillis⟩, ?_⟩
  intro u hu hu'
  constructor
  · intro htext
    have hsame := hreads t hfirst hlast
    rw [htext, hreads u hu hu'] at hsame
    exact (Option.some.inj (Except.ok.inj hsame)).symm
  · intro hwhole
    rw [← t.text_wholeMillis, hwhole, u.text_wholeMillis]

/-- The last microsecond of a leap day. -/
theorem text_inverse_leapDay :
    let t : Instant := ⟨1709251199999999⟩
    (1000 ≤ t.year ∧ t.year ≤ 9999) ∧ t.text = "2024-02-29T23:59:59.999Z" ∧
      (Value.text t.text).instant = .ok (some ⟨1709251199999000⟩) := by
  intro t
  have hyear : 1000 ≤ t.year ∧ t.year ≤ 9999 := by decide
  exact ⟨hyear, by decide, (text_inverse hyear.1 hyear.2).1⟩

end Instant

end Timeline
