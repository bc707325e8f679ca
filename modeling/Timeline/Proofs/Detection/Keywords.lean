import Timeline.Proofs.Detection.Failure

/-! # Keys that are keywords

A key that is a keyword in any case comes before all other keys, and an earlier keyword comes
before a later one. Of the fields whose keys are one keyword only the first is looked at. So the
best key is found unless an earlier field with the same key in lower case, which is no date, hides
it.
-/

namespace Timeline

theorem Text.occursIn_self (cs : List Char) : occursIn cs cs = true := by
  cases cs with
  | nil => rfl
  | cons c cs => simp [occursIn]

namespace Fields

variable {fields : Fields} {keyword key : String} {keywords : List String} {v : Value}

/-- The key of a field with a date is a keyword in any case. -/
def Spells (fields : Fields) (keyword key : String) : Prop :=
  Text.lower key = Text.lower keyword ∧ fields.HasDate key

/-- Some field with a date has a key that is one of some keywords. -/
def IsSpelled (fields : Fields) (keywords : List String) : Prop :=
  ∃ keyword ∈ keywords, ∃ key, fields.Spells keyword key

/-- A key is the first one of some keywords for which there is a field with a date. -/
inductive IsBest (fields : Fields) : List String → String → Prop
  | here {keyword key : String} {keywords : List String} :
    fields.Spells keyword key → IsBest fields (keyword :: keywords) key
  | later {keyword key : String} {keywords : List String} :
    (∀ other, ¬fields.Spells keyword other) → IsBest fields keywords key →
    IsBest fields (keyword :: keywords) key

/-- For the first one of some keywords for which there is a field with a date, the first field in
order is another one, which is no date. -/
inductive IsHidden (fields : Fields) : List String → Prop
  | here {keyword key first : String} {v : Value} {keywords : List String} :
    fields.Spells keyword key → likeKeyword? fields keyword = some (first, v) →
    v.instant = .ok none → IsHidden fields (keyword :: keywords)
  | later {keyword : String} {keywords : List String} :
    (∀ key, ¬fields.Spells keyword key) → IsHidden fields keywords →
    IsHidden fields (keyword :: keywords)

theorem isSpelled_cons_iff :
    fields.IsSpelled (keyword :: keywords) ↔
      (∃ key, fields.Spells keyword key) ∨ fields.IsSpelled keywords := by
  simp [IsSpelled]

theorem isBest_cons_iff (h : ∀ key, ¬fields.Spells keyword key) :
    fields.IsBest (keyword :: keywords) key ↔ fields.IsBest keywords key := by
  constructor
  · intro hbest
    cases hbest with
    | here hspells => exact absurd hspells (h _)
    | later _ hbest => exact hbest
  · exact .later h

theorem isHidden_cons_iff (h : ∀ key, ¬fields.Spells keyword key) :
    fields.IsHidden (keyword :: keywords) ↔ fields.IsHidden keywords := by
  constructor
  · intro hhidden
    cases hhidden with
    | here hspells => exact absurd hspells (h _)
    | later _ hhidden => exact hhidden
  · exact .later h

theorem lower_eq_of_likeKeyword? (h : likeKeyword? fields keyword = some (key, v)) :
    Text.lower key = Text.lower keyword := by
  unfold likeKeyword? at h
  have hlower := List.find?_some h
  rwa [decide_eq_true_iff] at hlower

theorem spells_of_likeKeyword? (h : likeKeyword? fields keyword = some (key, v))
    (hv : ∃ t, v.instant = .ok (some t)) : fields.Spells keyword key :=
  ⟨lower_eq_of_likeKeyword? h, .of_instant (List.mem_of_find?_eq_some h) hv⟩

theorem not_spells_of_likeKeyword? (h : likeKeyword? fields keyword = none) (key : String) :
    ¬fields.Spells keyword key := by
  rintro ⟨hlower, v, -, hv, -⟩
  exact List.find?_eq_none.mp h _ hv (decide_eq_true hlower)

theorem likeKeyword?_congr {other : String} (h : Text.lower keyword = Text.lower other) :
    likeKeyword? fields keyword = likeKeyword? fields other := by
  rw [likeKeyword?, likeKeyword?, h]

theorem not_isHidden (h : (fields.map (Text.lower ·.1)).Nodup) (keywords : List String) :
    ¬fields.IsHidden keywords := by
  intro hhidden
  induction hhidden with
  | later _ _ ih => exact ih
  | here hspells hlike hnone =>
    obtain ⟨hlower, w, t, hw, ht⟩ := hspells
    have hsame := List.inj_on_of_nodup_map h hw (List.mem_of_find?_eq_some hlike)
      (hlower.trans (lower_eq_of_likeKeyword? hlike).symm)
    cases hsame
    cases hnone.symm.trans ht

/-- Exact matching finds the best key if there is one and it is not hidden, and only then. -/
theorem isBest_exactMatch_iff {found : Option String} (h : exactMatch? fields keywords = .ok found) :
    (∃ key ∈ found, fields.IsBest keywords key) ↔
      fields.IsSpelled keywords ∧ ¬fields.IsHidden keywords := by
  induction keywords with
  | nil =>
    cases h
    simp [IsSpelled]
  | cons keyword rest ih =>
    have hnot (hnone : ∀ key, ¬fields.Spells keyword key)
        (hrest : exactMatch? fields rest = .ok found) :
        (∃ key ∈ found, fields.IsBest (keyword :: rest) key) ↔
          fields.IsSpelled (keyword :: rest) ∧ ¬fields.IsHidden (keyword :: rest) := by
      simp only [isBest_cons_iff hnone, isHidden_cons_iff hnone, isSpelled_cons_iff, hnone,
        exists_false, false_or, ih hrest]
    unfold exactMatch? at h
    cases hlike : likeKeyword? fields keyword with
    | none =>
      rw [hlike] at h
      exact hnot (not_spells_of_likeKeyword? hlike) h
    | some f =>
      obtain ⟨first, v⟩ := f
      rw [hlike] at h
      obtain ⟨t, ht, h⟩ := bind_eq_ok_iff.mp h
      cases t with
      | some t =>
        cases h
        have hfirst := spells_of_likeKeyword? hlike ⟨t, ht⟩
        refine iff_of_true ⟨first, rfl, .here hfirst⟩ ⟨?_, ?_⟩
        · exact isSpelled_cons_iff.mpr (.inl ⟨first, hfirst⟩)
        · intro hhidden
          cases hhidden with
          | here _ hother hnone =>
            cases hlike.symm.trans hother
            cases ht.symm.trans hnone
          | later hnone _ => exact hnone _ hfirst
      | none =>
        by_cases hspelled : ∃ key, fields.Spells keyword key
        · -- a later keyword cannot make up for it: another one in the same case has the same field
          obtain ⟨key, hkey⟩ := hspelled
          refine iff_of_false ?_ fun hall => hall.2 (.here hkey hlike ht)
          rintro ⟨later, hfound, hbest⟩
          cases hbest with
          | later hnone _ => exact hnone _ hkey
          | here hlater =>
            obtain ⟨other, -, w, u, hother, hu⟩ :=
              (meets_exactMatch False.elim rest).sound _ h later hfound
            have hsame := (lower_eq_of_likeKeyword? hother).symm.trans hlater.1
            rw [likeKeyword?_congr hsame, hlike] at hother
            cases hother
            cases ht.symm.trans hu
        · exact hnot (not_exists.mp hspelled) h

theorem IsBest.exists_lower_eq (h : fields.IsBest keywords key) :
    ∃ keyword ∈ keywords, Text.lower key = Text.lower keyword := by
  induction h with
  | here hspells => exact ⟨_, List.mem_cons_self, hspells.1⟩
  | later _ _ ih => exact ih.imp fun _ hk => hk.imp_left (List.mem_cons_of_mem _)

theorem IsExact.exists_lower_eq (h : fields.IsExact keywords key) :
    ∃ keyword ∈ keywords, Text.lower key = Text.lower keyword := by
  obtain ⟨keyword, hkeyword, _, _, hlike, -⟩ := h
  exact ⟨keyword, hkeyword, lower_eq_of_likeKeyword? hlike⟩

theorem IsExact.holdsKeyword (h : fields.IsExact keywords key) : HoldsKeyword keywords key := by
  obtain ⟨keyword, hkeyword, hlower⟩ := h.exists_lower_eq
  exact ⟨keyword, hkeyword, hlower ▸ Text.occursIn_self _⟩

theorem lower_startKeywords_ne :
    ∀ keyword ∈ startKeywords, ∀ other ∈ endKeywords, Text.lower keyword ≠ Text.lower other := by
  decide +kernel

variable {found : Option DateFields} {exactStart exactEnd : Option String} {ends : List String}
  {keys : DateFields}

theorem FoundBy.looksDated_start (h : FoundBy fields found exactStart exactEnd ends)
    (hhidden : fields.IsHidden startKeywords) (hkeys : keys ∈ found)
    (hbest : fields.IsBest startKeywords keys.start) : fields.LooksDated keys.start := by
  rcases h.start_cases hkeys with ⟨hexact, -⟩ | ⟨-, hlooks⟩
  · exact absurd hhidden ((isBest_exactMatch_iff h.exact_start).mp ⟨_, hexact, hbest⟩).2
  · exact hlooks

theorem FoundBy.looksDated_finish (h : FoundBy fields found exactStart exactEnd ends)
    (hhidden : fields.IsHidden endKeywords) (hkeys : keys ∈ found)
    (hbest : fields.IsBest endKeywords keys.finish) : fields.LooksDated keys.finish := by
  rcases h.finish_cases hkeys with ⟨hexact, -⟩ | ⟨-, hlooks⟩ | hsame
  · exact absurd hhidden ((isBest_exactMatch_iff h.exact_end).mp ⟨_, hexact, hbest⟩).2
  · exact hlooks
  · rw [hsame] at hbest ⊢
    rcases h.start_cases hkeys with ⟨-, hexact⟩ | ⟨-, hlooks⟩
    · -- no keyword is one of both kinds
      obtain ⟨keyword, hkeyword, hstart⟩ := hexact.exists_lower_eq
      obtain ⟨other, hother, hend⟩ := hbest.exists_lower_eq
      exact absurd (hstart.symm.trans hend) (lower_startKeywords_ne keyword hkeyword other hother)
    · exact hlooks

end Fields

namespace Value

open Fields

/-- The best keys with dates are found as the start and the end of an object, unless they are
hidden. A hidden one is only found if it looks like a date. -/
theorem dates?_best {v : Value} {found : Option DateFields} (h : v.dates? = .ok found) :
    (v.fields.IsSpelled startKeywords → ¬v.fields.IsHidden startKeywords →
        ∃ keys ∈ found, v.fields.IsBest startKeywords keys.start) ∧
      (v.fields.IsSpelled endKeywords → ¬v.fields.IsHidden endKeywords →
        ∀ keys ∈ found, v.fields.IsBest endKeywords keys.finish) ∧
      (v.fields.IsHidden startKeywords → ∀ keys ∈ found,
        v.fields.IsBest startKeywords keys.start → v.fields.LooksDated keys.start) ∧
      (v.fields.IsHidden endKeywords → ∀ keys ∈ found,
        v.fields.IsBest endKeywords keys.finish → v.fields.LooksDated keys.finish) := by
  rw [dates?_eq] at h
  obtain ⟨exactStart, exactEnd, ends, hfound⟩ := exists_foundBy h
  refine ⟨fun hspelled hshown => ?_, fun hspelled hshown keys hkeys => ?_,
    fun hhidden keys => hfound.looksDated_start hhidden,
    fun hhidden keys => hfound.looksDated_finish hhidden⟩
  · obtain ⟨key, hkey, hbest⟩ :=
      (isBest_exactMatch_iff hfound.exact_start).mpr ⟨hspelled, hshown⟩
    obtain ⟨keys, hkeys, rfl⟩ := hfound.start_eq key hkey
    exact ⟨keys, hkeys, hbest⟩
  · obtain ⟨key, rfl, hbest⟩ := (isBest_exactMatch_iff hfound.exact_end).mpr ⟨hspelled, hshown⟩
    rw [hfound.finish_eq keys hkeys]
    exact hbest

/-- An earlier field of a later keyword, and an end in capitals. -/
theorem dates?_best_capitals :
    let item := object [("created", .text "2024-03-01"), ("Start", .text "2024-01-01"),
      ("DUEDATE", .text "01-31-2024")]
    item.dates? = .ok (some ⟨"Start", "DUEDATE"⟩) ∧
      item.fields.IsBest startKeywords "Start" ∧ item.fields.IsBest endKeywords "DUEDATE" := by
  intro item
  have hdates : item.dates? = .ok (some ⟨"Start", "DUEDATE"⟩) := rfl
  have hdistinct : (item.fields.map (Text.lower ·.1)).Nodup := by decide +kernel
  have hstart : item.fields.IsSpelled startKeywords :=
    ⟨"start", by decide, "Start", by decide +kernel, .text "2024-01-01", _,
      by simp [item, fields], rfl⟩
  have hend : item.fields.IsSpelled endKeywords :=
    ⟨"dueDate", by decide, "DUEDATE", by decide +kernel, .text "01-31-2024", _,
      by simp [item, fields], rfl⟩
  obtain ⟨hbestStart, hbestEnd, -⟩ := dates?_best hdates
  obtain ⟨_, ⟨⟩, hbest⟩ := hbestStart hstart (not_isHidden hdistinct _)
  exact ⟨hdates, hbest, hbestEnd hend (not_isHidden hdistinct _) _ rfl⟩

/-- A start that is hidden and does not look like a date: the object has no dates at all. -/
theorem dates?_best_hidden :
    let item := object [("Start", .text "TBD"), ("start", .text "03-15-2024")]
    item.fields.IsSpelled startKeywords ∧ item.dates? = .ok none :=
  ⟨⟨"start", by decide, "start", rfl, .text "03-15-2024", _,
    List.mem_cons_of_mem _ List.mem_cons_self, rfl⟩, rfl⟩

end Value

end Timeline
