import Timeline.Proofs.Extraction.Marks
import Timeline.Proofs.Path.Style
import Timeline.Rule.Validity

/-! # Notes on the paths of rules

The notes name every path of a rule that has a style problem, with the first one. A path with a
structure problem has a style problem, so there is a note on every rule that extraction skips.
-/

namespace Timeline.Rule

variable {r : Rule} {rules : List Rule} {file document path : Value} {label note : String}
  {problems : List Path.Problem} {notes : List String}

/-- The paths of a rule that are looked at, with their labels. -/
def labelledPaths (r : Rule) : List (String × Value) :=
  [("array path", r.array), ("start date path", r.start), ("end date path", r.finish)]

/-- The indices of the paths of a rule have no more digits than are read. -/
def HasShortPaths (r : Rule) : Prop :=
  ∀ p ∈ r.labelledPaths, ∀ s, p.2 = .text s → Path.HasShortIndices s

/-- A note is about a path of a rule: it tells its first style problem. -/
structure IsNoteOn (r : Rule) (label : String) (path : Value) (problem : Path.Problem)
    (note : String) : Prop where
  first : ∃ rest, Path.styleProblems path = .ok (problem :: rest)
  text : note = r.noteText label path problem

theorem exists_styleProblems (h : ∀ s, path = .text s → Path.HasShortIndices s) :
    ∃ problems, Path.styleProblems path = .ok problems := by
  cases path with
  | text s => exact (h s rfl).exists_styleProblems
  | _ => exact ⟨_, rfl⟩

theorem exists_pathNote (label : String) (h : ∀ s, path = .text s → Path.HasShortIndices s) :
    ∃ notes, r.pathNote label path = .ok notes ∧
      ∀ note, note ∈ notes ↔ ∃ problem, r.IsNoteOn label path problem note := by
  obtain ⟨problems, hproblems⟩ := exists_styleProblems h
  rw [pathNote, hproblems, ok_bind]
  cases problems with
  | nil =>
    refine ⟨[], rfl, fun note => iff_of_false List.not_mem_nil ?_⟩
    rintro ⟨problem, ⟨rest, hrest⟩, -⟩
    cases hproblems.symm.trans hrest
  | cons first rest =>
    refine ⟨[r.noteText label path first], rfl, fun note => ?_⟩
    rw [List.mem_singleton]
    constructor
    · rintro rfl
      exact ⟨first, ⟨rest, hproblems⟩, rfl⟩
    · rintro ⟨problem, ⟨others, hothers⟩, htext⟩
      cases hproblems.symm.trans hothers
      exact htext

theorem HasShortPaths.exists_notes (h : r.HasShortPaths) :
    ∃ notes, r.notes = .ok notes ∧ ∀ note, note ∈ notes ↔
      ∃ p ∈ r.labelledPaths, ∃ problem, r.IsNoteOn p.1 p.2 problem note := by
  simp only [HasShortPaths, labelledPaths, List.forall_mem_cons] at h
  obtain ⟨harray, hstart, hfinish, -⟩ := h
  obtain ⟨onArray, hArray, hmemArray⟩ := exists_pathNote (r := r) "array path" harray
  obtain ⟨onStart, hStart, hmemStart⟩ := exists_pathNote (r := r) "start date path" hstart
  obtain ⟨onFinish, hFinish, hmemFinish⟩ := exists_pathNote (r := r) "end date path" hfinish
  refine ⟨onArray ++ onStart ++ onFinish, ?_, fun note => ?_⟩
  · rw [Rule.notes, hArray, hStart, hFinish]
    rfl
  · simp [labelledPaths, hmemArray, hmemStart, hmemFinish]

theorem exists_allNotes (h : ∀ r ∈ rules, r.HasShortPaths) :
    ∃ notes, allNotes rules = .ok notes ∧ ∀ note, note ∈ notes ↔
      ∃ r ∈ rules, ∃ p ∈ r.labelledPaths, ∃ problem, r.IsNoteOn p.1 p.2 problem note := by
  induction rules with
  | nil => exact ⟨[], rfl, by simp⟩
  | cons r rules ih =>
    obtain ⟨hr, hrules⟩ := List.forall_mem_cons.mp h
    obtain ⟨first, hfirst, hmemFirst⟩ := hr.exists_notes
    obtain ⟨rest, hrest, hmemRest⟩ := ih hrules
    refine ⟨first ++ rest, by rw [allNotes, hfirst, hrest]; rfl, fun note => ?_⟩
    rw [List.mem_append, hmemFirst, hmemRest, List.exists_mem_cons_iff]

/-- Extraction from a document skips a rule with a warning about one of its paths. -/
def IsSkipped (r : Rule) (file document : Value) (label : String) (path : Value) : Prop :=
  (r.extract file document).entities = [] ∧
    ∃ w ∈ (r.extract file document).warnings, ∃ problems, w.cause = .malformed label path problems

theorem malformedPath?_eq_some (h : r.malformedPath? = .ok (some (label, path, problems))) :
    (label, path) ∈ r.labelledPaths ∧ problems ≠ [] ∧
      Path.structureProblems path = .ok problems := by
  unfold malformedPath? at h
  obtain ⟨onArray, hArray, h⟩ := bind_eq_ok_iff.mp h
  split at h
  · obtain ⟨onStart, hStart, h⟩ := bind_eq_ok_iff.mp h
    split at h
    · cases h
    · rename_i hne
      cases h
      exact ⟨by simp [labelledPaths], hne, hStart⟩
  · rename_i hne
    cases h
    exact ⟨by simp [labelledPaths], hne, hArray⟩

theorem malformedPath?_of_mem_extract {w : Warning}
    (hw : w ∈ (r.extract file document).warnings)
    (hcause : w.cause = .malformed label path problems) :
    r.malformedPath? = .ok (some (label, path, problems)) := by
  unfold extract at hw
  split at hw
  · obtain rfl := List.mem_singleton.mp hw
    cases hcause
  · rename_i hpaths
    obtain rfl := List.mem_singleton.mp hw
    cases hcause
    exact hpaths
  · split at hw
    · obtain rfl := List.mem_singleton.mp hw
      cases hcause
    · rcases mem_warnings_extractItems hw with hw | ⟨f, rfl⟩
      · have hscope := (about_item_of_mem_collect hw).2
        rw [hcause] at hscope
        cases hscope
      · cases hcause
    · cases hw

theorem IsSkipped.malformed (h : r.IsSkipped file document label path) :
    (label, path) ∈ r.labelledPaths ∧
      ∃ problems, problems ≠ [] ∧ Path.structureProblems path = .ok problems := by
  obtain ⟨-, w, hw, problems, hcause⟩ := h
  obtain ⟨hmem, hne, hproblems⟩ := malformedPath?_eq_some (malformedPath?_of_mem_extract hw hcause)
  exact ⟨hmem, problems, hne, hproblems⟩

/-- A path with short indices that has no style problem has no structure problem either. On rules
whose paths have short indices there are notes, and if extraction skips one of them because of a
path, a note tells the first style problem of this path. -/
theorem allNotes_mention :
    (∀ path, Path.HasShortIndices path → ∃ style found,
        Path.styleProblems (.text path) = .ok style ∧
        Path.structureProblems (.text path) = .ok found ∧ (style = [] → found = [])) ∧
      ∀ rules : List Rule, (∀ r ∈ rules, r.HasShortPaths) →
        ∃ notes, allNotes rules = .ok notes ∧
          ∀ r ∈ rules, ∀ file document label path, r.IsSkipped file document label path →
            ∃ note ∈ notes, ∃ problem, r.IsNoteOn label path problem note := by
  constructor
  · intro path hshort
    obtain ⟨style, hstyle⟩ := hshort.exists_styleProblems
    obtain ⟨found, hfound⟩ := hshort.exists_structureProblems
    refine ⟨style, found, hstyle, hfound, ?_⟩
    rintro rfl
    have hnone := Path.structureProblems_of_styleProblems hstyle
    exact Except.ok.inj (hfound.symm.trans hnone)
  · intro rules hshort
    obtain ⟨notes, hnotes, hmem⟩ := exists_allNotes hshort
    refine ⟨notes, hnotes, fun r hr file document label path hskipped => ?_⟩
    obtain ⟨hpath, problems, hne, hproblems⟩ := hskipped.malformed
    obtain ⟨style, hstyle⟩ := exists_styleProblems (hshort r hr _ hpath)
    cases style with
    | nil =>
      have hnone := Path.structureProblems_of_styleProblems hstyle
      exact absurd (Except.ok.inj (hproblems.symm.trans hnone)) hne
    | cons problem rest =>
      have hnote : r.IsNoteOn label path problem (r.noteText label path problem) :=
        ⟨⟨rest, hstyle⟩, rfl⟩
      exact ⟨_, (hmem _).mpr ⟨r, hr, _, hpath, problem, hnote⟩, problem, hnote⟩

/-- An array path with a letter as an index. -/
theorem allNotes_mention_letter :
    let r := preset "events" "data.events[x]" "start" "end" "#1f77b4" "priority" "id"
    (∀ s ∈ [r], s.HasShortPaths) ∧
      r.IsSkipped (.text "d.json") .null "array path" (.text "data.events[x]") ∧
      ∃ notes, allNotes [r] = .ok notes ∧
        "events: array path 'data.events[x]': Invalid array access 'events[x]'; use name[index] " ++
          "with a non-negative integer" ∈ notes := by
  intro r
  have hpath : Path.styleProblems (.text "data.events[x]") =
      .ok [.malformedIndex "events[x]"] := by rfl
  have hshort : ∀ s ∈ [r], s.HasShortPaths := by
    refine List.forall_mem_singleton.mpr ?_
    simp only [HasShortPaths, labelledPaths, List.forall_mem_cons]
    refine ⟨?_, ?_, ?_, List.forall_mem_nil _⟩ <;> rintro s ⟨⟩ <;> decide +kernel
  have hskipped : r.IsSkipped (.text "d.json") .null "array path" (.text "data.events[x]") :=
    ⟨rfl, _, List.mem_singleton_self _, _, rfl⟩
  obtain ⟨notes, hnotes, hmention⟩ := allNotes_mention.2 [r] hshort
  obtain ⟨note, hmem, problem, ⟨rest, hfirst⟩, htext⟩ :=
    hmention r List.mem_cons_self _ _ _ _ hskipped
  cases hpath.symm.trans hfirst
  have hnote : note = "events: array path 'data.events[x]': Invalid array access 'events[x]'; " ++
      "use name[index] with a non-negative integer" := htext.trans (by decide +kernel)
  exact ⟨hshort, hskipped, notes, hnotes, hnote ▸ hmem⟩

end Timeline.Rule
