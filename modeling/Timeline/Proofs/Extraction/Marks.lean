import Timeline.Extraction.Document
import Timeline.Proofs.Detected.Event
import Timeline.Proofs.Extraction.Items

/-! # What entities and warnings are marked with

An entity that a rule finds in a document names the file of the document and the rule. Without an
enabled rule its array is named by a path. Warnings name the file too, but are about its rules and
items, not about the file itself.
-/

namespace Timeline

/-- A warning names a file and is about a rule or an item, not about the file. -/
structure Warning.IsInside (source : Value) (w : Warning) : Prop where
  file : w.file = source
  scope : w.cause.scope ≠ .file

namespace Rule

variable {r : Rule} {file item document : Value} {e : Entity}

theorem exists_build_of_mem_collect {index : Nat} {items : List Value}
    (he : e ∈ (r.collect file index items).found.entities) :
    ∃ item index, r.build file item index = .ok (.ok e) := by
  induction items generalizing index with
  | nil => cases he
  | cons item rest ih =>
    unfold collect at he
    split at he
    · cases he
    · rename_i built hbuilt
      rcases List.mem_append.mp he with he | he
      · cases built with
        | error reason => cases he
        | ok e' =>
          obtain rfl := List.mem_singleton.mp he
          exact ⟨item, index, hbuilt⟩
      · exact ih he

theorem exists_build_of_mem_extract (he : e ∈ (r.extract file document).entities) :
    ∃ item index, r.build file item index = .ok (.ok e) := by
  unfold extract at he
  split at he
  · cases he
  · cases he
  · split at he
    · cases he
    · unfold extractItems at he
      dsimp only at he
      split at he
      · exact exists_build_of_mem_collect he
      · cases he
    · cases he

theorem marks_of_mem_extract (he : e ∈ (r.extract file document).entities) : r.Marks file e := by
  obtain ⟨item, index, hbuild⟩ := exists_build_of_mem_extract he
  exact marks_of_build hbuild

theorem about_item_of_mem_collect {index : Nat} {items : List Value} {w : Warning}
    (hw : w ∈ (r.collect file index items).found.warnings) :
    w.file = file ∧ w.cause.scope = .item := by
  induction items generalizing index with
  | nil => cases hw
  | cons item rest ih =>
    unfold collect at hw
    split at hw
    · cases hw
    · rename_i built _
      rcases List.mem_append.mp hw with hw | hw
      · cases built with
        | ok e => cases hw
        | error reason =>
          obtain rfl := List.mem_singleton.mp hw
          exact ⟨rfl, rfl⟩
      · exact ih hw

theorem mem_warnings_extractItems {items : List Value} {w : Warning}
    (hw : w ∈ (r.extractItems file items).warnings) :
    w ∈ (r.collect file 0 items).found.warnings ∨ ∃ f, w = ⟨.failed f, file, some r.name, none⟩ := by
  unfold extractItems at hw
  dsimp only at hw
  split at hw
  · exact .inl hw
  · rename_i f _
    rcases List.mem_append.mp hw with hw | hw
    · exact .inl hw
    · exact .inr ⟨f, List.mem_singleton.mp hw⟩

theorem isInside_of_mem_extractItems {items : List Value} {w : Warning}
    (hw : w ∈ (r.extractItems file items).warnings) : w.IsInside file := by
  rcases mem_warnings_extractItems hw with hw | ⟨f, rfl⟩
  · obtain ⟨hfile, hscope⟩ := about_item_of_mem_collect hw
    exact ⟨hfile, by simp [hscope]⟩
  · exact ⟨rfl, Scope.noConfusion⟩

theorem isInside_of_mem_extract {w : Warning} (hw : w ∈ (r.extract file document).warnings) :
    w.IsInside file := by
  unfold extract at hw
  split at hw
  · obtain rfl := List.mem_singleton.mp hw
    exact ⟨rfl, Scope.noConfusion⟩
  · obtain rfl := List.mem_singleton.mp hw
    exact ⟨rfl, Scope.noConfusion⟩
  · split at hw
    · obtain rfl := List.mem_singleton.mp hw
      exact ⟨rfl, Scope.noConfusion⟩
    · exact isInside_of_mem_extractItems hw
    · cases hw

end Rule

namespace Extraction

variable {rules : List Rule} {file document : Value} {found : Extraction} {e : Entity}

@[simp] theorem entities_append (x y : Extraction) :
    (x ++ y).entities = x.entities ++ y.entities := rfl

@[simp] theorem warnings_append (x y : Extraction) :
    (x ++ y).warnings = x.warnings ++ y.warnings := rfl

@[simp] theorem journal_append (x y : Extraction) :
    (x ++ y).journal = x.journal ++ y.journal := rfl

@[simp] theorem outcome_journaled (x : Except Failure Extraction) : (journaled x).outcome = x := by
  cases x <;> rfl

theorem entities_concat (xs : List Extraction) :
    (concat xs).entities = xs.flatMap (·.entities) := by
  induction xs with
  | nil => rfl
  | cons x xs ih => exact congrArg (x.entities ++ ·) ih

theorem warnings_concat (xs : List Extraction) :
    (concat xs).warnings = xs.flatMap (·.warnings) := by
  induction xs with
  | nil => rfl
  | cons x xs ih => exact congrArg (x.warnings ++ ·) ih

theorem mem_entities_concat {xs : List Extraction} :
    e ∈ (concat xs).entities ↔ ∃ x ∈ xs, e ∈ x.entities := by
  rw [entities_concat, List.mem_flatMap]

theorem ofDocument_eq {r : Rule} (hr : r ∈ rules) (henabled : r.isEnabled = true)
    (id document : Value) : ofDocument id document rules =
      .ok (byRules (documentName id) document (rules.filter (·.isEnabled))) := by
  unfold ofDocument
  dsimp only
  split
  · rename_i hnone
    have hmem : r ∈ rules.filter (·.isEnabled) := List.mem_filter.mpr ⟨hr, henabled⟩
    rw [hnone] at hmem
    cases hmem
  · rfl

theorem exists_ofDocument {r : Rule} (hr : r ∈ rules) (henabled : r.isEnabled = true)
    (id document : Value) :
    ∃ x, ofDocument id document rules = .ok x :=
  ⟨_, ofDocument_eq hr henabled id document⟩

theorem entities_byRules (file document : Value) (rules : List Rule) :
    (byRules file document rules).entities =
      rules.flatMap fun r => (r.extract file document).entities := by
  rw [byRules, entities_append, entities_concat, List.flatMap_map]
  exact List.append_nil _

theorem warnings_byRules (file document : Value) (rules : List Rule) :
    (byRules file document rules).warnings =
      rules.flatMap fun r => (r.extract file document).warnings := by
  rw [byRules, warnings_append, warnings_concat, List.flatMap_map]
  exact List.append_nil _

theorem exists_build_of_mem_ofDocument (h : ofDocument file document rules = .ok found)
    (he : e ∈ found.entities) :
    (∃ r ∈ rules, r.isEnabled = true ∧
        ∃ item index, r.build (documentName file) item index = .ok (.ok e)) ∨
      (∀ r ∈ rules, r.isEnabled = false) ∧ Detected.IsFound (documentName file) e := by
  unfold ofDocument at h
  dsimp only at h
  split at h
  · rename_i hnone
    obtain ⟨events, hevents, h⟩ := bind_eq_ok_iff.mp h
    cases h
    refine .inr ⟨?_, ?_⟩
    · intro r hr
      simpa using List.filter_eq_nil_iff.mp hnone r hr
    · rcases List.mem_append.mp he with he | he
      · exact Detected.isFound_of_mem_inDocument hevents he
      · cases he
  · cases h
    rcases List.mem_append.mp he with he | he
    · obtain ⟨x, hx, he⟩ := mem_entities_concat.mp he
      obtain ⟨r, hr, rfl⟩ := List.mem_map.mp hx
      obtain ⟨hr, henabled⟩ := List.mem_filter.mp hr
      exact .inl ⟨r, hr, henabled, Rule.exists_build_of_mem_extract he⟩
    · cases he

theorem isInside_of_mem_ofDocument (h : ofDocument file document rules = .ok found) {w : Warning}
    (hw : w ∈ found.warnings) : w.IsInside (documentName file) := by
  unfold ofDocument at h
  dsimp only at h
  split at h
  · obtain ⟨events, -, h⟩ := bind_eq_ok_iff.mp h
    cases h
    cases hw
  · cases h
    rcases List.mem_append.mp hw with hw | hw
    · rw [warnings_concat] at hw
      obtain ⟨x, hx, hw⟩ := List.mem_flatMap.mp hw
      obtain ⟨r, -, rfl⟩ := List.mem_map.mp hx
      exact Rule.isInside_of_mem_extract hw
    · cases hw

theorem marks_of_mem_ofDocument (h : ofDocument file document rules = .ok found)
    (he : e ∈ found.entities) :
    (∃ r ∈ rules, r.isEnabled = true ∧ r.Marks (documentName file) e) ∨
      (∀ r ∈ rules, r.isEnabled = false) ∧ Detected.ComesFrom (documentName file) e := by
  rcases exists_build_of_mem_ofDocument h he with ⟨r, hr, henabled, item, index, hbuild⟩ | hdetected
  · exact .inl ⟨r, hr, henabled, Rule.marks_of_build hbuild⟩
  · exact .inr ⟨hdetected.1, hdetected.2.comesFrom⟩

end Extraction

end Timeline
