import Timeline.Proofs.Extraction.Accounts
import Timeline.Proofs.Extraction.Suggested

/-! # Rules that share a result

Rules that write one after another into one result write into it what each of them finds alone,
however the others leave the document. A rule that fails at an item leaves the warnings about the
items before it and one about the failure, but no entities.
-/

namespace Timeline

namespace Extraction

@[simp] theorem append_empty (x : Extraction) : x ++ empty = x := by
  obtain ⟨entities, warnings, journal⟩ := x
  simp [empty, mk_append]

theorem append_assoc (x y z : Extraction) : x ++ y ++ z = x ++ (y ++ z) := by
  obtain ⟨entities, warnings, journal⟩ := x
  obtain ⟨entities', warnings', journal'⟩ := y
  obtain ⟨entities'', warnings'', journal''⟩ := z
  simp [mk_append]

end Extraction

namespace Rule

variable {r : Rule} {file document : Value} {items : List Value} {index : Nat} {f : Failure}

def ruleWarning (r : Rule) (file : Value) (cause : Cause) : Warning :=
  ⟨cause, file, some r.name, none⟩

/-- How a rule leaves a document: the entities and the warnings that it has found. -/
inductive Leaves (r : Rule) (file document : Value) : List Entity → List Warning → Prop
  /-- A path of the rule is malformed. -/
  | malformed {label : String} {path : Value} {problems : List Path.Problem} :
    r.malformedPath? = .ok (some (label, path, problems)) →
    Leaves r file document [] [r.ruleWarning file (.malformed label path problems)]
  /-- There is no array. -/
  | absent {found : Option Value} : r.malformedPath? = .ok none →
    Path.resolveAt document r.array = .ok found → (∀ items, found ≠ some (.list items)) →
    Leaves r file document [] []
  /-- The rule runs through its array. -/
  | complete {items : List Value} {kept skipped : List Nat} {entities : List Entity}
      {warnings : List Warning} : r.Follows file document items →
    r.Accounts file items kept skipped entities warnings →
    Leaves r file document entities warnings
  /-- The rule fails before it has found an array. -/
  | failed {f : Failure} : r.malformedPath? = .error f ∨
      r.malformedPath? = .ok none ∧ Path.resolveAt document r.array = .error f →
    Leaves r file document [] [r.ruleWarning file (.failed f)]
  /-- The rule fails at an item. The entities of the items before are lost. -/
  | midway {before later : List Value} {item : Value} {kept skipped : List Nat}
      {lost : List Entity} {warnings : List Warning} {f : Failure} :
    r.malformedPath? = .ok none →
    Path.resolveAt document r.array = .ok (some (.list (before ++ item :: later))) →
    r.Accounts file before kept skipped lost warnings →
    r.build file item before.length = .error f →
    Leaves r file document [] (warnings ++ [r.ruleWarning file (.failed f)])

/-- A run that fails has found what there is in the items before the one at which it fails. -/
theorem exists_of_failure_collect (h : (r.collect file index items).failure = some f) :
    ∃ before item later, items = before ++ item :: later ∧
      r.build file item (index + before.length) = .error f ∧
      r.collect file index before = ⟨(r.collect file index items).found, none⟩ := by
  induction items generalizing index with
  | nil => cases h
  | cons item rest ih =>
    rw [collect] at h ⊢
    rcases hbuild : r.build file item index with failure | built
    · rw [hbuild] at h
      cases h
      exact ⟨[], item, rest, rfl, hbuild, rfl⟩
    · rw [hbuild] at h
      obtain ⟨before, last, later, rfl, hlast, hbefore⟩ := ih h
      refine ⟨item :: before, last, later, rfl, ?_, ?_⟩
      · rw [List.length_cons, ← hlast]
        congr 1
        omega
      · rw [collect, hbuild]
        dsimp only
        rw [hbefore]

theorem leaves_extractItems (hpaths : r.malformedPath? = .ok none)
    (hitems : Path.resolveAt document r.array = .ok (some (.list items))) :
    r.Leaves file document (r.extractItems file items).entities
      (r.extractItems file items).warnings := by
  unfold extractItems
  dsimp only
  cases hfailure : (r.collect file 0 items).failure with
  | none =>
    obtain ⟨kept, skipped, haccounts⟩ := exists_accounts hfailure
    exact .complete ⟨hpaths, hitems, hfailure⟩ haccounts
  | some f =>
    obtain ⟨before, item, later, rfl, hbuild, hbefore⟩ := exists_of_failure_collect hfailure
    obtain ⟨kept, skipped, haccounts⟩ := exists_accounts (congrArg Run.failure hbefore)
    rw [hbefore] at haccounts
    rw [Nat.zero_add] at hbuild
    exact .midway hpaths hitems haccounts hbuild

theorem leaves_extract : r.Leaves file document (r.extract file document).entities
    (r.extract file document).warnings := by
  unfold extract
  cases hpaths : r.malformedPath? with
  | error f => exact .failed (.inl hpaths)
  | ok malformed =>
    cases malformed with
    | some found => exact .malformed hpaths
    | none =>
      dsimp only
      cases hfound : Path.resolveAt document r.array with
      | error f => exact .failed (.inr ⟨hpaths, hfound⟩)
      | ok found =>
        rcases found with - | v
        · exact .absent hpaths hfound (by simp)
        · cases v with
          | list items => exact leaves_extractItems hpaths hfound
          | _ => exact .absent hpaths hfound (by simp)

theorem itemsInto_eq (passed : Extraction) :
    r.itemsInto file passed items = passed ++ r.extractItems file items := by
  rw [itemsInto, extractItems, tally_eq]
  obtain ⟨⟨entities, warnings, journal⟩, failure⟩ := r.collect file 0 items
  obtain ⟨entities', warnings', journal'⟩ := passed
  cases failure with
  | none => simp [Tally.add, Extraction.mk_append]
  | some failure => exact Extraction.append_assoc _ _ _

theorem extractInto_eq (passed : Extraction) :
    r.extractInto file document passed = passed ++ r.extract file document := by
  unfold extractInto extract
  rcases r.malformedPath? with failure | (- | ⟨label, path, problems⟩)
  · rfl
  · dsimp only
    rcases Path.resolveAt document r.array with failure | (- | v)
    · rfl
    · rfl
    · cases v with
      | list items => exact itemsInto_eq passed
      | _ => rfl
  · rfl

end Rule

namespace Extraction

variable {rules : List Rule} {file document : Value}

/-- Rules that write one after another into a result that is passed in write what they find
alone. -/
theorem foldl_extractInto (passed : Extraction) :
    rules.foldl (fun shared r => r.extractInto file document shared) passed =
      passed ++ concat (rules.map fun r => r.extract file document) := by
  induction rules generalizing passed with
  | nil => exact (append_empty passed).symm
  | cons r rules ih =>
    rw [List.foldl_cons, ih, Rule.extractInto_eq, append_assoc]
    rfl

theorem writtenBy_eq (file document : Value) (rules : List Rule) :
    (writtenBy file document rules).entities = (byRules file document rules).entities ∧
      (writtenBy file document rules).warnings = (byRules file document rules).warnings := by
  rw [writtenBy, foldl_extractInto, byRules]
  constructor
  · exact (List.append_nil _).symm
  · exact (List.append_nil _).symm

/-- If some rule is enabled, a document gives what the enabled rules find in it one by one, in their
order, and nothing of the others. Each of them leaves the document in its own way. Writing one after
another into a shared result, they find the same. -/
theorem ofDocument_isolated (h : ∃ r ∈ rules, r.isEnabled = true) (id document : Value) :
    ∃ found parts, ofDocument id document rules = .ok found ∧
      List.Forall₂ (fun r part => ofDocument id document [r] = .ok part ∧
        r.Leaves (documentName id) document part.entities part.warnings)
        (rules.filter (·.isEnabled)) parts ∧
      found.entities = parts.flatMap (·.entities) ∧
      found.warnings = parts.flatMap (·.warnings) ∧
      let shared := writtenBy (documentName id) document (rules.filter (·.isEnabled))
      shared.entities = found.entities ∧ shared.warnings = found.warnings := by
  obtain ⟨r, hr, henabled⟩ := h
  have hfound := ofDocument_eq hr henabled id document
  refine ⟨_, (rules.filter (·.isEnabled)).map fun r => byRules (documentName id) document [r],
    hfound, ?_, ?_, ?_, writtenBy_eq _ document _⟩
  · rw [List.forall₂_map_right_iff, List.forall₂_same]
    intro r hr
    refine ⟨ofDocument_singleton (List.mem_filter.mp hr).2 id document, ?_⟩
    rw [entities_byRules_singleton, warnings_byRules_singleton]
    exact Rule.leaves_extract
  · simp only [entities_byRules, List.flatMap_map, List.flatMap_singleton]
  · simp only [warnings_byRules, List.flatMap_map, List.flatMap_singleton]

/-- A rule with a malformed path, one without an array, one that fails at the last item, whose code
has no JSON form, one that is not enabled, and one that finds entities. -/
theorem ofDocument_isolated_mixed :
    let rule := fun array id => Rule.preset array array "start" "end" "#1f77b4" "priority" id
    let off := { rule "events" "id" with enabled := .bool false }
    let rules := [rule "events[" "id", rule "tasks" "id", rule "events" "code", off,
      rule "events" "id"]
    let document := Value.object [("events", .list [.object [],
      .object [("start", .text "2024-01-01")],
      .object [("start", .text "2024-01-01"), ("id", .text "E1"), ("code", .list [.set []])]])]
    ∃ (found : Extraction) (parts : List Extraction),
      ofDocument (.text "d.json") document rules = .ok found ∧
      List.Forall₂ (fun r part => r.Leaves (.text "d.json") document part.entities part.warnings)
        (rules.filter (·.isEnabled)) parts ∧
      found.entities = parts.flatMap (·.entities) ∧
      found.entities.map (·.id) = ["events-1", "E1"] ∧
      found.warnings.map (fun w => (w.cause.scope, w.index)) =
        [(.rule, none), (.item, some 0), (.rule, none), (.item, some 0)] := by
  intro rule off rules document
  have henabled : ∃ r ∈ rules, r.isEnabled = true := ⟨_, List.mem_cons_self, rfl⟩
  obtain ⟨found, parts, hfound, hparts, hentities, -, -⟩ :=
    ofDocument_isolated henabled (.text "d.json") document
  have hname : documentName (.text "d.json") = .text "d.json" := by rfl
  rw [hname] at hparts
  refine ⟨found, parts, hfound, hparts.imp fun r part h => h.2, hentities, ?_⟩
  cases hfound
  constructor
  · decide +kernel
  · decide +kernel

end Extraction

end Timeline
