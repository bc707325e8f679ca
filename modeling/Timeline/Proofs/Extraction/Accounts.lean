import Timeline.Extraction.Shared
import Timeline.Proofs.Extraction.Identity

/-! # Accounts of arrays

A run through an array that does not fail accounts for each item once: items with a start have an
entity, and the others a warning, both in their order. What has been found before the run is kept.
-/

namespace Timeline

theorem Extraction.mk_append (es es' : List Entity) (ws ws' : List Warning) (js js' : List Entry) :
    (⟨es, ws, js⟩ : Extraction) ++ ⟨es', ws', js'⟩ = ⟨es ++ es', ws ++ ws', js ++ js'⟩ :=
  rfl

namespace Rule

variable {r : Rule} {file item : Value} {items : List Value} {index : Nat} {e : Entity}

/-- An item without a start, and why it has none. -/
inductive Lacks (r : Rule) (item : Value) : Skipped → Prop
  | absent : Path.resolveAt item r.start = .ok none → Lacks r item (.absent r.start)
  | noDate {v : Value} : Path.resolveAt item r.start = .ok (some v) → v.instant = .ok none →
    Lacks r item (.noDate v)

def skipWarning (r : Rule) (file : Value) (index : Nat) (reason : Skipped) : Warning :=
  ⟨.skipped reason, file, some r.name, some index⟩

/-- An entity of an item at a place: it names the file and the rule, holds the item, and has the
identity that the item gives itself, or else that of the place. -/
structure Keeps (r : Rule) (file : Value) (items : List Value) (index : Nat) (e : Entity) :
    Prop where
  marks : r.Marks file e
  holds : ∃ item, items[index]? = some item ∧ r.Holds item index e ∧
    e.id = (r.ownId? item).getD (r.placeId index)

def Skips (r : Rule) (file : Value) (items : List Value) (index : Nat) (w : Warning) : Prop :=
  ∃ item reason, items[index]? = some item ∧ r.Lacks item reason ∧
    w = r.skipWarning file index reason

/-- The places of an array are divided between its entities and its warnings. -/
structure Accounts (r : Rule) (file : Value) (items : List Value) (kept skipped : List Nat)
    (entities : List Entity) (warnings : List Warning) : Prop where
  kept_lt : kept.Pairwise (· < ·)
  skipped_lt : skipped.Pairwise (· < ·)
  places : (kept ++ skipped).Perm (List.range items.length)
  entities : List.Forall₂ (r.Keeps file items) kept entities
  warnings : List.Forall₂ (r.Skips file items) skipped warnings

theorem Accounts.disjoint {kept skipped : List Nat} {entities : List Entity}
    {warnings : List Warning} (h : r.Accounts file items kept skipped entities warnings) :
    kept.Disjoint skipped := by
  have hnodup := h.places.nodup_iff.mpr List.nodup_range
  exact (List.nodup_append'.mp hnodup).2.2

theorem lacks_of_build {reason : Skipped} (h : r.build file item index = .ok (.error reason)) :
    r.Lacks item reason := by
  unfold build at h
  obtain ⟨found, hfound, h⟩ := bind_eq_ok_iff.mp h
  cases found with
  | none =>
    cases h
    exact .absent hfound
  | some v =>
    obtain ⟨start, hstart, h⟩ := bind_eq_ok_iff.mp h
    cases start with
    | none =>
      cases h
      exact .noDate hfound hstart
    | some start =>
      obtain ⟨e, -, h⟩ := bind_eq_ok_iff.mp h
      cases h

def warningAt? (r : Rule) (file : Value) (p : Value × Nat) : Option Warning :=
  match r.build file p.1 p.2 with
  | .ok (.error reason) => some (r.skipWarning file p.2 reason)
  | _ => none

theorem warningAt?_eq_some_iff {p : Value × Nat} {w : Warning} :
    r.warningAt? file p = some w ↔ ∃ reason,
      r.build file p.1 p.2 = .ok (.error reason) ∧ w = r.skipWarning file p.2 reason := by
  unfold warningAt?
  rcases r.build file p.1 p.2 with f | (reason | d) <;> simp [eq_comm]

theorem warnings_collect (h : (r.collect file index items).failure = none) :
    (r.collect file index items).found.warnings =
      (items.zipIdx index).filterMap (r.warningAt? file) := by
  induction items generalizing index with
  | nil => rfl
  | cons item rest ih =>
    rw [List.zipIdx_cons, List.filterMap_cons, warningAt?]
    unfold collect at h ⊢
    rcases hbuild : r.build file item index with f | built
    · rw [hbuild] at h
      cases h
    · rw [hbuild] at h
      rcases built with reason | e
      · exact congrArg (List.cons _) (ih h)
      · exact ih h

theorem isSome_warningAt? (h : (r.collect file index items).failure = none) :
    ∀ p ∈ items.zipIdx index, (r.warningAt? file p).isSome = !(r.entityAt? file p).isSome := by
  induction items generalizing index with
  | nil => exact fun p hp => absurd hp List.not_mem_nil
  | cons item rest ih =>
    rw [List.zipIdx_cons]
    unfold collect at h
    rcases hbuild : r.build file item index with f | built
    · rw [hbuild] at h
      cases h
    · rw [hbuild] at h
      have hrest : (r.collect file (index + 1) rest).failure = none := h
      refine List.forall_mem_cons.mpr ⟨?_, ih hrest⟩
      rw [warningAt?, entityAt?, hbuild]
      rcases built with reason | e <;> rfl

theorem forall₂_filterMap {α β : Type} {f : α → Option β} {R : α → β → Prop} {l : List α}
    (h : ∀ a ∈ l, ∀ b, f a = some b → R a b) :
    List.Forall₂ R (l.filter fun a => (f a).isSome) (l.filterMap f) := by
  induction l with
  | nil => exact .nil
  | cons a l ih =>
    obtain ⟨ha, hl⟩ := List.forall_mem_cons.mp h
    rw [List.filter_cons, List.filterMap_cons]
    cases hf : f a with
    | none => exact ih hl
    | some b => exact .cons (ha b hf) (ih hl)

theorem pairwise_lt_places (choose : Value × Nat → Bool) (items : List Value) :
    ((items.zipIdx.filter choose).map (·.2)).Pairwise (· < ·) := by
  have hsublist := (List.filter_sublist (p := choose) (l := items.zipIdx)).map (·.2)
  rw [List.zipIdx_map_snd] at hsublist
  exact List.Pairwise.sublist hsublist List.pairwise_lt_range'

/-- A run without a failure accounts for the items of its array. -/
theorem exists_accounts (h : (r.collect file 0 items).failure = none) :
    ∃ kept skipped, r.Accounts file items kept skipped (r.collect file 0 items).found.entities
      (r.collect file 0 items).found.warnings := by
  let hasEntity (p : Value × Nat) := (r.entityAt? file p).isSome
  let hasWarning (p : Value × Nat) := (r.warningAt? file p).isSome
  refine ⟨(items.zipIdx.filter hasEntity).map (·.2), (items.zipIdx.filter hasWarning).map (·.2),
    pairwise_lt_places hasEntity items, pairwise_lt_places hasWarning items, ?_, ?_, ?_⟩
  · have hother : items.zipIdx.filter hasWarning = items.zipIdx.filter fun p => !hasEntity p :=
      List.filter_congr (isSome_warningAt? h)
    have hperm := (List.filter_append_perm hasEntity items.zipIdx).map (·.2)
    rw [List.zipIdx_map_snd, List.map_append] at hperm
    rwa [hother, List.range_eq_range']
  · rw [entities_collect h]
    refine List.forall₂_map_left_iff.mpr (forall₂_filterMap ?_)
    rintro ⟨item, i⟩ hp e he
    have hbuild := entityAt?_eq_some_iff.mp he
    exact ⟨marks_of_build hbuild, item, List.mem_zipIdx_iff_getElem?.mp hp, holds_of_build hbuild,
      id_of_entityAt? he⟩
  · rw [warnings_collect h]
    refine List.forall₂_map_left_iff.mpr (forall₂_filterMap ?_)
    rintro ⟨item, i⟩ hp w hw
    obtain ⟨reason, hbuild, rfl⟩ := warningAt?_eq_some_iff.mp hw
    exact ⟨item, reason, List.mem_zipIdx_iff_getElem?.mp hp, lacks_of_build hbuild, rfl⟩

def Tally.add (t : Tally) (run : Run) : Tally where
  passed := t.passed ++ ⟨[], run.found.warnings, run.found.journal⟩
  entities := t.entities ++ run.found.entities
  failure := run.failure

theorem foldl_tallyItem_of_failure {t : Tally} {f : Failure} (h : t.failure = some f)
    (later : List (Value × Nat)) : later.foldl (r.tallyItem file) t = t := by
  induction later with
  | nil => rfl
  | cons p later ih =>
    have hstep : r.tallyItem file t p = t := by rw [tallyItem, h]
    rw [List.foldl_cons, hstep, ih]

theorem Tally.add_empty {t : Tally} (failure : Option Failure) :
    t.add ⟨.empty, failure⟩ = { t with failure := failure } := by
  obtain ⟨⟨entities, warnings, journal⟩, found, _⟩ := t
  simp [Tally.add, Extraction.empty, Extraction.mk_append]

theorem Tally.add_add (t : Tally) (x : Extraction) (run : Run) :
    (t.add ⟨x, none⟩).add run = t.add ⟨x ++ run.found, run.failure⟩ := by
  obtain ⟨⟨entities, warnings, journal⟩, found, _⟩ := t
  simp [Tally.add, Extraction.mk_append]

theorem tallyItem_entity {t : Tally} (h : t.failure = none)
    (hbuild : r.build file item index = .ok (.ok e)) :
    r.tallyItem file t (item, index) = t.add ⟨⟨[e], [], []⟩, none⟩ := by
  obtain ⟨⟨entities, warnings, journal⟩, found, _⟩ := t
  cases h
  simp [tallyItem, hbuild, Tally.add, Extraction.mk_append]

theorem tallyItem_skipped {t : Tally} (h : t.failure = none) {reason : Skipped}
    (hbuild : r.build file item index = .ok (.error reason)) :
    r.tallyItem file t (item, index) = t.add ⟨r.skip file index reason, none⟩ := by
  obtain ⟨passed, found, _⟩ := t
  cases h
  simp only [tallyItem, hbuild, Tally.add]
  exact congrArg (Tally.mk _ · none) (List.append_nil found).symm

/-- A run with a result that is passed in adds to it what a run from nothing finds. -/
theorem foldl_tallyItem {t : Tally} (h : t.failure = none) :
    (items.zipIdx index).foldl (r.tallyItem file) t = t.add (r.collect file index items) := by
  induction items generalizing index t with
  | nil =>
    rw [collect, Tally.add_empty, ← h]
    rfl
  | cons item rest ih =>
    rw [List.zipIdx_cons, List.foldl_cons, collect]
    rcases hbuild : r.build file item index with f | (reason | e)
    · have hstep : r.tallyItem file t (item, index) = { t with failure := some f } := by
        simp [tallyItem, h, hbuild]
      rw [hstep, foldl_tallyItem_of_failure rfl, Tally.add_empty]
    · rw [tallyItem_skipped h hbuild, ih rfl, Tally.add_add]
    · rw [tallyItem_entity h hbuild, ih rfl, Tally.add_add]

theorem tally_eq (passed : Extraction) :
    r.tally file passed items = Tally.add ⟨passed, [], none⟩ (r.collect file 0 items) :=
  foldl_tallyItem rfl

/-- A run through the items of an array that does not fail adds its warnings to the result that is
passed in, keeps what is in it, and accounts for each item once. A run from nothing finds the
same. -/
theorem tally_accounts {passed : Extraction} (h : (r.tally file passed items).failure = none) :
    (r.tally file passed items).passed.entities = passed.entities ∧
      (r.tally file passed items).entities = (r.collect file 0 items).found.entities ∧
      (r.collect file 0 items).failure = none ∧
      ∃ kept skipped warnings,
        (r.tally file passed items).passed.warnings = passed.warnings ++ warnings ∧
        warnings = (r.collect file 0 items).found.warnings ∧ kept.Disjoint skipped ∧
        r.Accounts file items kept skipped (r.tally file passed items).entities warnings := by
  rw [tally_eq] at h ⊢
  obtain ⟨kept, skipped, haccounts⟩ := exists_accounts h
  refine ⟨List.append_nil _, rfl, h, kept, skipped, _, rfl, rfl, haccounts.disjoint, ?_⟩
  exact haccounts

/-- Items with and without a start, and with and without an identity, behind what has been found
before. -/
theorem tally_accounts_mixed :
    let rule := Rule.preset "events" "events" "start" "end" "#1f77b4" "priority" "id"
    let old : Entity :=
      ⟨"old", ⟨0⟩, ⟨0⟩, .text "tasks", .text "d.json", .object [], .null⟩
    let passed : Extraction := ⟨[old], [rule.skipWarning (.text "c.json") 7 (.noDate .null)], []⟩
    let items := [.object [("id", .text "E1"), ("start", .text "2024-01-01")],
      .object [("id", .text "E2")], .object [("start", .text "soon")],
      .object [("start", .text "2024-01-01"), ("end", .text "2024-01-02")]]
    let t := rule.tally (.text "d.json") passed items
    t.failure = none ∧ t.passed.entities = [old] ∧ t.entities.map (·.id) = ["E1", "events-3"] ∧
      t.passed.warnings.map (·.index) = [some 7, some 1, some 2] ∧
      ∃ kept skipped warnings, t.passed.warnings = passed.warnings ++ warnings ∧
        rule.Accounts (.text "d.json") items kept skipped t.entities warnings := by
  intro rule old passed items t
  have hfailure : t.failure = none := Option.isNone_iff_eq_none.mp (by decide +kernel)
  obtain ⟨hpassed, -, -, kept, skipped, warnings, hwarnings, -, -, haccounts⟩ :=
    tally_accounts hfailure
  refine ⟨hfailure, hpassed, ?_, ?_, kept, skipped, warnings, hwarnings, haccounts⟩
  · decide +kernel
  · decide +kernel

end Rule

end Timeline
