import Timeline.Extraction.Basic
import Timeline.Proofs.Outcome

/-! # The items of an array

An entity that a rule builds from an item names the file and the rule, and holds what is found in
the item. A rule that can be followed in a document gives the entities of the items of its array, in
their order. Any other rule gives none.
-/

namespace Timeline.Rule

variable {r : Rule} {file item document : Value} {items : List Value} {index : Nat} {e : Entity}

structure Marks (r : Rule) (source : Value) (e : Entity) : Prop where
  file : e.file = source
  array : e.array = r.name

/-- An entity of a rule holds an item with what the rule finds in it. -/
structure Holds (r : Rule) (item : Value) (index : Nat) (e : Entity) : Prop where
  data : e.data = item
  start : ∃ v, Path.resolveAt item r.start = .ok (some v) ∧ v.instant = .ok (some e.start)
  finish : ∃ last, instantAt item r.finish = .ok last ∧ e.finish = last.getD e.start
  category : r.categoryOf item = .ok e.category
  id : r.idOf item index = .ok e.id

theorem marks_and_holds_of_build (h : r.build file item index = .ok (.ok e)) :
    r.Marks file e ∧ r.Holds item index e := by
  unfold build at h
  obtain ⟨found, hfound, h⟩ := bind_eq_ok_iff.mp h
  cases found with
  | none => cases h
  | some v =>
    obtain ⟨start, hstart, h⟩ := bind_eq_ok_iff.mp h
    cases start with
    | none => cases h
    | some start =>
      obtain ⟨e', he', h⟩ := bind_eq_ok_iff.mp h
      cases h
      unfold entityFrom at he'
      obtain ⟨last, hlast, he'⟩ := bind_eq_ok_iff.mp he'
      obtain ⟨category, hcategory, he'⟩ := bind_eq_ok_iff.mp he'
      obtain ⟨id, hid, he'⟩ := bind_eq_ok_iff.mp he'
      cases he'
      exact ⟨⟨rfl, rfl⟩, ⟨rfl, ⟨v, hfound, hstart⟩, ⟨last, hlast, rfl⟩, hcategory, hid⟩⟩

theorem marks_of_build (h : r.build file item index = .ok (.ok e)) : r.Marks file e :=
  (marks_and_holds_of_build h).1

theorem holds_of_build (h : r.build file item index = .ok (.ok e)) : r.Holds item index e :=
  (marks_and_holds_of_build h).2

def entityAt? (r : Rule) (file : Value) (p : Value × Nat) : Option Entity :=
  match r.build file p.1 p.2 with
  | .ok (.ok e) => some e
  | _ => none

theorem entityAt?_eq_some_iff {p : Value × Nat} :
    r.entityAt? file p = some e ↔ r.build file p.1 p.2 = .ok (.ok e) := by
  unfold entityAt?
  rcases r.build file p.1 p.2 with f | (reason | d) <;> simp

theorem entities_collect (h : (r.collect file index items).failure = none) :
    (r.collect file index items).found.entities =
      (items.zipIdx index).filterMap (r.entityAt? file) := by
  induction items generalizing index with
  | nil => rfl
  | cons item rest ih =>
    rw [List.zipIdx_cons, List.filterMap_cons, entityAt?]
    unfold collect at h ⊢
    rcases hbuild : r.build file item index with f | built
    · rw [hbuild] at h
      cases h
    · rw [hbuild] at h
      rcases built with reason | e
      · exact ih h
      · exact congrArg (List.cons e) (ih h)

/-- A rule can be followed in a document: its paths are well-formed, it finds an array, and no item
of the array makes it fail. -/
structure Follows (r : Rule) (file document : Value) (items : List Value) : Prop where
  paths : r.malformedPath? = .ok none
  array : Path.resolveAt document r.array = .ok (some (.list items))
  failure : (r.collect file 0 items).failure = none

theorem Follows.extract_eq (h : r.Follows file document items) :
    r.extract file document = (r.collect file 0 items).found := by
  rw [extract, h.paths]
  dsimp only
  rw [h.array]
  dsimp only
  rw [extractItems, h.failure]

theorem exists_follows_of_mem_extract (he : e ∈ (r.extract file document).entities) :
    ∃ items, r.Follows file document items := by
  unfold extract at he
  split at he
  · cases he
  · cases he
  · rename_i hpaths
    split at he
    · cases he
    · rename_i items hitems
      unfold extractItems at he
      dsimp only at he
      split at he
      · rename_i hfailure
        exact ⟨items, hpaths, hitems, hfailure⟩
      · cases he
    · cases he

end Timeline.Rule
