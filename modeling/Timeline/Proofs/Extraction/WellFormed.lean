import Timeline.Proofs.Extraction.Identity
import Timeline.Proofs.Files.Name
import Timeline.Proofs.Path.Written
import Timeline.Proofs.Rule.Valid
import Timeline.Proofs.Value.Identifier

/-! # Well-formed entities

What is extracted from a document has an array and a file, and dates that are moments; nothing more
can be wrong with it than that it ends before it starts. By rules every entity is also given an
identity. A detected event takes the first identity of its item that is not null, which may be the
empty text.
-/

namespace Timeline

/-- What is wrong with an entity that has an array and a file. -/
def Entity.faults (e : Entity) : List Draft.Problem :=
  if e.id = "" then [.id] else if e.start ≤ e.finish then [] else [.order]

namespace Draft

variable {α : Type}

theorem isAfter_ofInstant (s t : Instant) :
    isAfter (.ofInstant s) (.ofInstant t) = .ok !decide (s ≤ t) := by
  have hlt : t.micros < s.micros ↔ ¬s ≤ t := Int.not_le.symm
  simp only [isAfter, Moment.ofInstant, Moment.comparable, Moment.utcMicros]
  simp [hlt]

theorem orderProblem_ofEntity {e : Entity} (hid : e.id ≠ "") :
    (ofEntity e).orderProblem = .ok (if e.start ≤ e.finish then [] else [.order]) := by
  have hgiven : (ofEntity e).id.truthy = true := by simpa [ofEntity, Value.truthy] using hid
  unfold orderProblem
  rw [hgiven]
  dsimp only [ofEntity]
  rw [isAfter_ofInstant, ok_bind]
  by_cases horder : e.start ≤ e.finish <;> simp [horder]

theorem problems_ofEntity (e : Entity) :
    (ofEntity e).problems = .ok (e.faults ++ (if e.array.truthy then [] else [.array]) ++
      if e.file.truthy then [] else [.file]) := by
  unfold problems Entity.faults
  by_cases hid : e.id = ""
  · have hmissing : (ofEntity e).id.truthy = false := by simp [ofEntity, Value.truthy, hid]
    have horder : (ofEntity e).orderProblem = .ok [] := by simp [orderProblem, hmissing]
    rw [horder, hmissing, if_pos hid]
    rfl
  · have hgiven : (ofEntity e).id.truthy = true := by simpa [ofEntity, Value.truthy] using hid
    rw [orderProblem_ofEntity hid, hgiven, if_neg hid]
    rfl

theorem validate_map {f : α → Draft} {found : α → List Problem} {items : List α}
    (h : ∀ a ∈ items, (f a).problems = .ok (found a)) :
    validate (items.map f) = .ok ((items.filter fun a => (found a).isEmpty).map f,
      (items.filter fun a => !(found a).isEmpty).map fun a => (f a, found a)) := by
  induction items with
  | nil => rfl
  | cons a items ih =>
    obtain ⟨ha, hitems⟩ := List.forall_mem_cons.mp h
    rw [List.map_cons, validate, ha, ok_bind, ih hitems, ok_bind]
    cases hempty : (found a).isEmpty <;> simp [hempty]

end Draft

theorem documentName_truthy {id : String} (h : id ≠ "") :
    (documentName (.text id)).truthy = true := by
  have hid : (Value.text id).truthy = true := by simpa [Value.truthy] using h
  have hname : FileName.ofPath (Value.text id).plain ≠ "" := FileName.ofPath_ne_empty h
  rw [documentName, if_pos hid]
  simpa [Value.truthy] using hname

theorem append_dash_ne_empty (name : String) (index : Nat) :
    name ++ "-" ++ naturalText index ≠ "" := by
  simp

/-- An item does not give itself the empty identity: it would have to be found as a value that
counts as given. -/
theorem Rule.ownId?_ne_empty {r : Rule} {item : Value} : r.ownId? item ≠ some "" := by
  intro h
  obtain ⟨path, -, h⟩ := Option.bind_eq_some_iff.mp h
  obtain ⟨found, -, h⟩ := Option.bind_eq_some_iff.mp h
  obtain ⟨v, hv, hid⟩ := Option.bind_eq_some_iff.mp h
  obtain ⟨w, -, hw⟩ := Option.bind_eq_some_iff.mp hv
  obtain ⟨htruthy, rfl⟩ := Value.ifTruthy_eq_some_iff.mp hw
  cases hread : w.identifier with
  | error f =>
    rw [hread] at hid
    cases hid
  | ok s =>
    rw [hread] at hid
    cases hid
    rw [Value.identifier_eq_empty_iff.mp hread] at htruthy
    cases htruthy

theorem Rule.idOf_ne_empty {r : Rule} {item : Value} {index : Nat} {id : String}
    (h : r.idOf item index = .ok id) : id ≠ "" := by
  rw [Rule.eq_getD_of_idOf h]
  cases hown : r.ownId? item with
  | none => exact append_dash_ne_empty _ _
  | some s =>
    rintro rfl
    exact Rule.ownId?_ne_empty hown

/-- The first identity of an item that is not null is the empty text. -/
def Value.HasEmptyIdentity (item : Value) : Prop :=
  ∃ key ∈ item.fields.id?, item.fields.get? key = some (.text "")

theorem Detected.id_eq_empty_iff_of_event? {fields : Fields} {array : String}
    {start finish : Option String} {file : Value} {index : Nat} {e : Entity}
    (h : event? fields array start finish file index = .ok (some e)) :
    e.id = "" ↔ (Value.object fields).HasEmptyIdentity := by
  unfold event? at h
  obtain ⟨first, -, h⟩ := bind_eq_ok_iff.mp h
  obtain ⟨last, -, h⟩ := bind_eq_ok_iff.mp h
  cases first with
  | none => cases h
  | some first =>
    dsimp only at h
    split at h
    · rename_i key hkey
      obtain ⟨id, hid, h⟩ := bind_eq_ok_iff.mp h
      cases h
      dsimp only
      have hempty : id = "" ↔ fields.get? key = some (.text "") := by
        rw [← Value.identifier_orNull_eq_empty_iff, hid, Except.ok.injEq]
      rw [hempty]
      constructor
      · exact fun hget => ⟨key, hkey, hget⟩
      · rintro ⟨other, hother, hget⟩
        cases hkey.symm.trans hother
        exact hget
    · rename_i hnone
      cases h
      refine iff_of_false (append_dash_ne_empty _ _) ?_
      rintro ⟨key, hkey, -⟩
      cases hnone.symm.trans hkey

theorem Detected.id_eq_empty_iff {array : String} {file item : Value} {index : Nat} {e : Entity}
    (h : itemEvent? array file index item = .ok (some e)) :
    e.id = "" ↔ item.HasEmptyIdentity := by
  unfold itemEvent? at h
  obtain ⟨keys, hkeys, h⟩ := bind_eq_ok_iff.mp h
  cases keys with
  | none => cases h
  | some keys =>
    cases item with
    | object fields => exact id_eq_empty_iff_of_event? h
    | _ => cases hkeys

namespace Extraction

variable {id : String} {document : Value} {rules : List Rule} {found : Extraction} {e : Entity}

/-- An entity with an array and a file, whose identity is missing only under a condition. -/
structure IsFormed (nameless : Prop) (e : Entity) : Prop where
  array : e.array.truthy = true
  file : e.file.truthy = true
  id : e.id = "" ↔ nameless

theorem IsFormed.problems_eq {nameless : Prop} (h : IsFormed nameless e) :
    (Draft.ofEntity e).problems = .ok e.faults := by
  rw [Draft.problems_ofEntity, if_pos h.array, if_pos h.file]
  simp

theorem isFormed_of_build {r : Rule} {file item : Value} {index : Nat}
    (h : r.build file item index = .ok (.ok e)) (hname : r.name.truthy = true)
    (hfile : file.truthy = true) : IsFormed False e := by
  obtain ⟨hmarks, hholds⟩ := Rule.marks_and_holds_of_build h
  constructor
  · rw [hmarks.array]
    exact hname
  · rw [hmarks.file]
    exact hfile
  · exact iff_of_false (Rule.idOf_ne_empty hholds.id) not_false

theorem isFormed_of_itemEvent? {array : String} {file item : Value} {index : Nat}
    (h : Detected.itemEvent? array file index item = .ok (some e)) (harray : array ≠ "")
    (hfile : file.truthy = true) : IsFormed e.data.HasEmptyIdentity e := by
  have hevent := Detected.isEventOf_of_itemEvent? h
  constructor
  · rw [hevent.array]
    simpa [Value.truthy] using harray
  · rw [hevent.file]
    exact hfile
  · rw [hevent.data]
    exact Detected.id_eq_empty_iff h

theorem mem_inDocument_of_disabled {file : Value} (hdisabled : ∀ r ∈ rules, r.isEnabled = false)
    (h : ofDocument file document rules = .ok found) (he : e ∈ found.entities) :
    ∃ events, Detected.inDocument (documentName file) document = .ok events ∧ e ∈ events := by
  have hnone : rules.filter (·.isEnabled) = [] := by simpa using hdisabled
  unfold ofDocument at h
  dsimp only at h
  rw [hnone] at h
  obtain ⟨events, hevents, h⟩ := bind_eq_ok_iff.mp h
  cases h
  exact ⟨events, hevents, by simpa [report] using he⟩

theorem isFormed_of_mem_inDocument {file : Value} {events : List Entity}
    (hkeys : document.Throughout (Value.KeysAre (· ≠ ""))) (hfile : file.truthy = true)
    (h : Detected.inDocument file document = .ok events) (he : e ∈ events) :
    IsFormed e.data.HasEmptyIdentity e := by
  have hjoin : Detected.Joins (· ≠ "") (· ≠ "") := fun path _ => Path.join_ne_empty_of_key path
  obtain ⟨array, index, item, harray, hevent⟩ :=
    Detected.isFoundIn_of_mem_inDocument hjoin (by decide) hkeys h he
  exact isFormed_of_itemEvent? hevent harray hfile

theorem isFormed_of_mem_ofDocument (hid : id ≠ "")
    (hkeys : document.Throughout (Value.KeysAre (· ≠ "")))
    (hnames : ∀ r ∈ rules, r.isEnabled = true → r.name.truthy = true)
    (h : ofDocument (.text id) document rules = .ok found) (he : e ∈ found.entities) :
    IsFormed ((∀ r ∈ rules, r.isEnabled = false) ∧ e.data.HasEmptyIdentity) e := by
  have hfile := documentName_truthy hid
  rcases exists_build_of_mem_ofDocument h he with
    ⟨r, hr, henabled, item, index, hbuild⟩ | ⟨hdisabled, -⟩
  · obtain ⟨harray, hsource, hgiven⟩ := isFormed_of_build hbuild (hnames r hr henabled) hfile
    refine ⟨harray, hsource, hgiven.trans (iff_of_false not_false ?_)⟩
    rintro ⟨hdisabled, -⟩
    exact Bool.false_ne_true ((hdisabled r hr).symm.trans henabled)
  · obtain ⟨events, hevents, hmem⟩ := mem_inDocument_of_disabled hdisabled h he
    obtain ⟨harray, hsource, hgiven⟩ := isFormed_of_mem_inDocument hkeys hfile hevents hmem
    exact ⟨harray, hsource, hgiven.trans (and_iff_right hdisabled).symm⟩

/-- The check of the entities of a document finds an array and a file in all of them, and an
identity in all that are found by rules. In an event that is detected the identity is missing
exactly if the first one of its item that is not null is the empty text. Beside this nothing can be
wrong but the order of start and end, and the check splits the entities by it. -/
theorem validate_entities (hid : id ≠ "")
    (hkeys : document.Throughout (Value.KeysAre (· ≠ "")))
    (hnames : ∀ r ∈ rules, r.isEnabled = true → r.name.truthy = true)
    (h : ofDocument (.text id) document rules = .ok found) :
    (∀ e ∈ found.entities, e.array.truthy = true ∧ e.file.truthy = true ∧
      (e.id = "" ↔ (∀ r ∈ rules, r.isEnabled = false) ∧ e.data.HasEmptyIdentity) ∧
      (Draft.ofEntity e).problems = .ok e.faults) ∧
    Draft.validate (found.entities.map .ofEntity) =
      .ok ((found.entities.filter fun e => e.faults.isEmpty).map .ofEntity,
        (found.entities.filter fun e => !e.faults.isEmpty).map fun e =>
          (.ofEntity e, e.faults)) := by
  have hformed : ∀ e ∈ found.entities,
      IsFormed ((∀ r ∈ rules, r.isEnabled = false) ∧ e.data.HasEmptyIdentity) e := fun e he =>
    isFormed_of_mem_ofDocument hid hkeys hnames h he
  constructor
  · intro e he
    have hentity := hformed e he
    exact ⟨hentity.array, hentity.file, hentity.id, hentity.problems_eq⟩
  · apply Draft.validate_map
    exact fun e he => (hformed e he).problems_eq

/-- An item with an empty identity and an end before its start. -/
def reversedItem : Value :=
  .object [("id", .text ""), ("start", .int 2), ("end", .int 1)]

/-- By a rule it is given an identity, and only the order is wrong. -/
theorem validate_entities_byRule :
    let document := Value.object [("events", .list [reversedItem])]
    let rule : Rule := {
      name := .text "events", array := .text "events", start := .text "start"
      finish := .text "end", color := .text "#1f77b4", enabled := .bool true, category := none
      id := some (.text "id") }
    ∃ found, ofDocument (.text "d.json") document [rule] = .ok found ∧
      ∃ e ∈ found.entities, e.id = "events-0" ∧ (Draft.ofEntity e).problems = .ok [.order] := by
  intro document rule
  have hkeys : document.Throughout (Value.KeysAre (· ≠ "")) := by
    simp [document, reversedItem, Value.KeysAre, Value.fields]
  have hnames : ∀ r ∈ [rule], r.isEnabled = true → r.name.truthy = true :=
    List.forall_mem_singleton.mpr fun _ => rfl
  obtain ⟨found, hfound, e, he, hid, hfaults⟩ :
      Yields (ofDocument (.text "d.json") document [rule]) fun found =>
        ∃ e ∈ found.entities, e.id = "events-0" ∧ e.faults = [.order] := by
    decide +kernel
  obtain ⟨hentities, -⟩ := validate_entities (by decide) hkeys hnames hfound
  obtain ⟨-, -, -, hproblems⟩ := hentities e he
  refine ⟨found, hfound, e, he, hid, ?_⟩
  rw [hproblems, hfaults]

/-- Without rules the empty text is its identity. -/
theorem validate_entities_detected :
    let document := Value.object [("events", .list [reversedItem])]
    document.Throughout (Value.KeysAre (· ≠ "")) ∧
      ∃ found, ofDocument (.text "d.json") document [] = .ok found ∧
        ∃ e ∈ found.entities, e.id = "" ∧ (Draft.ofEntity e).problems = .ok [.id] := by
  intro document
  have hkeys : document.Throughout (Value.KeysAre (· ≠ "")) := by
    simp [document, reversedItem, Value.KeysAre, Value.fields]
  obtain ⟨found, hfound, e, he, hid, harray, hfile⟩ :
      Yields (ofDocument (.text "d.json") document []) fun found =>
        ∃ e ∈ found.entities, e.id = "" ∧ e.array.truthy = true ∧ e.file.truthy = true := by
    decide +kernel
  refine ⟨hkeys, found, hfound, e, he, hid, ?_⟩
  rw [Draft.problems_ofEntity, if_pos harray, if_pos hfile, Entity.faults, if_pos hid]
  rfl

end Extraction

end Timeline
