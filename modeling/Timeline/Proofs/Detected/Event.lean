import Timeline.Extraction.Detected
import Timeline.Proofs.Outcome
import Timeline.Proofs.Value.Document

/-! # Detected events

What is known of every event that is found, whatever the document: it names the file and the array
that it comes from, and it holds the item.
-/

namespace Timeline.Detected

variable {array path : String} {file item : Value} {index : Nat} {e : Entity}
  {p q : String → Prop}

/-- The event of an item of an array. -/
structure IsEventOf (path : String) (source : Value) (index : Nat) (item : Value) (e : Entity) :
    Prop where
  array : e.array = .text path
  file : e.file = source
  data : e.data = item
  /-- Without an identity of its own the item is known by its place. -/
  id : item.fields.id? = none → e.id = path ++ "-" ++ naturalText index

theorem isEventOf_of_event? {fields : Fields} {start finish : Option String}
    (h : event? fields array start finish file index = .ok (some e)) :
    IsEventOf array file index (.object fields) e := by
  unfold event? at h
  obtain ⟨first, -, h⟩ := bind_eq_ok_iff.mp h
  obtain ⟨last, -, h⟩ := bind_eq_ok_iff.mp h
  cases first with
  | none => cases h
  | some first =>
    dsimp only at h
    split at h
    · rename_i key hkey
      obtain ⟨id, -, h⟩ := bind_eq_ok_iff.mp h
      cases h
      exact ⟨rfl, rfl, rfl, fun hnone => absurd (hkey.symm.trans hnone) (by simp)⟩
    · cases h
      exact ⟨rfl, rfl, rfl, fun _ => rfl⟩

theorem dates_of_event? {fields : Fields} {array : String} {start finish : Option String}
    {file : Value} {index : Nat} (h : event? fields array start finish file index = .ok (some e)) :
    instantOf fields start = .ok (some e.start) ∧
      ∃ last, instantOf fields finish = .ok last ∧ e.finish = last.getD e.start := by
  unfold event? at h
  obtain ⟨first, hfirst, h⟩ := bind_eq_ok_iff.mp h
  obtain ⟨last, hlast, h⟩ := bind_eq_ok_iff.mp h
  cases first with
  | none => cases h
  | some first =>
    dsimp only at h
    split at h
    · obtain ⟨id, -, h⟩ := bind_eq_ok_iff.mp h
      cases h
      exact ⟨hfirst, last, hlast, rfl⟩
    · cases h
      exact ⟨hfirst, last, hlast, rfl⟩

theorem isEventOf_of_itemEvent? (h : itemEvent? array file index item = .ok (some e)) :
    IsEventOf array file index item e := by
  unfold itemEvent? at h
  obtain ⟨keys, hkeys, h⟩ := bind_eq_ok_iff.mp h
  cases keys with
  | none => cases h
  | some keys =>
    cases item with
    | object fields => exact isEventOf_of_event? h
    | _ => cases hkeys

/-- An entity comes from a file, and its array is named by a text. -/
structure ComesFrom (source : Value) (e : Entity) : Prop where
  file : e.file = source
  array : e.array.isText = true

/-- An entity is the event of some item of some array. -/
def IsFound (file : Value) (e : Entity) : Prop :=
  ∃ array index item, itemEvent? array file index item = .ok (some e)

theorem IsFound.comesFrom (h : IsFound file e) : ComesFrom file e := by
  obtain ⟨array, index, item, h⟩ := h
  have hevent := isEventOf_of_itemEvent? h
  exact ⟨hevent.file, by rw [hevent.array]; rfl⟩

/-- An entity is the event of an item of an array whose name has a property. -/
def IsFoundIn (p : String → Prop) (file : Value) (e : Entity) : Prop :=
  ∃ array index item, p array ∧ itemEvent? array file index item = .ok (some e)

theorem isFoundIn_of_mem_events {items : List Value} {found : List Entity} (harray : p array)
    (h : events array file index items = .ok found) (he : e ∈ found) : IsFoundIn p file e := by
  induction items generalizing index found with
  | nil =>
    cases h
    cases he
  | cons item rest ih =>
    unfold events at h
    obtain ⟨here, hhere, h⟩ := bind_eq_ok_iff.mp h
    obtain ⟨later, hlater, h⟩ := bind_eq_ok_iff.mp h
    cases h
    rcases List.mem_append.mp he with he | he
    · rw [Option.mem_toList] at he
      obtain rfl := he
      exact ⟨array, index, item, harray, hhere⟩
    · exact ih hlater he

/-- Paths that end in a key with one property have another one. -/
def Joins (q p : String → Prop) : Prop :=
  ∀ path k, q k → p (Path.join path k)

mutual

theorem isFoundIn_of_mem_inFields (hjoin : Joins q p) (path : String) :
    ∀ (fields : List (String × Value)),
      (∀ f ∈ fields, q f.1 ∧ f.2.Throughout (Value.KeysAre q)) → ∀ {found : List Entity},
        inFields file path fields = .ok found → ∀ e ∈ found, IsFoundIn p file e
  | [], _, _, h, e, he => by
    cases h
    cases he
  | (k, v) :: rest, hkeys, _, h, e, he => by
    obtain ⟨⟨hk, hv⟩, hrest⟩ := List.forall_mem_cons.mp hkeys
    rw [inFields] at h
    obtain ⟨here, hhere, h⟩ := bind_eq_ok_iff.mp h
    obtain ⟨later, hlater, h⟩ := bind_eq_ok_iff.mp h
    cases h
    rcases List.mem_append.mp he with he | he
    · exact isFoundIn_of_mem_inValue hjoin v hv (hjoin path k hk) hhere e he
    · exact isFoundIn_of_mem_inFields hjoin path rest hrest hlater e he

theorem isFoundIn_of_mem_inValue (hjoin : Joins q p) :
    ∀ (v : Value), v.Throughout (Value.KeysAre q) → ∀ {path : String}, p path →
      ∀ {found : List Entity}, inValue file path v = .ok found → ∀ e ∈ found, IsFoundIn p file e
  | .list items, hv, path, hpath, _, h, e, he => by
    rw [inValue] at h
    obtain ⟨own, hown, h⟩ := bind_eq_ok_iff.mp h
    obtain ⟨below, hbelow, h⟩ := bind_eq_ok_iff.mp h
    cases h
    rcases List.mem_append.mp he with he | he
    · exact isFoundIn_of_mem_events hpath hown he
    · exact isFoundIn_of_mem_inItems hjoin path 0 items (fun _ hw => hv.of_mem_items hw) hbelow e he
  | .object fields, hv, path, _, _, h, e, he => by
    have hkeys : ∀ f ∈ fields, q f.1 ∧ f.2.Throughout (Value.KeysAre q) := fun f hf =>
      ⟨hv.self f hf, hv.of_mem_fields hf⟩
    exact isFoundIn_of_mem_inFields hjoin path fields hkeys h e he
  | .null, _, _, _, _, h, _, he | .bool _, _, _, _, _, h, _, he | .int _, _, _, _, _, h, _, he
  | .float _, _, _, _, _, h, _, he | .text _, _, _, _, _, h, _, he
  | .moment _, _, _, _, _, h, _, he | .day _, _, _, _, _, h, _, he
  | .tuple _, _, _, _, _, h, _, he | .set _, _, _, _, _, h, _, he => by
    cases h
    cases he

theorem isFoundIn_of_mem_inItems (hjoin : Joins q p) (path : String) :
    ∀ (index : Nat) (items : List Value), (∀ v ∈ items, v.Throughout (Value.KeysAre q)) →
      ∀ {found : List Entity}, inItems file path index items = .ok found →
        ∀ e ∈ found, IsFoundIn p file e
  | _, [], _, _, h, e, he => by
    cases h
    cases he
  | index, v :: rest, hitems, _, h, e, he => by
    obtain ⟨hv, hrest⟩ := List.forall_mem_cons.mp hitems
    cases v with
    | object fields =>
      have hkeys : ∀ f ∈ fields, q f.1 ∧ f.2.Throughout (Value.KeysAre q) := fun f hf =>
        ⟨hv.self f hf, hv.of_mem_fields hf⟩
      rw [inItems] at h
      obtain ⟨here, hhere, h⟩ := bind_eq_ok_iff.mp h
      obtain ⟨later, hlater, h⟩ := bind_eq_ok_iff.mp h
      cases h
      rcases List.mem_append.mp he with he | he
      · exact isFoundIn_of_mem_inFields hjoin _ fields hkeys hhere e he
      · exact isFoundIn_of_mem_inItems hjoin path (index + 1) rest hrest hlater e he
    | _ => exact isFoundIn_of_mem_inItems hjoin path (index + 1) rest hrest h e he

end

theorem isFoundIn_of_mem_inDocument {document : Value} {found : List Entity} (hjoin : Joins q p)
    (hroot : p Path.root) (hkeys : document.Throughout (Value.KeysAre q))
    (h : inDocument file document = .ok found) (he : e ∈ found) : IsFoundIn p file e := by
  unfold inDocument at h
  split at h
  · exact isFoundIn_of_mem_inFields hjoin _ _
      (fun f hf => ⟨hkeys.self f hf, hkeys.of_mem_fields hf⟩) h e he
  · exact isFoundIn_of_mem_inValue hjoin _ hkeys hroot h e he

theorem isFound_of_mem_inDocument {document : Value} {found : List Entity}
    (h : inDocument file document = .ok found) (he : e ∈ found) : IsFound file e := by
  have hkeys : document.Throughout (Value.KeysAre fun _ => True) := fun _ _ _ _ => trivial
  obtain ⟨array, index, item, -, hevent⟩ :=
    isFoundIn_of_mem_inDocument (p := fun _ => True) (fun _ _ _ => trivial) trivial hkeys h he
  exact ⟨array, index, item, hevent⟩

end Timeline.Detected
