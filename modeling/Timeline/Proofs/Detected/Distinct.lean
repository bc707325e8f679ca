import Mathlib.Data.List.Nodup
import Timeline.Extraction.Document
import Timeline.Proofs.Detected.Complete
import Timeline.Proofs.Detected.Event
import Timeline.Proofs.Extraction.Merge

/-! # Detected events without identities

In a document whose objects have no identity of their own an event is known by the name of its
array and its index. Merging keeps every event exactly if no two arrays of one name have events
with the same index. Only arrays below the elements of an array of the root can share a name.
-/

namespace Timeline

namespace Value

/-- No key of an identity has a value other than null. -/
def HasNoIdentity : Value → Prop
  | .object fields => ∀ k ∈ idKeys, orNull (Fields.get? fields k) = .null
  | _ => True

end Value

theorem Fields.id?_eq_none {fields : Fields} (h : (Value.object fields).HasNoIdentity) :
    fields.id? = none := by
  refine List.find?_eq_none.mpr fun k hk => ?_
  rw [h k hk]
  decide

namespace Detected

open Timeline.Path

variable {file : Value} {array : String} {index : Nat}

def placeKey (file : Value) (array : String) (index : Nat) : Entity.Key :=
  ⟨file, .text array, array ++ "-" ++ naturalText index⟩

theorem IsEventOf.key_eq {item : Value} {e : Entity} (h : IsEventOf array file index item e)
    (hid : item.fields.id? = none) : e.key = placeKey file array index := by
  rw [Entity.key, h.array, h.file, h.id hid]
  rfl

theorem isSome_itemEvent? {item : Value} {found : Option Entity}
    (hplain : item.Throughout Value.IsPlain) (h : itemEvent? array file index item = .ok found) :
    found.isSome = isEvent item := by
  cases item with
  | object fields =>
    cases fields with
    | nil =>
      cases h
      rfl
    | cons f rest =>
      unfold itemEvent? at h
      obtain ⟨keys, hkeys, h⟩ := bind_eq_ok_iff.mp h
      have hfields : Fields.dates? (f :: rest) = .ok keys := hkeys
      have hevent : isEvent (.object (f :: rest)) = keys.isSome := by
        rw [isEvent, hfields]
        cases keys <;> rfl
      rw [hevent]
      cases keys with
      | none =>
        cases h
        rfl
      | some keys =>
        obtain ⟨⟨t, ht⟩, -⟩ := Value.exists_instants hplain hkeys
        have hfirst : instantOf (f :: rest) (some keys.start) = .ok (some t) := ht
        have h : event? (f :: rest) array (some keys.start) (some keys.finish) file index =
            .ok found := h
        unfold event? at h
        rw [hfirst, ok_bind] at h
        obtain ⟨last, -, h⟩ := bind_eq_ok_iff.mp h
        dsimp only at h
        split at h
        · obtain ⟨id, -, h⟩ := bind_eq_ok_iff.mp h
          cases h
          rfl
        · cases h
          rfl
  | _ =>
    cases h
    rfl

/-- The items of a list that are events, each with its index from a first one on. -/
def eventIndices (index : Nat) (items : List Value) : List Nat :=
  ((items.zipIdx index).filter fun p => isEvent p.1).map (·.2)

theorem eventIndices_cons (index : Nat) (item : Value) (rest : List Value) :
    eventIndices index (item :: rest) =
      (if isEvent item then [index] else []) ++ eventIndices (index + 1) rest := by
  rw [eventIndices, List.zipIdx_cons, List.filter_cons]
  split <;> rfl

theorem keys_events {items : List Value} {found : List Entity}
    (hplain : ∀ v ∈ items, v.Throughout Value.IsPlain)
    (hids : ∀ v ∈ items, v.Throughout Value.HasNoIdentity)
    (h : events array file index items = .ok found) :
    found.map (·.key) = (eventIndices index items).map (placeKey file array) := by
  induction items generalizing index found with
  | nil =>
    cases h
    rfl
  | cons item rest ih =>
    obtain ⟨hitem, hplain⟩ := List.forall_mem_cons.mp hplain
    obtain ⟨hid, hids⟩ := List.forall_mem_cons.mp hids
    unfold events at h
    obtain ⟨here, hhere, h⟩ := bind_eq_ok_iff.mp h
    obtain ⟨later, hlater, h⟩ := bind_eq_ok_iff.mp h
    cases h
    have hsome := isSome_itemEvent? hitem hhere
    rw [eventIndices_cons, List.map_append, List.map_append, ih hplain hids hlater, ← hsome]
    cases here with
    | none => rfl
    | some e =>
      have hevent := isEventOf_of_itemEvent? hhere
      have hnone : item.fields.id? = none := by
        cases item with
        | object fields => exact Fields.id?_eq_none hid.self
        | _ => rfl
      simp [hevent.key_eq hnone]

def places (arrays : List (Address × List Value)) : List (Address × Nat) :=
  arrays.flatMap fun p => (eventIndices 0 p.2).map fun i => (p.1, i)

theorem keys_eventsAt {arrays : List (Address × List Value)} {found : List Entity}
    (hplain : ∀ p ∈ arrays, ∀ v ∈ p.2, v.Throughout Value.IsPlain)
    (hids : ∀ p ∈ arrays, ∀ v ∈ p.2, v.Throughout Value.HasNoIdentity)
    (h : eventsAt file [] arrays = .ok found) :
    found.map (·.key) = (places arrays).map fun q => placeKey file (nameOf q.1) q.2 := by
  induction arrays generalizing found with
  | nil =>
    cases h
    rfl
  | cons p rest ih =>
    obtain ⟨hp, hplain⟩ := List.forall_mem_cons.mp hplain
    obtain ⟨hid, hids⟩ := List.forall_mem_cons.mp hids
    unfold eventsAt at h
    obtain ⟨here, hhere, h⟩ := bind_eq_ok_iff.mp h
    obtain ⟨later, hlater, h⟩ := bind_eq_ok_iff.mp h
    cases h
    rw [places, List.flatMap_cons, List.map_append, List.map_append, ih hplain hids hlater,
      keys_events hp hid hhere, List.map_map]
    rfl

theorem mem_eventIndices {items : List Value} {i : Nat} :
    i ∈ eventIndices 0 items ↔ ∃ v, items[i]? = some v ∧ isEvent v = true := by
  simp only [eventIndices, List.mem_map, List.mem_filter, Prod.exists,
    List.mk_mem_zipIdx_iff_getElem?]
  constructor
  · rintro ⟨v, j, ⟨hv, hevent⟩, rfl⟩
    exact ⟨v, hv, hevent⟩
  · rintro ⟨v, hv, hevent⟩
    exact ⟨v, i, ⟨hv, hevent⟩, rfl⟩

theorem nodup_eventIndices (items : List Value) : (eventIndices 0 items).Nodup := by
  have hsub : (eventIndices 0 items).Sublist ((items.zipIdx 0).map (·.2)) :=
    List.filter_sublist.map _
  refine List.Nodup.sublist hsub ?_
  rw [List.zipIdx_map_snd]
  exact List.nodup_range'

theorem mem_places {arrays : List (Address × List Value)} {a : Address} {i : Nat} :
    (a, i) ∈ places arrays ↔ ∃ items, (a, items) ∈ arrays ∧ i ∈ eventIndices 0 items := by
  simp only [places, List.mem_flatMap, List.mem_map, Prod.mk.injEq, Prod.exists]
  constructor
  · rintro ⟨b, items, hmem, j, hj, rfl, rfl⟩
    exact ⟨items, hmem, hj⟩
  · rintro ⟨items, hmem, hi⟩
    exact ⟨a, items, hmem, i, hi, rfl, rfl⟩

theorem nodup_places {arrays : List (Address × List Value)} (h : (arrays.map (·.1)).Nodup) :
    (places arrays).Nodup := by
  refine List.nodup_flatMap.mpr ⟨?_, ?_⟩
  · intro p _
    exact (nodup_eventIndices p.2).map fun i j hij => congrArg Prod.snd hij
  · refine (List.pairwise_map.mp h).imp fun {p q} hne => ?_
    intro place hp hq
    obtain ⟨i, -, rfl⟩ := List.mem_map.mp hp
    obtain ⟨j, -, hj⟩ := List.mem_map.mp hq
    exact hne (congrArg Prod.fst hj).symm

theorem placeKey_eq_iff {array' : String} {i j : Nat} :
    placeKey file array i = placeKey file array' j ↔ array = array' ∧ i = j := by
  constructor
  · intro h
    simp only [placeKey, Entity.Key.mk.injEq, Value.text.injEq, true_and] at h
    obtain ⟨rfl, hid⟩ := h
    have hindex : naturalText i = naturalText j := by simpa using hid
    exact ⟨rfl, naturalText_injective hindex⟩
  · rintro ⟨rfl, rfl⟩
    rfl

/-- The fields that are searched for arrays; a document that is no object is the field of the
root. -/
def searched (document : Value) : Fields :=
  match document with
  | .object fields => fields
  | v => [(root, v)]

/-- An array has an event at an index. -/
def EventAt (fields : Fields) (a : Address) (i : Nat) : Prop :=
  ∃ items v, ArrayAt fields a items ∧ items[i]? = some v ∧ isEvent v = true

/-- No two arrays of one name have events at one index. -/
def Separated (fields : Fields) : Prop :=
  ∀ a b i, EventAt fields a i → EventAt fields b i → nameOf a = nameOf b → a = b

/-- An address leads through an element of an array of the root. -/
def ThroughRoot (a : Address) : Prop :=
  ∃ i rest, a = ⟨root, some i⟩ :: rest

theorem mem_places_arraysOf {fields : Fields} {a : Address} {i : Nat} :
    (a, i) ∈ places (arraysOf fields) ↔ EventAt fields a i := by
  simp only [mem_places, mem_eventIndices, mem_arraysOf_iff, EventAt, exists_and_left]

theorem inDocument_eq (file document : Value) :
    inDocument file document = inFields file (nameOf []) (searched document) := by
  have hroot : join (nameOf []) root = root := by decide
  cases document with
  | object fields => rfl
  | list items =>
    simp only [inDocument, searched, inFields, hroot]
    cases inValue file root (.list items) <;> simp
  | _ => rfl

theorem searched_of_throughout {p : Value → Prop} {document : Value} (h : document.Throughout p) :
    ∀ f ∈ searched document, f.2.Throughout p := by
  cases document with
  | object fields => exact fun f hf => h.of_mem_fields hf
  | _ => exact List.forall_mem_singleton.mpr h

theorem havePathKeys_searched {document : Value} (h : document.Throughout Value.HasPathKeys) :
    HavePathKeys (searched document) := by
  have hroot : root ≠ "" ∧ '[' ∉ root.toList ∧ ']' ∉ root.toList := by decide
  cases document with
  | object fields => exact havePathKeys_of_object h
  | _ => exact List.forall_mem_singleton.mpr ⟨hroot, h⟩

theorem nodup_searched {document : Value} (h : document.Throughout Value.IsPlain) :
    ((searched document).map (·.1)).Nodup := by
  cases document with
  | object fields => exact h.self
  | _ => exact List.nodup_singleton _

section Steps

variable {fields : Fields} {a b : Address} {items others : List Value}

theorem ArrayAt.isKeyed (h : ArrayAt fields a items) (hkeys : HavePathKeys fields) :
    ∀ s ∈ a, s.IsKeyed := by
  induction h with
  | value hf =>
    obtain ⟨hk, hopening, hclosing⟩ := (hkeys _ hf).1
    exact List.forall_mem_singleton.mpr ⟨hk, hopening, hclosing⟩
  | object hf _ ih =>
    obtain ⟨hk, hopening, hclosing⟩ := (hkeys _ hf).1
    exact List.forall_mem_cons.mpr ⟨⟨hk, hopening, hclosing⟩,
      ih (havePathKeys_of_object (hkeys _ hf).2)⟩
  | element hf hi _ ih =>
    obtain ⟨hk, hopening, hclosing⟩ := (hkeys _ hf).1
    have hinner := (hkeys _ hf).2.of_mem_items (List.mem_of_getElem? hi)
    exact List.forall_mem_cons.mpr ⟨⟨hk, hopening, hclosing⟩, ih (havePathKeys_of_object hinner)⟩

theorem shortened_of_not_throughRoot (h : ¬ThroughRoot a) : shortened a = a := by
  cases a with
  | nil => rfl
  | cons s a =>
    refine if_neg ?_
    rintro ⟨hkey, hindex⟩
    obtain ⟨i, hi⟩ := Option.isSome_iff_exists.mp hindex
    exact h ⟨i, a, by rw [← hkey, ← hi]⟩

/-- Arrays with one name have the same address, or one lies below an element of the root. -/
theorem eq_or_throughRoot (hkeys : HavePathKeys fields) (ha : ArrayAt fields a items)
    (hb : ArrayAt fields b others) (h : nameOf a = nameOf b) :
    a = b ∨ ThroughRoot a ∨ ThroughRoot b := by
  by_cases hroot : ThroughRoot a ∨ ThroughRoot b
  · exact .inr hroot
  · obtain ⟨hna, hnb⟩ := not_or.mp hroot
    rw [nameOf, nameOf, shortened_of_not_throughRoot hna, shortened_of_not_throughRoot hnb] at h
    exact .inl (Address.eq_of_render_eq (ha.isKeyed hkeys) (hb.isKeyed hkeys) h)

theorem ArrayAt.key_mem_of_throughRoot (h : ArrayAt fields a items) (hroot : ThroughRoot a) :
    root ∈ fields.map (·.1) := by
  obtain ⟨i, rest, rfl⟩ := hroot
  cases h with
  | element hf _ _ => exact List.mem_map_of_mem hf

theorem ArrayAt.throughout {p : Value → Prop} (h : ArrayAt fields a items)
    (hfields : ∀ f ∈ fields, f.2.Throughout p) : ∀ v ∈ items, v.Throughout p := by
  induction h with
  | value hf => exact fun v hv => (hfields _ hf).of_mem_items hv
  | object hf _ ih => exact ih fun g hg => (hfields _ hf).of_mem_fields hg
  | element hf hi _ ih =>
    have hinner := (hfields _ hf).of_mem_items (List.mem_of_getElem? hi)
    exact ih fun g hg => hinner.of_mem_fields hg

end Steps

/-- Events without identities of their own are told apart exactly if no two arrays of one name have
events at one index, and then merging keeps them all. Arrays share a name only below elements of an
array of the root, so the events of an object without the key of the root are all kept. -/
theorem merge_inDocument (id : String) {document : Value} {found : List Entity}
    (hplain : document.Throughout Value.IsPlain) (hkeys : document.Throughout Value.HasPathKeys)
    (hids : document.Throughout Value.HasNoIdentity)
    (h : inDocument (documentName (.text id)) document = .ok found) :
    ((found.map (·.key)).Nodup ↔ Separated (searched document)) ∧
      (Entity.merge [found] = .ok found ↔ Separated (searched document)) ∧
      (∀ a b items others, ArrayAt (searched document) a items →
        ArrayAt (searched document) b others → nameOf a = nameOf b →
        a = b ∨ ThroughRoot a ∨ ThroughRoot b) ∧
      ∀ fields, document = .object fields → root ∉ fields.map (·.1) →
        (found.map (·.key)).Nodup ∧ Entity.merge [found] = .ok found := by
  have hfile : (documentName (.text id)).isText = true := by
    unfold documentName
    split <;> rfl
  generalize documentName (.text id) = file at h hfile
  have hitems : ∀ p ∈ arraysOf (searched document), ∀ v ∈ p.2,
      v.Throughout Value.IsPlain ∧ v.Throughout Value.HasNoIdentity := fun p hp v hv =>
    ⟨(mem_arraysOf_iff.mp hp).throughout (searched_of_throughout hplain) v hv,
      (mem_arraysOf_iff.mp hp).throughout (searched_of_throughout hids) v hv⟩
  have hfound : eventsAt file [] (arraysOf (searched document)) = .ok found := by
    rw [← inFields_eq file (List.forall_mem_nil _) _ (havePathKeys_searched hkeys), ← inDocument_eq]
    exact h
  have hnames := keys_eventsAt (fun p hp v hv => (hitems p hp v hv).1)
    (fun p hp v hv => (hitems p hp v hv).2) hfound
  have hplaces := nodup_places (nodup_arraysOf _ (nodup_searched hplain)
    (searched_of_throughout hplain))
  have hdistinct : (found.map (·.key)).Nodup ↔ Separated (searched document) := by
    rw [hnames, List.nodup_map_iff_inj_on hplaces]
    constructor
    · intro hinj a b i ha hb hname
      have heq := hinj _ (mem_places_arraysOf.mpr ha) _ (mem_places_arraysOf.mpr hb)
        (placeKey_eq_iff.mpr ⟨hname, rfl⟩)
      exact congrArg Prod.fst heq
    · rintro hseparated ⟨a, i⟩ ha ⟨b, j⟩ hb hkey
      obtain ⟨hname, rfl⟩ := placeKey_eq_iff.mp hkey
      have heq := hseparated a b i (mem_places_arraysOf.mp ha) (mem_places_arraysOf.mp hb) hname
      exact congrArg (·, i) heq
  have hmerge : Entity.merge [found] = .ok found ↔ (found.map (·.key)).Nodup := by
    refine Entity.merge_singleton_iff fun e he => ?_
    obtain ⟨he, harray⟩ := (isFound_of_mem_inDocument h he).comesFrom
    exact ⟨he ▸ hfile, harray⟩
  have hshare := fun a b items others (ha : ArrayAt (searched document) a items)
    (hb : ArrayAt (searched document) b others) =>
      eq_or_throughRoot (havePathKeys_searched hkeys) ha hb
  refine ⟨hdistinct, hmerge.trans hdistinct, hshare, ?_⟩
  rintro fields rfl hroot
  have hseparated : Separated (searched (.object fields)) := by
    rintro a b i ⟨items, v, ha, -⟩ ⟨others, w, hb, -⟩ hname
    rcases hshare a b items others ha hb hname with heq | hthrough | hthrough
    · exact heq
    · exact absurd (ha.key_mem_of_throughRoot hthrough) hroot
    · exact absurd (hb.key_mem_of_throughRoot hthrough) hroot
  have hnodup := hdistinct.mpr hseparated
  exact ⟨hnodup, hmerge.mpr hnodup⟩

/-- An array in an item of another one, with events at the same index in both. -/
theorem merge_inDocument_nested :
    let document := Value.object
      [("a", .list [.object [("start", .int 1), ("b", .list [.object [("start", .int 2)]])]])]
    document.Throughout Value.IsPlain ∧ document.Throughout Value.HasPathKeys ∧
      document.Throughout Value.HasNoIdentity ∧
      ∃ found, inDocument (documentName (.text "file")) document = .ok found ∧ found.length = 2 ∧
        (found.map (·.key)).Nodup ∧ Entity.merge [found] = .ok found := by
  intro document
  have hplain : document.Throughout Value.IsPlain := by
    simp [document, Value.IsPlain]
  have hkeys : document.Throughout Value.HasPathKeys := by
    simp [document, Value.HasPathKeys]
  have hids : document.Throughout Value.HasNoIdentity := by
    simp [document, Value.HasNoIdentity, idKeys, Fields.get?, Value.orNull,
      List.lookup_cons]
  have hcount : Yields (inDocument (documentName (.text "file")) document)
      (·.length = 2) := by
    decide +kernel
  obtain ⟨found, hfound, htwo⟩ := hcount
  obtain ⟨-, -, -, hobject⟩ := merge_inDocument "file" hplain hkeys hids hfound
  obtain ⟨hnodup, hmerge⟩ := hobject _ rfl (by decide)
  exact ⟨hplain, hkeys, hids, found, hfound, htwo, hnodup, hmerge⟩

/-- Arrays of one key in two elements of an array of the root have the same name, and merging
leaves out the event of the second. -/
theorem merge_inDocument_root :
    let element := fun n => Value.object [("items", .list [.object [("start", .int n)]])]
    let document := Value.list [element 1, element 2]
    document.Throughout Value.IsPlain ∧ document.Throughout Value.HasPathKeys ∧
      document.Throughout Value.HasNoIdentity ∧
      ∃ found, inDocument (documentName (.text "file")) document = .ok found ∧ found.length = 2 ∧
        ¬(found.map (·.key)).Nodup ∧
        ∃ kept, Entity.merge [found] = .ok kept ∧ kept.length = 1 := by
  intro element document
  have hplain : document.Throughout Value.IsPlain := by
    simp [document, element, Value.IsPlain]
  have hkeys : document.Throughout Value.HasPathKeys := by
    simp [document, element, Value.HasPathKeys]
  have hids : document.Throughout Value.HasNoIdentity := by
    simp [document, element, Value.HasNoIdentity, idKeys, Fields.get?,
      Value.orNull, List.lookup_cons]
  have hcount : Yields (inDocument (documentName (.text "file")) document) fun found =>
      found.length = 2 ∧ Yields (Entity.merge [found]) (·.length = 1) := by
    decide +kernel
  obtain ⟨found, hfound, htwo, kept, hmerge, hone⟩ := hcount
  have hkeyed : ∀ e ∈ found, e.file.isText = true ∧ e.array.isText = true := by
    intro e he
    obtain ⟨hfile, harray⟩ := (isFound_of_mem_inDocument hfound he).comesFrom
    exact ⟨by rw [hfile]; rfl, harray⟩
  refine ⟨hplain, hkeys, hids, found, hfound, htwo, ?_, kept, hmerge, hone⟩
  intro hnodup
  have hall := (Entity.merge_singleton_iff hkeyed).mpr hnodup
  rw [hmerge, Except.ok.injEq] at hall
  rw [hall, htwo] at hone
  cases hone

end Detected

end Timeline
