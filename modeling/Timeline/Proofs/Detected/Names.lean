import Timeline.Extraction.Detected
import Timeline.Proofs.Detected.Arrays
import Timeline.Proofs.Outcome

/-! # Names of detected arrays

Every detected array is named by its written address, without the steps at its start that lead
through elements of an array of the root. The search of a document finds the events of all its
arrays under their names, one array after the other.
-/

namespace Timeline

namespace Value

def HasPathKeys : Value → Prop
  | .object fields => ∀ f ∈ fields, f.1 ≠ "" ∧ '[' ∉ f.1.toList ∧ ']' ∉ f.1.toList
  | _ => True

end Value

namespace Path

namespace Address

variable {a : Address} {k : String} {i : Nat}

theorem render_eq_empty_iff (ha : ∀ s ∈ a, s.IsKeyed) : a.render = "" ↔ a = [] := by
  constructor
  · intro h
    cases a with
    | nil => rfl
    | cons s a =>
      have hs := ha s List.mem_cons_self
      have hchars := toList_render hs a
      rw [h] at hchars
      have hkey := (List.append_eq_nil_iff.mp (List.append_eq_nil_iff.mp hchars.symm).1).1
      exact absurd hkey (escapeChars_ne_nil hs.toList_ne_nil)
  · rintro rfl
    rfl

end Address

theorem escape_injective : Function.Injective escape := by
  intro k j h
  have hchars : escapeChars k.toList = escapeChars j.toList := String.ofList_inj.mp h
  apply String.toList_inj.mp
  rw [← unescapeChars_escapeChars k.toList, hchars, unescapeChars_escapeChars]

theorem join_eq_root_iff {path k : String} : join path k = root ↔ path = "" ∧ k = root := by
  have hroot : escape root = root := by decide
  constructor
  · intro h
    unfold join at h
    split at h
    · rename_i hpath
      exact ⟨hpath, escape_injective (h.trans hroot.symm)⟩
    · have hpoint : '.' ∈ root.toList := by
        rw [← h]
        simp
      exact absurd hpoint (by decide)
  · rintro ⟨rfl, rfl⟩
    exact hroot

end Path

namespace Detected

open Timeline.Path

variable {a : Address} {k : String} {i : Nat} {file : Value}

/-- The steps of an address but those at its start through elements of an array of the root. -/
def shortened : Address → Address
  | [] => []
  | s :: a => if s.key = root ∧ s.index.isSome then shortened a else s :: a

/-- The name of the array at an address. -/
def nameOf (a : Address) : String :=
  (shortened a).render

theorem mem_of_mem_shortened {s : Step} (h : s ∈ shortened a) : s ∈ a := by
  induction a with
  | nil => exact h
  | cons t a ih =>
    unfold shortened at h
    split at h
    · exact List.mem_cons_of_mem t (ih h)
    · exact h

theorem shortened_eq_self (h : ∀ s ∈ a, s.key ≠ root) : shortened a = a := by
  cases a with
  | nil => rfl
  | cons s a => exact if_neg fun hs => h s List.mem_cons_self hs.1

theorem shortened_key (a : Address) (k : String) :
    shortened (a ++ [⟨k, none⟩]) = shortened a ++ [⟨k, none⟩] := by
  induction a with
  | nil => simp [shortened]
  | cons s a ih =>
    rw [List.cons_append, shortened, ih, shortened]
    split <;> rfl

theorem shortened_element (a : Address) (k : String) (i : Nat) :
    shortened (a ++ [⟨k, some i⟩]) =
      if shortened a = [] ∧ k = root then [] else shortened a ++ [⟨k, some i⟩] := by
  induction a with
  | nil => by_cases hk : k = root <;> simp [shortened, hk]
  | cons s a ih =>
    rw [List.cons_append, shortened, ih, shortened]
    split
    · rfl
    · simp

theorem nameOf_key (a : Address) (k : String) : nameOf (a ++ [⟨k, none⟩]) = join (nameOf a) k := by
  rw [nameOf, shortened_key, Address.render_key]
  rfl

theorem itemPath_nameOf (ha : ∀ s ∈ a, s.IsKeyed) (k : String) (i : Nat) :
    itemPath (nameOf (a ++ [⟨k, none⟩])) i = nameOf (a ++ [⟨k, some i⟩]) := by
  have hempty : nameOf a = "" ↔ shortened a = [] :=
    Address.render_eq_empty_iff fun s hs => ha s (mem_of_mem_shortened hs)
  have hroot : nameOf (a ++ [⟨k, none⟩]) = root ↔ shortened a = [] ∧ k = root := by
    rw [nameOf_key, join_eq_root_iff, hempty]
  have helement : nameOf (a ++ [⟨k, some i⟩]) =
      if shortened a = [] ∧ k = root then "" else element (nameOf (a ++ [⟨k, none⟩])) i := by
    rw [nameOf, shortened_element]
    split
    · rfl
    · rw [Address.render_element, nameOf_key]
      rfl
  simp only [itemPath, helement, hroot]

def eventsAt (file : Value) (a : Address) :
    List (Address × List Value) → Except Failure (List Entity)
  | [] => .ok []
  | p :: rest => do
    let here ← events (nameOf (a ++ p.1)) file 0 p.2
    return here ++ (← eventsAt file a rest)

theorem eventsAt_append (a : Address) (found later : List (Address × List Value)) :
    eventsAt file a (found ++ later) = (do
      let here ← eventsAt file a found
      return here ++ (← eventsAt file a later)) := by
  induction found with
  | nil =>
    rw [List.nil_append, eventsAt, ok_bind]
    cases eventsAt file a later <;> rfl
  | cons p rest ih =>
    rw [List.cons_append, eventsAt, ih, eventsAt]
    cases events (nameOf (a ++ p.1)) file 0 p.2 with
    | error f => rfl
    | ok here =>
      cases eventsAt file a rest with
      | error f => rfl
      | ok es => cases eventsAt file a later <;> simp

theorem eventsAt_below (a : Address) (s : Step) (found : List (Address × List Value)) :
    eventsAt file a (found.map (below s)) = eventsAt file (a ++ [s]) found := by
  induction found with
  | nil => rfl
  | cons p rest ih =>
    rw [List.map_cons, eventsAt, ih, eventsAt, List.append_assoc]
    rfl

def HavePathKeys (fields : Fields) : Prop :=
  ∀ f ∈ fields, (f.1 ≠ "" ∧ '[' ∉ f.1.toList ∧ ']' ∉ f.1.toList) ∧
    f.2.Throughout Value.HasPathKeys

theorem havePathKeys_of_object {fields : Fields}
    (h : (Value.object fields).Throughout Value.HasPathKeys) : HavePathKeys fields :=
  fun f hf => ⟨h.self f hf, h.of_mem_fields hf⟩

theorem isKeyed_append (ha : ∀ s ∈ a, s.IsKeyed)
    (hk : k ≠ "" ∧ '[' ∉ k.toList ∧ ']' ∉ k.toList) (index : Option Nat) :
    ∀ s ∈ a ++ [⟨k, index⟩], s.IsKeyed := by
  refine List.forall_mem_append.mpr ⟨ha, List.forall_mem_singleton.mpr ?_⟩
  exact ⟨hk.1, hk.2.1, hk.2.2⟩

mutual

theorem inFields_eq (file : Value) {a : Address} (ha : ∀ s ∈ a, s.IsKeyed) :
    ∀ fields : List (String × Value), HavePathKeys fields →
      inFields file (nameOf a) fields = eventsAt file a (arraysOf fields)
  | [], _ => rfl
  | (k, v) :: rest, h => by
    obtain ⟨⟨hk, hv⟩, hrest⟩ := List.forall_mem_cons.mp h
    rw [inFields, ← nameOf_key, inValue_eq file ha hk v hv, inFields_eq file ha rest hrest,
      arraysOf, eventsAt_append]

theorem inValue_eq (file : Value) {a : Address} (ha : ∀ s ∈ a, s.IsKeyed) {k : String}
    (hk : k ≠ "" ∧ '[' ∉ k.toList ∧ ']' ∉ k.toList) : ∀ v : Value,
    v.Throughout Value.HasPathKeys →
      inValue file (nameOf (a ++ [⟨k, none⟩])) v = eventsAt file a (arraysAt k v)
  | .list items, h => by
    have hitems := inItems_eq file ha hk 0 items fun v hv => h.of_mem_items hv
    rw [inValue, hitems, arraysAt, eventsAt]
  | .object fields, h => by
    have hfields := inFields_eq file (isKeyed_append ha hk none) fields (havePathKeys_of_object h)
    rw [inValue, hfields, arraysAt, eventsAt_below]
  | .null, _ => rfl
  | .bool _, _ => rfl
  | .int _, _ => rfl
  | .float _, _ => rfl
  | .text _, _ => rfl
  | .moment _, _ => rfl
  | .day _, _ => rfl
  | .tuple _, _ => rfl
  | .set _, _ => rfl

theorem inItems_eq (file : Value) {a : Address} (ha : ∀ s ∈ a, s.IsKeyed) {k : String}
    (hk : k ≠ "" ∧ '[' ∉ k.toList ∧ ']' ∉ k.toList) : ∀ (i : Nat) (items : List Value),
    (∀ v ∈ items, v.Throughout Value.HasPathKeys) →
      inItems file (nameOf (a ++ [⟨k, none⟩])) i items = eventsAt file a (arraysIn k i items)
  | _, [], _ => rfl
  | i, v :: rest, h => by
    obtain ⟨hv, hrest⟩ := List.forall_mem_cons.mp h
    have hlater := inItems_eq file ha hk (i + 1) rest hrest
    cases v with
    | object fields =>
      have hfields := inFields_eq file (isKeyed_append ha hk (some i)) fields
        (havePathKeys_of_object hv)
      rw [inItems, itemPath_nameOf ha, hfields, hlater, arraysIn, eventsAt_append, eventsAt_below]
    | _ => exact hlater

end

end Detected

end Timeline
