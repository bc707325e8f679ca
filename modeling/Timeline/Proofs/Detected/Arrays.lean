import Mathlib.Data.List.Nodup
import Timeline.Path.Resolve
import Timeline.Proofs.Path.Written
import Timeline.Proofs.Value.Document

/-! # Arrays in documents

The arrays that can be reached through objects and through the objects in such arrays, each with
its address. In a searchable document walking along the address of an array leads to the array,
and the list of all arrays holds every address once.
-/

namespace Timeline.Detected

open Timeline.Path

/-- An array is reached from an object: it is the value of a field, or it is reached from the value
of a field or from an element of a field that is an array. -/
inductive ArrayAt : Fields → Address → List Value → Prop
  | value {fields k items} : (k, .list items) ∈ fields → ArrayAt fields [⟨k, none⟩] items
  | object {fields k inner a items} : (k, .object inner) ∈ fields → ArrayAt inner a items →
    ArrayAt fields (⟨k, none⟩ :: a) items
  | element {fields k elements i inner a items} : (k, .list elements) ∈ fields →
    elements[i]? = some (.object inner) → ArrayAt inner a items →
    ArrayAt fields (⟨k, some i⟩ :: a) items

variable {fields : Fields} {a : Address} {items : List Value}

theorem ArrayAt.walk (h : ArrayAt fields a items)
    (hplain : (Value.object fields).Throughout Value.IsPlain) :
    a.walk (.object fields) = some (.list items) := by
  induction h with
  | value hmem =>
    have hget := Fields.get?_of_mem hplain.self hmem
    exact Option.bind_eq_some_iff.mpr ⟨_, hget, rfl⟩
  | object hmem _ ih =>
    have hget := Fields.get?_of_mem hplain.self hmem
    exact Option.bind_eq_some_iff.mpr ⟨_, hget, ih (hplain.of_mem_fields hmem)⟩
  | element hmem helement _ ih =>
    have hget := Fields.get?_of_mem hplain.self hmem
    have hinner := (hplain.of_mem_fields hmem).of_mem_items (List.mem_of_getElem? helement)
    refine Option.bind_eq_some_iff.mpr ⟨_, ?_, ih hinner⟩
    exact Option.bind_eq_some_iff.mpr ⟨_, hget, helement⟩

theorem isWritable_step (h : (Value.object fields).IsSearchable) {k : String} {v : Value}
    (hv : (k, v) ∈ fields) {index : Option Nat}
    (hindex : ∀ i ∈ index, (Nat.toDigits 10 i).length ≤ Json.digitLimit) :
    (Step.mk k index).IsWritable ∧ k ≠ root := by
  obtain ⟨hne, hopening, hclosing, hroot⟩ := h.keys.self _ hv
  exact ⟨⟨hne, hopening, hclosing, hindex⟩, hroot⟩

theorem ArrayAt.isWritable_steps (h : ArrayAt fields a items)
    (hdocument : (Value.object fields).IsSearchable) :
    ∀ s ∈ a, s.IsWritable ∧ s.key ≠ root := by
  induction h with
  | value hf =>
    exact List.forall_mem_singleton.mpr (isWritable_step hdocument hf (by simp))
  | object hf _ ih =>
    have hrest := ih (hdocument.of_mem_fields hf)
    exact List.forall_mem_cons.mpr ⟨isWritable_step hdocument hf (by simp), hrest⟩
  | element hf hi _ ih =>
    have helements := hdocument.of_mem_fields hf
    obtain ⟨hlt, -⟩ := List.getElem?_eq_some_iff.mp hi
    have hindex := helements.indices.self _ hlt
    have hrest := ih (helements.of_mem_items (List.mem_of_getElem? hi))
    exact List.forall_mem_cons.mpr ⟨isWritable_step hdocument hf (by simpa using hindex), hrest⟩

theorem ArrayAt.isWritable (h : ArrayAt fields a items)
    (hdocument : (Value.object fields).IsSearchable) : a.IsWritable where
  ne_nil := by cases h <;> simp
  step s hs := (h.isWritable_steps hdocument s hs).1

theorem ArrayAt.isSearchable (h : ArrayAt fields a items)
    (hdocument : (Value.object fields).IsSearchable) : (Value.list items).IsSearchable := by
  induction h with
  | value hf => exact hdocument.of_mem_fields hf
  | object hf _ ih => exact ih (hdocument.of_mem_fields hf)
  | element hf hi _ ih =>
    exact ih ((hdocument.of_mem_fields hf).of_mem_items (List.mem_of_getElem? hi))

def below (s : Step) (p : Address × List Value) : Address × List Value :=
  (s :: p.1, p.2)

mutual

/-- The arrays reached from an object, in the order of the search. -/
def arraysOf : List (String × Value) → List (Address × List Value)
  | [] => []
  | (k, v) :: rest => arraysAt k v ++ arraysOf rest

def arraysAt (k : String) : Value → List (Address × List Value)
  | .list items => ([⟨k, none⟩], items) :: arraysIn k 0 items
  | .object fields => (arraysOf fields).map (below ⟨k, none⟩)
  | _ => []

def arraysIn (k : String) (i : Nat) : List Value → List (Address × List Value)
  | [] => []
  | .object fields :: rest => (arraysOf fields).map (below ⟨k, some i⟩) ++ arraysIn k (i + 1) rest
  | _ :: rest => arraysIn k (i + 1) rest

end

variable {p : Address × List Value} {k : String} {i : Nat}

theorem mem_arraysOf_iff_exists : p ∈ arraysOf fields ↔ ∃ f ∈ fields, p ∈ arraysAt f.1 f.2 := by
  induction fields with
  | nil => simp [arraysOf]
  | cons f rest ih =>
    obtain ⟨k, v⟩ := f
    simp [arraysOf, ih]

theorem mem_arraysIn_iff_exists {elements : List Value} :
    p ∈ arraysIn k i elements ↔ ∃ j inner, elements[j]? = some (.object inner) ∧
      ∃ q ∈ arraysOf inner, below ⟨k, some (i + j)⟩ q = p := by
  induction elements generalizing i with
  | nil => simp [arraysIn]
  | cons v rest ih =>
    have hshift : (∃ j inner, (v :: rest)[j]? = some (.object inner) ∧
          ∃ q ∈ arraysOf inner, below ⟨k, some (i + j)⟩ q = p) ↔
        (∃ inner, v = .object inner ∧ ∃ q ∈ arraysOf inner, below ⟨k, some i⟩ q = p) ∨
          p ∈ arraysIn k (i + 1) rest := by
      rw [ih]
      constructor
      · rintro ⟨j, inner, hj, hq⟩
        cases j with
        | zero => exact .inl ⟨inner, by simpa using hj, hq⟩
        | succ j => exact .inr ⟨j, inner, by simpa using hj, by rwa [Nat.add_right_comm]⟩
      · rintro (⟨inner, rfl, hq⟩ | ⟨j, inner, hj, hq⟩)
        · exact ⟨0, inner, rfl, hq⟩
        · exact ⟨j + 1, inner, by simpa using hj, by rwa [Nat.add_right_comm] at hq⟩
    rw [hshift]
    cases v <;> simp [arraysIn]

theorem length_below (s : Step) (p : Address × List Value) :
    p.1.length < (below s p).1.length :=
  Nat.lt_succ_self _

theorem arrayAt_of_mem_arraysOf {fields : Fields} {p : Address × List Value}
    (h : p ∈ arraysOf fields) : ArrayAt fields p.1 p.2 := by
  obtain ⟨⟨k, v⟩, hf, hp⟩ := mem_arraysOf_iff_exists.mp h
  cases v with
  | list elements =>
    rcases List.mem_cons.mp hp with rfl | hp
    · exact .value hf
    · obtain ⟨j, inner, hj, q, hq, heq⟩ := mem_arraysIn_iff_exists.mp hp
      have hshorter : q.1.length < p.1.length := heq ▸ length_below _ q
      have hinner := arrayAt_of_mem_arraysOf hq
      rw [← heq]
      exact .element hf (by simpa using hj) hinner
  | object inner =>
    obtain ⟨q, hq, heq⟩ := List.mem_map.mp hp
    have hshorter : q.1.length < p.1.length := heq ▸ length_below _ q
    have hinner := arrayAt_of_mem_arraysOf hq
    rw [← heq]
    exact .object hf hinner
  | _ => cases hp
termination_by p.1.length

theorem mem_arraysOf_iff : (a, items) ∈ arraysOf fields ↔ ArrayAt fields a items := by
  constructor
  · exact fun h => arrayAt_of_mem_arraysOf h
  · intro h
    induction h with
    | value hf => exact mem_arraysOf_iff_exists.mpr ⟨_, hf, List.mem_cons_self⟩
    | object hf _ ih => exact mem_arraysOf_iff_exists.mpr ⟨_, hf, List.mem_map.mpr ⟨_, ih, rfl⟩⟩
    | element hf hi _ ih =>
      refine mem_arraysOf_iff_exists.mpr ⟨_, hf, List.mem_cons_of_mem _ ?_⟩
      exact mem_arraysIn_iff_exists.mpr ⟨_, _, hi, _, ih, by simp [below]⟩

theorem nodup_below {found : List (Address × List Value)} (h : (found.map (·.1)).Nodup) (s : Step) :
    ((found.map (below s)).map (·.1)).Nodup := by
  have hmap : (found.map (below s)).map (·.1) = (found.map (·.1)).map (s :: ·) := by
    simp [below]
  rw [hmap]
  exact h.map List.cons_injective

theorem nodup_append {found later : List (Address × List Value)} (hfound : (found.map (·.1)).Nodup)
    (hlater : (later.map (·.1)).Nodup) (hne : ∀ p ∈ found, ∀ q ∈ later, p.1 ≠ q.1) :
    ((found ++ later).map (·.1)).Nodup := by
  rw [List.map_append]
  refine List.nodup_append.mpr ⟨hfound, hlater, ?_⟩
  intro a ha b hb
  obtain ⟨p, hp, rfl⟩ := List.mem_map.mp ha
  obtain ⟨q, hq, rfl⟩ := List.mem_map.mp hb
  exact hne p hp q hq

theorem exists_cons_of_mem_arraysAt {v : Value} (h : p ∈ arraysAt k v) :
    ∃ i a, p.1 = ⟨k, i⟩ :: a := by
  cases v with
  | list elements =>
    rcases List.mem_cons.mp h with rfl | h
    · exact ⟨_, _, rfl⟩
    · obtain ⟨j, inner, -, q, -, rfl⟩ := mem_arraysIn_iff_exists.mp h
      exact ⟨_, _, rfl⟩
  | object inner =>
    obtain ⟨q, -, rfl⟩ := List.mem_map.mp h
    exact ⟨_, _, rfl⟩
  | _ => cases h

mutual

theorem nodup_arraysOf : ∀ fields : List (String × Value), (fields.map (·.1)).Nodup →
    (∀ f ∈ fields, f.2.Throughout Value.IsPlain) → ((arraysOf fields).map (·.1)).Nodup
  | [], _, _ => List.nodup_nil
  | (k, v) :: rest, hkeys, hplain => by
    obtain ⟨hk, hrest⟩ := List.nodup_cons.mp hkeys
    obtain ⟨hv, hplain⟩ := List.forall_mem_cons.mp hplain
    refine nodup_append (nodup_arraysAt k v hv) (nodup_arraysOf rest hrest hplain) ?_
    intro p hp q hq heq
    obtain ⟨f, hf, hq⟩ := mem_arraysOf_iff_exists.mp hq
    obtain ⟨i, a, hpa⟩ := exists_cons_of_mem_arraysAt hp
    obtain ⟨j, b, hqb⟩ := exists_cons_of_mem_arraysAt hq
    rw [hpa, hqb] at heq
    cases heq
    exact hk (List.mem_map.mpr ⟨f, hf, rfl⟩)

theorem nodup_arraysAt (k : String) : ∀ v : Value, v.Throughout Value.IsPlain →
    ((arraysAt k v).map (·.1)).Nodup
  | .list items, h => by
    refine List.nodup_cons.mpr ⟨?_, nodup_arraysIn k 0 items fun _ hv => h.of_mem_items hv⟩
    intro hmem
    obtain ⟨p, hp, heq⟩ := List.mem_map.mp hmem
    obtain ⟨j, inner, -, q, -, rfl⟩ := mem_arraysIn_iff_exists.mp hp
    cases heq
  | .object fields, h =>
    nodup_below (nodup_arraysOf fields h.self fun _ hf => h.of_mem_fields hf) ⟨k, none⟩
  | .null, _ => List.nodup_nil
  | .bool _, _ => List.nodup_nil
  | .int _, _ => List.nodup_nil
  | .float _, _ => List.nodup_nil
  | .text _, _ => List.nodup_nil
  | .moment _, _ => List.nodup_nil
  | .day _, _ => List.nodup_nil
  | .tuple _, _ => List.nodup_nil
  | .set _, _ => List.nodup_nil

theorem nodup_arraysIn (k : String) : ∀ (i : Nat) (items : List Value),
    (∀ v ∈ items, v.Throughout Value.IsPlain) → ((arraysIn k i items).map (·.1)).Nodup
  | _, [], _ => List.nodup_nil
  | i, v :: rest, h => by
    obtain ⟨hv, hrest⟩ := List.forall_mem_cons.mp h
    have hlater := nodup_arraysIn k (i + 1) rest hrest
    cases v with
    | object inner =>
      have hinner := nodup_arraysOf inner hv.self fun _ hf => hv.of_mem_fields hf
      refine nodup_append (nodup_below hinner _) hlater ?_
      intro p hp q hq heq
      obtain ⟨p, -, rfl⟩ := List.mem_map.mp hp
      obtain ⟨j, inner, -, q, -, rfl⟩ := mem_arraysIn_iff_exists.mp hq
      simp only [below, List.cons.injEq, Step.mk.injEq, Option.some.injEq, true_and] at heq
      omega
    | _ => exact hlater

end

end Timeline.Detected
