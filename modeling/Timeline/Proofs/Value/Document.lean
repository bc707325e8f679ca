import Timeline.Path.Basic
import Timeline.Proofs.Outcome
import Timeline.Proofs.Value.Fields
import Timeline.Time.Reading

/-! # Parts of documents

A value is a part of another one if it is found in it at any depth. What is asked of a document is
asked of each of its parts: it consists of the kinds of JSON with distinct keys, its keys can be
written in paths, its lists are short enough for their indices to be read, and its values can be
read as dates or not.
-/

namespace Timeline

namespace Value

/-- A value is found in another one, at any depth. -/
inductive PartOf : Value → Value → Prop
  | refl {v} : PartOf v v
  | item {u v items} : v ∈ items → PartOf u v → PartOf u (.list items)
  | field {u v k fields} : (k, v) ∈ fields → PartOf u v → PartOf u (.object fields)

/-- Neither a list nor an object. -/
def isScalar (v : Value) : Bool :=
  !v.isList && !v.isObject

/-- What holds of scalars, and of lists and objects if it holds of their items and of the values of
their fields, holds of all values. -/
@[elab_as_elim]
theorem induct {motive : Value → Prop} (scalar : ∀ v, v.isScalar = true → motive v)
    (list : ∀ items, (∀ v ∈ items, motive v) → motive (.list items))
    (object : ∀ fields, (∀ f ∈ fields, motive f.2) → motive (.object fields)) (v : Value) :
    motive v :=
  match v with
  | .list items => list items fun v _ => induct scalar list object v
  | .object fields => object fields fun (_, v) hf =>
    have := List.sizeOf_lt_of_mem hf
    induct scalar list object v
  | .null | .bool _ | .int _ | .float _ | .text _ | .moment _ | .day _ | .tuple _ | .set _ =>
    scalar _ rfl
termination_by v
decreasing_by
  all_goals simp_wf
  · have := List.sizeOf_lt_of_mem ‹v ∈ items›
    omega
  · rw [Prod.mk.sizeOf_spec] at this
    omega

/-- All parts of a value have a property. -/
def Throughout (p : Value → Prop) (v : Value) : Prop :=
  ∀ u, PartOf u v → p u

section Throughout

variable {p : Value → Prop} {v : Value} {items : List Value} {fields : Fields}

theorem Throughout.self (h : Throughout p v) : p v :=
  h v .refl

theorem Throughout.mono {q : Value → Prop} (h : Throughout p v) (hpq : ∀ u, p u → q u) :
    Throughout q v :=
  fun u hu => hpq u (h u hu)

@[simp] theorem throughout_null_iff : Throughout p .null ↔ p .null := by
  refine ⟨Throughout.self, ?_⟩
  rintro h _ ⟨⟩
  exact h

@[simp] theorem throughout_bool_iff {b : Bool} : Throughout p (.bool b) ↔ p (.bool b) := by
  refine ⟨Throughout.self, ?_⟩
  rintro h _ ⟨⟩
  exact h

@[simp] theorem throughout_int_iff {n : Int} : Throughout p (.int n) ↔ p (.int n) := by
  refine ⟨Throughout.self, ?_⟩
  rintro h _ ⟨⟩
  exact h

@[simp] theorem throughout_text_iff {s : String} : Throughout p (.text s) ↔ p (.text s) := by
  refine ⟨Throughout.self, ?_⟩
  rintro h _ ⟨⟩
  exact h

@[simp] theorem throughout_list_iff :
    Throughout p (.list items) ↔ p (.list items) ∧ ∀ v ∈ items, Throughout p v := by
  constructor
  · exact fun h => ⟨h.self, fun _ hv u hu => h u (.item hv hu)⟩
  · rintro ⟨hself, hitems⟩ u hu
    cases hu with
    | refl => exact hself
    | item hv hu => exact hitems _ hv u hu

@[simp] theorem throughout_object_iff :
    Throughout p (.object fields) ↔ p (.object fields) ∧ ∀ f ∈ fields, Throughout p f.2 := by
  constructor
  · exact fun h => ⟨h.self, fun _ hv u hu => h u (.field hv hu)⟩
  · rintro ⟨hself, hfields⟩ u hu
    cases hu with
    | refl => exact hself
    | field hv hu => exact hfields _ hv u hu

theorem Throughout.of_mem_items (h : Throughout p (.list items)) (hv : v ∈ items) :
    Throughout p v :=
  fun u hu => h u (.item hv hu)

theorem Throughout.of_mem_fields {k : String} (h : Throughout p (.object fields))
    (hv : (k, v) ∈ fields) : Throughout p v :=
  fun u hu => h u (.field hv hu)

theorem Throughout.of_get? {w : Value} {k : String} (h : Throughout p v)
    (hw : v.fields.get? k = some w) : Throughout p w := by
  cases v with
  | object fields => exact h.of_mem_fields (Fields.mem_of_get? hw)
  | _ => cases hw

theorem Throughout.orNull_get? (h : Throughout p v) (hnull : p .null) (k : String) :
    Throughout p (orNull (v.fields.get? k)) := by
  cases hget : v.fields.get? k with
  | none => exact throughout_null_iff.mpr hnull
  | some w => exact h.of_get? hget

end Throughout

/-- A value of a kind of JSON; the keys of an object are distinct. -/
def IsPlain : Value → Prop
  | .object fields => (fields.map (·.1)).Nodup
  | .moment _ => False
  | .day _ => False
  | .tuple _ => False
  | .set _ => False
  | _ => True

def KeysAre (p : String → Prop) (v : Value) : Prop :=
  ∀ f ∈ v.fields, p f.1

/-- The keys of an object are not empty, have no brackets and are not the path of the root. -/
def HasWritableKeys : Value → Prop
  | .object fields =>
    ∀ f ∈ fields, f.1 ≠ "" ∧ '[' ∉ f.1.toList ∧ ']' ∉ f.1.toList ∧ f.1 ≠ Path.root
  | _ => True

/-- The indices of a list have no more digits than are read. -/
def HasShortIndices : Value → Prop
  | .list items => ∀ i < items.length, (Nat.toDigits 10 i).length ≤ Json.digitLimit
  | _ => True

/-- Reading a value as a date does not fail. -/
def CanBeRead (v : Value) : Prop :=
  ∃ t, v.instant = .ok t

/-- Documents in which arrays can be found by their paths. -/
structure IsSearchable (v : Value) : Prop where
  plain : Throughout IsPlain v
  keys : Throughout HasWritableKeys v
  indices : Throughout HasShortIndices v
  dates : Throughout CanBeRead v

namespace IsSearchable

variable {v : Value} {items : List Value} {fields : Fields} {k : String}

theorem of_mem_items (h : IsSearchable (.list items)) (hv : v ∈ items) : v.IsSearchable where
  plain := h.plain.of_mem_items hv
  keys := h.keys.of_mem_items hv
  indices := h.indices.of_mem_items hv
  dates := h.dates.of_mem_items hv

theorem of_mem_fields (h : IsSearchable (.object fields)) (hv : (k, v) ∈ fields) :
    v.IsSearchable where
  plain := h.plain.of_mem_fields hv
  keys := h.keys.of_mem_fields hv
  indices := h.indices.of_mem_fields hv
  dates := h.dates.of_mem_fields hv

theorem nodup (h : IsSearchable (.object fields)) : (fields.map (·.1)).Nodup :=
  h.plain.self

end IsSearchable

end Value

end Timeline
