import Mathlib.Data.List.Induction
import Mathlib.Data.List.Nodup

/-! # Maps in the order of insertion

A map from texts whose keys keep the order in which they came in: a new value for a key leaves
the key at its place, and a new key goes to the end.
-/

namespace Timeline

/-- A map from texts with its keys in order. -/
structure OrderedMap (α : Type) where
  keys : List String
  value : String → Option α
  nodup : keys.Nodup
  mem_keys : ∀ k, k ∈ keys ↔ (value k).isSome

namespace OrderedMap

variable {α : Type}

@[ext] theorem ext {m n : OrderedMap α} (hkeys : m.keys = n.keys) (hvalue : m.value = n.value) :
    m = n := by
  cases m
  cases n
  simp_all

def values (m : OrderedMap α) : List α :=
  m.keys.filterMap m.value

def empty : OrderedMap α where
  keys := []
  value := fun _ => none
  nodup := List.nodup_nil
  mem_keys := by simp

/-- Gives a key a value. A key of the map keeps its place, any other goes to the end. -/
def insert (m : OrderedMap α) (k : String) (a : α) : OrderedMap α where
  keys := if k ∈ m.keys then m.keys else m.keys ++ [k]
  value := fun j => if j = k then some a else m.value j
  nodup := by
    split
    · exact m.nodup
    · rename_i h
      exact List.nodup_append_comm.mp (List.nodup_cons.mpr ⟨h, m.nodup⟩)
  mem_keys := by
    intro j
    have hj := m.mem_keys j
    by_cases h : j = k
    · subst h
      split <;> simp_all
    · split <;> simp [h, hj]

def erase (m : OrderedMap α) (k : String) : OrderedMap α where
  keys := m.keys.filter (· ≠ k)
  value := fun j => if j = k then none else m.value j
  nodup := m.nodup.filter _
  mem_keys := by
    intro j
    by_cases h : j = k <;> simp [h, m.mem_keys]

/-- The last value that some pairs give to a key. -/
def lastValue (pairs : List (String × α)) (k : String) : Option α :=
  ((pairs.filter (·.1 = k)).getLast?).map (·.2)

theorem lastValue_append (pairs : List (String × α)) (k : String) (a : α) (j : String) :
    lastValue (pairs ++ [(k, a)]) j = if j = k then some a else lastValue pairs j := by
  by_cases h : k = j
  · simp [lastValue, h]
  · simp [lastValue, h, Ne.symm (Ne.intro h)]

theorem lastValue_cons (pairs : List (String × α)) (k : String) (a : α) (j : String) :
    lastValue ((k, a) :: pairs) j = (lastValue pairs j).or (if j = k then some a else none) := by
  induction pairs using List.reverseRecOn with
  | nil => exact lastValue_append [] k a j
  | append_singleton pairs p ih =>
    obtain ⟨l, b⟩ := p
    rw [← List.cons_append, lastValue_append, lastValue_append, ih]
    split <;> rfl

theorem exists_split_of_lastValue {pairs : List (String × α)} {k : String} {a : α}
    (h : lastValue pairs k = some a) :
    ∃ before after, pairs = before ++ (k, a) :: after ∧ ∀ p ∈ after, p.1 ≠ k := by
  induction pairs using List.reverseRecOn with
  | nil => cases h
  | append_singleton pairs p ih =>
    obtain ⟨j, b⟩ := p
    rw [lastValue_append] at h
    split at h
    · rename_i hj
      cases hj
      cases h
      exact ⟨pairs, [], rfl, by simp⟩
    · rename_i hj
      obtain ⟨before, after, rfl, hafter⟩ := ih h
      refine ⟨before, after ++ [(j, b)], by simp, ?_⟩
      simp only [List.mem_append, List.mem_singleton]
      rintro p (hp | rfl)
      · exact hafter p hp
      · exact Ne.symm hj

theorem isSome_lastValue {pairs : List (String × α)} {k : String} :
    (lastValue pairs k).isSome ↔ k ∈ pairs.map (·.1) := by
  induction pairs using List.reverseRecOn with
  | nil => simp [lastValue]
  | append_singleton pairs p ih =>
    obtain ⟨j, a⟩ := p
    rw [lastValue_append]
    by_cases h : k = j
    · simp [h]
    · simp [h, ih]

theorem eraseDups_snoc (keys : List String) (k : String) :
    (keys ++ [k]).eraseDups =
      if k ∈ keys.eraseDups then keys.eraseDups else keys.eraseDups ++ [k] := by
  rw [List.eraseDups_append]
  by_cases hk : k ∈ keys
  · simp [List.removeAll, hk]
  · simp [List.removeAll, hk, List.eraseDups_cons]

theorem nodup_eraseDups (keys : List String) : keys.eraseDups.Nodup := by
  induction keys using List.reverseRecOn with
  | nil => exact List.nodup_nil
  | append_singleton keys k ih =>
    rw [eraseDups_snoc]
    split
    · exact ih
    · rename_i h
      exact List.nodup_append_comm.mp (List.nodup_cons.mpr ⟨h, ih⟩)

/-- The map of some pairs: each key at its first place and with its last value. -/
def ofPairs (pairs : List (String × α)) : OrderedMap α where
  keys := (pairs.map (·.1)).eraseDups
  value := lastValue pairs
  nodup := nodup_eraseDups _
  mem_keys := by
    intro k
    rw [List.mem_eraseDups, isSome_lastValue]

theorem ofPairs_snoc (pairs : List (String × α)) (k : String) (a : α) :
    ofPairs (pairs ++ [(k, a)]) = (ofPairs pairs).insert k a := by
  apply ext
  · change ((pairs ++ [(k, a)]).map (·.1)).eraseDups = _
    rw [List.map_append, List.map_singleton, eraseDups_snoc]
    rfl
  · funext j
    exact lastValue_append pairs k a j

end OrderedMap

end Timeline
