import Timeline.Proofs.Extraction.Merge
import Timeline.Proofs.Outcome
import Timeline.Proofs.Value.Same

/-! # Merging as a union

Merging gives the union of some groups by key, in which the first entity of a key wins. It does not
matter how the entities are split into groups, nor whether groups have been merged before.
-/

namespace Timeline.Entity

namespace Key

variable {j k l : Key}

theorem unhashable?_eq_none_iff :
    k.unhashable? = none ↔ k.file.unhashable? = none ∧ k.array.unhashable? = none := by
  rw [unhashable?, Option.or_eq_none_iff]

theorem same_iff_parts :
    j.same k = true ↔
      (j.file.same k.file = true ∧ j.array.same k.array = true) ∧ j.id = k.id := by
  rw [same, Bool.and_eq_true, Bool.and_eq_true, beq_iff_eq]

section Hashable

variable (hj : j.unhashable? = none) (h : j.same k = true)

include hj h

theorem same_symm : k.same j = true := by
  obtain ⟨hfile, harray⟩ := unhashable?_eq_none_iff.mp hj
  obtain ⟨⟨hfiles, harrays⟩, hids⟩ := same_iff_parts.mp h
  exact same_iff_parts.mpr
    ⟨⟨Value.same_symm hfile hfiles, Value.same_symm harray harrays⟩, hids.symm⟩

theorem same_trans (h' : k.same l = true) : j.same l = true := by
  obtain ⟨hfile, harray⟩ := unhashable?_eq_none_iff.mp hj
  obtain ⟨⟨hfiles, harrays⟩, hids⟩ := same_iff_parts.mp h
  obtain ⟨⟨hfiles', harrays'⟩, hids'⟩ := same_iff_parts.mp h'
  exact same_iff_parts.mpr ⟨⟨Value.same_trans hfile hfiles hfiles',
    Value.same_trans harray harrays harrays'⟩, hids.trans hids'⟩

end Hashable

end Key

/-- All entities have keys that can be compared. -/
def AreKeyed (entities : List Entity) : Prop :=
  ∀ e ∈ entities, e.key.unhashable? = none

variable {seen seen' : List Key} {entities xs ys : List Entity}

theorem any_same_append (seen : List Key) (j k : Key) :
    (seen ++ [j]).any (·.same k) = (seen.any (·.same k) || j.same k) := by
  rw [List.any_append, List.any_cons, List.any_nil, Bool.or_false]

theorem firstOfKey_append_eq (seen : List Key) (xs ys : List Entity) :
    firstOfKey seen (xs ++ ys) =
      firstOfKey seen xs ++ firstOfKey (seen ++ (firstOfKey seen xs).map (·.key)) ys := by
  induction xs generalizing seen with
  | nil => simp [firstOfKey]
  | cons x xs ih =>
    rw [List.cons_append, firstOfKey, firstOfKey]
    split
    · exact ih seen
    · rw [ih, List.cons_append, List.map_cons, List.append_assoc, List.singleton_append]

/-- Taking the first of each key before is no loss, if no key was seen then that is not seen now. -/
theorem firstOfKey_firstOfKey (hseen : ∀ j ∈ seen, j.unhashable? = none)
    (hkeyed : AreKeyed entities)
    (hsub : ∀ k : Key, seen'.any (·.same k) = true → seen.any (·.same k) = true) :
    firstOfKey seen (firstOfKey seen' entities) = firstOfKey seen entities := by
  induction entities generalizing seen seen' with
  | nil => rfl
  | cons e rest ih =>
    obtain ⟨he, hrest⟩ := List.forall_mem_cons.mp hkeyed
    by_cases hold : seen'.any (·.same e.key) = true
    · rw [firstOfKey, if_pos hold, firstOfKey, if_pos (hsub _ hold)]
      exact ih hseen hrest hsub
    · rw [firstOfKey, if_neg hold, firstOfKey, firstOfKey]
      split
      · rename_i hknown
        refine ih hseen hrest fun k hk => ?_
        rw [any_same_append, Bool.or_eq_true] at hk
        rcases hk with hk | hk
        · exact hsub k hk
        · obtain ⟨j, hj, hsame⟩ := List.any_eq_true.mp hknown
          exact List.any_eq_true.mpr ⟨j, hj, Key.same_trans (hseen j hj) hsame hk⟩
      · have hseen' := List.forall_mem_append.mpr ⟨hseen, List.forall_mem_singleton.mpr he⟩
        refine congrArg (List.cons e) (ih hseen' hrest fun k hk => ?_)
        rw [any_same_append, Bool.or_eq_true] at hk ⊢
        exact hk.imp_left (hsub k)

/-- The entity of a key is the first one that has it, unless the key was seen before. -/
theorem find?_firstOfKey (hseen : ∀ j ∈ seen, j.unhashable? = none) (hkeyed : AreKeyed entities)
    (k : Key) :
    (firstOfKey seen entities).find? (·.key.same k) =
      if seen.any (·.same k) then none else entities.find? (·.key.same k) := by
  induction entities generalizing seen with
  | nil => simp [firstOfKey]
  | cons e rest ih =>
    obtain ⟨he, hrest⟩ := List.forall_mem_cons.mp hkeyed
    rw [firstOfKey, List.find?_cons]
    split
    · rename_i hknown
      rw [ih hseen hrest]
      split
      · rfl
      · rename_i hnew
        have hother : e.key.same k = false := by
          rw [← Bool.not_eq_true]
          intro hsame
          obtain ⟨j, hj, hje⟩ := List.any_eq_true.mp hknown
          exact hnew (List.any_eq_true.mpr ⟨j, hj, Key.same_trans (hseen j hj) hje hsame⟩)
        rw [hother]
    · rename_i hnew
      rw [List.find?_cons]
      cases hsame : e.key.same k with
      | true =>
        have hfree : ¬seen.any (·.same k) = true := by
          intro hknown
          obtain ⟨j, hj, hjk⟩ := List.any_eq_true.mp hknown
          exact hnew (List.any_eq_true.mpr
            ⟨j, hj, Key.same_trans (hseen j hj) hjk (Key.same_symm he hsame)⟩)
        rw [if_neg hfree]
      | false =>
        have hseen' := List.forall_mem_append.mpr ⟨hseen, List.forall_mem_singleton.mpr he⟩
        rw [ih hseen' hrest, any_same_append, hsame, Bool.or_false]

theorem covers_firstOfKey (seen : List Key) {e : Entity} (he : e ∈ entities) :
    e ∈ firstOfKey seen entities ∨ seen.any (·.same e.key) = true ∨
      ∃ m ∈ firstOfKey seen entities, m.key.same e.key = true := by
  induction entities generalizing seen with
  | nil => cases he
  | cons d rest ih =>
    unfold firstOfKey
    split
    · rename_i hknown
      rcases List.mem_cons.mp he with rfl | he
      · exact .inr (.inl hknown)
      · exact ih seen he
    · rcases List.mem_cons.mp he with rfl | he
      · exact .inl List.mem_cons_self
      · rcases ih (seen ++ [d.key]) he with hkept | hknown | ⟨m, hm, hsame⟩
        · exact .inl (List.mem_cons_of_mem d hkept)
        · rw [any_same_append, Bool.or_eq_true] at hknown
          rcases hknown with hknown | hsame
          · exact .inr (.inl hknown)
          · exact .inr (.inr ⟨d, List.mem_cons_self, hsame⟩)
        · exact .inr (.inr ⟨m, List.mem_cons_of_mem d hm, hsame⟩)

theorem firstOfKey_self (h : AreKeyed entities) :
    firstOfKey [] (firstOfKey [] entities) = firstOfKey [] entities :=
  firstOfKey_firstOfKey (List.forall_mem_nil _) h fun _ hk => hk

theorem firstOfKey_parts (hxs : AreKeyed xs) (hys : AreKeyed ys) :
    firstOfKey [] (firstOfKey [] xs ++ firstOfKey [] ys) = firstOfKey [] (xs ++ ys) := by
  have hseen : ∀ j ∈ (firstOfKey [] xs).map (·.key), j.unhashable? = none :=
    List.forall_mem_map.mpr fun e he => hxs e (mem_of_mem_firstOfKey he)
  have hnone : ∀ {k : Key} {p : Prop}, ([] : List Key).any (·.same k) = true → p := by
    intro k p h
    cases h
  rw [firstOfKey_append_eq, firstOfKey_append_eq, firstOfKey_self hxs, List.nil_append,
    firstOfKey_firstOfKey hseen hys fun _ => hnone]

/-- Two entities have one key: the same file, the same array and the same identity. -/
def SharesKey (e f : Entity) : Prop :=
  e.file.same f.file = true ∧ e.array.same f.array = true ∧ e.id = f.id

theorem key_same_iff {e f : Entity} : e.key.same f.key = true ↔ SharesKey e f :=
  Key.same_iff_parts.trans and_assoc

theorem areKeyed_iff : AreKeyed entities ↔
    ∀ e ∈ entities, e.file.unhashable? = none ∧ e.array.unhashable? = none :=
  forall₂_congr fun _ _ => Key.unhashable?_eq_none_iff

/-- A list is the union of some entities by key, in which the first entity of a key wins. -/
structure IsUnion (entities merged : List Entity) : Prop where
  /-- Only entities are in it, in their order. -/
  sublist : merged.Sublist entities
  /-- No two of them have one key. -/
  distinct : merged.Pairwise fun e f => ¬SharesKey e f
  /-- No key is lost. -/
  covers : ∀ e ∈ entities, e ∈ merged ∨ ∃ m ∈ merged, SharesKey m e
  /-- The entity of a key is the first one that has it. -/
  first : ∀ (file array : Value) (id : String),
    merged.find? (fun e => e.file.same file && e.array.same array && e.id == id) =
      entities.find? fun e => e.file.same file && e.array.same array && e.id == id

theorem isUnion_firstOfKey (h : AreKeyed entities) :
    IsUnion entities (firstOfKey [] entities) where
  sublist := firstOfKey_sublist [] entities
  distinct := by
    refine (firstOfKey_eq_self_iff.mp (firstOfKey_self h)).2.imp fun hne hshares => ?_
    rw [key_same_iff.mpr hshares] at hne
    cases hne
  covers e he := by
    simp only [← key_same_iff]
    rcases covers_firstOfKey [] he with hkept | hknown | hcovered
    · exact .inl hkept
    · cases hknown
    · exact .inr hcovered
  first file array id := find?_firstOfKey (List.forall_mem_nil _) h ⟨file, array, id⟩

variable {G H : List (List Entity)} {merged : List Entity}

theorem merge_eq_ok_iff_flatten :
    merge G = .ok merged ↔ AreKeyed G.flatten ∧ merged = firstOfKey [] G.flatten := by
  rw [merge_eq_ok_iff]
  refine and_congr_left fun _ => ?_
  constructor
  · rintro h e he
    obtain ⟨group, hgroup, he⟩ := List.mem_flatten.mp he
    exact h group hgroup e he
  · rintro h group hgroup e he
    exact h e (List.mem_flatten.mpr ⟨group, hgroup, he⟩)

theorem merge_eq_error_iff {f : Failure} :
    merge G = .error f ↔
      ∃ kind, G.flatten.findSome? (·.key.unhashable?) = some kind ∧ f = .unhashable kind := by
  unfold merge
  cases G.flatten.findSome? (·.key.unhashable?) <;> simp [eq_comm]

theorem AreKeyed.firstOfKey (h : AreKeyed entities) (seen : List Key) :
    AreKeyed (firstOfKey seen entities) :=
  fun e he => h e (mem_of_mem_firstOfKey he)

/-- Groups may be merged in two parts before. A failure is that of the first part that has one. -/
theorem merge_append (G H : List (List Entity)) :
    merge (G ++ H) = (do merge [← merge G, ← merge H]) := by
  cases hG : merge G with
  | error f =>
    obtain ⟨kind, hkind, rfl⟩ := merge_eq_error_iff.mp hG
    refine merge_eq_error_iff.mpr ⟨kind, ?_, rfl⟩
    rw [List.flatten_append, List.findSome?_append, hkind, Option.some_or]
  | ok merged =>
    obtain ⟨hkeyed, rfl⟩ := merge_eq_ok_iff_flatten.mp hG
    cases hH : merge H with
    | error f =>
      obtain ⟨kind, hkind, rfl⟩ := merge_eq_error_iff.mp hH
      refine merge_eq_error_iff.mpr ⟨kind, ?_, rfl⟩
      rw [List.flatten_append, List.findSome?_append, List.findSome?_eq_none_iff.mpr hkeyed, hkind,
        Option.none_or]
    | ok merged' =>
      obtain ⟨hkeyed', rfl⟩ := merge_eq_ok_iff_flatten.mp hH
      have hboth : AreKeyed (G.flatten ++ H.flatten) :=
        List.forall_mem_append.mpr ⟨hkeyed, hkeyed'⟩
      have hparts : AreKeyed (firstOfKey [] G.flatten ++ firstOfKey [] H.flatten) :=
        List.forall_mem_append.mpr ⟨hkeyed.firstOfKey [], hkeyed'.firstOfKey []⟩
      have hall : merge (G ++ H) = .ok (firstOfKey [] (G.flatten ++ H.flatten)) := by
        rw [merge_eq_ok_iff_flatten, List.flatten_append]
        exact ⟨hboth, rfl⟩
      have hmerged : merge [firstOfKey [] G.flatten, firstOfKey [] H.flatten] =
          .ok (firstOfKey [] (G.flatten ++ H.flatten)) := by
        rw [merge_eq_ok_iff_flatten, List.flatten_cons, List.flatten_singleton]
        exact ⟨hparts, (firstOfKey_parts hkeyed hkeyed').symm⟩
      rw [hall, ok_bind, ok_bind, hmerged]

theorem merge_of_flatten (h : H.flatten = G.flatten) : merge H = merge G := by
  rw [merge, merge, h]

theorem merge_merge (G : List (List Entity)) : (do merge [← merge G]) = merge G := by
  have hpair : ∀ merged, merge [merged, []] = merge [merged] := fun merged =>
    merge_of_flatten (by simp)
  have happend := merge_append G []
  rw [List.append_nil] at happend
  conv_rhs => rw [happend]
  cases merge G with
  | error f => rfl
  | ok merged => exact (hpair merged).symm

/-- Merging is a union by key in which the first entity wins. It returns exactly if the file and the
array of every entity can be compared; then the merged list holds, in the order of all entities, of
each key the first entity. The split into groups does not matter, and parts that have been merged
before can be merged again. -/
theorem merge_isUnion (G H : List (List Entity)) :
    ((∃ merged, merge G = .ok merged) ↔
        ∀ e ∈ G.flatten, e.file.unhashable? = none ∧ e.array.unhashable? = none) ∧
      (∀ merged, merge G = .ok merged → IsUnion G.flatten merged) ∧
      (∀ groups : List (List Entity), groups.flatten = G.flatten → merge groups = merge G) ∧
      (do merge [← merge G]) = merge G ∧
      merge (G ++ H) = (do merge [← merge G, ← merge H]) := by
  refine ⟨?_, ?_, fun groups => merge_of_flatten, merge_merge G, merge_append G H⟩
  · rw [← areKeyed_iff]
    constructor
    · rintro ⟨merged, hmerged⟩
      exact (merge_eq_ok_iff_flatten.mp hmerged).1
    · intro hkeyed
      exact ⟨_, merge_eq_ok_iff_flatten.mpr ⟨hkeyed, rfl⟩⟩
  · rintro merged hmerged
    obtain ⟨hkeyed, rfl⟩ := merge_eq_ok_iff_flatten.mp hmerged
    exact isUnion_firstOfKey hkeyed

/-- Of two entities of one key the first one is kept, in its group and among groups. -/
example :
    let e := fun id (n : Int) =>
      (⟨id, ⟨n⟩, ⟨n⟩, .text "events", .text "a.json", .null, .null⟩ : Entity)
    ((merge [[e "a" 1, e "a" 2], [e "b" 3, e "a" 4]]).toOption.map (·.map (·.start.micros))) =
      some [1, 3] := by
  decide +kernel

end Timeline.Entity
