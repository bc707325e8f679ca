import Timeline.Proofs.Path.Keys

/-! # Paths that lead somewhere

A path whose indices are not too long has a problem, or it leads to a value in some document, and
not both. There is one exception: a single key with a closing bracket is resolved as it is, although
it is not the segment of a step.
-/

namespace Timeline.Path

variable {path segment : String} {segments : List String} {v : Value}

/-- A document with a value one step below it. -/
def Step.around (s : Step) (v : Value) : Value :=
  .object [(s.key, match s.index with
    | none => v
    | some i => .list (List.replicate i .null ++ [v]))]

def Address.around (a : Address) (v : Value) : Value :=
  a.foldr Step.around v

theorem Step.target?_around (s : Step) (v : Value) : s.target? (s.around v) = some v := by
  obtain ⟨key, index⟩ := s
  cases index with
  | none => simp [target?, around, Value.child?]
  | some i => simp [target?, around, Value.child?, Value.item?]

theorem Address.walk_around (a : Address) (v : Value) : a.walk (a.around v) = some v := by
  induction a with
  | nil => rfl
  | cons s a ih =>
    have haround : Address.around (s :: a) v = s.around (Address.around a v) := rfl
    rw [haround, walk, Step.target?_around, Option.bind_some, ih]

theorem Step.throughout_around (s : Step) (h : v.Throughout Value.IsPlain) :
    (s.around v).Throughout Value.IsPlain := by
  obtain ⟨key, index⟩ := s
  refine Value.throughout_object_iff.mpr ⟨List.nodup_singleton key, ?_⟩
  rintro f hf
  obtain rfl := List.mem_singleton.mp hf
  cases index with
  | none => exact h
  | some i =>
    refine Value.throughout_list_iff.mpr ⟨trivial, ?_⟩
    rintro w hw
    rcases List.mem_append.mp hw with hw | hw
    · rw [List.eq_of_mem_replicate hw]
      exact Value.throughout_null_iff.mpr trivial
    · rwa [List.mem_singleton.mp hw]

theorem Address.throughout_around (a : Address) (h : v.Throughout Value.IsPlain) :
    (a.around v).Throughout Value.IsPlain := by
  induction a with
  | nil => exact h
  | cons s a ih => exact s.throughout_around ih

/-- If a segment has an index, it has no more digits than are read. -/
def Step.HasShortIndex (segment : String) : Prop :=
  ∀ found ∈ indexed? segment.toList, found.2.length ≤ Json.digitLimit

instance (segment : String) : Decidable (Step.HasShortIndex segment) :=
  inferInstanceAs (Decidable (∀ found ∈ indexed? segment.toList, _))

/-- The indices of a path have no more digits than are read. -/
def HasShortIndices (path : String) : Prop :=
  ∀ segment ∈ split path, Step.HasShortIndex segment

instance (path : String) : Decidable (HasShortIndices path) :=
  inferInstanceAs (Decidable (∀ segment ∈ split path, _))

theorem Step.HasShortIndex.exists_read (h : HasShortIndex segment) :
    ∃ step, Step.read segment = .ok step := by
  unfold Step.read
  dsimp only
  split
  · split
    · rename_i key digits hindexed
      rw [readNatural, if_neg (Nat.not_lt.mpr (h (key, digits) hindexed))]
      exact ⟨_, rfl⟩
    · exact ⟨none, rfl⟩
  · exact ⟨_, rfl⟩

/-- Segments with short indices are read as an address, or one of them is malformed, and then
following them leads nowhere. -/
theorem readsAs_or_malformed (h : ∀ s ∈ segments, Step.HasShortIndex s) :
    (∃ a, ReadsAs segments a) ∨
      ∃ problems, malformed segments = .ok problems ∧ problems ≠ [] ∧
        ∀ v, follow v segments = .ok none := by
  induction segments with
  | nil => exact .inl ⟨[], .nil⟩
  | cons segment rest ih =>
    obtain ⟨hsegment, hrest⟩ := List.forall_mem_cons.mp h
    obtain ⟨step, hstep⟩ := hsegment.exists_read
    cases step with
    | none =>
      obtain ⟨problems, hproblems⟩ : ∃ problems, malformed rest = .ok problems := by
        rcases ih hrest with ⟨a, ha⟩ | ⟨problems, hproblems, -, -⟩
        · exact ⟨[], ha.malformed_eq⟩
        · exact ⟨problems, hproblems⟩
      refine .inr ⟨.malformedIndex segment :: problems, ?_, List.cons_ne_nil _ _, ?_⟩
      · rw [malformed, hstep, ok_bind, hproblems]
        rfl
      · rintro v
        rw [follow, hstep]
        split <;> rfl
    | some s =>
      rcases ih hrest with ⟨a, ha⟩ | ⟨problems, hproblems, hne, hfollow⟩
      · exact .inl ⟨s :: a, .cons hstep ha⟩
      · refine .inr ⟨problems, ?_, hne, ?_⟩
        · rw [malformed, hstep, ok_bind, hproblems]
          rfl
        · rintro v
          rw [follow_cons hstep]
          cases s.target? v with
          | none => rfl
          | some w => exact hfollow w

/-- Some document has a value at a path. -/
def IsResolvable (path : String) : Prop :=
  ∃ document v, document.Throughout Value.IsPlain ∧ resolve document path = .ok (some v)

/-- A path that is a single key with a closing bracket. -/
structure IsClosedKey (path : String) : Prop where
  plain : isPlainKey path = true
  closing : ']' ∈ path.toList

theorem resolve_of_isPlainKey (hkey : isPlainKey path = true) (hne : path ≠ "")
    (hroot : path ≠ root) (document : Value) :
    resolve document path = .ok (document.child? path) := by
  by_cases hnull : document.isNull = true
  · rw [Value.isNull_iff.mp hnull]
    simp [resolve, Value.isNull, Value.child?]
  · simp [resolve, hnull, hne, hroot, hkey]

/-- A key that is written as a path as it is and resolved at once. -/
structure IsPlainPath (k : String) : Prop where
  ne_empty : k ≠ ""
  ne_root : k ≠ root
  no_point : '.' ∉ k.toList
  no_opening : '[' ∉ k.toList
  no_backslash : '\\' ∉ k.toList

namespace IsPlainPath

variable {k : String} (h : IsPlainPath k)

include h

theorem isPlainKey : isPlainKey k = true := by
  have hall : ∀ c ∈ k.toList, (c ≠ '.' ∧ c ≠ '[') ∧ c ≠ '\\' := by
    rintro c hc
    refine ⟨⟨?_, ?_⟩, ?_⟩ <;> rintro rfl
    · exact h.no_point hc
    · exact h.no_opening hc
    · exact h.no_backslash hc
  simpa [Path.isPlainKey] using hall

theorem resolve (v : Value) : resolve v k = .ok (v.fields.get? k) := by
  rw [resolve_of_isPlainKey h.isPlainKey h.ne_empty h.ne_root, Value.child?_eq]

theorem escape_eq : escape k = k := by
  have hescaped : escapeChars k.toList = k.toList :=
    escapeChars_eq_self fun c hc => ⟨fun e => h.no_point (e ▸ hc), fun e => h.no_backslash (e ▸ hc)⟩
  rw [escape, hescaped, String.ofList_toList]

theorem ofKeys_eq : ofKeys [k] = k :=
  h.escape_eq

end IsPlainPath

theorem Step.read_of_isPlainKey (hkey : isPlainKey path = true) (hclosed : ¬IsClosedKey path) :
    Step.read path = .ok (some ⟨path, none⟩) := by
  refine Step.read_key (any_isBracket_eq_false ?_ ?_)
  · exact fun hmem => (forall_of_isPlainKey hkey '[' hmem).2.1 rfl
  · exact fun hmem => hclosed ⟨hkey, hmem⟩

theorem IsClosedKey.read_eq (h : IsClosedKey path) : Step.read path = .ok none := by
  have hany : path.toList.any isBracket = true := List.any_eq_true.mpr ⟨']', h.closing, rfl⟩
  have hopening : '[' ∉ path.toList := fun hmem => (forall_of_isPlainKey h.plain '[' hmem).2.1 rfl
  simp [Step.read, hany, indexed?_eq_none hopening]

theorem IsClosedKey.ne_root (h : IsClosedKey path) : path ≠ root := by
  rintro rfl
  exact absurd h.closing (by decide)

theorem IsClosedKey.ne_empty (h : IsClosedKey path) : path ≠ "" := by
  rintro rfl
  exact absurd h.closing (by decide)

theorem ne_empty_of_split (hsegments : split path ≠ []) : path ≠ "" := by
  rintro rfl
  exact hsegments rfl

/-- Nothing but the path of the root and a single key with a closing bracket is resolved in another
way than segment by segment. -/
theorem resolve_eq_follow (hsegments : split path ≠ []) (hroot : path ≠ root)
    (hclosed : ¬IsClosedKey path) (document : Value) :
    resolve document path = follow document (split path) := by
  have hne := ne_empty_of_split hsegments
  obtain ⟨segment, rest, hsplit⟩ := List.exists_cons_of_ne_nil hsegments
  by_cases hkey : isPlainKey path = true
  · have hreads : ReadsAs [path] [⟨path, none⟩] :=
      .cons (Step.read_of_isPlainKey hkey hclosed) .nil
    rw [resolve_of_isPlainKey hkey hne hroot, split_of_isPlainKey hkey hne, hreads.follow_eq,
      Address.walk_key]
  · rw [hsplit]
    by_cases hnull : document.isNull = true
    · simp [resolve, follow, hnull]
    · simp [resolve, hnull, hne, hroot, hkey, hsplit]

theorem structureProblems_eq (hsegments : split path ≠ []) (hroot : path ≠ root) :
    structureProblems (.text path) = malformed (split path) := by
  have hne := ne_empty_of_split hsegments
  obtain ⟨segment, rest, hsplit⟩ := List.exists_cons_of_ne_nil hsegments
  unfold structureProblems
  split
  · rename_i heq
    exact absurd (Value.text.inj heq) hne
  · rename_i heq
    cases heq
    rw [if_neg hroot, hsplit]
  · rename_i hother
    exact absurd rfl (hother path)

theorem isResolvable_root : IsResolvable root := by
  refine ⟨.list [], .list [], ?_, rfl⟩
  exact Value.throughout_list_iff.mpr ⟨trivial, List.forall_mem_nil _⟩

theorem isResolvable_of_readsAs {a : Address} (hsegments : split path ≠ []) (hroot : path ≠ root)
    (hclosed : ¬IsClosedKey path) (ha : ReadsAs (split path) a) : IsResolvable path := by
  refine ⟨a.around .null, .null, ?_, ?_⟩
  · exact a.throughout_around (Value.throughout_null_iff.mpr trivial)
  · rw [resolve_eq_follow hsegments hroot hclosed, ha.follow_eq, Address.walk_around]

theorem IsClosedKey.isResolvable (h : IsClosedKey path) : IsResolvable path := by
  refine ⟨Address.around [⟨path, none⟩] .null, .null, ?_, ?_⟩
  · exact Address.throughout_around _ (Value.throughout_null_iff.mpr trivial)
  · rw [resolve_of_isPlainKey h.plain h.ne_empty h.ne_root, ← Address.walk_key,
      Address.walk_around]

theorem IsClosedKey.structureProblems_eq (h : IsClosedKey path) :
    structureProblems (.text path) = .ok [.malformedIndex path] := by
  have hsplit := split_of_isPlainKey h.plain h.ne_empty
  rw [Path.structureProblems_eq (by simp [hsplit]) h.ne_root, hsplit, malformed, h.read_eq]
  rfl

theorem resolve_of_split_eq_nil (hsegments : split path = []) (hroot : path ≠ root)
    (document : Value) : resolve document path = .ok none := by
  by_cases hne : path = ""
  · simp [resolve, hne]
  · have hkey : ¬isPlainKey path = true := by
      intro hkey
      rw [split_of_isPlainKey hkey hne] at hsegments
      cases hsegments
    simp [resolve, hroot, hkey, hsegments]

theorem structureProblems_of_split_eq_nil (hsegments : split path = []) (hroot : path ≠ root) :
    ∃ problem, structureProblems (.text path) = .ok [problem] := by
  unfold structureProblems
  split
  · exact ⟨_, rfl⟩
  · rename_i heq
    cases heq
    rw [if_neg hroot, hsegments]
    exact ⟨_, rfl⟩
  · exact ⟨_, rfl⟩

/-- A path has no problem and some document has a value at it, or it has a problem and no document
has one. -/
theorem isResolvable_or_leads_nowhere (hshort : HasShortIndices path)
    (hclosed : ¬IsClosedKey path) :
    structureProblems (.text path) = .ok [] ∧ IsResolvable path ∨
      ∃ problems, structureProblems (.text path) = .ok problems ∧ problems ≠ [] ∧
        ∀ document, resolve document path = .ok none := by
  by_cases hroot : path = root
  · rw [hroot]
    exact .inl ⟨rfl, isResolvable_root⟩
  by_cases hsegments : split path = []
  · obtain ⟨problem, hproblem⟩ := structureProblems_of_split_eq_nil hsegments hroot
    exact .inr ⟨[problem], hproblem, List.cons_ne_nil _ _,
      resolve_of_split_eq_nil hsegments hroot⟩
  rw [structureProblems_eq hsegments hroot]
  simp only [resolve_eq_follow hsegments hroot hclosed]
  rcases readsAs_or_malformed hshort with ⟨a, ha⟩ | ⟨problems, hproblems, hne, hfollow⟩
  · exact .inl ⟨ha.malformed_eq, isResolvable_of_readsAs hsegments hroot hclosed ha⟩
  · exact .inr ⟨problems, hproblems, hne, hfollow⟩

/-- A path with short indices is checked. Unless it is a single key with a closing bracket, it has a
problem exactly if no document has a value at it. Such a key has a problem, and yet a document may
have a value at it. -/
theorem structureProblems_exact (hshort : HasShortIndices path) :
    ∃ problems, structureProblems (.text path) = .ok problems ∧
      (¬IsClosedKey path → (problems = [] ↔ IsResolvable path) ∧
        (problems ≠ [] → ∀ document, resolve document path = .ok none)) ∧
      (IsClosedKey path → problems = [.malformedIndex path] ∧ IsResolvable path) := by
  by_cases hclosed : IsClosedKey path
  · exact ⟨_, hclosed.structureProblems_eq, fun h => absurd hclosed h,
      fun _ => ⟨rfl, hclosed.isResolvable⟩⟩
  rcases isResolvable_or_leads_nowhere hshort hclosed with
    ⟨hproblems, hresolvable⟩ | ⟨problems, hproblems, hne, hnowhere⟩
  · refine ⟨[], hproblems, fun _ => ⟨iff_of_true rfl hresolvable, fun h => absurd rfl h⟩, ?_⟩
    exact fun h => absurd h hclosed
  · have hunresolvable : ¬IsResolvable path := by
      rintro ⟨document, v, -, hv⟩
      rw [hnowhere document] at hv
      cases hv
    exact ⟨problems, hproblems, fun _ => ⟨iff_of_false hne hunresolvable, fun _ => hnowhere⟩,
      fun h => absurd h hclosed⟩

/-- A key with a blank, an index and another key. -/
theorem structureProblems_exact_index :
    HasShortIndices "my events[2].x" ∧ ¬IsClosedKey "my events[2].x" ∧
      structureProblems (.text "my events[2].x") = .ok [] ∧ IsResolvable "my events[2].x" := by
  have hshort : HasShortIndices "my events[2].x" := by decide +kernel
  have hclosed : ¬IsClosedKey "my events[2].x" := fun h => absurd h.plain (by decide)
  obtain ⟨problems, hproblems, hexact, -⟩ := structureProblems_exact hshort
  have hnone : structureProblems (.text "my events[2].x") = .ok [] := rfl
  obtain rfl : problems = [] := by
    rw [hnone] at hproblems
    exact (Except.ok.inj hproblems).symm
  exact ⟨hshort, hclosed, hproblems, (hexact hclosed).1.mp rfl⟩

/-- A key with a closing bracket has a problem, and yet its value is found. -/
theorem structureProblems_exact_closed :
    HasShortIndices "a]" ∧ structureProblems (.text "a]") = .ok [.malformedIndex "a]"] ∧
      resolve (.object [("a]", .int 1)]) "a]" = .ok (some (.int 1)) := by
  refine ⟨?_, rfl, rfl⟩
  decide +kernel

end Timeline.Path
