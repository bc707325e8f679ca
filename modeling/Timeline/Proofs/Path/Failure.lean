import Timeline.Proofs.Path.Structure

/-! # Failing to read a path

The only thing in a path that cannot be read is an index with too many digits. Resolving a path
fails exactly if the segments before such an index lead to a value other than null. The checks of a
path fail exactly if there is such an index anywhere, the check of its style only if as many
brackets are opened as closed.
-/

namespace Timeline.Path

variable {path segment : String} {segments : List String} {document v : Value} {f : Failure}

/-- A segment has an index with more digits than are read. -/
def Step.IsOverlong (segment : String) (f : Failure) : Prop :=
  ∃ found ∈ indexed? segment.toList, Json.digitLimit < found.2.length ∧
    f = .tooManyDigits found.2.length

theorem Step.IsOverlong.opening (h : IsOverlong segment f) : '[' ∈ segment.toList := by
  obtain ⟨found, hfound, -⟩ := h
  by_contra hopening
  rw [indexed?_eq_none hopening] at hfound
  cases hfound

theorem Step.IsOverlong.not_hasShortIndex (h : IsOverlong segment f) : ¬HasShortIndex segment := by
  obtain ⟨found, hfound, hlong, -⟩ := h
  exact fun hshort => Nat.not_lt.mpr (hshort found hfound) hlong

theorem Step.read_eq_error_iff : Step.read segment = .error f ↔ Step.IsOverlong segment f := by
  constructor
  · intro h
    unfold Step.read at h
    dsimp only at h
    split at h
    · split at h
      · rename_i key digits hindexed
        refine ⟨(key, digits), hindexed, ?_⟩
        unfold readNatural at h
        split at h
        · rename_i hlong
          cases h
          exact ⟨hlong, rfl⟩
        · cases h
      · cases h
    · cases h
  · intro h
    have hany : segment.toList.any isBracket = true := List.any_eq_true.mpr ⟨_, h.opening, rfl⟩
    obtain ⟨⟨key, digits⟩, hindexed, hlong, rfl⟩ := h
    rw [Option.mem_def] at hindexed
    simp only [Step.read, hany, hindexed, readNatural, hlong, if_true]
    rfl

theorem Step.exists_read_iff :
    (∃ step, Step.read segment = .ok step) ↔ Step.HasShortIndex segment := by
  constructor
  · rintro ⟨step, hstep⟩ found hfound
    by_contra hlong
    have herror := Step.read_eq_error_iff.mpr ⟨found, hfound, Nat.not_le.mp hlong, rfl⟩
    cases hstep.symm.trans herror
  · exact Step.HasShortIndex.exists_read

/-- The first segment whose index has too many digits. -/
def FirstOverlong (segments : List String) (f : Failure) : Prop :=
  ∃ before segment after, segments = before ++ segment :: after ∧
    (∀ s ∈ before, Step.HasShortIndex s) ∧ Step.IsOverlong segment f

theorem not_firstOverlong_nil : ¬FirstOverlong [] f :=
  not_exists_first_nil

theorem firstOverlong_cons_iff {rest : List String} :
    FirstOverlong (segment :: rest) f ↔
      Step.IsOverlong segment f ∨ Step.HasShortIndex segment ∧ FirstOverlong rest f :=
  exists_first_cons_iff

theorem malformed_eq_error_iff : malformed segments = .error f ↔ FirstOverlong segments f := by
  induction segments with
  | nil => exact iff_of_false (fun h => by cases h) not_firstOverlong_nil
  | cons segment rest ih =>
    rw [malformed, bind_eq_error_iff, Step.read_eq_error_iff, firstOverlong_cons_iff,
      ← Step.exists_read_iff, ← exists_and_right]
    refine or_congr_right (exists_congr fun step => and_congr_right fun _ => ?_)
    rw [bind_eq_error_iff, ih]
    refine or_iff_left ?_
    rintro ⟨problems, -, hdone⟩
    cases hdone

/-- An index with too many digits is reached from a value: the segments before it are the steps of
an address that leads to a value other than null. -/
def StopsAt (v : Value) (segments : List String) (f : Failure) : Prop :=
  ∃ before segment after a w, segments = before ++ segment :: after ∧ ReadsAs before a ∧
    a.walk v = some w ∧ w ≠ .null ∧ Step.IsOverlong segment f

theorem StopsAt.exists_isOverlong (h : StopsAt v segments f) :
    ∃ segment ∈ segments, Step.IsOverlong segment f := by
  obtain ⟨before, segment, after, a, w, rfl, -, -, -, hlong⟩ := h
  exact ⟨segment, List.mem_append_right _ List.mem_cons_self, hlong⟩

theorem FirstOverlong.exists_isOverlong (h : FirstOverlong segments f) :
    ∃ segment ∈ segments, Step.IsOverlong segment f := by
  obtain ⟨before, segment, after, rfl, -, hlong⟩ := h
  exact ⟨segment, List.mem_append_right _ List.mem_cons_self, hlong⟩

theorem not_stopsAt_nil : ¬StopsAt v [] f := by
  intro h
  obtain ⟨segment, hsegment, -⟩ := h.exists_isOverlong
  cases hsegment

/-- An index is reached at the first segment of a value other than null, or behind a step from where
the step leads. -/
theorem stopsAt_cons_iff {rest : List String} :
    StopsAt v (segment :: rest) f ↔ v ≠ .null ∧ Step.IsOverlong segment f ∨
      ∃ s w, Step.read segment = .ok (some s) ∧ s.target? v = some w ∧ StopsAt w rest f := by
  constructor
  · rintro ⟨before, later, after, a, w, hsplit, hreads, hwalk, hw, hlong⟩
    cases hreads with
    | nil =>
      cases hsplit
      cases hwalk
      exact .inl ⟨hw, hlong⟩
    | @cons first s before a hs hreads =>
      cases hsplit
      obtain ⟨u, hu, hwalk⟩ := Option.bind_eq_some_iff.mp hwalk
      exact .inr ⟨s, u, hs, hu, before, later, after, a, w, rfl, hreads, hwalk, hw, hlong⟩
  · rintro (⟨hv, hlong⟩ | ⟨s, u, hs, hu, before, later, after, a, w, rfl, hreads, hwalk, hw, hlong⟩)
    · exact ⟨[], segment, rest, [], v, rfl, .nil, rfl, hv, hlong⟩
    · refine ⟨segment :: before, later, after, s :: a, w, rfl, .cons hs hreads, ?_, hw, hlong⟩
      exact Option.bind_eq_some_iff.mpr ⟨u, hu, hwalk⟩

theorem follow_cons_eq_error_iff {rest : List String} :
    follow v (segment :: rest) = .error f ↔ v ≠ .null ∧ Step.read segment = .error f ∨
      ∃ s w, Step.read segment = .ok (some s) ∧ s.target? v = some w ∧
        follow w rest = .error f := by
  by_cases hnull : v = .null
  · subst hnull
    have hfollow : follow .null (segment :: rest) = .ok none := rfl
    simp [hfollow, Step.target?_null]
  rw [follow, if_neg (mt Value.isNull_iff.mp hnull), bind_eq_error_iff, and_iff_right hnull]
  refine or_congr_right ?_
  constructor
  · rintro ⟨step, hread, hrest⟩
    cases step with
    | none => cases hrest
    | some s =>
      cases htarget : s.target? v with
      | none =>
        simp only [htarget] at hrest
        cases hrest
      | some w =>
        simp only [htarget] at hrest
        exact ⟨s, w, hread, htarget, hrest⟩
  · rintro ⟨s, w, hread, htarget, hrest⟩
    refine ⟨some s, hread, ?_⟩
    simpa only [htarget] using hrest

theorem follow_eq_error_iff : follow v segments = .error f ↔ StopsAt v segments f := by
  induction segments generalizing v with
  | nil => exact iff_of_false (fun h => by cases h) not_stopsAt_nil
  | cons segment rest ih =>
    rw [follow_cons_eq_error_iff, stopsAt_cons_iff, Step.read_eq_error_iff]
    simp only [ih]

theorem opening_of_mem_split (hs : segment ∈ split path) (h : Step.IsOverlong segment f) :
    '[' ∈ path.toList :=
  mem_of_mem_split hs _ h.opening

theorem opening_of_stopsAt (h : StopsAt v (split path) f) : '[' ∈ path.toList := by
  obtain ⟨segment, hsegment, hlong⟩ := h.exists_isOverlong
  exact opening_of_mem_split hsegment hlong

theorem opening_of_firstOverlong (h : FirstOverlong (split path) f) : '[' ∈ path.toList := by
  obtain ⟨segment, hsegment, hlong⟩ := h.exists_isOverlong
  exact opening_of_mem_split hsegment hlong

theorem ne_root_of_opening (h : '[' ∈ path.toList) : path ≠ root := by
  rintro rfl
  exact absurd h (by decide)

theorem ne_empty_of_opening (h : '[' ∈ path.toList) : path ≠ "" := by
  rintro rfl
  exact absurd h (by decide)

/-- Resolving a path fails exactly if an index with too many digits is reached. -/
theorem resolve_eq_error_iff :
    resolve document path = .error f ↔ StopsAt document (split path) f := by
  by_cases hopening : '[' ∈ path.toList
  · by_cases hsegments : split path = []
    · rw [resolve_of_split_eq_nil hsegments (ne_root_of_opening hopening), hsegments]
      exact iff_of_false (fun h => by cases h) not_stopsAt_nil
    · have hclosed : ¬IsClosedKey path := fun h => (forall_of_isPlainKey h.plain _ hopening).2.1 rfl
      rw [resolve_eq_follow hsegments (ne_root_of_opening hopening) hclosed]
      exact follow_eq_error_iff
  · obtain ⟨found, hfound⟩ := exists_resolve hopening document
    rw [hfound]
    exact iff_of_false (fun h => by cases h) (mt opening_of_stopsAt hopening)

theorem exists_resolve_iff :
    (∃ found, resolve document path = .ok found) ↔ ∀ f, ¬StopsAt document (split path) f :=
  (FailsBy.of_iff fun _ => resolve_eq_error_iff).returns_iff

theorem isFound_eq_error_iff :
    isFound document (.text path) = .error f ↔ StopsAt document (split path) f := by
  rw [isFound, bind_eq_error_iff, ← resolve_eq_error_iff]
  refine or_iff_left ?_
  rintro ⟨found, -, hdone⟩
  cases hdone

theorem structureProblems_eq_error_iff :
    structureProblems (.text path) = .error f ↔ FirstOverlong (split path) f := by
  by_cases hroot : path = root
  · subst hroot
    refine iff_of_false (fun h => by cases h) fun h => ?_
    exact absurd (opening_of_firstOverlong h) (by decide)
  by_cases hsegments : split path = []
  · obtain ⟨problem, hproblem⟩ := structureProblems_of_split_eq_nil hsegments hroot
    rw [hproblem, hsegments]
    exact iff_of_false (fun h => by cases h) not_firstOverlong_nil
  · rw [structureProblems_eq hsegments hroot]
    exact malformed_eq_error_iff

theorem bracketProblems_eq_error_iff :
    bracketProblems path = .error f ↔
      path.toList.count '[' = path.toList.count ']' ∧ FirstOverlong (split path) f := by
  unfold bracketProblems
  dsimp only
  split
  · rename_i hcount
    exact iff_of_false (fun h => by cases h) fun h => hcount h.1
  · rename_i hcount
    split
    · rw [malformed_eq_error_iff]
      exact (and_iff_right (not_not.mp hcount)).symm
    · rename_i hopening
      refine iff_of_false (fun h => by cases h) fun h => hopening ?_
      exact List.contains_iff_mem.mpr (opening_of_firstOverlong h.2)

theorem styleProblems_eq_error_iff :
    styleProblems (.text path) = .error f ↔
      path.toList.count '[' = path.toList.count ']' ∧ FirstOverlong (split path) f := by
  unfold styleProblems
  split
  · rename_i hempty
    cases hempty
    refine iff_of_false (fun h => by cases h) fun h => ?_
    exact ne_empty_of_opening (opening_of_firstOverlong h.2) rfl
  · rename_i s _ htext
    cases htext
    split
    · rename_i hroot
      refine iff_of_false (fun h => by cases h) fun h => ?_
      exact ne_root_of_opening (opening_of_firstOverlong h.2) hroot
    · rw [← bracketProblems_eq_error_iff, bind_eq_error_iff]
      refine or_iff_left ?_
      rintro ⟨problems, -, hdone⟩
      cases hdone
  · rename_i hother
    exact absurd rfl (hother path)

theorem HasShortIndices.not_stopsAt (h : HasShortIndices path) : ¬StopsAt v (split path) f := by
  intro hstops
  obtain ⟨segment, hsegment, hlong⟩ := hstops.exists_isOverlong
  exact hlong.not_hasShortIndex (h segment hsegment)

theorem HasShortIndices.not_firstOverlong (h : HasShortIndices path) :
    ¬FirstOverlong (split path) f := by
  intro hfirst
  obtain ⟨segment, hsegment, hlong⟩ := hfirst.exists_isOverlong
  exact hlong.not_hasShortIndex (h segment hsegment)

theorem HasShortIndices.exists_resolve (h : HasShortIndices path) (document : Value) :
    ∃ found, resolve document path = .ok found :=
  exists_resolve_iff.mpr fun _ => h.not_stopsAt

theorem HasShortIndices.exists_structureProblems (h : HasShortIndices path) :
    ∃ problems, structureProblems (.text path) = .ok problems := by
  have hfails : FailsBy (structureProblems (.text path)) (FirstOverlong (split path)) :=
    .of_iff fun f => structureProblems_eq_error_iff
  exact hfails.returns_iff.mpr fun f => h.not_firstOverlong

theorem HasShortIndices.exists_styleProblems (h : HasShortIndices path) :
    ∃ problems, styleProblems (.text path) = .ok problems := by
  have hfails := FailsBy.of_iff fun f : Failure => @styleProblems_eq_error_iff path f
  exact hfails.returns_iff.mpr fun f hlong => h.not_firstOverlong hlong.2

/-- Whatever the path and the document: resolving fails exactly if an index with too many digits is
reached. The check of the path fails exactly if it has such an index, and the check of its style
under the same condition if as many brackets are opened as closed. Where no index has too many
digits, none of them fails. -/
theorem reading_outcome (path : String) (document : Value) :
    (∀ f, resolve document path = .error f ↔ StopsAt document (split path) f) ∧
      (∀ f, isFound document (.text path) = .error f ↔ StopsAt document (split path) f) ∧
      (∀ f, structureProblems (.text path) = .error f ↔ FirstOverlong (split path) f) ∧
      (∀ f, styleProblems (.text path) = .error f ↔
        path.toList.count '[' = path.toList.count ']' ∧ FirstOverlong (split path) f) ∧
      (HasShortIndices path →
        (∃ found, resolve document path = .ok found) ∧
          (∃ found, isFound document (.text path) = .ok found) ∧
          (∃ problems, structureProblems (.text path) = .ok problems) ∧
          ∃ problems, styleProblems (.text path) = .ok problems) := by
  have hfound : FailsBy (isFound document (.text path)) (StopsAt document (split path)) :=
    .of_iff fun f => isFound_eq_error_iff
  refine ⟨fun f => resolve_eq_error_iff, fun f => isFound_eq_error_iff,
    fun f => structureProblems_eq_error_iff, fun f => styleProblems_eq_error_iff, ?_⟩
  intro hshort
  refine ⟨hshort.exists_resolve document, ?_, hshort.exists_structureProblems,
    hshort.exists_styleProblems⟩
  apply hfound.returns_iff.mpr
  exact fun f => hshort.not_stopsAt

theorem Step.isOverlong_chars {key : String} {i : Nat} (hs : (Step.mk key (some i)).IsKeyed)
    (hi : Json.digitLimit < (Nat.toDigits 10 i).length) :
    IsOverlong (String.ofList (Step.chars ⟨key, some i⟩))
      (.tooManyDigits (Nat.toDigits 10 i).length) := by
  refine ⟨(key.toList, Nat.toDigits 10 i), ?_, hi, rfl⟩
  rw [String.toList_ofList]
  exact indexed?_chars hs

/-- The path of the element of a list at an index with one digit too many. -/
theorem reading_outcome_overlong :
    let path := Address.render [⟨"a", some (10 ^ Json.digitLimit)⟩]
    let document := Value.object [("a", .list [.int 1])]
    (∃ f, resolve document path = .error f) ∧ (∃ f, isFound document (.text path) = .error f) ∧
      (∃ f, structureProblems (.text path) = .error f) ∧
      ∃ f, styleProblems (.text path) = .error f := by
  have hlong : Json.digitLimit < (Nat.toDigits 10 (10 ^ Json.digitLimit)).length := by
    apply Nat.lt_of_not_le
    intro hle
    have hlt := (Nat.length_toDigits_le_iff (by decide) (by decide)).mp hle
    exact Nat.lt_irrefl _ hlt
  generalize 10 ^ Json.digitLimit = i at hlong
  intro path document
  have ha : (Step.mk "a" none).IsKeyed := ⟨by decide, by decide, by decide⟩
  have hs : (Step.mk "a" (some i)).IsKeyed := ⟨ha.key_ne, ha.no_opening, ha.no_closing⟩
  have hsplit : split path = [String.ofList (Step.chars ⟨"a", some i⟩)] :=
    Address.split_render_of_isKeyed (List.forall_mem_singleton.mpr hs)
  obtain ⟨f, hoverlong⟩ : ∃ f, Step.IsOverlong (String.ofList (Step.chars ⟨"a", some i⟩)) f :=
    ⟨_, Step.isOverlong_chars hs hlong⟩
  have hstops : StopsAt document (split path) f := by
    rw [hsplit]
    exact stopsAt_cons_iff.mpr (.inl ⟨by simp [document], hoverlong⟩)
  have hfirst : FirstOverlong (split path) f :=
    ⟨[], _, [], hsplit, List.forall_mem_nil _, hoverlong⟩
  have hcount : path.toList.count '[' = path.toList.count ']' := by
    have hdigits : ∀ c, c.isDigit = false → c ∉ Nat.toDigits 10 i := by
      intro c hc hmem
      cases hc.symm.trans (Nat.isDigit_of_mem_toDigits (by decide) (by decide) hmem)
    have hopening := List.count_eq_zero_of_not_mem (hdigits '[' rfl)
    have hclosing := List.count_eq_zero_of_not_mem (hdigits ']' rfl)
    rw [Address.toList_render hs]
    simp [Step.written, Step.indexChars, escapeChars, hopening, hclosing]
  refine ⟨⟨_, resolve_eq_error_iff.mpr hstops⟩, ⟨_, isFound_eq_error_iff.mpr hstops⟩,
    ⟨_, structureProblems_eq_error_iff.mpr hfirst⟩, ?_⟩
  exact ⟨_, styleProblems_eq_error_iff.mpr ⟨hcount, hfirst⟩⟩

end Timeline.Path
