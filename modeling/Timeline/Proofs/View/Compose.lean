import Timeline.Proofs.View.Select

/-! # Views of views

The entities of a view can be viewed again. What is shown then are the entities that both views ask
for, in the order of the view, so it makes no difference which of the two comes first, and a view
of its own entities shows them all.
-/

namespace Timeline.View

open EntityTest

variable {rules rules' : List Rule} {files files' : List Value} {f f' : Filter}
  {entities kept shown : List Entity}

theorem IsLatestFirst.filter (h : IsLatestFirst entities shown) (keep : Entity → Bool) :
    IsLatestFirst (entities.filter keep) (shown.filter keep) where
  perm := h.perm.filter keep
  sorted := h.sorted.filter keep
  ties t := by
    have hswap : ∀ es : List Entity,
        (es.filter keep).filter (·.start = t) = (es.filter (·.start = t)).filter keep := by
      intro es
      simp only [List.filter_filter, Bool.and_comm]
    rw [hswap, hswap, h.ties t]

theorem IsLatestFirst.trans (h : IsLatestFirst entities kept) (h' : IsLatestFirst kept shown) :
    IsLatestFirst entities shown where
  perm := h'.perm.trans h.perm
  sorted := h'.sorted
  ties t := (h'.ties t).trans (h.ties t)

/-- Entities in order that are chosen from once more are in order already. -/
theorem latestFirst_filter_latestFirst (keep keep' : Entity → Bool) (entities : List Entity) :
    latestFirst ((latestFirst (entities.filter keep)).filter keep') =
      latestFirst (entities.filter fun e => keep e && keep' e) := by
  have hfirst := (isLatestFirst_latestFirst (entities.filter keep)).filter keep'
  have hsecond := hfirst.trans (isLatestFirst_latestFirst _)
  rw [List.filter_filter] at hsecond
  simp only [Bool.and_comm (keep' _)] at hsecond
  exact hsecond.unique (isLatestFirst_latestFirst _)

theorem Decides.of_subset (h : Decides rules files f entities) (hsub : kept ⊆ entities) :
    Decides rules files f kept :=
  ⟨h.name, fun e he => h.test e (hsub he)⟩

theorem exists_make_make (h : Decides rules files f entities)
    (h' : Decides rules' files' f' entities) :
    ∃ view again, (make entities rules files f).outcome = .ok view ∧
      (make view.entities rules' files' f').outcome = .ok again ∧
      view.entities = latestFirst (entities.filter (passes (tests rules files f))) ∧
      again.entities = latestFirst (entities.filter fun e =>
        passes (tests rules files f) e && passes (tests rules' files' f') e) := by
  obtain ⟨view, hview, hentities⟩ := exists_make h
  have hsub : view.entities ⊆ entities := by
    intro e he
    rw [hentities] at he
    exact (List.mem_filter.mp ((isLatestFirst_latestFirst _).perm.mem_iff.mp he)).1
  obtain ⟨again, hagain, hshown⟩ := exists_make (h'.of_subset hsub)
  refine ⟨view, again, hview, hagain, hentities, ?_⟩
  rw [hshown, hentities, latestFirst_filter_latestFirst]

/-- Views come one after the other in either order with the same result: the entities that both ask
for, the latest first. A view of what it shows shows the same again. -/
theorem make_make_comm (h : Decides rules files f entities)
    (h' : Decides rules' files' f' entities) :
    ∃ view view' both both' again,
      (make entities rules files f).outcome = .ok view ∧
      (make entities rules' files' f').outcome = .ok view' ∧
      (make view.entities rules' files' f').outcome = .ok both ∧
      (make view'.entities rules files f).outcome = .ok both' ∧
      (make view.entities rules files f).outcome = .ok again ∧
      both.entities = both'.entities ∧ again.entities = view.entities ∧
      IsLatestFirst
        (entities.filter fun e => Shows rules files f e ∧ Shows rules' files' f' e)
        both.entities := by
  obtain ⟨view, both, hview, hboth, hentities, hshown⟩ := exists_make_make h h'
  obtain ⟨view', both', hview', hboth', -, hshown'⟩ := exists_make_make h' h
  obtain ⟨same, again, hsame, hagain, -, htwice⟩ := exists_make_make h h
  cases hview.symm.trans hsame
  refine ⟨view, view', both, both', again, hview, hview', hboth, hboth', hagain, ?_, ?_, ?_⟩
  · rw [hshown, hshown']
    simp only [Bool.and_comm]
  · rw [htwice, hentities]
    simp only [Bool.and_self]
  · have hasked : entities.filter (fun e =>
          passes (tests rules files f) e && passes (tests rules' files' f') e) =
        entities.filter fun e => Shows rules files f e ∧ Shows rules' files' f' e := by
      refine List.filter_congr fun e he => ?_
      rw [Bool.eq_iff_iff, Bool.and_eq_true, passes_iff_shows (h.test e he),
        passes_iff_shows (h'.test e he), decide_eq_true_iff]
    rw [hshown, hasked]
    exact isLatestFirst_latestFirst _

/-- One view asks for an array and the other for a time. Two of the entities that both ask for start
together. -/
theorem make_make_comm_window :
    let e := fun (id array : String) (start : Int) =>
      Entity.mk id ⟨start⟩ ⟨start⟩ (.text array) (.text "f") .null .null
    let entities := [e "one" "a" 1, e "two" "a" 2, e "three" "b" 1, e "four" "a" 1]
    let rules := [Rule.preset "a" "a" "start" "end" "#000000" "type" "id",
      Rule.preset "b" "b" "start" "end" "#000000" "type" "id"]
    let f : Filter := ⟨[], none, .list [.text "a"]⟩
    let f' : Filter := ⟨[], some ⟨some ⟨0⟩, some ⟨1⟩⟩, .list []⟩
    Decides rules [] f entities ∧ Decides rules [] f' entities ∧
      ∃ view both, (make entities rules [] f).outcome = .ok view ∧
        (make view.entities rules [] f').outcome = .ok both ∧
        IsLatestFirst (entities.filter fun e => Shows rules [] f e ∧ Shows rules [] f' e)
          both.entities ∧
        view.entities = [e "two" "a" 2, e "one" "a" 1, e "four" "a" 1] ∧
        both.entities = [e "one" "a" 1, e "four" "a" 1] := by
  intro e entities rules f f'
  have hd : ∀ g ∈ [f, f'], Decides rules [] g entities := by
    intro g hg
    refine ⟨?_, fun e he => decided_of_forall ?_⟩
    · simp only [rules, List.forall_mem_cons]
      exact ⟨fun _ => rfl, fun _ => rfl, List.forall_mem_nil _⟩
    · simp only [entities, List.mem_cons, List.not_mem_nil, or_false] at he hg
      rcases he with rfl | rfl | rfl | rfl <;> rcases hg with rfl | rfl <;>
        exact List.forall_mem_cons.mpr ⟨⟨_, rfl⟩, List.forall_mem_cons.mpr ⟨⟨_, rfl⟩,
          List.forall_mem_cons.mpr ⟨⟨_, rfl⟩, List.forall_mem_singleton.mpr ⟨_, rfl⟩⟩⟩⟩
  have h := hd f (by simp)
  have h' := hd f' (by simp)
  obtain ⟨view, -, both, -, -, hview, -, hboth, -, -, -, -, horder⟩ := make_make_comm h h'
  obtain ⟨_, _, hmade, hagain, hkept, hshown⟩ := exists_make_make h h'
  obtain rfl := Except.ok.inj (hview.symm.trans hmade)
  obtain rfl := Except.ok.inj (hboth.symm.trans hagain)
  refine ⟨h, h', view, both, hview, hboth, horder, ?_, ?_⟩
  · have hasked : entities.filter (passes (tests rules [] f)) =
        [e "one" "a" 1, e "two" "a" 2, e "four" "a" 1] := by
      with_unfolding_all rfl
    have hlater : (e "one" "a" 1).start ≠ (e "two" "a" 2).start := by simp [e]
    rw [hkept, hasked]
    exact (latestFirst_swap hlater [] [e "four" "a" 1]).trans
      (latestFirst_eq_self (by simp [e, Instant.le_iff]))
  · have hasked : entities.filter (fun e =>
        passes (tests rules [] f) e && passes (tests rules [] f') e) =
          [e "one" "a" 1, e "four" "a" 1] := by
      with_unfolding_all rfl
    rw [hshown, hasked]
    exact latestFirst_eq_self (by simp [e, Instant.le_iff])

end Timeline.View
