import Timeline.View

/-! # The order of the view

Entities in the order of the view are sorted by their start, the latest first, and those that
start together stay in their order. Only one list is in this order.
-/

namespace Timeline

namespace Instant

theorem le_iff {a b : Instant} : a ≤ b ↔ a.micros ≤ b.micros := Iff.rfl

theorem le_trans {a b c : Instant} (hab : a ≤ b) (hbc : b ≤ c) : a ≤ c :=
  Int.le_trans hab hbc

theorem le_total (a b : Instant) : a ≤ b ∨ b ≤ a :=
  Int.le_total a.micros b.micros

theorem le_antisymm {a b : Instant} (hab : a ≤ b) (hba : b ≤ a) : a = b := by
  obtain ⟨m⟩ := a
  obtain ⟨n⟩ := b
  exact congrArg Instant.mk (Int.le_antisymm hab hba)

end Instant

namespace View

/-- Some entities, each as often as it is among them, are in the order of the view. -/
structure IsLatestFirst (entities shown : List Entity) : Prop where
  perm : shown.Perm entities
  sorted : shown.Pairwise fun a b => b.start ≤ a.start
  ties : ∀ t, shown.filter (·.start = t) = entities.filter (·.start = t)

theorem isLatestFirst_latestFirst (entities : List Entity) :
    IsLatestFirst entities (latestFirst entities) := by
  have trans : ∀ a b c : Entity, decide (b.start ≤ a.start) = true →
      decide (c.start ≤ b.start) = true → decide (c.start ≤ a.start) = true := by
    simp only [decide_eq_true_eq]
    exact fun a b c hab hbc => Instant.le_trans hbc hab
  have total : ∀ a b : Entity,
      (decide (b.start ≤ a.start) || decide (a.start ≤ b.start)) = true := by
    simp only [Bool.or_eq_true, decide_eq_true_eq]
    exact fun a b => Instant.le_total _ _
  refine ⟨List.mergeSort_perm _ _, ?_, ?_⟩
  · simpa [latestFirst] using List.pairwise_mergeSort trans total entities
  · intro t
    -- Entities that start together are in order already, so sorting keeps them as a sublist.
    have htied : (entities.filter (·.start = t)).Pairwise
        fun a b => decide (b.start ≤ a.start) = true := by
      rw [List.pairwise_filter]
      refine List.pairwise_of_forall fun a b ha hb => ?_
      simp only [decide_eq_true_eq] at ha hb ⊢
      rw [ha, hb]
      exact Int.le_refl _
    have hsub := (List.sublist_mergeSort trans total htied List.filter_sublist).filter
      (·.start = t)
    rw [List.filter_filter] at hsub
    simp only [Bool.and_self] at hsub
    exact (hsub.eq_of_length (((List.mergeSort_perm _ _).filter _).length_eq.symm)).symm

theorem start_le_head {a e : Entity} {entities : List Entity}
    (h : (a :: entities).Pairwise fun a b => b.start ≤ a.start) (he : e ∈ a :: entities) :
    e.start ≤ a.start := by
  rcases List.mem_cons.mp he with rfl | he
  · exact Int.le_refl _
  · exact (List.pairwise_cons.mp h).1 e he

theorem mem_iff_of_ties {xs ys : List Entity}
    (h : ∀ t, xs.filter (·.start = t) = ys.filter (·.start = t)) (e : Entity) :
    e ∈ xs ↔ e ∈ ys := by
  have := congrArg (e ∈ ·) (h e.start)
  simpa using this

/-- Two sorted lists are the same if the entities that start together are. -/
theorem eq_of_sorted_of_ties {xs ys : List Entity}
    (hx : xs.Pairwise fun a b => b.start ≤ a.start) (hy : ys.Pairwise fun a b => b.start ≤ a.start)
    (h : ∀ t, xs.filter (·.start = t) = ys.filter (·.start = t)) : xs = ys := by
  induction xs generalizing ys with
  | nil =>
    refine (List.eq_nil_iff_forall_not_mem.mpr fun e he => ?_).symm
    exact List.not_mem_nil ((mem_iff_of_ties h e).mpr he)
  | cons x xs ih =>
    cases ys with
    | nil => exact absurd ((mem_iff_of_ties h x).mp List.mem_cons_self) List.not_mem_nil
    | cons y ys =>
      have hs : x.start = y.start := Instant.le_antisymm
        (start_le_head hy ((mem_iff_of_ties h x).mp List.mem_cons_self))
        (start_le_head hx ((mem_iff_of_ties h y).mpr List.mem_cons_self))
      obtain rfl : x = y := by
        have := h x.start
        rw [List.filter_cons_of_pos (by simp), List.filter_cons_of_pos (by simp [hs])] at this
        exact (List.cons.inj this).1
      have htail : ∀ t, xs.filter (·.start = t) = ys.filter (·.start = t) := by
        intro t
        have hall := h t
        by_cases ht : x.start = t
        · rw [List.filter_cons_of_pos (by simp [ht]),
            List.filter_cons_of_pos (by simp [ht])] at hall
          exact (List.cons.inj hall).2
        · rw [List.filter_cons_of_neg (by simp [ht]),
            List.filter_cons_of_neg (by simp [ht])] at hall
          exact hall
      rw [ih (List.pairwise_cons.mp hx).2 (List.pairwise_cons.mp hy).2 htail]

theorem IsLatestFirst.unique {entities xs ys : List Entity} (hx : IsLatestFirst entities xs)
    (hy : IsLatestFirst entities ys) : xs = ys :=
  eq_of_sorted_of_ties hx.sorted hy.sorted fun t => (hx.ties t).trans (hy.ties t).symm

theorem latestFirst_eq_self {entities : List Entity}
    (h : entities.Pairwise fun a b => b.start ≤ a.start) : latestFirst entities = entities :=
  (isLatestFirst_latestFirst entities).unique ⟨.refl _, h, fun _ => rfl⟩

/-- Two neighbours that do not start together may change places before the entities are sorted. -/
theorem latestFirst_swap {a b : Entity} (h : a.start ≠ b.start) (xs ys : List Entity) :
    latestFirst (xs ++ a :: b :: ys) = latestFirst (xs ++ b :: a :: ys) := by
  have hsorted := isLatestFirst_latestFirst (xs ++ b :: a :: ys)
  refine (isLatestFirst_latestFirst _).unique ⟨?_, hsorted.sorted, fun t => ?_⟩
  · exact hsorted.perm.trans ((List.Perm.swap a b ys).append_left xs)
  · rw [hsorted.ties t, List.filter_append, List.filter_append]
    by_cases ha : a.start = t
    · have hb : ¬ b.start = t := fun hb => h (ha.trans hb.symm)
      simp [ha, hb]
    · simp [List.filter_cons, ha]

end View

end Timeline
