import Timeline.Path.Survey
import Timeline.Proofs.Path.Samples
import Timeline.Proofs.Text.Distinct

/-! # The paths that are offered

The paths that are offered for a document are those of its samples, down to a depth. Each of them
leads to its sample, where no list is the first item of a list.
-/

namespace Timeline.Path

variable {path q : String} {n : Nat} {v : Value} {fields : Fields}

/-- A path with those of the samples below it, up to some steps. -/
def sampled (n : Nat) (path : String) (v : Value) : List String :=
  path :: match n with
    | 0 => []
    | n + 1 => below n path v

theorem belowFields_eq (n : Nat) (path : String) (fields : Fields) :
    belowFields n path fields = fields.flatMap fun f => sampled n (join path f.1) f.2 := by
  induction fields with
  | nil => rfl
  | cons f rest ih =>
    obtain ⟨k, v⟩ := f
    rw [List.flatMap_cons, ← ih]
    cases n <;> rw [belowFields] <;> rfl

theorem below_list (hpath : path ≠ "") (first : Value) (rest : List Value) :
    below n path (.list (first :: rest)) = path :: sampled n (element path 0) first := by
  cases n <;> simp [below, hpath, sampled]

theorem mem_belowFields_iff (hv : (Value.object fields).IsPlain) :
    q ∈ belowFields n path fields ↔
      ∃ h w, Hop.target? (.object fields) h = some w ∧ q ∈ sampled n (h.below path) w := by
  rw [belowFields_eq, List.mem_flatMap]
  constructor
  · rintro ⟨⟨k, w⟩, hmem, hq⟩
    exact ⟨.key k, w, Hop.target?_key hv hmem, hq⟩
  · rintro ⟨h, w, hw, hq⟩
    obtain ⟨k, rfl, hmem⟩ := Hop.eq_key_of_target? hw
    exact ⟨(k, w), hmem, hq⟩

theorem mem_sampled_succ_iff (hpath : path ≠ "") (hv : v.IsPlain) :
    q ∈ sampled (n + 1) path v ↔
      q = path ∨ ∃ h w, Hop.target? v h = some w ∧ q ∈ sampled n (h.below path) w := by
  have hstep : q ∈ sampled (n + 1) path v ↔ q = path ∨ q ∈ below n path v := List.mem_cons
  rw [hstep]
  cases v with
  | object fields => rw [below, mem_belowFields_iff hv]
  | list items =>
    cases items with
    | nil =>
      have hnone : ∀ h w, Hop.target? (.list []) h ≠ some w := by
        rintro (k | _) w ⟨⟩
      simp [below, hnone]
    | cons first rest =>
      rw [below_list hpath, List.mem_cons, ← or_assoc, or_self]
      constructor
      · rintro (rfl | hq)
        · exact .inl rfl
        · exact .inr ⟨.first, first, rfl, hq⟩
      · rintro (rfl | ⟨h, w, hw, hq⟩)
        · exact .inl rfl
        · cases h with
          | key k => cases hw
          | first =>
            cases hw
            exact .inr hq
  | _ =>
    simp only [below, List.not_mem_nil, or_false, iff_self_or]
    rintro ⟨k | _, w, ⟨⟩, -⟩

/-- The paths of the samples are listed that are few enough steps away. -/
theorem mem_sampled_iff (hpath : path ≠ "") (hv : v.Throughout Value.IsPlain) :
    q ∈ sampled n path v ↔
      ∃ t : Trail, t.length ≤ n ∧ (∃ w, t.walk v = some w) ∧ t.below path = q := by
  induction n generalizing path v with
  | zero =>
    constructor
    · intro hq
      obtain rfl := List.mem_singleton.mp hq
      exact ⟨[], Nat.le_refl 0, ⟨v, rfl⟩, rfl⟩
    · rintro ⟨t, ht, -, rfl⟩
      obtain rfl := List.length_eq_zero_iff.mp (Nat.le_zero.mp ht)
      exact List.mem_singleton_self path
  | succ n ih =>
    rw [mem_sampled_succ_iff hpath hv.self]
    constructor
    · rintro (rfl | ⟨h, u, hu, hq⟩)
      · exact ⟨[], Nat.zero_le _, ⟨v, rfl⟩, rfl⟩
      · obtain ⟨t, ht, ⟨w, hw⟩, rfl⟩ :=
          (ih (h.below_ne_empty hpath) (Hop.throughout_target hv hu)).mp hq
        refine ⟨h :: t, Nat.succ_le_succ ht, ⟨w, ?_⟩, rfl⟩
        rw [Trail.walk, hu, Option.bind_some, hw]
    · rintro ⟨t, ht, ⟨w, hw⟩, rfl⟩
      cases t with
      | nil => exact .inl rfl
      | cons h t =>
        obtain ⟨u, hu, hw⟩ := Option.bind_eq_some_iff.mp hw
        refine .inr ⟨h, u, hu, ?_⟩
        apply (ih (h.below_ne_empty hpath) (Hop.throughout_target hv hu)).mpr
        exact ⟨t, Nat.le_of_succ_le_succ ht, ⟨w, hw⟩, rfl⟩

theorem mem_distinct_iff {texts : List String} : q ∈ distinct texts ↔ q ∈ texts := by
  have h : q ∈ texts.foldl Text.addNew [] ↔ q ∈ [] ∨ q ∈ texts := Text.mem_foldl_addNew
  rwa [List.mem_nil_iff, false_or] at h

theorem nodup_distinct (texts : List String) : (distinct texts).Nodup :=
  Text.nodup_foldl_addNew List.nodup_nil texts

theorem nodup_available (document : Value) (maxDepth : Int) :
    (available document maxDepth).Nodup := by
  unfold available
  split
  · exact List.nodup_nil
  · exact nodup_distinct _

/-- The paths of a document are those of its samples behind at least one step, and at most one
more than the depth. -/
theorem mem_available_iff (hplain : (Value.object fields).Throughout Value.IsPlain)
    (hkeys : (Value.object fields).HasWritableKeys) {maxDepth : Int} :
    path ∈ available (.object fields) maxDepth ↔
      ∃ t : Trail, t ≠ [] ∧ t.length ≤ maxDepth + 1 ∧
        (∃ v, t.walk (.object fields) = some v) ∧ t.path = path := by
  unfold available
  split
  · rename_i hneg
    constructor
    · rintro ⟨⟩
    · rintro ⟨t, hne, hlength, -⟩
      have hpos := List.length_pos_iff.mpr hne
      omega
  rename_i hdepth
  rw [mem_distinct_iff, List.mem_filter, below, mem_belowFields_iff hplain.self]
  have hfirst : ∀ {h : Hop} {u}, h.target? (.object fields) = some u → h.below "" ≠ "" := by
    intro h u hu
    obtain ⟨k, rfl, hmem⟩ := Hop.eq_key_of_target? hu
    exact escape_ne_empty (hkeys _ hmem).1
  constructor
  · rintro ⟨⟨h, u, hu, hq⟩, -⟩
    obtain ⟨t, ht, ⟨w, hw⟩, rfl⟩ :=
      (mem_sampled_iff (hfirst hu) (Hop.throughout_target hplain hu)).mp hq
    refine ⟨h :: t, List.cons_ne_nil h t, ?_, ⟨w, ?_⟩, rfl⟩
    · rw [List.length_cons]
      omega
    · rw [Trail.walk, hu, Option.bind_some, hw]
  · rintro ⟨t, hne, ht, ⟨w, hw⟩, rfl⟩
    obtain ⟨h, t, rfl⟩ := List.exists_cons_of_ne_nil hne
    obtain ⟨u, hu, hw⟩ := Option.bind_eq_some_iff.mp hw
    refine ⟨⟨h, u, hu, ?_⟩, ?_⟩
    · apply (mem_sampled_iff (hfirst hu) (Hop.throughout_target hplain hu)).mpr
      rw [List.length_cons] at ht
      exact ⟨t, by omega, ⟨w, hw⟩, rfl⟩
    · exact decide_eq_true (Trail.below_ne_empty (hfirst hu) t)

/-- The paths of a document are distinct, and they are those of its samples down to the depth. Each
of them leads to its sample, unless a list is entered that is the first item of a list; then it
leads nowhere. Where no first item is a list with items, each of them is found. -/
theorem available_exact (hplain : (Value.object fields).Throughout Value.IsPlain)
    (hkeys : (Value.object fields).Throughout Value.HasWritableKeys) (maxDepth : Int) :
    (available (.object fields) maxDepth).Nodup ∧
      (∀ path, path ∈ available (.object fields) maxDepth ↔
        ∃ t : Trail, t ≠ [] ∧ t.length ≤ maxDepth + 1 ∧
          (∃ v, t.walk (.object fields) = some v) ∧ t.path = path) ∧
      (∀ (t : Trail) v, t ≠ [] → t.walk (.object fields) = some v →
        resolve (.object fields) t.path = .ok (if t.isNested then none else some v)) ∧
      ((Value.object fields).Throughout Value.StartsFlat →
        ∀ path ∈ available (.object fields) maxDepth,
          ∃ v, resolve (.object fields) path = .ok (some v)) := by
  refine ⟨nodup_available _ _, fun path => mem_available_iff hplain hkeys.self,
    fun t v hne hw => resolve_path hkeys hne hw, ?_⟩
  rintro hflat path hpath
  obtain ⟨t, hne, -, ⟨v, hw⟩, rfl⟩ := (mem_available_iff hplain hkeys.self).mp hpath
  refine ⟨v, ?_⟩
  rw [resolve_path hkeys hne hw, Trail.isNested_eq_false hflat hw]
  rfl

/-- A key with a point behind the first item of a list. -/
theorem available_exact_escaped :
    let document := Value.object [("a", .list [.object [("b.c", .null)], .list []])]
    document.Throughout Value.IsPlain ∧ document.Throughout Value.HasWritableKeys ∧
      available document 3 = ["a", "a[0]", "a[0].b\\.c"] ∧
      ∀ path ∈ available document 3, ∃ v, resolve document path = .ok (some v) := by
  intro document
  have hplain : document.Throughout Value.IsPlain := by simp [document, Value.IsPlain]
  have hkeys : document.Throughout Value.HasWritableKeys := by
    simp [document, Value.HasWritableKeys, root]
  have hflat : document.Throughout Value.StartsFlat := by simp [document, Value.StartsFlat]
  obtain ⟨-, -, -, hfound⟩ := available_exact hplain hkeys 3
  exact ⟨hplain, hkeys, rfl, hfound hflat⟩

/-- The path of the first item of a list that is itself a first item is offered, and not found. -/
theorem available_exact_nested :
    let document := Value.object [("a", .list [.list [.int 1]])]
    document.Throughout Value.IsPlain ∧ document.Throughout Value.HasWritableKeys ∧
      "a[0][0]" ∈ available document 3 ∧ resolve document "a[0][0]" = .ok none := by
  intro document
  have hplain : document.Throughout Value.IsPlain := by simp [document, Value.IsPlain]
  have hkeys : document.Throughout Value.HasWritableKeys := by
    simp [document, Value.HasWritableKeys, root]
  exact ⟨hplain, hkeys, by decide +kernel, rfl⟩

end Timeline.Path
