import Mathlib.Data.List.Forall2
import Timeline.Proofs.Outcome
import Timeline.Proofs.Path.Written

/-! # Resolving written addresses

Resolving the written form of an address is walking along the address. A path that is a single
key is resolved without being split; it makes no difference, since such a path is written as it
is.
-/

namespace Timeline.Path

theorem Step.target?_null (s : Step) : s.target? .null = none := by
  cases hi : s.index <;> simp [target?, hi, Value.child?]

theorem Address.walk_null {a : Address} (ha : a ≠ []) : a.walk .null = none := by
  obtain ⟨s, rest, rfl⟩ := List.exists_cons_of_ne_nil ha
  rw [walk, Step.target?_null, Option.bind_none]

theorem Address.walk_key (v : Value) (key : String) : Address.walk v [⟨key, none⟩] = v.child? key :=
  Option.bind_fun_some _

theorem follow_cons {segment : String} {s : Step} (h : Step.read segment = .ok (some s))
    (v : Value) (rest : List String) :
    follow v (segment :: rest) = ((s.target? v).map (follow · rest)).getD (.ok none) := by
  rw [follow, h, ok_bind]
  split
  next hv =>
    rw [Value.isNull_iff.mp hv, Step.target?_null]
    rfl
  next => cases ht : s.target? v <;> simp [ht]

/-- Segments that are read as the steps of an address. -/
def ReadsAs (segments : List String) (a : Address) : Prop :=
  List.Forall₂ (fun segment s => Step.read segment = .ok (some s)) segments a

theorem ReadsAs.follow_eq {segments : List String} {a : Address} (h : ReadsAs segments a)
    (v : Value) : follow v segments = .ok (a.walk v) := by
  induction h generalizing v with
  | nil => rfl
  | @cons segment s segments a hs _ ih =>
    rw [follow_cons hs, Address.walk]
    cases s.target? v with
    | none => rfl
    | some w => exact ih w

theorem exists_walk_of_follow {segments : List String} {v w : Value}
    (h : follow v segments = .ok (some w)) : ∃ a : Address, a.walk v = some w := by
  induction segments generalizing v with
  | nil =>
    cases h
    exact ⟨[], rfl⟩
  | cons segment rest ih =>
    rw [follow] at h
    split at h
    · cases h
    · obtain ⟨step, -, h⟩ := bind_eq_ok_iff.mp h
      cases step with
      | none => cases h
      | some s =>
        dsimp only at h
        split at h
        · cases h
        · rename_i u hu
          obtain ⟨a, ha⟩ := ih h
          exact ⟨s :: a, Option.bind_eq_some_iff.mpr ⟨u, hu, ha⟩⟩

theorem exists_walk_of_resolve {path : String} {document v : Value}
    (h : resolve document path = .ok (some v)) : ∃ a : Address, a.walk document = some v := by
  unfold resolve at h
  split at h
  · cases h
  split at h
  · cases h
    exact ⟨[], rfl⟩
  split at h
  · have hkey := Except.ok.inj h
    exact ⟨[⟨path, none⟩], (Address.walk_key document path).trans hkey⟩
  split at h
  · cases h
  · exact exists_walk_of_follow h

theorem readsAs_chars {a : Address} (ha : ∀ s ∈ a, s.IsWritable) :
    ReadsAs (a.map fun s => String.ofList s.chars) a := by
  refine List.forall₂_map_left_iff.mpr (List.forall₂_same.mpr ?_)
  exact fun s hs => Step.read_chars (ha s hs)

theorem follow_chars {a : Address} (ha : ∀ s ∈ a, s.IsWritable) (v : Value) :
    follow v (a.map fun s => String.ofList s.chars) = .ok (a.walk v) :=
  (readsAs_chars ha).follow_eq v

theorem pieces_of_isPlainKey {cs : List Char}
    (h : ∀ c ∈ cs, c ≠ '.' ∧ c ≠ '[' ∧ c ≠ '\\') : pieces false cs = [cs] := by
  induction cs with
  | nil => rfl
  | cons c cs ih =>
    have ⟨hp, ho, hb⟩ := h c List.mem_cons_self
    have ih := ih fun d hd => h d (List.mem_cons_of_mem _ hd)
    by_cases hc : c = ']'
    · rw [hc, pieces_closing, ih]
      rfl
    · rw [pieces_plain _ hb ho hc (fun e => absurd e hp), ih]
      rfl

theorem forall_of_isPlainKey {path : String} (h : isPlainKey path = true) :
    ∀ c ∈ path.toList, c ≠ '.' ∧ c ≠ '[' ∧ c ≠ '\\' := by
  intro c hc
  have h : ∀ c ∈ path.toList, (c ≠ '.' ∧ c ≠ '[') ∧ c ≠ '\\' := by
    simpa [isPlainKey] using h
  exact and_assoc.mp (h c hc)

theorem split_of_isPlainKey {path : String} (h : isPlainKey path = true) (hne : path ≠ "") :
    split path = [path] := by
  have hchars : path.toList ≠ [] := mt String.toList_eq_nil_iff.mp hne
  rw [split, splitChars, pieces_of_isPlainKey (forall_of_isPlainKey h)]
  simp [hchars]

theorem Step.eq_of_no_opening {s : Step} (h : '[' ∉ s.chars) :
    s = ⟨String.ofList s.chars, none⟩ := by
  obtain ⟨key, index⟩ := s
  cases index with
  | none => simp [Step.chars, Step.indexChars]
  | some i => exact absurd (by simp [Step.chars, Step.indexChars]) h

theorem Address.render_ne_empty {a : Address} (ha : a.IsWritable) : a.render ≠ "" := by
  intro h
  have hsplit := split_render ha
  rw [h] at hsplit
  exact ha.ne_nil (List.map_eq_nil_iff.mp (hsplit.symm.trans rfl))

theorem Address.eq_of_isPlainKey {a : Address} (ha : a.IsWritable)
    (h : isPlainKey a.render = true) : a = [⟨a.render, none⟩] := by
  have hsplit := split_render ha
  rw [split_of_isPlainKey h (render_ne_empty ha)] at hsplit
  obtain ⟨s, hs, hsegment⟩ := List.map_eq_singleton_iff.mp hsplit.symm
  have hno : '[' ∉ s.chars := by
    intro hm
    have hmem : '[' ∈ a.render.toList := by rwa [← hsegment, String.toList_ofList]
    exact (forall_of_isPlainKey h '[' hmem).2.1 rfl
  have hkey : s = ⟨a.render, none⟩ := by
    rw [← hsegment]
    exact Step.eq_of_no_opening hno
  exact hs.trans (congrArg (fun t => [t]) hkey)

/-- Only a key that is the path of the root is written like it. -/
theorem Address.render_ne_root {a : Address} (ha : a.IsWritable) (hr : ∀ s ∈ a, s.key ≠ root) :
    a.render ≠ root := by
  intro h
  have hplain : isPlainKey a.render = true := by
    rw [h]
    decide
  have hkey : a = [⟨root, none⟩] := h ▸ eq_of_isPlainKey ha hplain
  exact hr ⟨root, none⟩ (hkey ▸ List.mem_singleton_self _) rfl

/-- Resolving a written address is walking along it, unless it is written like the root. -/
theorem resolve_render (document : Value) {a : Address} (ha : a.IsWritable)
    (hr : a.render ≠ root) : resolve document a.render = .ok (a.walk document) := by
  have hne := a.render_ne_empty ha
  by_cases hd : document.isNull
  · rw [Value.isNull_iff.mp hd, Address.walk_null ha.ne_nil]
    rfl
  have hd : document.isNull = false := by simpa using hd
  simp only [resolve, hd, hne, hr, decide_false, Bool.or_false, if_false, Bool.false_eq_true]
  split
  next hp =>
    have h : a.walk document = Address.walk document [⟨a.render, none⟩] :=
      congrArg (Address.walk document) (Address.eq_of_isPlainKey ha hp)
    rw [h, Address.walk_key]
  next =>
    rw [Address.split_render ha]
    split
    next h => exact absurd (List.map_eq_nil_iff.mp h) ha.ne_nil
    next => exact follow_chars ha.step document

/-- A key with a point and a backslash at its end is found, and so is the null below it. -/
theorem resolve_render_escaped :
    let a : Address := [⟨"a.b\\", some 1⟩, ⟨"c d", none⟩]
    let document := Value.object [("a.b\\", .list [.null, .object [("c d", .null)]])]
    a.IsWritable ∧ a.render ≠ root ∧ resolve document a.render = .ok (some .null) := by
  have ha : Address.IsWritable [⟨"a.b\\", some 1⟩, ⟨"c d", none⟩] := by
    refine ⟨by decide, ?_⟩
    intro s hs
    simp only [List.mem_cons, List.not_mem_nil, or_false] at hs
    rcases hs with rfl | rfl
    · exact ⟨by decide, by decide, by decide, by decide⟩
    · exact ⟨by decide, by decide, by decide, by simp⟩
  have hr : Address.render [⟨"a.b\\", some 1⟩, ⟨"c d", none⟩] ≠ root := by decide
  exact ⟨ha, hr, (resolve_render _ ha hr).trans rfl⟩

end Timeline.Path
