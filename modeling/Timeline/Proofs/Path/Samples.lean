import Timeline.Proofs.Path.Structure

/-! # Samples of documents

A sample of a document is reached by keys and by the first items of lists. It is found at its path,
but for those behind a list that is itself the first item of a list, as a key in a path has a single
index.
-/

namespace Timeline

namespace Value

/-- The first item of a list is no list with items. -/
def StartsFlat : Value → Prop
  | .list (.list (_ :: _) :: _) => False
  | _ => True

end Value

namespace Path

/-- A step to a sample: to the value of a key, or to the first item of a list. -/
inductive Hop where
  | key (k : String)
  | first
deriving DecidableEq, Repr

namespace Hop

def target? (v : Value) : Hop → Option Value
  | .key k => v.child? k
  | .first => v.item? 0

def below (path : String) : Hop → String
  | .key k => join path k
  | .first => element path 0

end Hop

/-- The steps from a document to one of its samples. -/
abbrev Trail := List Hop

namespace Trail

def walk (v : Value) : Trail → Option Value
  | [] => some v
  | h :: t => (h.target? v).bind fun w => walk w t

def below (path : String) (t : Trail) : String :=
  t.foldl Hop.below path

def path (t : Trail) : String :=
  t.below ""

/-- Whether a list is entered that is the first item of a list. -/
def isNested : Trail → Bool
  | .first :: .first :: _ => true
  | _ :: t => isNested t
  | [] => false

end Trail

variable {k path : String} {v w : Value} {h : Hop} {t : Trail} {fields : Fields}

theorem join_ne_empty (hpath : path ≠ "") (k : String) : join path k ≠ "" := by
  simp [join, hpath]

theorem element_ne_empty (path : String) (i : Nat) : element path i ≠ "" := by
  simp [element]

theorem Hop.below_ne_empty (hpath : path ≠ "") (h : Hop) : h.below path ≠ "" := by
  cases h with
  | key k => exact join_ne_empty hpath k
  | first => exact element_ne_empty path 0

theorem Trail.below_ne_empty (hpath : path ≠ "") (t : Trail) : t.below path ≠ "" := by
  induction t generalizing path with
  | nil => exact hpath
  | cons h t ih => exact ih (h.below_ne_empty hpath)

theorem Hop.throughout_target {p : Value → Prop} (hv : v.Throughout p)
    (hw : h.target? v = some w) : w.Throughout p := by
  cases h with
  | key k =>
    rw [target?, Value.child?_eq] at hw
    exact hv.of_get? hw
  | first =>
    cases v with
    | list items => exact hv.of_mem_items (List.mem_of_getElem? hw)
    | _ => cases hw

theorem Hop.eq_key_of_target? (hw : h.target? (.object fields) = some w) :
    ∃ k, h = .key k ∧ (k, w) ∈ fields := by
  cases h with
  | key k => exact ⟨k, rfl, Fields.mem_of_get? hw⟩
  | first => cases hw

theorem Hop.target?_key (hv : (Value.object fields).IsPlain) (hmem : (k, w) ∈ fields) :
    (Hop.key k).target? (.object fields) = some w :=
  Fields.get?_of_mem hv hmem

namespace Trail

theorem walk_append (v : Value) (t t' : Trail) :
    (t ++ t').walk v = (t.walk v).bind fun w => t'.walk w := by
  induction t generalizing v with
  | nil => rfl
  | cons h t ih =>
    rw [List.cons_append, walk, walk, Option.bind_assoc]
    exact congrArg _ (funext ih)

theorem below_append (path : String) (t t' : Trail) :
    (t ++ t').below path = t'.below (t.below path) :=
  List.foldl_append

theorem walk_null (hne : t ≠ []) : t.walk .null = none := by
  obtain ⟨h, t, rfl⟩ := List.exists_cons_of_ne_nil hne
  cases h <;> rfl

theorem writable_of_walk (hv : v.Throughout Value.HasWritableKeys) (hw : t.walk v = some w) :
    ∀ k, .key k ∈ t → (Step.mk k none).IsKeyed ∧ k ≠ root := by
  induction t generalizing v with
  | nil => exact fun _ hk => absurd hk List.not_mem_nil
  | cons h t ih =>
    obtain ⟨u, hu, hw⟩ := Option.bind_eq_some_iff.mp hw
    intro k hk
    rcases List.mem_cons.mp hk with rfl | hk
    · cases v with
      | object fields =>
        obtain ⟨hempty, hopening, hclosing, hroot⟩ := hv.self _ (Fields.mem_of_get? hu)
        exact ⟨⟨hempty, hopening, hclosing⟩, hroot⟩
      | _ => cases hu
    · exact ih (Hop.throughout_target hv hu) hw k hk

theorem isNested_eq_false (hv : v.Throughout Value.StartsFlat) (hw : t.walk v = some w) :
    t.isNested = false := by
  fun_induction isNested t generalizing v with
  | case1 t =>
    obtain ⟨u, hu, hw⟩ := Option.bind_eq_some_iff.mp hw
    obtain ⟨u', hu', -⟩ := Option.bind_eq_some_iff.mp hw
    cases v with
    | list items =>
      cases u with
      | list inner =>
        cases items with
        | nil => cases hu
        | cons first rest =>
          cases hu
          cases inner with
          | nil => cases hu'
          | cons _ _ => exact absurd hv.self id
      | _ => cases hu'
    | _ => cases hu
  | case2 h t _ ih =>
    obtain ⟨u, hu, hw⟩ := Option.bind_eq_some_iff.mp hw
    exact ih (Hop.throughout_target hv hu) hw
  | case3 => rfl

end Trail

/-- A key and the number of lists that are entered behind it. -/
structure Stretch where
  key : String
  lists : Nat

namespace Stretch

def hops (s : Stretch) : Trail :=
  .key s.key :: List.replicate s.lists .first

def indexChars (lists : Nat) : List Char :=
  (List.replicate lists ['[', '0', ']']).flatten

def chars (s : Stretch) : List Char :=
  s.key.toList ++ indexChars s.lists

def written (s : Stretch) : List Char :=
  escapeChars s.key.toList ++ indexChars s.lists

/-- The step as which the segment of a stretch is read. -/
def step? : Stretch → Option Step
  | ⟨k, 0⟩ => some ⟨k, none⟩
  | ⟨k, 1⟩ => some ⟨k, some 0⟩
  | _ => none

def IsKeyed (s : Stretch) : Prop :=
  (Step.mk s.key none).IsKeyed

variable {s : Stretch} {ss : List Stretch}

theorem toList_below_replicate (path : String) (n : Nat) :
    (Trail.below path (List.replicate n .first)).toList = path.toList ++ indexChars n := by
  induction n generalizing path with
  | zero => simp [Trail.below, indexChars]
  | succ n ih =>
    have hstep : Trail.below path (List.replicate (n + 1) .first) =
        Trail.below (element path 0) (List.replicate n .first) := rfl
    rw [hstep, ih]
    simp [element, indexChars, List.replicate_succ, naturalText]

theorem toList_below_hops (hpath : path ≠ "") (s : Stretch) :
    (s.hops.below path).toList = path.toList ++ '.' :: s.written := by
  have hstep : s.hops.below path =
      Trail.below (join path s.key) (List.replicate s.lists .first) := rfl
  rw [hstep, toList_below_replicate]
  simp [join, hpath, escape, written]

theorem toList_below (hpath : path ≠ "") (ss : List Stretch) :
    (Trail.below path (ss.flatMap hops)).toList =
      path.toList ++ ss.flatMap fun s => '.' :: s.written := by
  induction ss generalizing path with
  | nil => simp [Trail.below]
  | cons s ss ih =>
    rw [List.flatMap_cons, Trail.below_append, ih (Trail.below_ne_empty hpath _),
      toList_below_hops hpath, List.append_assoc]
    rfl

theorem toList_path (hs : s.IsKeyed) (ss : List Stretch) :
    (Trail.path ((s :: ss).flatMap hops)).toList =
      s.written ++ ss.flatMap fun s => '.' :: s.written := by
  have hkey : escape s.key ≠ "" := escape_ne_empty hs.key_ne
  have hfirst : s.hops.below "" =
      Trail.below (escape s.key) (List.replicate s.lists .first) := rfl
  rw [Trail.path, List.flatMap_cons, Trail.below_append, hfirst,
    toList_below (Trail.below_ne_empty hkey _), toList_below_replicate]
  simp [escape, written]

theorem pieces_indexChars (n : Nat) (rest : List Char) :
    pieces false (indexChars n ++ rest) = (indexChars n).foldr consFirst (pieces false rest) := by
  induction n with
  | zero => rfl
  | succ n ih =>
    have hsucc : indexChars (n + 1) = '[' :: '0' :: ']' :: indexChars n := rfl
    have hzero : pieces true ('0' :: ']' :: (indexChars n ++ rest)) =
        consFirst '0' (pieces true (']' :: (indexChars n ++ rest))) :=
      pieces_plain _ (by decide) (by decide) (by decide) fun _ => rfl
    simp only [hsucc, List.cons_append, List.foldr_cons, pieces_opening, hzero, pieces_closing, ih]

theorem pieces_written (hs : s.IsKeyed) (rest : List Char) :
    pieces false (s.written ++ rest) = s.chars.foldr consFirst (pieces false rest) := by
  rw [written, chars, List.append_assoc, List.foldr_append,
    pieces_escapeChars hs.no_opening hs.no_closing, pieces_indexChars]

theorem split_path (hss : ∀ s ∈ ss, s.IsKeyed) :
    split (Trail.path (ss.flatMap hops)) = ss.map fun s => String.ofList s.chars := by
  cases ss with
  | nil => rfl
  | cons s ss =>
    refine split_of_pieces_eq ?_ fun s hs => ?_
    · rw [toList_path (hss s List.mem_cons_self)]
      exact pieces_pointed fun s hs => pieces_written (hss s hs)
    · exact List.append_ne_nil_of_left_ne_nil (hss s hs).toList_ne_nil _

theorem indexed?_chars_eq_none (hs : s.IsKeyed) (hlists : 2 ≤ s.lists) :
    indexed? s.chars = none := by
  obtain ⟨n, hn⟩ := Nat.exists_eq_add_of_le' hlists
  have hkey : ∀ c ∈ s.key.toList, (!isBracket c) = true := by
    intro c hc
    simp [hs.isBracket_eq_false c hc]
  have hchars : s.chars = s.key.toList ++ '[' :: '0' :: ']' :: '[' :: '0' :: ']' :: indexChars n := by
    rw [chars, hn]
    rfl
  have hopening : isBracket '[' = true := rfl
  have hzero : Text.isDigit '0' = true := by decide
  rw [indexed?, hchars, List.takeWhile_append_of_pos hkey, List.dropWhile_append_of_pos hkey]
  simp [hopening, hzero, isDigit_closing]

theorem read_chars (hs : s.IsKeyed) : Step.read (String.ofList s.chars) = .ok s.step? := by
  obtain ⟨k, lists⟩ := s
  obtain ⟨hempty, hopening, hclosing⟩ := hs
  match lists with
  | 0 =>
    have hchars : chars ⟨k, 0⟩ = Step.chars ⟨k, none⟩ := rfl
    rw [hchars]
    exact Step.read_chars ⟨hempty, hopening, hclosing, by simp⟩
  | 1 =>
    have hchars : chars ⟨k, 1⟩ = Step.chars ⟨k, some 0⟩ := by
      simp [chars, indexChars, Step.chars, Step.indexChars]
    rw [hchars]
    exact Step.read_chars ⟨hempty, hopening, hclosing, by simp [Json.digitLimit]⟩
  | n + 2 =>
    have hany : (chars ⟨k, n + 2⟩).any isBracket = true := by
      simp [chars, indexChars, List.replicate_succ, isBracket]
    have hnone := indexed?_chars_eq_none (s := ⟨k, n + 2⟩) ⟨hempty, hopening, hclosing⟩
      (Nat.le_add_left 2 n)
    simp [Step.read, hany, hnone, step?]

theorem walk_hops {step : Step} (h : s.step? = some step) (v : Value) :
    s.hops.walk v = step.target? v := by
  obtain ⟨k, lists⟩ := s
  match lists with
  | 0 =>
    cases h
    exact Option.bind_fun_some _
  | 1 =>
    cases h
    exact congrArg _ (funext fun _ => Option.bind_fun_some _)
  | n + 2 => cases h

theorem step?_eq_none_iff : s.step? = none ↔ 2 ≤ s.lists := by
  obtain ⟨k, lists⟩ := s
  match lists with
  | 0 | 1 => simp [step?]
  | n + 2 => simp [step?]

/-- Following the segments of stretches leads along the trail, if each stretch is read as a step,
and else nowhere. -/
theorem follow_chars (hss : ∀ s ∈ ss, s.IsKeyed) (v : Value) :
    follow v (ss.map fun s => String.ofList s.chars) =
      .ok (if ss.any (2 ≤ ·.lists) then none else Trail.walk v (ss.flatMap hops)) := by
  induction ss generalizing v with
  | nil => rfl
  | cons s ss ih =>
    obtain ⟨hs, hss⟩ := List.forall_mem_cons.mp hss
    rw [List.map_cons, List.any_cons, List.flatMap_cons, Trail.walk_append]
    cases hstep : s.step? with
    | none =>
      have hread : Step.read (String.ofList s.chars) = .ok none := hstep ▸ read_chars hs
      have hlists := step?_eq_none_iff.mp hstep
      rw [follow, hread]
      simp [hlists]
    | some step =>
      have hread : Step.read (String.ofList s.chars) = .ok (some step) := hstep ▸ read_chars hs
      have hlists : ¬2 ≤ s.lists := by
        rw [← step?_eq_none_iff, hstep]
        exact Option.some_ne_none step
      rw [follow_cons hread, walk_hops hstep]
      cases step.target? v with
      | none => simp
      | some w => simp [hlists, ih hss w]

theorem isNested_flatMap (ss : List Stretch) :
    Trail.isNested (ss.flatMap hops) = ss.any (2 ≤ ·.lists) := by
  induction ss with
  | nil => rfl
  | cons s ss ih =>
    obtain ⟨k, lists⟩ := s
    rw [List.flatMap_cons, List.any_cons, ← ih]
    match lists with
    | 0 => simp [hops, Trail.isNested]
    | 1 =>
      cases ss with
      | nil => rfl
      | cons s ss => simp [hops, Trail.isNested]
    | n + 2 => simp [hops, List.replicate_succ, Trail.isNested]

theorem exists_eq (t : Trail) :
    ∃ (n : Nat) (ss : List Stretch), t = List.replicate n .first ++ ss.flatMap hops := by
  induction t with
  | nil => exact ⟨0, [], rfl⟩
  | cons h t ih =>
    obtain ⟨n, ss, rfl⟩ := ih
    cases h with
    | key k => exact ⟨0, ⟨k, n⟩ :: ss, rfl⟩
    | first => exact ⟨n + 1, ss, rfl⟩

theorem exists_eq_of_walk (hw : t.walk (.object fields) = some w) :
    ∃ ss : List Stretch, t = ss.flatMap hops := by
  obtain ⟨n, ss, rfl⟩ := exists_eq t
  cases n with
  | zero => exact ⟨ss, rfl⟩
  | succ n => cases hw

theorem eq_of_no_opening (h : '[' ∉ s.chars) : s = ⟨String.ofList s.chars, 0⟩ := by
  obtain ⟨k, lists⟩ := s
  cases lists with
  | zero => simp [chars, indexChars]
  | succ n => exact absurd (by simp [chars, indexChars, List.replicate_succ]) h

theorem eq_of_isPlainKey (hss : ∀ s ∈ ss, s.IsKeyed) (hsplit : split path ≠ [])
    (hpath : Trail.path (ss.flatMap hops) = path) (hkey : isPlainKey path = true) :
    ss = [⟨path, 0⟩] := by
  have hsegments := split_path hss
  rw [hpath, split_of_isPlainKey hkey (ne_empty_of_split hsplit)] at hsegments
  obtain ⟨s, rfl, hsegment⟩ := List.map_eq_singleton_iff.mp hsegments.symm
  have hopening : '[' ∉ s.chars := by
    intro hmem
    have hmem : '[' ∈ path.toList := by rwa [← hsegment, String.toList_ofList]
    exact (forall_of_isPlainKey hkey '[' hmem).2.1 rfl
  rw [eq_of_no_opening hopening, hsegment]

end Stretch

/-- A sample is found at its path, unless a list is entered that is the first item of a list. -/
theorem resolve_path (hkeys : (Value.object fields).Throughout Value.HasWritableKeys) (hne : t ≠ [])
    (hw : t.walk (.object fields) = some w) :
    resolve (.object fields) t.path = .ok (if t.isNested then none else some w) := by
  have hwritable := Trail.writable_of_walk hkeys hw
  obtain ⟨ss, rfl⟩ := Stretch.exists_eq_of_walk hw
  have hmem : ∀ s ∈ ss, .key s.key ∈ ss.flatMap Stretch.hops := fun s hs =>
    List.mem_flatMap.mpr ⟨s, hs, List.mem_cons_self⟩
  have hss : ∀ s ∈ ss, s.IsKeyed := fun s hs => (hwritable s.key (hmem s hs)).1
  have hsegments := Stretch.split_path hss
  have hsplit : split (Trail.path (ss.flatMap Stretch.hops)) ≠ [] := by
    rw [hsegments, ne_eq, List.map_eq_nil_iff]
    rintro rfl
    exact hne rfl
  have hroot : Trail.path (ss.flatMap Stretch.hops) ≠ root := by
    intro hroot
    have hsingle := Stretch.eq_of_isPlainKey hss (hroot ▸ hsplit) hroot (by decide)
    rw [hsingle] at hwritable
    exact (hwritable root List.mem_cons_self).2 rfl
  have hclosed : ¬IsClosedKey (Trail.path (ss.flatMap Stretch.hops)) := by
    rintro ⟨hplain, hclosing⟩
    have hsingle := Stretch.eq_of_isPlainKey hss hsplit rfl hplain
    rw [hsingle] at hss
    exact (hss _ List.mem_cons_self).no_closing hclosing
  rw [resolve_eq_follow hsplit hroot hclosed, hsegments, Stretch.follow_chars hss,
    Stretch.isNested_flatMap, hw]

end Path

end Timeline
