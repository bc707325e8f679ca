import Timeline.Path.Resolve
import Timeline.Proofs.Number.Natural

/-! # Written addresses

An address whose keys are not empty and hold no brackets is written as a path that is split into
the segments of its steps again, and each segment is read as its step. Hence resolving a written
address is walking along it, and two addresses are never written alike.
-/

namespace Timeline.Path

/-- A step whose key is not empty and has no brackets. -/
structure Step.IsKeyed (s : Step) : Prop where
  key_ne : s.key ≠ ""
  no_opening : '[' ∉ s.key.toList
  no_closing : ']' ∉ s.key.toList

/-- A step that can be written: its key is not empty and has no brackets, and its index has no
more digits than are read. -/
structure Step.IsWritable (s : Step) : Prop where
  key_ne : s.key ≠ ""
  no_opening : '[' ∉ s.key.toList
  no_closing : ']' ∉ s.key.toList
  short : ∀ i ∈ s.index, (Nat.toDigits 10 i).length ≤ Json.digitLimit

/-- An address that can be written: it has steps, and each of them can be written. -/
structure Address.IsWritable (a : Address) : Prop where
  ne_nil : a ≠ []
  step : ∀ s ∈ a, s.IsWritable

theorem isBracket_eq_false {cs : List Char} (hopening : '[' ∉ cs) (hclosing : ']' ∉ cs) :
    ∀ c ∈ cs, isBracket c = false := by
  intro c hc
  simp only [isBracket, Bool.or_eq_false_iff, decide_eq_false_iff_not]
  exact ⟨fun h => hopening (h ▸ hc), fun h => hclosing (h ▸ hc)⟩

theorem any_isBracket_eq_false {cs : List Char} (hopening : '[' ∉ cs) (hclosing : ']' ∉ cs) :
    cs.any isBracket = false :=
  List.any_eq_false.mpr fun c hc => Bool.eq_false_iff.mp (isBracket_eq_false hopening hclosing c hc)

namespace Step

def indexChars (s : Step) : List Char :=
  match s.index with
  | none => []
  | some i => '[' :: Nat.toDigits 10 i ++ [']']

def chars (s : Step) : List Char :=
  s.key.toList ++ s.indexChars

def written (s : Step) : List Char :=
  escapeChars s.key.toList ++ s.indexChars

theorem IsWritable.isKeyed {s : Step} (hs : s.IsWritable) : s.IsKeyed :=
  ⟨hs.key_ne, hs.no_opening, hs.no_closing⟩

theorem IsKeyed.isBracket_eq_false {s : Step} (hs : s.IsKeyed) :
    ∀ c ∈ s.key.toList, isBracket c = false :=
  Path.isBracket_eq_false hs.no_opening hs.no_closing

theorem IsKeyed.toList_ne_nil {s : Step} (hs : s.IsKeyed) : s.key.toList ≠ [] := by
  intro h
  exact hs.key_ne (String.toList_eq_nil_iff.mp h)

end Step

theorem foldr_consFirst (cs piece : List Char) (rest : List (List Char)) :
    cs.foldr consFirst (piece :: rest) = (cs ++ piece) :: rest := by
  induction cs with
  | nil => rfl
  | cons c cs ih => rw [List.foldr_cons, ih]; rfl

theorem pieces_escaped (inside : Bool) (c : Char) (cs : List Char) :
    pieces inside ('\\' :: c :: cs) = consFirst c (pieces inside cs) := by
  simp [pieces]

theorem pieces_plain {inside : Bool} {c : Char} (cs : List Char) (hb : c ≠ '\\')
    (ho : c ≠ '[') (hc : c ≠ ']') (hp : c = '.' → inside = true) :
    pieces inside (c :: cs) = consFirst c (pieces inside cs) := by
  have : ¬ (c = '.' ∧ inside = false) := by
    rintro ⟨h, hi⟩
    simp [hp h] at hi
  rw [pieces.eq_4 _ _ _ (by simp [hb]) (by simp [hb])]
  simp [ho, hc, this]

theorem pieces_opening (inside : Bool) (cs : List Char) :
    pieces inside ('[' :: cs) = consFirst '[' (pieces true cs) := by
  simp [pieces]

theorem pieces_closing (inside : Bool) (cs : List Char) :
    pieces inside (']' :: cs) = consFirst ']' (pieces false cs) := by
  simp [pieces]

theorem pieces_point (cs : List Char) : pieces false ('.' :: cs) = [] :: pieces false cs := by
  simp [pieces]

theorem pieces_escapeChars {key : List Char} (ho : '[' ∉ key) (hc : ']' ∉ key)
    (rest : List Char) :
    pieces false (escapeChars key ++ rest) = key.foldr consFirst (pieces false rest) := by
  induction key with
  | nil => rfl
  | cons c key ih =>
    simp only [List.mem_cons, not_or] at ho hc
    have ih := ih ho.2 hc.2
    by_cases h : c = '\\' ∨ c = '.'
    · simp only [escapeChars, h, if_true, List.cons_append, List.foldr_cons, pieces_escaped, ih]
    · have hn := not_or.mp h
      simp only [escapeChars, h, if_false, List.cons_append, List.foldr_cons]
      rw [pieces_plain _ hn.1 (Ne.symm ho.1) (Ne.symm hc.1) (fun hp => absurd hp hn.2), ih]

theorem pieces_digits {digits : List Char} (h : ∀ c ∈ digits, c.isDigit = true)
    (rest : List Char) :
    pieces true (digits ++ rest) = digits.foldr consFirst (pieces true rest) := by
  induction digits with
  | nil => rfl
  | cons c digits ih =>
    have hd := h c List.mem_cons_self
    have ne : ∀ d : Char, d.isDigit = false → c ≠ d := by
      rintro d hf rfl
      simp [hd] at hf
    rw [List.cons_append, List.foldr_cons,
      pieces_plain _ (ne _ rfl) (ne _ rfl) (ne _ rfl) (fun _ => rfl),
      ih fun d hd => h d (List.mem_cons_of_mem _ hd)]

theorem pieces_indexChars (s : Step) (rest : List Char) :
    pieces false (s.indexChars ++ rest) = s.indexChars.foldr consFirst (pieces false rest) := by
  unfold Step.indexChars
  cases s.index with
  | none => rfl
  | some i =>
    have hd : ∀ c ∈ Nat.toDigits 10 i, c.isDigit = true := fun c hc =>
      Nat.isDigit_of_mem_toDigits (by decide) (by decide) hc
    simp only [List.cons_append, List.append_assoc, List.foldr_cons, List.foldr_append,
      List.foldr_nil, List.nil_append, pieces_opening, pieces_digits hd, pieces_closing]

/-- A written step is the start of a piece, which is its segment. -/
theorem pieces_written {s : Step} (hs : s.IsKeyed) (rest : List Char) :
    pieces false (s.written ++ rest) = s.chars.foldr consFirst (pieces false rest) := by
  rw [Step.written, Step.chars, List.append_assoc, List.foldr_append,
    pieces_escapeChars hs.no_opening hs.no_closing, pieces_indexChars]

theorem pieces_pointed {α : Type} {written chars : α → List Char} {x : α} {xs : List α}
    (h : ∀ y ∈ x :: xs, ∀ rest,
      pieces false (written y ++ rest) = (chars y).foldr consFirst (pieces false rest)) :
    pieces false (written x ++ xs.flatMap fun y => '.' :: written y) = (x :: xs).map chars := by
  obtain ⟨hx, hxs⟩ := List.forall_mem_cons.mp h
  induction xs generalizing x with
  | nil =>
    rw [List.flatMap_nil, hx, pieces, foldr_consFirst, List.append_nil]
    rfl
  | cons y ys ih =>
    obtain ⟨hy, hys⟩ := List.forall_mem_cons.mp hxs
    rw [List.flatMap_cons, List.cons_append, hx, pieces_point, ih hxs hy hys, foldr_consFirst,
      List.append_nil]
    rfl

theorem split_of_pieces_eq {α : Type} {path : String} {chars : α → List Char} {xs : List α}
    (h : pieces false path.toList = xs.map chars) (hne : ∀ x ∈ xs, chars x ≠ []) :
    split path = xs.map fun x => String.ofList (chars x) := by
  have hfull : ∀ piece ∈ xs.map chars, (!piece.isEmpty) = true := by
    intro piece hpiece
    obtain ⟨x, hx, rfl⟩ := List.mem_map.mp hpiece
    simpa using hne x hx
  rw [split, splitChars, h, List.filter_eq_self.mpr hfull, List.map_map]
  rfl

theorem isDigit_closing : Text.isDigit ']' = false := by decide

theorem indexed?_eq_none {cs : List Char} (h : '[' ∉ cs) : indexed? cs = none := by
  unfold indexed?
  dsimp only
  split
  · rename_i rest hrest
    have hmem : '[' ∈ cs.dropWhile (!isBracket ·) := by simp [hrest]
    exact absurd ((List.dropWhile_sublist _).subset hmem) h
  · rfl

theorem indexed?_append {key digits : List Char} (hk : key ≠ [])
    (hb : ∀ c ∈ key, isBracket c = false) (hn : digits ≠ [])
    (hd : ∀ c ∈ digits, Text.isDigit c = true) :
    indexed? (key ++ '[' :: (digits ++ [']'])) = some (key, digits) := by
  have hb : ∀ c ∈ key, (!isBracket c) = true := fun c hc => by simp [hb c hc]
  have ho : isBracket '[' = true := rfl
  rw [indexed?, List.takeWhile_append_of_pos hb, List.dropWhile_append_of_pos hb]
  simp [ho, List.takeWhile_append_of_pos hd, List.dropWhile_append_of_pos hd, isDigit_closing, hk,
    hn]

theorem indexed?_chars {key : String} {i : Nat} (hs : (Step.mk key (some i)).IsKeyed) :
    indexed? (Step.chars ⟨key, some i⟩) = some (key.toList, Nat.toDigits 10 i) :=
  indexed?_append hs.toList_ne_nil hs.isBracket_eq_false Nat.toDigits_ne_nil fun _ hc =>
    Text.isDigit_of_mem_toDigits hc

theorem Step.chars_inj {s t : Step} (hs : s.IsKeyed) (ht : t.IsKeyed) (h : s.chars = t.chars) :
    s = t := by
  have hclash : ∀ {key other : String} {i : Nat}, (Step.mk key none).IsKeyed →
      Step.chars ⟨key, none⟩ ≠ Step.chars ⟨other, some i⟩ := by
    intro key other i hkey heq
    have hmem : '[' ∈ Step.chars ⟨key, none⟩ := by
      rw [heq]
      simp [Step.chars, Step.indexChars]
    exact hkey.no_opening (by simpa [Step.chars, Step.indexChars] using hmem)
  obtain ⟨key, index⟩ := s
  obtain ⟨other, index'⟩ := t
  cases index with
  | none =>
    cases index' with
    | none =>
      have hkeys : key.toList = other.toList := by simpa [Step.chars, Step.indexChars] using h
      rw [String.toList_inj.mp hkeys]
    | some j => exact absurd h (hclash hs)
  | some i =>
    cases index' with
    | none => exact absurd h.symm (hclash ht)
    | some j =>
      have hparts := indexed?_chars hs
      rw [h, indexed?_chars ht, Option.some.injEq, Prod.mk.injEq] at hparts
      obtain ⟨hkeys, hdigits⟩ := hparts
      have hindex := congrArg Text.decimal hdigits
      rw [Text.decimal_toDigits, Text.decimal_toDigits] at hindex
      rw [String.toList_inj.mp hkeys, hindex]

theorem Step.read_chars {s : Step} (hs : s.IsWritable) :
    Step.read (String.ofList s.chars) = .ok (some s) := by
  have hk := hs.isKeyed.isBracket_eq_false
  obtain ⟨key, index⟩ := s
  cases index with
  | none =>
    have hc : Step.chars ⟨key, none⟩ = key.toList := List.append_nil _
    rw [hc, String.ofList_toList, Step.read_key]
    exact List.any_eq_false.mpr fun c hc => by simp [hk c hc]
  | some i =>
    have hc : Step.chars ⟨key, some i⟩ = key.toList ++ '[' :: (Nat.toDigits 10 i ++ [']']) := rfl
    have hany : (Step.chars ⟨key, some i⟩).any isBracket = true := by
      simp [hc, isBracket]
    have hindexed := indexed?_chars hs.isKeyed
    simp only [Step.read, String.toList_ofList, hany, if_true, hindexed,
      readNatural_toDigits (hs.short i rfl), String.ofList_toList]
    rfl

theorem Address.toList_renderBelow {parent : String} (hp : parent ≠ "") (a : Address) :
    (renderBelow parent a).toList = parent.toList ++ a.flatMap fun s => '.' :: s.written := by
  induction a generalizing parent with
  | nil => simp [renderBelow]
  | cons s a ih =>
    obtain ⟨key, index⟩ := s
    cases index with
    | none =>
      rw [renderBelow, ih (by simp [join, hp])]
      simp [join, hp, escape, Step.written, Step.indexChars]
    | some i =>
      rw [renderBelow, ih (by simp [element])]
      simp [join, hp, element, naturalText, escape, Step.written, Step.indexChars]

theorem escapeChars_ne_nil {key : List Char} (h : key ≠ []) : escapeChars key ≠ [] := by
  cases key with
  | nil => exact absurd rfl h
  | cons c key =>
    unfold escapeChars
    split <;> simp

theorem escapeChars_eq_self {key : List Char} (h : ∀ c ∈ key, c ≠ '.' ∧ c ≠ '\\') :
    escapeChars key = key := by
  induction key with
  | nil => rfl
  | cons c key ih =>
    obtain ⟨⟨hpoint, hbackslash⟩, hkey⟩ := List.forall_mem_cons.mp h
    simp [escapeChars, hpoint, hbackslash, ih hkey]

theorem escape_ne_empty {key : String} (h : key ≠ "") : escape key ≠ "" := by
  intro hempty
  have hchars : (escape key).toList = [] := String.toList_eq_nil_iff.mpr hempty
  exact escapeChars_ne_nil (mt String.toList_eq_nil_iff.mp h) (by simpa [escape] using hchars)

theorem join_ne_empty_of_key (path : String) {k : String} (hk : k ≠ "") : join path k ≠ "" := by
  unfold join
  split
  · exact escape_ne_empty hk
  · rename_i hpath
    simp [hpath]

theorem Address.renderBelow_append (parent : String) (a b : Address) :
    renderBelow parent (a ++ b) = renderBelow (renderBelow parent a) b := by
  induction a generalizing parent with
  | nil => rfl
  | cons s a ih => exact ih _

theorem Address.render_key (a : Address) (k : String) :
    render (a ++ [⟨k, none⟩]) = join a.render k :=
  renderBelow_append "" a _

theorem Address.render_element (a : Address) (k : String) (i : Nat) :
    render (a ++ [⟨k, some i⟩]) = element (join a.render k) i :=
  renderBelow_append "" a _

theorem Address.toList_render {s : Step} (hs : s.IsKeyed) (a : Address) :
    (Address.render (s :: a)).toList = s.written ++ a.flatMap fun t => '.' :: t.written := by
  have hk : escape s.key ≠ "" := escape_ne_empty hs.key_ne
  obtain ⟨key, index⟩ := s
  cases index with
  | none =>
    rw [render, renderBelow, toList_renderBelow (by simpa [join] using hk)]
    simp [join, escape, Step.written, Step.indexChars]
  | some i =>
    rw [render, renderBelow, toList_renderBelow (by simp [element])]
    simp [join, element, naturalText, escape, Step.written, Step.indexChars]

theorem Address.split_render_of_isKeyed {a : Address} (ha : ∀ s ∈ a, s.IsKeyed) :
    split a.render = a.map fun s => String.ofList s.chars := by
  cases a with
  | nil => rfl
  | cons s a =>
    have hs := ha s List.mem_cons_self
    refine split_of_pieces_eq ?_ fun t ht => ?_
    · rw [toList_render hs]
      exact pieces_pointed fun t ht => pieces_written (ha t ht)
    · simp [Step.chars, (ha t ht).key_ne]

/-- Addresses that are written alike are the same. -/
theorem Address.eq_of_render_eq {a b : Address} (ha : ∀ s ∈ a, s.IsKeyed)
    (hb : ∀ s ∈ b, s.IsKeyed) (h : a.render = b.render) : a = b := by
  have hsegments := split_render_of_isKeyed ha
  rw [h, split_render_of_isKeyed hb] at hsegments
  have hchars : b.map Step.chars = a.map Step.chars := by
    have hmap := congrArg (List.map String.toList) hsegments
    simpa [Function.comp_def] using hmap
  clear h hsegments
  induction a generalizing b with
  | nil => exact (List.map_eq_nil_iff.mp hchars).symm
  | cons s a ih =>
    obtain ⟨t, b, rfl⟩ : ∃ t b', b = t :: b' := by
      cases b with
      | nil => cases hchars
      | cons t b => exact ⟨t, b, rfl⟩
    obtain ⟨hhead, htail⟩ := List.cons.inj hchars
    obtain ⟨hs, ha⟩ := List.forall_mem_cons.mp ha
    obtain ⟨ht, hb⟩ := List.forall_mem_cons.mp hb
    rw [Step.chars_inj hs ht hhead.symm, ih ha hb htail]

theorem Address.IsWritable.isKeyed {a : Address} (ha : a.IsWritable) : ∀ s ∈ a, s.IsKeyed :=
  fun s hs => (ha.step s hs).isKeyed

theorem Address.split_render {a : Address} (ha : a.IsWritable) :
    split a.render = a.map fun s => String.ofList s.chars :=
  split_render_of_isKeyed ha.isKeyed

theorem Address.render_injective {a b : Address} (ha : a.IsWritable) (hb : b.IsWritable)
    (h : a.render = b.render) : a = b :=
  eq_of_render_eq ha.isKeyed hb.isKeyed h

end Timeline.Path
