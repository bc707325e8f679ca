import Timeline.Value.Basic

/-! # Equality of keys

Equality by value is symmetric and transitive among the values that can be keys: numbers and
booleans are compared by their place on the line of the numbers, and tuples item by item. Only what
is no number at all differs from itself.
-/

namespace Timeline

theorem Number.same_iff {m n : Number} :
    m.same n = true ↔ ∃ p, m.place? = some p ∧ n.place? = some p := by
  unfold same
  constructor
  · intro h
    split at h
    · rename_i p q hp hq
      obtain rfl := beq_iff_eq.mp h
      exact ⟨p, hp, hq⟩
    · cases h
  · rintro ⟨p, hp, hq⟩
    simp only [hp, hq, beq_self_eq_true]

theorem Moment.same_iff {t u : Moment} :
    t.same u = true ↔ t.offset.isSome = u.offset.isSome ∧ t.utcMicros = u.utcMicros := by
  simp [same, comparable]

namespace Value

variable {v w : Value} {m : Number}

theorem sameNumber_iff {found : Option Number} :
    sameNumber m found = true ↔ ∃ n, found = some n ∧ m.same n = true := by
  cases found <;> simp [sameNumber]

theorem same_iff_of_number (h : v.number? = some m) :
    v.same w = true ↔ ∃ n, w.number? = some n ∧ m.same n = true := by
  rw [← sameNumber_iff]
  cases v with
  | bool b => cases b <;> cases h <;> cases w <;> simp [same]
  | int n => cases h; cases w <;> simp [same]
  | float x => cases h; cases w <;> simp [same]
  | _ => cases h

theorem null_same_iff : null.same w = true ↔ w = .null := by
  cases w <;> simp [same]

theorem text_same_iff {s : String} : (text s).same w = true ↔ w = .text s := by
  cases w with
  | text t => simpa [same] using eq_comm
  | _ => simp [same]

theorem moment_same_iff {t : Moment} :
    (moment t).same w = true ↔ ∃ u, w = .moment u ∧ t.same u = true := by
  cases w <;> simp [same]

theorem day_same_iff {d : Date} : (day d).same w = true ↔ w = .day d := by
  cases w with
  | day e => simpa [same] using eq_comm
  | _ => simp [same]

theorem tuple_same_iff {xs : List Value} :
    (tuple xs).same w = true ↔ ∃ ys, w = .tuple ys ∧ sameItems xs ys = true := by
  cases w <;> simp [same]

theorem sameItems_nil_iff {ys : List Value} : sameItems [] ys = true ↔ ys = [] := by
  cases ys <;> simp [sameItems]

theorem sameItems_cons_iff {x : Value} {xs ys : List Value} :
    sameItems (x :: xs) ys = true ↔
      ∃ y rest, ys = y :: rest ∧ x.same y = true ∧ sameItems xs rest = true := by
  cases ys with
  | nil => simp [sameItems]
  | cons y rest =>
    rw [sameItems, Bool.and_eq_true]
    constructor
    · rintro ⟨hxy, hrest⟩
      exact ⟨y, rest, rfl, hxy, hrest⟩
    · rintro ⟨y, rest, ⟨⟩, hxy, hrest⟩
      exact ⟨hxy, hrest⟩

section Number

variable {u : Value} (hv : v.number? = some m) (h : v.same w = true)

include hv h

theorem same_symm_of_number : w.same v = true := by
  obtain ⟨n, hw, hmn⟩ := (same_iff_of_number hv).mp h
  obtain ⟨p, hm, hn⟩ := Number.same_iff.mp hmn
  exact (same_iff_of_number hw).mpr ⟨m, hv, Number.same_iff.mpr ⟨p, hn, hm⟩⟩

theorem same_trans_of_number (h' : w.same u = true) : v.same u = true := by
  obtain ⟨n, hw, hmn⟩ := (same_iff_of_number hv).mp h
  obtain ⟨l, hu, hnl⟩ := (same_iff_of_number hw).mp h'
  obtain ⟨p, hm, hn⟩ := Number.same_iff.mp hmn
  obtain ⟨q, hn', hl⟩ := Number.same_iff.mp hnl
  obtain rfl : p = q := Option.some.inj (hn.symm.trans hn')
  exact (same_iff_of_number hv).mpr ⟨l, hu, Number.same_iff.mpr ⟨p, hm, hl⟩⟩

end Number

theorem unhashableItem?_cons_iff {x : Value} {xs : List Value} :
    unhashableItem? (x :: xs) = none ↔ x.unhashable? = none ∧ unhashableItem? xs = none := by
  rw [unhashableItem?, Option.or_eq_none_iff]

mutual

theorem same_symm : ∀ {v w : Value}, v.unhashable? = none → v.same w = true → w.same v = true
  | .null, _, _, h => by
    obtain rfl := null_same_iff.mp h
    exact h
  | .bool b, _, _, h => same_symm_of_number (m := .int b.toNat) (by cases b <;> rfl) h
  | .int _, _, _, h => same_symm_of_number rfl h
  | .float _, _, _, h => same_symm_of_number rfl h
  | .text _, _, _, h => by
    obtain rfl := text_same_iff.mp h
    exact h
  | .moment t, _, _, h => by
    obtain ⟨u, rfl, hu⟩ := moment_same_iff.mp h
    obtain ⟨hzone, hmicros⟩ := Moment.same_iff.mp hu
    exact moment_same_iff.mpr ⟨t, rfl, Moment.same_iff.mpr ⟨hzone.symm, hmicros.symm⟩⟩
  | .day _, _, _, h => by
    obtain rfl := day_same_iff.mp h
    exact h
  | .tuple xs, _, hv, h => by
    obtain ⟨ys, rfl, hitems⟩ := tuple_same_iff.mp h
    exact tuple_same_iff.mpr ⟨xs, rfl, sameItems_symm hv hitems⟩

theorem sameItems_symm : ∀ {xs ys : List Value},
    unhashableItem? xs = none → sameItems xs ys = true → sameItems ys xs = true
  | [], _, _, h => by
    obtain rfl := sameItems_nil_iff.mp h
    exact h
  | x :: xs, _, hv, h => by
    obtain ⟨hx, hxs⟩ := unhashableItem?_cons_iff.mp hv
    obtain ⟨y, ys, rfl, hxy, hrest⟩ := sameItems_cons_iff.mp h
    exact sameItems_cons_iff.mpr ⟨x, xs, rfl, same_symm hx hxy, sameItems_symm hxs hrest⟩

end

mutual

theorem same_trans : ∀ {v w u : Value}, v.unhashable? = none → v.same w = true →
    w.same u = true → v.same u = true
  | .null, _, _, _, h, h' => by
    obtain rfl := null_same_iff.mp h
    exact h'
  | .bool b, _, _, _, h, h' => same_trans_of_number (m := .int b.toNat) (by cases b <;> rfl) h h'
  | .int _, _, _, _, h, h' => same_trans_of_number rfl h h'
  | .float _, _, _, _, h, h' => same_trans_of_number rfl h h'
  | .text _, _, _, _, h, h' => by
    obtain rfl := text_same_iff.mp h
    exact h'
  | .moment t, _, _, _, h, h' => by
    obtain ⟨u, rfl, hu⟩ := moment_same_iff.mp h
    obtain ⟨s, rfl, hs⟩ := moment_same_iff.mp h'
    obtain ⟨hzone, hmicros⟩ := Moment.same_iff.mp hu
    obtain ⟨hzone', hmicros'⟩ := Moment.same_iff.mp hs
    exact moment_same_iff.mpr
      ⟨s, rfl, Moment.same_iff.mpr ⟨hzone.trans hzone', hmicros.trans hmicros'⟩⟩
  | .day _, _, _, _, h, h' => by
    obtain rfl := day_same_iff.mp h
    exact h'
  | .tuple xs, _, _, hv, h, h' => by
    obtain ⟨ys, rfl, hitems⟩ := tuple_same_iff.mp h
    obtain ⟨zs, rfl, hitems'⟩ := tuple_same_iff.mp h'
    exact tuple_same_iff.mpr ⟨zs, rfl, sameItems_trans hv hitems hitems'⟩

theorem sameItems_trans : ∀ {xs ys zs : List Value}, unhashableItem? xs = none →
    sameItems xs ys = true → sameItems ys zs = true → sameItems xs zs = true
  | [], _, _, _, h, h' => by
    obtain rfl := sameItems_nil_iff.mp h
    exact h'
  | x :: xs, _, _, hv, h, h' => by
    obtain ⟨hx, hxs⟩ := unhashableItem?_cons_iff.mp hv
    obtain ⟨y, ys, rfl, hxy, hrest⟩ := sameItems_cons_iff.mp h
    obtain ⟨z, zs, rfl, hyz, hrest'⟩ := sameItems_cons_iff.mp h'
    exact sameItems_cons_iff.mpr
      ⟨z, zs, rfl, same_trans hx hxy hyz, sameItems_trans hxs hrest hrest'⟩

end

end Value

end Timeline
