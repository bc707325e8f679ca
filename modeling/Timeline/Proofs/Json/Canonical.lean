import Timeline.Entity
import Timeline.Proofs.Json.RoundTrip
import Timeline.Proofs.Json.Writer
import Timeline.Proofs.Value.Reorders

/-! # Canonical texts

The canonical text of a value is its compact text with all fields sorted by their keys. As written
values are read back, values without binary64 numbers have the same canonical text exactly if they
differ only in the order of fields. Lists and objects are identified by these texts.
-/

namespace Timeline

namespace Json

variable {v w : Value} {limit : Nat}

theorem itemChars_eq (style : Style) (depth : Nat) (items : List Value) :
    itemChars style depth items = items.map (chars style depth) := by
  induction items with
  | nil => rfl
  | cons v rest ih => rw [itemChars, ih, List.map_cons]

theorem fieldChars_eq (style : Style) (depth : Nat) (fields : Fields) :
    fieldChars style depth fields = fields.map fun f =>
      (f.1, stringText style.ascii f.1 ++ ':' :: ' ' :: chars style depth f.2) := by
  induction fields with
  | nil => rfl
  | cons f rest ih => rw [fieldChars, ih, List.map_cons]

theorem ordered_fieldChars (style : Style) (depth : Nat) (fields : Fields) :
    ordered canonical (fieldChars style depth fields) = fieldChars style depth fields.sorted := by
  rw [fieldChars_eq, fieldChars_eq]
  refine (List.map_mergeSort ?_).symm
  intro f _ g _
  rfl

/-- The canonical characters are the compact ones of the value with sorted fields. -/
theorem chars_canonical (depth : Nat) (h : v.Throughout Value.IsPlain) :
    chars canonical depth v = chars compact depth v.sorted := by
  induction v using Value.induct generalizing depth with
  | scalar v hscalar =>
    rw [Value.sorted_of_isScalar hscalar]
    cases v with
    | list => cases hscalar
    | object => cases hscalar
    | bool b => cases b <;> rfl
    | tuple => exact h.self.elim
    | _ => rfl
  | list items ih =>
    have hitems : itemChars canonical (depth + 1) items =
        itemChars compact (depth + 1) (Value.sortedItems items) := by
      rw [itemChars_eq, itemChars_eq, Value.sortedItems_eq, List.map_map]
      exact List.map_congr_left fun v hv => ih v hv (depth + 1) (h.of_mem_items hv)
    rw [Value.sorted, chars, chars, hitems]
    rfl
  | object fields ih =>
    have hfields : fieldChars canonical (depth + 1) fields =
        fieldChars compact (depth + 1) (Value.sortedValues fields) := by
      rw [fieldChars_eq, fieldChars_eq, Value.sortedValues_eq, List.map_map]
      refine List.map_congr_left fun f hf => ?_
      rw [ih f hf (depth + 1) (h.of_mem_fields hf)]
      rfl
    rw [Value.sorted, chars, chars_object rfl, hfields, ordered_fieldChars]
    rfl

/-- Not a binary64 number. -/
def IsNoFloat : Value → Prop
  | .float _ => False
  | _ => True

theorem IsExact.mono {limit' : Nat} (h : IsExact limit v) (hle : limit ≤ limit') :
    IsExact limit' v := by
  cases v with
  | int n => exact Nat.le_trans h hle
  | _ => exact h

theorem throughout_isExact_mono {limit' : Nat} (h : v.Throughout (IsExact limit))
    (hle : limit ≤ limit') : v.Throughout (IsExact limit') :=
  h.mono fun _ hu => hu.mono hle

theorem isExact_sorted (h : v.Throughout (IsExact limit)) :
    v.sorted.Throughout (IsExact limit) := by
  induction v using Value.induct with
  | scalar v hscalar => rwa [Value.sorted_of_isScalar hscalar]
  | list items ih =>
    rw [Value.sorted, Value.throughout_list_iff, Value.sortedItems_eq]
    exact ⟨trivial, List.forall_mem_map.mpr fun v hv => ih v hv (h.of_mem_items hv)⟩
  | object fields ih =>
    have hperm := (Value.sortedValues fields).perm_sorted
    have hkeys : ((Value.sortedValues fields).map (·.1)).Nodup :=
      Value.keys_sortedValues fields ▸ h.self
    rw [Value.sorted, Value.throughout_object_iff]
    refine ⟨(hperm.map Prod.fst).nodup_iff.mpr hkeys, ?_⟩
    rintro ⟨k, w⟩ hw
    obtain ⟨v, hv, rfl⟩ := Value.mem_sortedValues_iff.mp (hperm.mem_iff.mp hw)
    exact ih (k, v) hv (h.of_mem_fields hv)

theorem exists_common_limit {values : List Value}
    (h : ∀ v ∈ values, ∃ limit, v.Throughout (IsExact limit)) :
    ∃ limit, ∀ v ∈ values, v.Throughout (IsExact limit) := by
  induction values with
  | nil => exact ⟨0, List.forall_mem_nil _⟩
  | cons v rest ih =>
    obtain ⟨hv, hrest⟩ := List.forall_mem_cons.mp h
    obtain ⟨m, hm⟩ := hv
    obtain ⟨n, hn⟩ := ih hrest
    refine ⟨max m n, List.forall_mem_cons.mpr ⟨?_, fun w hw => ?_⟩⟩
    · exact throughout_isExact_mono hm (Nat.le_max_left m n)
    · exact throughout_isExact_mono (hn w hw) (Nat.le_max_right m n)

theorem exists_isExact (hplain : v.Throughout Value.IsPlain) (hfloat : v.Throughout IsNoFloat) :
    ∃ limit, v.Throughout (IsExact limit) := by
  induction v using Value.induct with
  | scalar v hscalar =>
    cases v with
    | null => exact ⟨0, Value.throughout_null_iff.mpr trivial⟩
    | bool b => exact ⟨0, Value.throughout_bool_iff.mpr trivial⟩
    | int n => exact ⟨_, Value.throughout_int_iff.mpr (Nat.le_refl _)⟩
    | text s => exact ⟨0, Value.throughout_text_iff.mpr trivial⟩
    | float x => exact hfloat.self.elim
    | list => cases hscalar
    | object => cases hscalar
    | _ => exact hplain.self.elim
  | list items ih =>
    obtain ⟨limit, hlimit⟩ := exists_common_limit fun v hv =>
      ih v hv (hplain.of_mem_items hv) (hfloat.of_mem_items hv)
    exact ⟨limit, Value.throughout_list_iff.mpr ⟨trivial, hlimit⟩⟩
  | object fields ih =>
    have hvalues : ∀ v ∈ fields.map (·.2), ∃ limit, v.Throughout (IsExact limit) :=
      List.forall_mem_map.mpr fun f hf =>
        ih f hf (hplain.of_mem_fields hf) (hfloat.of_mem_fields hf)
    obtain ⟨limit, hlimit⟩ := exists_common_limit hvalues
    exact ⟨limit, Value.throughout_object_iff.mpr ⟨hplain.self, List.forall_mem_map.mp hlimit⟩⟩

theorem chars_compact_inj (hv : v.Throughout (IsExact limit)) (hw : w.Throughout (IsExact limit)) :
    chars compact 0 v = chars compact 0 w ↔ v = w := by
  constructor
  · intro h
    have hstyle : compact.sorted = false := rfl
    have hread := readWith_chars hstyle hv
    rw [h, readWith_chars hstyle hw] at hread
    exact (Except.ok.inj hread).symm
  · rintro rfl
    rfl

/-- Values without binary64 numbers have the same canonical text exactly if they are the same up to
the order of fields. -/
theorem text_canonical_eq_iff (hv : v.Throughout Value.IsPlain) (hw : w.Throughout Value.IsPlain)
    (hvfloat : v.Throughout IsNoFloat) (hwfloat : w.Throughout IsNoFloat) :
    text canonical v = text canonical w ↔ v.Reorders w := by
  obtain ⟨m, hm⟩ := exists_isExact hv hvfloat
  obtain ⟨n, hn⟩ := exists_isExact hw hwfloat
  have hvexact := isExact_sorted (throughout_isExact_mono hm (Nat.le_max_left m n))
  have hwexact := isExact_sorted (throughout_isExact_mono hn (Nat.le_max_right m n))
  rw [text, text, String.ofList_inj, chars_canonical 0 hv, chars_canonical 0 hw,
    chars_compact_inj hvexact hwexact, Value.sorted_eq_iff hv hw]

end Json

namespace Value

variable {v w : Value}

theorem identifier_eq_write (h : v.isScalar = false) :
    v.identifier = Json.write Json.canonical v := by
  cases v with
  | list => rfl
  | object => rfl
  | _ => cases h

/-- Lists and objects without binary64 numbers have identifiers. These are the same exactly if the
values are the same up to the order of fields, at every depth. -/
theorem identifier_eq_iff (hv : v.Throughout IsPlain) (hw : w.Throughout IsPlain)
    (hvfloat : v.Throughout Json.IsNoFloat) (hwfloat : w.Throughout Json.IsNoFloat)
    (hvparts : v.isScalar = false) (hwparts : w.isScalar = false) :
    ∃ s t, v.identifier = .ok s ∧ w.identifier = .ok t ∧ (s = t ↔ v.Reorders w) := by
  refine ⟨Json.text Json.canonical v, Json.text Json.canonical w, ?_, ?_,
    Json.text_canonical_eq_iff hv hw hvfloat hwfloat⟩
  · rw [identifier_eq_write hvparts, Json.write_eq_ok Json.canonical hv]
  · rw [identifier_eq_write hwparts, Json.write_eq_ok Json.canonical hw]

/-- The fields of an item in another order. -/
theorem identifier_eq_iff_nested :
    let v : Value := .list [.object [("y", .null), ("x", .bool true)]]
    let w : Value := .list [.object [("x", .bool true), ("y", .null)]]
    v.Reorders w ∧ v.identifier = w.identifier := by
  intro v w
  have hplain : v.Throughout IsPlain ∧ w.Throughout IsPlain := by simp [v, w, IsPlain]
  have hfloat : v.Throughout Json.IsNoFloat ∧ w.Throughout Json.IsNoFloat := by
    simp [v, w, Json.IsNoFloat]
  have hfields : (object [("y", .null), ("x", .bool true)]).Reorders
      (object [("x", .bool true), ("y", .null)]) := .of_perm (.swap _ _ _) (by decide)
  have hreorders : v.Reorders w := by
    refine .list rfl fun i x y hx hy => ?_
    obtain ⟨hi, -⟩ := List.getElem?_eq_some_iff.mp hx
    obtain rfl : i = 0 := Nat.lt_one_iff.mp hi
    cases hx
    cases hy
    exact hfields
  obtain ⟨s, t, hs, ht, hst⟩ :=
    identifier_eq_iff hplain.1 hplain.2 hfloat.1 hfloat.2 rfl rfl
  exact ⟨hreorders, by rw [hs, ht, hst.mpr hreorders]⟩

end Value

end Timeline
