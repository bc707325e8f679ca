import Timeline.Entity
import Timeline.Proofs.Value.Document

/-! # What has a JSON form

A value that consists of the kinds of JSON has a JSON form, so writing it does not fail. Where the
writing does not fail the whole text is written.
-/

namespace Timeline

namespace Json

mutual

theorem foreign?_eq_none (sorted : Bool) : ∀ v : Value, v.Throughout Value.IsPlain →
    foreign? sorted v = none
  | .null, _ => rfl
  | .bool _, _ => rfl
  | .int _, _ => rfl
  | .float _, _ => rfl
  | .text _, _ => rfl
  | .list items, h => foreignItem?_eq_none sorted items fun _ hv => h.of_mem_items hv
  | .object fields, h => by
    have hfields := foreignFields_eq_nil sorted fields fun f hf => h.of_mem_fields hf
    simp [foreign?, hfields]
  | .moment _, h => h.self.elim
  | .day _, h => h.self.elim
  | .tuple _, h => h.self.elim
  | .set _, h => h.self.elim

theorem foreignItem?_eq_none (sorted : Bool) : ∀ items : List Value,
    (∀ v ∈ items, v.Throughout Value.IsPlain) → foreignItem? sorted items = none
  | [], _ => rfl
  | v :: rest, h => by
    obtain ⟨hv, hrest⟩ := List.forall_mem_cons.mp h
    rw [foreignItem?, foreign?_eq_none sorted v hv, foreignItem?_eq_none sorted rest hrest]
    rfl

theorem foreignFields_eq_nil (sorted : Bool) : ∀ fields : List (String × Value),
    (∀ f ∈ fields, f.2.Throughout Value.IsPlain) → foreignFields sorted fields = []
  | [], _ => rfl
  | (k, v) :: rest, h => by
    obtain ⟨hv, hrest⟩ := List.forall_mem_cons.mp h
    rw [foreignFields, foreign?_eq_none sorted v hv, foreignFields_eq_nil sorted rest hrest]
    rfl

end

theorem write_eq_ok (style : Style) {v : Value} (h : v.Throughout Value.IsPlain) :
    write style v = .ok (text style v) := by
  rw [write, foreign?_eq_none style.sorted v h]

theorem eq_text_of_write {style : Style} {v : Value} {s : String} (h : write style v = .ok s) :
    s = text style v := by
  unfold write at h
  split at h
  · cases h
  · exact (Except.ok.inj h).symm

theorem writtenText_of_write {style : Style} (hstyle : style.sorted = false) {v : Value}
    {s : String} (h : write style v = .ok s) : writtenText style v = s := by
  unfold write at h
  rw [hstyle] at h
  unfold writtenText
  split at h
  · cases h
  · rename_i hnone
    cases h
    simp [hnone]

end Json

namespace Value

theorem exists_identifier {v : Value} (h : v.Throughout IsPlain) : ∃ s, v.identifier = .ok s := by
  have hwrite := Json.write_eq_ok Json.canonical h
  cases v with
  | null => exact ⟨_, hwrite⟩
  | bool b => exact ⟨_, hwrite⟩
  | list items => exact ⟨_, hwrite⟩
  | object fields => exact ⟨_, hwrite⟩
  | _ => exact ⟨_, rfl⟩

end Value

end Timeline
