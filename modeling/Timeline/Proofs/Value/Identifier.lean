import Timeline.Proofs.Json.Writer

/-! # Empty identifiers

Numbers, dates and collections all have texts with at least one character, so an identifier is empty
only for the empty text.
-/

namespace Timeline

theorem integerText_ne_empty (n : Int) : integerText n ≠ "" := by
  cases n <;> simp [integerText, integerChars, Nat.toDigits_ne_nil]

theorem Double.Decimal.text_ne_nil (d : Decimal) : d.text ≠ [] := by
  unfold Decimal.text
  dsimp only
  split
  · simp
  · split <;> simp

theorem Double.text_ne_empty (x : Double) : x.text ≠ "" := by
  unfold Double.text
  split <;> simp [Decimal.text_ne_nil]

theorem Moment.text_ne_empty (m : Moment) : m.text ≠ "" := by
  simp [Moment.text]

theorem Date.text_ne_nil (d : Date) : d.text ≠ [] := by
  simp [Date.text, Date.monthDayText]

theorem Json.bracketed_ne_nil (style : Style) (depth : Nat) (opening closing : Char)
    (parts : List (List Char)) : bracketed style depth opening closing parts ≠ [] := by
  unfold bracketed
  split <;> simp

theorem Value.literal_tuple_ne_empty (items : List Value) : (Value.tuple items).literal ≠ "" := by
  rcases items with - | ⟨item, - | ⟨other, rest⟩⟩ <;> simp [Value.literal]

theorem Value.literal_set_ne_empty (items : List Value) : (Value.set items).literal ≠ "" := by
  cases items <;> simp [Value.literal]

theorem Json.write_ne_empty {style : Style} {v : Value} (h : chars style 0 v ≠ []) :
    write style v ≠ .ok "" := by
  intro hwrite
  have htext : text style v ≠ "" := by simpa [text] using h
  exact htext (eq_text_of_write hwrite).symm

theorem Value.identifier_eq_empty_iff {v : Value} : v.identifier = .ok "" ↔ v = .text "" := by
  cases v with
  | text s => simp [identifier, plain]
  | null =>
    have hchars : Json.chars Json.canonical 0 .null ≠ [] := by simp [Json.chars]
    exact iff_of_false (Json.write_ne_empty hchars) (by simp)
  | bool b =>
    have hchars : Json.chars Json.canonical 0 (.bool b) ≠ [] := by cases b <;> simp [Json.chars]
    exact iff_of_false (Json.write_ne_empty hchars) (by simp)
  | list items =>
    have hchars : Json.chars Json.canonical 0 (.list items) ≠ [] := by
      simp [Json.chars, Json.bracketed_ne_nil]
    exact iff_of_false (Json.write_ne_empty hchars) (by simp)
  | object fields =>
    have hchars : Json.chars Json.canonical 0 (.object fields) ≠ [] := by
      simp [Json.chars, Json.bracketed_ne_nil]
    exact iff_of_false (Json.write_ne_empty hchars) (by simp)
  | int n => simp [identifier, plain, literal, integerText_ne_empty]
  | float x => simp [identifier, plain, literal, Double.text_ne_empty]
  | moment m => simp [identifier, plain, Moment.text_ne_empty]
  | day d => simp [identifier, plain, Date.text_ne_nil]
  | tuple items => simp [identifier, plain, literal_tuple_ne_empty]
  | set items => simp [identifier, plain, literal_set_ne_empty]

theorem Value.identifier_orNull_eq_empty_iff {found : Option Value} :
    (orNull found).identifier = .ok "" ↔ found = some (.text "") := by
  rw [identifier_eq_empty_iff]
  cases found <;> simp [orNull]

end Timeline
