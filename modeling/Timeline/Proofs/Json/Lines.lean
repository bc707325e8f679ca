import Mathlib.Tactic.SplitIfs
import Timeline.Json.Writer
import Timeline.Proofs.Text.Pieces
import Timeline.Proofs.Text.Utf8

/-! # Lines of written values

The JSON text of a value holds no carriage return: in strings it is written as an escape. So
nothing of the text is lost when its line ends are unified.
-/

namespace Timeline

theorem Text.return_notMem_toDigits {b : Nat} (hb : 1 < b) (n : Nat) : '\r' ∉ Nat.toDigits b n := by
  induction n using Nat.strongRecOn with
  | ind n ih =>
    have hdigit : ∀ m, '\r' ≠ Nat.digitChar m := fun m => (Nat.digitChar_ne '\r' rfl).symm
    by_cases hn : n < b
    · rw [Nat.toDigits_of_lt_base hn]
      simp [hdigit]
    · have hquotient : n / b < n := Nat.div_lt_self (by omega) hb
      rw [Nat.toDigits_of_base_le hb (Nat.le_of_not_lt hn)]
      simp [ih _ hquotient, hdigit]

namespace Double

theorem return_notMem_pointed {ds : List Char} (h : '\r' ∉ ds) : '\r' ∉ pointed ds := by
  unfold pointed
  split <;> simp_all

theorem return_notMem_text (d : Decimal) : '\r' ∉ d.text := by
  have hdigits := Text.return_notMem_toDigits (b := 10) (by decide)
  have hkept : '\r' ∉ (dropZeros (Nat.toDigits 10 d.digits)).1 := by
    intro h
    have h := (List.dropWhile_sublist _).subset (List.mem_reverse.mp h)
    exact hdigits _ (List.mem_reverse.mp h)
  unfold Decimal.text
  generalize dropZeros (Nat.toDigits 10 d.digits) = found at hkept
  obtain ⟨digits, zeros⟩ := found
  dsimp only at hkept ⊢
  have htake : ∀ n, '\r' ∉ digits.take n := fun n h => hkept (List.mem_of_mem_take h)
  have hdrop : ∀ n, '\r' ∉ digits.drop n := fun n h => hkept (List.mem_of_mem_drop h)
  split_ifs <;> simp [return_notMem_pointed, hkept, hdigits, htake, hdrop, List.mem_replicate]

theorem return_notMem_signText (negative : Bool) : '\r' ∉ (signText negative).toList := by
  cases negative <;> decide

end Double

namespace Json

theorem return_notMem_unitEscape (n : Nat) : '\r' ∉ unitEscape n := by
  simp [unitEscape, Text.hexPadded, Text.return_notMem_toDigits, List.mem_replicate]

theorem return_notMem_charText (ascii : Bool) (c : Char) : '\r' ∉ charText ascii c := by
  unfold charText
  dsimp only
  split_ifs <;> simp [return_notMem_unitEscape, Ne.symm, *]

theorem return_notMem_stringText (ascii : Bool) (s : String) : '\r' ∉ stringText ascii s := by
  simp [stringText, return_notMem_charText]

theorem return_notMem_integerChars (n : Int) : '\r' ∉ integerChars n := by
  cases n <;> simp [integerChars, Text.return_notMem_toDigits]

theorem return_notMem_doubleText (x : Double) : '\r' ∉ doubleText x := by
  unfold doubleText
  split
  · decide
  · decide
  · decide
  · unfold Double.text
    split <;> simp [Double.return_notMem_signText, Double.return_notMem_text]

theorem return_notMem_lineStart (style : Style) (depth : Nat) : '\r' ∉ lineStart style depth := by
  unfold lineStart
  split_ifs <;> simp [List.mem_replicate]

theorem return_notMem_bracketed (style : Style) (depth : Nat) {opening closing : Char}
    {parts : List (List Char)} (hopening : opening ≠ '\r') (hclosing : closing ≠ '\r')
    (hparts : ∀ part ∈ parts, '\r' ∉ part) :
    '\r' ∉ bracketed style depth opening closing parts := by
  have hseparator : '\r' ∉ itemSeparator style (depth + 1) := by
    unfold itemSeparator
    split_ifs <;> simp [return_notMem_lineStart]
  unfold bracketed
  split_ifs
  · simp [hopening.symm, hclosing.symm]
  · have hbody : '\r' ∉ (itemSeparator style (depth + 1)).intercalate parts := by
      intro h
      rcases Text.mem_of_mem_intercalate h with h | ⟨part, hpart, h⟩
      · exact hseparator h
      · exact hparts part hpart h
    simp [hopening.symm, hclosing.symm, return_notMem_lineStart, hbody]

mutual

theorem return_notMem_chars (style : Style) (depth : Nat) : ∀ v : Value,
    '\r' ∉ chars style depth v
  | .null => by simp [chars]
  | .bool true => by simp [chars]
  | .bool false => by simp [chars]
  | .int n => return_notMem_integerChars n
  | .float x => return_notMem_doubleText x
  | .text s => return_notMem_stringText style.ascii s
  | .list items => return_notMem_bracketed style depth (by decide) (by decide)
      (return_notMem_itemChars style (depth + 1) items)
  | .tuple items => return_notMem_bracketed style depth (by decide) (by decide)
      (return_notMem_itemChars style (depth + 1) items)
  | .object fields => by
    refine return_notMem_bracketed style depth (by decide) (by decide) ?_
    intro part hpart
    obtain ⟨f, hf, rfl⟩ := List.mem_map.mp hpart
    refine return_notMem_fieldChars style (depth + 1) fields f ?_
    unfold ordered at hf
    split_ifs at hf
    · exact List.mem_mergeSort.mp hf
    · exact hf
  | .moment _ => List.not_mem_nil
  | .day _ => List.not_mem_nil
  | .set _ => List.not_mem_nil

theorem return_notMem_itemChars (style : Style) (depth : Nat) : ∀ items : List Value,
    ∀ part ∈ itemChars style depth items, '\r' ∉ part
  | [], _, h => nomatch h
  | v :: rest, part, h => by
    rcases List.mem_cons.mp h with rfl | h
    · exact return_notMem_chars style depth v
    · exact return_notMem_itemChars style depth rest part h

theorem return_notMem_fieldChars (style : Style) (depth : Nat) :
    ∀ fields : List (String × Value), ∀ f ∈ fieldChars style depth fields, '\r' ∉ f.2
  | [], _, h => nomatch h
  | (k, v) :: rest, f, h => by
    rcases List.mem_cons.mp h with rfl | h
    · simp [return_notMem_stringText, return_notMem_chars style depth v]
    · exact return_notMem_fieldChars style depth rest f h

end

theorem unifyLineEnds_text (style : Style) (v : Value) :
    Text.unifyLineEnds (text style v).toList = (text style v).toList := by
  rw [text, String.toList_ofList]
  exact Text.unifyLineEnds_of_notMem (return_notMem_chars style 0 v)

end Json

end Timeline
