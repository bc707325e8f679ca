/-! # Blanks

The white space that is stripped from texts: the characters with the Unicode property, and the
four separators U+001C to U+001F. A text without blanks at its ends is its own trimmed form. Around
numbers the four separators are no white space.
-/

namespace Timeline.Text

/-- White space of any script, U+001C to U+001F included. -/
def isBlank (c : Char) : Bool :=
  let n := c.toNat
  (9 ≤ n && n ≤ 13) || (28 ≤ n && n ≤ 32) || n == 0x85 || n == 0xA0 || n == 0x1680 ||
    (0x2000 ≤ n && n ≤ 0x200A) || n == 0x2028 || n == 0x2029 || n == 0x202F || n == 0x205F ||
    n == 0x3000

def trimEnd (cs : List Char) : List Char :=
  (cs.reverse.dropWhile isBlank).reverse

def trim (cs : List Char) : List Char :=
  trimEnd (cs.dropWhile isBlank)

/-- White space around a number: that of any script, without U+001C to U+001F. -/
def isNumberBlank (c : Char) : Bool :=
  isBlank c && !(28 ≤ c.toNat && c.toNat ≤ 31)

def trimNumber (cs : List Char) : List Char :=
  ((cs.dropWhile isNumberBlank).reverse.dropWhile isNumberBlank).reverse

theorem trim_sublist (cs : List Char) : (trim cs).Sublist cs := by
  have hend : (trimEnd (cs.dropWhile isBlank)).Sublist (cs.dropWhile isBlank) := by
    rw [← List.reverse_sublist, trimEnd, List.reverse_reverse]
    exact List.dropWhile_sublist isBlank
  exact hend.trans (List.dropWhile_sublist isBlank)

theorem trim_eq_self {cs : List Char} (first : ∀ c ∈ cs.head?, isBlank c = false)
    (last : ∀ c ∈ cs.getLast?, isBlank c = false) : trim cs = cs := by
  have keep : ∀ ds : List Char, (∀ c ∈ ds.head?, isBlank c = false) →
      ds.dropWhile isBlank = ds := by
    intro ds h
    cases ds with
    | nil => rfl
    | cons d ds => simp [h d (by simp)]
  rw [trim, keep cs first, trimEnd, keep, List.reverse_reverse]
  simpa [List.head?_reverse] using last

theorem trim_surrounded {before cs after : List Char} (hbefore : ∀ c ∈ before, isBlank c = true)
    (hcs : ∀ c ∈ cs, isBlank c = false) (hafter : ∀ c ∈ after, isBlank c = true) :
    trim (before ++ cs ++ after) = cs := by
  have hstart : (before ++ cs ++ after).dropWhile isBlank = (cs ++ after).dropWhile isBlank := by
    rw [List.append_assoc, List.dropWhile_append_of_pos hbefore]
  have hend : trimEnd (cs ++ after) = trimEnd cs := by
    rw [trimEnd, List.reverse_append,
      List.dropWhile_append_of_pos fun c hc => hafter c (List.mem_reverse.mp hc), trimEnd]
  cases cs with
  | nil =>
    have hnone : (after ++ []).dropWhile isBlank = [] := List.dropWhile_append_of_pos hafter
    rw [trim, hstart, List.nil_append, ← List.append_nil after, hnone]
    rfl
  | cons c cs =>
    have hkeep : ∀ ds, (c :: ds).dropWhile isBlank = c :: ds := by
      intro ds
      simp [hcs c List.mem_cons_self]
    calc trim (before ++ c :: cs ++ after)
      _ = trimEnd (c :: cs) := by
        rw [trim, hstart, List.cons_append, hkeep, ← List.cons_append, hend]
      _ = trim (c :: cs) := by rw [trim, hkeep]
      _ = c :: cs := trim_eq_self (fun d hd => hcs d (List.mem_of_mem_head? hd))
          fun d hd => hcs d (List.mem_of_getLast? hd)

end Timeline.Text
