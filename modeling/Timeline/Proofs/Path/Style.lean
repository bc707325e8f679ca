import Timeline.Proofs.Path.Failure

/-! # Paths without style problems

The check of the style looks at the characters of a path, the check of its structure at its
segments. A path that passes the first one passes the second one too: it has a segment, since it
does not begin with a point, and where it has brackets the same segments are read.
-/

namespace Timeline.Path

variable {path : String} {segments : List String} {c : Char}

theorem exists_consFirst_eq (c : Char) (ps : List (List Char)) :
    ∃ piece rest, consFirst c ps = (c :: piece) :: rest := by
  cases ps with
  | nil => exact ⟨[], [], rfl⟩
  | cons piece rest => exact ⟨piece, rest, rfl⟩

theorem exists_pieces_eq (hc : c ≠ '.') (cs : List Char) :
    ∃ d piece rest, pieces false (c :: cs) = (d :: piece) :: rest := by
  by_cases hescape : c = '\\'
  · subst hescape
    cases cs with
    | nil => exact ⟨'\\', [], [], rfl⟩
    | cons d cs =>
      rw [pieces_escaped]
      exact ⟨d, exists_consFirst_eq d _⟩
  by_cases hopening : c = '['
  · subst hopening
    rw [pieces_opening]
    exact ⟨_, exists_consFirst_eq _ _⟩
  by_cases hclosing : c = ']'
  · subst hclosing
    rw [pieces_closing]
    exact ⟨_, exists_consFirst_eq _ _⟩
  · rw [pieces_plain cs hescape hopening hclosing fun h => absurd h hc]
    exact ⟨c, exists_consFirst_eq c _⟩

theorem split_ne_nil (hne : path ≠ "") (hpoint : path.toList.head? ≠ some '.') :
    split path ≠ [] := by
  obtain ⟨c, cs, hpath⟩ := List.exists_cons_of_ne_nil (mt String.toList_eq_nil_iff.mp hne)
  have hc : c ≠ '.' := by
    rintro rfl
    exact hpoint (by rw [hpath, List.head?_cons])
  obtain ⟨d, piece, rest, hpieces⟩ := exists_pieces_eq hc cs
  simp [split, splitChars, hpath, hpieces]

theorem malformed_of_no_brackets (h : ∀ s ∈ segments, s.toList.any isBracket = false) :
    malformed segments = .ok [] := by
  have hreads : ReadsAs segments (segments.map fun s => ⟨s, none⟩) :=
    List.forall₂_map_right_iff.mpr (List.forall₂_same.mpr fun s hs => Step.read_key (h s hs))
  exact hreads.malformed_eq

theorem malformed_of_bracketProblems (h : bracketProblems path = .ok []) :
    malformed (split path) = .ok [] := by
  unfold bracketProblems at h
  dsimp only at h
  split at h
  · cases h
  rename_i hcount
  split at h
  · exact h
  · rename_i hcontains
    have hopening : '[' ∉ path.toList := mt List.contains_iff_mem.mpr hcontains
    have hclosing : ']' ∉ path.toList := by
      rw [List.count_eq_zero_of_not_mem hopening, not_not] at hcount
      exact List.count_eq_zero.mp hcount.symm
    refine malformed_of_no_brackets fun s hs => any_isBracket_eq_false ?_ ?_
    · exact fun hmem => hopening (mem_of_mem_split hs _ hmem)
    · exact fun hmem => hclosing (mem_of_mem_split hs _ hmem)

theorem structureProblems_of_styleProblems {path : Value} (h : styleProblems path = .ok []) :
    structureProblems path = .ok [] := by
  unfold styleProblems at h
  split at h
  · cases h
  · rename_i s hne
    split at h
    · rename_i hroot
      rw [hroot]
      rfl
    · rename_i hroot
      obtain ⟨brackets, hbrackets, hrest⟩ := bind_eq_ok_iff.mp h
      have hnil := Except.ok.inj hrest
      simp only [List.append_eq_nil_iff] at hnil
      obtain ⟨⟨⟨-, rfl⟩, -⟩, hends⟩ := hnil
      have hpoint : s.toList.head? ≠ some '.' := by
        intro hpoint
        rw [if_pos (.inl hpoint)] at hends
        cases hends
      rw [structureProblems_eq (split_ne_nil hne hpoint) hroot]
      exact malformed_of_bracketProblems hbrackets
  · cases h

end Timeline.Path
