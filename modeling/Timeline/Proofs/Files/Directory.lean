import Timeline.Proofs.Files.Workspace

/-! # Files of a directory

The path of a single name in a directory leads, if anywhere, to this name directly below what the
path of the directory leads to. So a file that is opened at such a path changes nothing anywhere
else.
-/

namespace Timeline

namespace FileName

variable {directory name : String}

/-- A name that leads one level down: it is not empty, has no slash and is no point or two. -/
structure IsSingle (name : String) : Prop where
  ne_empty : name ≠ ""
  no_slash : '/' ∉ name.toList
  ne_here : name ≠ "."
  ne_above : name ≠ ".."

theorem IsSingle.head?_ne (h : IsSingle name) : name.toList.head? ≠ some '/' :=
  fun hhead => h.no_slash (List.mem_of_head? hhead)

theorem mem_of_mem_behindSlash {c : Char} {path : List Char} (h : c ∈ behindSlash path) :
    c ∈ path ∧ c ≠ '/' := by
  unfold behindSlash at h
  cases hlast : (Text.splitAt '/' path).getLast? with
  | none =>
    rw [hlast] at h
    cases h
  | some piece =>
    rw [hlast] at h
    exact Text.mem_of_mem_splitAt (List.mem_of_getLast? hlast) h

theorem toList_join (hdirectory : directory ≠ "") (hname : IsSingle name) :
    ∃ front, (join directory name).toList = front ++ '/' :: name.toList ∧
      (directory.toList = front ∨ directory.toList = front ++ ['/']) := by
  unfold join
  rw [if_neg hname.head?_ne]
  split
  · rename_i hslash
    obtain ⟨front, hfront⟩ := List.getLast?_eq_some_iff.mp (hslash.resolve_left hdirectory)
    exact ⟨front, by simp [hfront], .inr hfront⟩
  · exact ⟨directory.toList, by simp, .inl rfl⟩

theorem head?_join (hdirectory : directory ≠ "") (hname : IsSingle name) :
    (join directory name).toList.head? = directory.toList.head? := by
  obtain ⟨front, hjoin, hfront⟩ := toList_join hdirectory hname
  have hne := mt String.toList_eq_nil_iff.mp hdirectory
  cases front with
  | nil => rcases hfront with hfront | hfront <;> simp_all
  | cons c front => rcases hfront with hfront | hfront <;> rw [hjoin, hfront] <;> rfl

theorem sublist_join (hdirectory : directory ≠ "") (hname : IsSingle name) :
    directory.toList.Sublist (join directory name).toList := by
  obtain ⟨front, hjoin, hfront⟩ := toList_join hdirectory hname
  rw [hjoin]
  rcases hfront with hfront | hfront
  · rw [hfront]
    exact List.sublist_append_left _ _
  · rw [hfront]
    exact (List.sublist_append_left ['/'] name.toList).append_left front

theorem mem_join {c : Char} (h : c ∈ (join directory name).toList) :
    c ∈ directory.toList ∨ c = '/' ∨ c ∈ name.toList := by
  unfold join at h
  split_ifs at h
  · exact .inr (.inr h)
  · simpa [or_left_comm] using Or.inr h
  · simpa using h

end FileName

namespace Workspace

open FileName

variable {w files : Workspace} {base place names path other : List String}
  {directory name : String}

theorem Ends.of_snoc (h : w.Ends base (path ++ [name]) names) (hname : IsSingle name) :
    ∃ place, w.follow base path = .ok (place, some .directory) ∧ names = place ++ [name] := by
  induction path generalizing base with
  | nil =>
    rw [List.nil_append] at h
    cases h with
    | stay hstay _ => exact absurd hstay (not_or.mpr ⟨hname.ne_empty, hname.ne_here⟩)
    | up _ => exact absurd rfl hname.ne_above
    | down _ _ h => cases h
    | last _ _ => exact ⟨base, rfl, rfl⟩
  | cons first rest ih =>
    rw [List.cons_append] at h
    generalize htail : rest ++ [name] = tail at h
    cases h with
    | stay hstay h =>
      subst htail
      obtain ⟨place, hplace, rfl⟩ := ih h
      exact ⟨place, by rw [follow_stay hstay, hplace], rfl⟩
    | up h =>
      subst htail
      obtain ⟨place, hplace, rfl⟩ := ih h
      exact ⟨place, by rw [follow_up, hplace], rfl⟩
    | down hfirst hdirectory h =>
      subst htail
      obtain ⟨place, hplace, rfl⟩ := ih h
      exact ⟨place, by rw [follow_down hfirst hdirectory, hplace], rfl⟩
    | last _ _ => exact absurd htail (by simp)

theorem LeadsTo.of_join (h : w.LeadsTo (join directory name) names) (hdirectory : directory ≠ "")
    (hname : IsSingle name) :
    ∃ place, w.locate directory = .ok (place, some .directory) ∧ names = place ++ [name] := by
  obtain ⟨front, hjoin, hfront⟩ := toList_join hdirectory hname
  have hsplit : Text.splitAt '/' (join directory name).toList =
      Text.splitAt '/' front ++ [name.toList] := by
    rw [hjoin, Text.splitAt_append_cons, Text.splitAt_of_notMem hname.no_slash]
  have hends := h.ends
  rw [hsplit, List.map_append, List.map_singleton, String.ofList_toList] at hends
  obtain ⟨place, hplace, rfl⟩ := hends.of_snoc hname
  refine ⟨place, ?_, rfl⟩
  have hstart : start (join directory name) = start directory := by
    rw [start, start, head?_join hdirectory hname]
  rw [hstart] at hplace
  have hfollow : w.follow (start directory)
      ((Text.splitAt '/' directory.toList).map String.ofList) = .ok (place, some .directory) := by
    rcases hfront with hfront | hfront
    · rw [hfront, hplace]
    · rw [hfront, Text.splitAt_append_cons, List.map_append, follow_append hplace]
      rfl
  have hshort : directory.utf8ByteSize ≤ longestPath := by
    have hsize := String.utf8Len_le_of_sublist (sublist_join hdirectory hname)
    rw [String.utf8Len_toList, String.utf8Len_toList] at hsize
    exact Nat.le_trans hsize h.short
  rw [locate, if_neg hdirectory, if_neg (Nat.not_lt.mpr hshort)]
  exact hfollow

/-- Of all files only the one at a path is opened for writing: it is written, or it cannot be opened
and everything stays as it is. -/
inductive Opens (w : Workspace) (path : String) : Workspace → Prop
  | written {bytes : List UInt8} {files : Workspace} :
    w.write path bytes = .ok files → Opens w path files
  | refused {bytes : List UInt8} {fault : FileFault} :
    w.write path bytes = .error fault → Opens w path w

/-- A file that is opened in a directory changes nothing but what its name leads to there. -/
theorem Opens.eq_of_ne (h : w.Opens (join directory name) files) (hdirectory : directory ≠ "")
    (hname : IsSingle name) (hchanged : files.find? other ≠ w.find? other) :
    ∃ place, w.locate directory = .ok (place, some .directory) ∧ other = place ++ [name] := by
  cases h with
  | written hwrite =>
    obtain ⟨names, hleads, rfl⟩ := write_eq_ok_iff.mp hwrite
    obtain rfl : other = names := by
      by_contra hne
      exact hchanged (find?_put_of_ne hne)
    exact hleads.of_join hdirectory hname
  | refused _ => exact absurd rfl hchanged

end Workspace

end Timeline
