import Mathlib.Data.String.Basic
import Timeline.Files.Workspace
import Timeline.Proofs.Text.Pieces

/-! # Written files

A path at which a file can be written leads to this file afterwards. So does the plain form of the
path, which leaves out the parts that lead nowhere.
-/

namespace Timeline

namespace Workspace

variable {w : Workspace} {names other base path : List String} {node : Node}

theorem find?_put_self (h : w.find? names ≠ some .directory) :
    (w.put names node).find? names = some node := by
  unfold find? at h ⊢
  split_ifs at h ⊢
  · exact absurd rfl h
  · simp [put]

theorem find?_put_of_ne (h : other ≠ names) : (w.put names node).find? other = w.find? other := by
  unfold find?
  split_ifs
  · rfl
  · have hskip : ∀ entries : List (List String × Node),
        (entries.filter fun e => e.1 ≠ names).lookup other = entries.lookup other := by
      intro entries
      induction entries with
      | nil => rfl
      | cons e rest ih =>
        obtain ⟨key, found⟩ := e
        by_cases hkey : key = names
        · have hne : (other == key) = false := by simpa [hkey] using h
          rw [List.filter_cons_of_neg (by simpa using hkey), ih, List.lookup_cons, hne]
        · rw [List.filter_cons_of_pos (by simpa using hkey), List.lookup_cons, List.lookup_cons, ih]
    have hne : (other == names) = false := by simpa using h
    rw [put, List.lookup_cons, hne]
    exact hskip w.entries

/-- A name that leads one level down. -/
structure IsName (name : String) : Prop where
  moves : ¬(name = "" ∨ name = ".")
  down : name ≠ ".."
  short : ¬longestName < name.utf8ByteSize

/-- Following a path from a base ends at the names of a file, or at names that are free. -/
inductive Ends (w : Workspace) : List String → List String → List String → Prop
  | stay {name : String} {base path names : List String} : name = "" ∨ name = "." →
    Ends w base path names → Ends w base (name :: path) names
  | up {base path names : List String} : Ends w (above base) path names →
    Ends w base (".." :: path) names
  | down {name : String} {base path names : List String} : IsName name →
    w.find? (base ++ [name]) = some .directory → Ends w (base ++ [name]) path names →
    Ends w base (name :: path) names
  | last {name : String} {base : List String} : IsName name →
    w.find? (base ++ [name]) ≠ some .directory → Ends w base [name] (base ++ [name])

theorem Ends.find?_ne (h : w.Ends base path names) : w.find? names ≠ some .directory := by
  induction h with
  | stay _ _ ih => exact ih
  | up _ ih => exact ih
  | down _ _ _ ih => exact ih
  | last _ hfree => exact hfree

section Steps

variable {name : String} {rest : List String}

theorem follow_stay (h : name = "" ∨ name = ".") :
    w.follow base (name :: rest) = w.follow base rest := by
  rw [follow, if_pos h]

theorem follow_up : w.follow base (".." :: rest) = w.follow (above base) rest := by
  rw [follow, if_neg (by decide), if_pos rfl]

theorem follow_down (hname : IsName name) (h : w.find? (base ++ [name]) = some .directory) :
    w.follow base (name :: rest) = w.follow (base ++ [name]) rest := by
  rw [follow, if_neg hname.moves, if_neg hname.down, if_neg hname.short]
  simp only [h]

theorem follow_last (hname : IsName name) (h : w.find? (base ++ [name]) ≠ some .directory) :
    w.follow base [name] = .ok (base ++ [name], w.find? (base ++ [name])) := by
  rw [follow, if_neg hname.moves, if_neg hname.down, if_neg hname.short]
  cases hfound : w.find? (base ++ [name]) with
  | none => simp [hfound]
  | some node =>
    cases node with
    | file bytes => simp [hfound]
    | directory => exact absurd hfound h

theorem follow_cons_cases {found : Option Node}
    (h : w.follow base (name :: rest) = .ok (names, found)) :
    (name = "" ∨ name = ".") ∧ w.follow base rest = .ok (names, found) ∨
      name = ".." ∧ w.follow (above base) rest = .ok (names, found) ∨
      (IsName name ∧ w.find? (base ++ [name]) = some .directory ∧
        w.follow (base ++ [name]) rest = .ok (names, found)) ∨
      IsName name ∧ found ≠ some .directory ∧ w.find? (base ++ [name]) = found ∧ rest = [] ∧
        names = base ++ [name] := by
  unfold follow at h
  by_cases hstay : name = "" ∨ name = "."
  · rw [if_pos hstay] at h
    exact .inl ⟨hstay, h⟩
  by_cases hup : name = ".."
  · rw [if_neg hstay, if_pos hup] at h
    exact .inr (.inl ⟨hup, h⟩)
  by_cases hlong : longestName < name.utf8ByteSize
  · rw [if_neg hstay, if_neg hup, if_pos hlong] at h
    cases h
  rw [if_neg hstay, if_neg hup, if_neg hlong] at h
  have hname : IsName name := ⟨hstay, hup, hlong⟩
  cases hnode : w.find? (base ++ [name]) with
  | none =>
    simp only [hnode] at h
    split_ifs at h with hrest
    cases h
    exact .inr (.inr (.inr ⟨hname, by simp, rfl, List.isEmpty_iff.mp hrest, rfl⟩))
  | some node =>
    cases node with
    | directory =>
      simp only [hnode] at h
      exact .inr (.inr (.inl ⟨hname, rfl, h⟩))
    | file bytes =>
      simp only [hnode] at h
      split_ifs at h with hrest
      cases h
      exact .inr (.inr (.inr ⟨hname, by simp, rfl, List.isEmpty_iff.mp hrest, rfl⟩))

end Steps

theorem Ends.of_follow {found : Option Node} (hfound : found ≠ some .directory)
    (h : w.follow base path = .ok (names, found)) :
    w.Ends base path names ∧ w.find? names = found := by
  induction path generalizing base with
  | nil =>
    cases h
    exact absurd rfl hfound
  | cons name rest ih =>
    rcases follow_cons_cases h with
      ⟨hstay, h⟩ | ⟨rfl, h⟩ | ⟨hname, hdirectory, h⟩ | ⟨hname, -, rfl, rfl, rfl⟩
    · exact (ih h).imp_left (.stay hstay)
    · exact (ih h).imp_left .up
    · exact (ih h).imp_left (.down hname hdirectory)
    · exact ⟨.last hname hfound, rfl⟩

theorem Ends.follow_eq (h : w.Ends base path names) :
    w.follow base path = .ok (names, w.find? names) := by
  induction h with
  | stay hstay _ ih => rw [follow_stay hstay, ih]
  | up _ ih => rw [follow_up, ih]
  | down hname hdirectory _ ih => rw [follow_down hname hdirectory, ih]
  | last hname hfree => exact follow_last hname hfree

theorem follow_append {place : List String}
    (h : w.follow base path = .ok (place, some .directory)) (other : List String) :
    w.follow base (path ++ other) = w.follow place other := by
  induction path generalizing base with
  | nil =>
    cases h
    rfl
  | cons name rest ih =>
    rw [List.cons_append]
    rcases follow_cons_cases h with
      ⟨hstay, h⟩ | ⟨rfl, h⟩ | ⟨hname, hdirectory, h⟩ | ⟨-, hfound, -⟩
    · rw [follow_stay hstay, ih h]
    · rw [follow_up, ih h]
    · rw [follow_down hname hdirectory, ih h]
    · exact absurd rfl hfound

theorem Ends.put {bytes : List UInt8} (h : w.Ends base path names) :
    (w.put names (.file bytes)).Ends base path names := by
  have hfree := h.find?_ne
  induction h with
  | stay hstay _ ih => exact .stay hstay (ih hfree)
  | up _ ih => exact .up (ih hfree)
  | down hname hdirectory _ ih =>
    refine .down hname ?_ (ih hfree)
    rwa [find?_put_of_ne]
    rintro rfl
    exact hfree hdirectory
  | last hname _ => exact .last hname (by simp [find?_put_self hfree])

theorem Ends.filter (h : w.Ends base path names) :
    w.Ends base (path.filter fun name => name ≠ "" ∧ name ≠ ".") names := by
  induction h with
  | stay hstay _ ih =>
    rw [List.filter_cons, if_neg (by simpa [or_iff_not_imp_left] using hstay)]
    exact ih
  | up _ ih =>
    rw [List.filter_cons, if_pos (by decide)]
    exact .up ih
  | down hname hdirectory _ ih =>
    rw [List.filter_cons, if_pos (by simpa using hname.moves)]
    exact .down hname hdirectory ih
  | last hname hfree =>
    rw [List.filter_cons, if_pos (by simpa using hname.moves)]
    exact .last hname hfree

end Workspace

namespace FileName

variable {path : String}

theorem map_parts (path : List Char) : (parts path).map String.ofList =
    ((Text.splitAt '/' path).map String.ofList).filter fun name => name ≠ "" ∧ name ≠ "." := by
  rw [List.filter_map, parts]
  congr 1
  refine List.filter_congr fun part _ => ?_
  have hempty : String.ofList part = "" ↔ part = [] := by
    rw [← String.toList_inj, String.toList_ofList]
    rfl
  have hpoint : String.ofList part = "." ↔ part = ['.'] := by
    rw [← String.toList_inj, String.toList_ofList]
    rfl
  simp only [Function.comp_apply, ne_eq, hempty, hpoint]
  cases part <;> simp

theorem toList_plain (path : String) : (plain path).toList =
    (if path.toList.head? = some '/' then ['/'] else []) ++
      ['/'].intercalate (parts path.toList) := by
  have hjoin : (Text.join "/" ((parts path.toList).map String.ofList)).toList =
      ['/'].intercalate (parts path.toList) := Text.toList_join '/' _
  unfold plain
  dsimp only
  split_ifs <;> simp [hjoin]

theorem notMem_parts {part : List Char} (h : part ∈ parts path.toList) : '/' ∉ part :=
  fun hmem => (Text.mem_of_mem_splitAt (List.mem_filter.mp h).1 hmem).2 rfl

theorem ne_nil_of_mem_parts {part : List Char} (h : part ∈ parts path.toList) : part ≠ [] := by
  rintro rfl
  simp [parts] at h

theorem toList_plain_sublist (path : String) : (plain path).toList.Sublist path.toList := by
  have hparts : ∀ cs : List Char, (['/'].intercalate (parts cs)).Sublist cs := by
    intro cs
    have hfewer : (parts cs).Sublist (Text.splitAt '/' cs) := List.filter_sublist
    have hsub := Text.intercalate_sublist ['/'] hfewer
    rwa [Text.intercalate_splitAt] at hsub
  rw [toList_plain]
  split_ifs with hroot
  · obtain ⟨cs, hcs⟩ := List.head?_eq_some_iff.mp hroot
    have hsame : parts ('/' :: cs) = parts cs := by simp [parts, Text.splitAt]
    rw [hcs, hsame]
    exact (hparts cs).cons_cons '/'
  · exact hparts path.toList

theorem splitAt_plain (h : parts path.toList ≠ []) : Text.splitAt '/' (plain path).toList =
    (if path.toList.head? = some '/' then [[]] else []) ++ parts path.toList := by
  have hsplit : Text.splitAt '/' (['/'].intercalate (parts path.toList)) = parts path.toList :=
    Text.splitAt_intercalate (fun _ => notMem_parts) h
  rw [toList_plain]
  split_ifs
  · rw [List.singleton_append, Text.splitAt, if_pos rfl, hsplit]
    rfl
  · exact hsplit

theorem head?_plain (h : parts path.toList ≠ []) :
    (plain path).toList.head? = some '/' ↔ path.toList.head? = some '/' := by
  rw [toList_plain]
  split_ifs with hroot
  · simp [hroot]
  · obtain ⟨part, rest, hparts⟩ := List.exists_cons_of_ne_nil h
    have hmem : part ∈ parts path.toList := hparts ▸ List.mem_cons_self
    obtain ⟨c, cs, rfl⟩ := List.exists_cons_of_ne_nil (ne_nil_of_mem_parts hmem)
    have hc : c ≠ '/' := by
      rintro rfl
      exact notMem_parts hmem List.mem_cons_self
    have hhead : (['/'].intercalate (parts path.toList)).head? = some c := by
      rw [hparts]
      cases rest with
      | nil => simp
      | cons next rest =>
        rw [List.intercalate_cons_cons]
        rfl
    simp [hhead, hroot, hc]

theorem plain_ne_empty (h : parts path.toList ≠ []) : plain path ≠ "" := by
  intro hplain
  have hpieces := splitAt_plain h
  rw [hplain] at hpieces
  split_ifs at hpieces
  · exact h (List.cons.inj hpieces).2.symm
  · have hmem : [] ∈ parts path.toList := by
      rw [List.nil_append] at hpieces
      rw [← hpieces]
      exact List.mem_cons_self
    exact ne_nil_of_mem_parts hmem rfl

end FileName

namespace Workspace

variable {w : Workspace} {path : String} {names : List String} {found : Option Node}

def start (path : String) : List String :=
  if path.toList.head? = some '/' then ["/"] else []

/-- A path leads to names of a file or to free ones. -/
structure LeadsTo (w : Workspace) (path : String) (names : List String) : Prop where
  ne_empty : path ≠ ""
  short : path.utf8ByteSize ≤ longestPath
  ends : w.Ends (start path) ((Text.splitAt '/' path.toList).map String.ofList) names

theorem LeadsTo.locate_eq (h : w.LeadsTo path names) :
    w.locate path = .ok (names, w.find? names) := by
  rw [locate, if_neg h.ne_empty, if_neg (Nat.not_lt.mpr h.short)]
  exact h.ends.follow_eq

theorem LeadsTo.of_locate (hfound : found ≠ some .directory)
    (h : w.locate path = .ok (names, found)) : w.LeadsTo path names ∧ w.find? names = found := by
  unfold locate at h
  by_cases hempty : path = ""
  · rw [if_pos hempty] at h
    cases h
  by_cases hlong : path.utf8ByteSize > longestPath
  · rw [if_neg hempty, if_pos hlong] at h
    cases h
  rw [if_neg hempty, if_neg hlong] at h
  obtain ⟨hends, hnode⟩ := Ends.of_follow hfound h
  exact ⟨⟨hempty, Nat.le_of_not_lt hlong, hends⟩, hnode⟩

theorem LeadsTo.put {bytes : List UInt8} (h : w.LeadsTo path names) :
    (w.put names (.file bytes)).LeadsTo path names :=
  ⟨h.ne_empty, h.short, h.ends.put⟩

theorem LeadsTo.plain (h : w.LeadsTo path names) : w.LeadsTo (FileName.plain path) names := by
  have hends := h.ends.filter
  rw [← FileName.map_parts] at hends
  have hne : FileName.parts path.toList ≠ [] := by
    intro hnil
    rw [hnil] at hends
    cases hends
  have hsize := String.utf8Len_le_of_sublist (FileName.toList_plain_sublist path)
  rw [String.utf8Len_toList, String.utf8Len_toList] at hsize
  refine ⟨FileName.plain_ne_empty hne, Nat.le_trans hsize h.short, ?_⟩
  simp only [start, FileName.head?_plain hne, FileName.splitAt_plain hne] at hends ⊢
  by_cases hroot : path.toList.head? = some '/'
  · simp only [if_pos hroot] at hends ⊢
    exact .stay (.inl rfl) hends
  · simp only [if_neg hroot] at hends ⊢
    exact hends

/-- A file is written where a path leads to names of a file or to free ones. -/
theorem write_eq_ok_iff {bytes : List UInt8} {files : Workspace} :
    w.write path bytes = .ok files ↔
      ∃ names, w.LeadsTo path names ∧ files = w.put names (.file bytes) := by
  constructor
  · intro h
    unfold write at h
    split at h
    · cases h
    · rename_i names found hnone hlocate
      have hfound : found ≠ some .directory := by
        rintro rfl
        exact hnone rfl
      exact ⟨names, (LeadsTo.of_locate hfound hlocate).1, (Except.ok.inj h).symm⟩
    · cases h
  · rintro ⟨names, hleads, rfl⟩
    have hfree : w.find? names ≠ some .directory := hleads.ends.find?_ne
    rw [write, hleads.locate_eq]
    cases hnode : w.find? names with
    | none => rfl
    | some node =>
      cases node with
      | file bytes => rfl
      | directory => exact absurd hnode hfree

theorem LeadsTo.node_put {bytes : List UInt8} (h : w.LeadsTo path names) :
    (w.put names (.file bytes)).node path = .ok (.file bytes) := by
  rw [node, h.put.locate_eq, find?_put_self h.ends.find?_ne]

theorem read_of_write {bytes : List UInt8} {files : Workspace}
    (h : w.write path bytes = .ok files) : files.read path = .ok bytes := by
  obtain ⟨names, hleads, rfl⟩ := write_eq_ok_iff.mp h
  rw [read, hleads.node_put]

theorem writeText_of_write {text : String} {files : Workspace}
    (h : w.write path (Utf8.encode text.toList) = .ok files) :
    w.writeText path text = .ok files := by
  rw [writeText, h]

def plainNode (w : Workspace) (path : String) : Except FileFault Node :=
  w.node (if FileName.plain path = "" then "." else FileName.plain path)

/-- A path leads to a file. -/
structure HasFile (w : Workspace) (path : String) (bytes : List UInt8) : Prop where
  nul : '\x00' ∉ path.toList
  node : w.plainNode path = .ok (.file bytes)

/-- A file can be written at a path. -/
structure IsWritable (w : Workspace) (path : String) : Prop where
  nul : '\x00' ∉ path.toList
  exists_write : ∃ files, w.write path [] = .ok files

theorem IsWritable.exists_written (h : w.IsWritable path) (text : String) :
    ∃ files, w.writeText path text = .ok files ∧
      files.HasFile path (Utf8.encode text.toList) := by
  obtain ⟨files, hfiles⟩ := h.exists_write
  obtain ⟨names, hleads, -⟩ := write_eq_ok_iff.mp hfiles
  refine ⟨_, writeText_of_write (write_eq_ok_iff.mpr ⟨names, hleads, rfl⟩), h.nul, ?_⟩
  rw [plainNode, if_neg hleads.plain.ne_empty, hleads.plain.node_put]

end Workspace

end Timeline
