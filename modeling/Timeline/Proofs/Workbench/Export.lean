import Mathlib.Data.Bool.AllAny
import Timeline.Proofs.Files.Directory
import Timeline.Proofs.Rule.Export
import Timeline.Proofs.Text.Casing
import Timeline.Workbench.Export

/-! # Exported files

Whatever name is asked for, the name of the exported file is a single one that ends in `.json`. So
an export opens one file directly in its directory and changes nothing else. If it succeeds, this
file holds the JSON list of the entities.
-/

namespace Timeline

namespace Exported

variable {asked directory path name : String} {entities : List Entity} {w : Workspace}

/-- A single name that ends in `.json`, but for the case of its letters. -/
structure IsExportName (name : String) : Prop extends FileName.IsSingle name where
  json : ∃ stem ending, name.toList = stem ++ ending ∧ ending.map Char.toLower = extension

theorem mem_baseName {c : Char} (h : c ∈ baseName asked) :
    c ≠ '/' ∧ (c ∈ asked.toList ∨ c ∈ "timeline_entities".toList) := by
  unfold baseName at h
  split at h
  · refine ⟨?_, .inr h⟩
    rintro rfl
    exact absurd h (by decide)
  · obtain ⟨hmem, hslash⟩ := FileName.mem_of_mem_behindSlash h
    exact ⟨hslash, .inl ((Text.trim_sublist _).subset hmem)⟩

theorem mem_fileName {c : Char} (h : c ∈ (fileName asked).toList) :
    c ≠ '/' ∧ (c ∈ asked.toList ∨ c ∈ "timeline_entities".toList ∨ c ∈ extension) := by
  have hbase : c ∈ baseName asked ∨ c ∈ extension := by
    unfold fileName at h
    rw [String.toList_ofList] at h
    split_ifs at h
    · exact .inl h
    · exact List.mem_append.mp h
  rcases hbase with hbase | hextension
  · obtain ⟨hslash, hfrom⟩ := mem_baseName hbase
    exact ⟨hslash, hfrom.imp_right .inl⟩
  · refine ⟨?_, .inr (.inr hextension)⟩
    rintro rfl
    exact absurd hextension (by decide)

theorem fileName_json (asked : String) :
    ∃ stem ending, (fileName asked).toList = stem ++ ending ∧
      ending.map Char.toLower = extension := by
  have hforms : ∀ d ∈ extension, Text.IsAsciiForm d := List.all_iff_forall_prop.mp (by decide)
  unfold fileName
  rw [String.toList_ofList]
  split_ifs with hending
  · have hlower := List.isSuffixOf_iff_suffix.mp hending
    obtain ⟨stem, ending, hname, hcase⟩ := Text.exists_ending_of_lower hlower hforms
    rw [String.toList_ofList] at hname
    exact ⟨stem, ending, hname, hcase⟩
  · exact ⟨baseName asked, extension, rfl, by decide⟩

theorem isExportName_fileName (asked : String) : IsExportName (fileName asked) := by
  obtain ⟨stem, ending, hname, hcase⟩ := fileName_json asked
  have hlong : extension.length ≤ (fileName asked).toList.length := by
    rw [hname, List.length_append, ← hcase, List.length_map]
    exact Nat.le_add_left _ _
  have hne : ∀ short : String, short.toList.length < extension.length →
      fileName asked ≠ short := by
    rintro short hshort rfl
    exact absurd hlong (Nat.not_le.mpr hshort)
  exact {
    ne_empty := hne "" (by decide)
    no_slash := fun hmem => (mem_fileName hmem).1 rfl
    ne_here := hne "." (by decide)
    ne_above := hne ".." (by decide)
    json := ⟨stem, ending, hname, hcase⟩ }

theorem notMem_pathIn (hdirectory : '\x00' ∉ directory.toList) (hasked : '\x00' ∉ asked.toList) :
    '\x00' ∉ (pathIn directory asked).toList := by
  intro hmem
  rcases FileName.mem_join hmem with hmem | hslash | hmem
  · exact hdirectory hmem
  · exact absurd hslash (by decide)
  · rcases (mem_fileName hmem).2 with hmem | hmem | hmem
    · exact hasked hmem
    · exact absurd hmem (by decide)
    · exact absurd hmem (by decide)

/-- A file holds the JSON text of a value, from which the value is read if it is an exact one. -/
structure HoldsJson (files : Workspace) (path : String) (v : Value) (text : String) : Prop where
  written : Json.write Json.pretty v = .ok text
  read : files.read path = .ok (Utf8.encode text.toList)
  exact : v.Throughout (Json.IsExact Json.digitLimit) → Json.read text.toList = .ok v

theorem HoldsJson.of_write {files : Workspace} {v : Value} {text : String}
    (hwritten : Json.write Json.pretty v = .ok text)
    (hfile : w.write path (Utf8.encode text.toList) = .ok files) :
    HoldsJson files path v text := by
  refine ⟨hwritten, Workspace.read_of_write hfile, ?_⟩
  intro hexact
  obtain ⟨s, hs, -, hread⟩ := Json.exists_written hexact
  obtain rfl : s = text := Except.ok.inj (hs.symm.trans hwritten)
  exact hread

/-- How an export ends: with a file that holds all entities, or with a failure that is reported,
after the file has been opened or refused. -/
inductive Ends (w : Workspace) (path : String) (entities : List Entity) :
    Workspace × Except Failure Unit → Prop
  | saved {files : Workspace} {text : String} : w.Opens path files →
    HoldsJson files path (.list (entities.map fun e => .object e.toFields)) text →
      Ends w path entities (files, .ok ())
  | failed {files : Workspace} {f : Failure} : w.Opens path files → isReported f = true →
    Ends w path entities (files, .error f)

theorem isReported_of_write {style : Json.Style} {v : Value} {f : Failure}
    (h : Json.write style v = .error f) : isReported f = true := by
  unfold Json.write at h
  split at h <;> cases h
  rfl

theorem ends_write (w : Workspace) (entities : List Entity) (hnul : '\x00' ∉ path.toList) :
    Ends w path entities (write w path entities) := by
  unfold write listOf
  generalize hlist : Value.list (entities.map fun e => .object e.toFields) = list
  rw [if_neg (by simpa using hnul), Workspace.writeText]
  cases hfile : w.write path (Utf8.encode (Json.writtenText Json.pretty list).toList) with
  | error fault => exact .failed (.refused hfile) rfl
  | ok files =>
    cases hjson : Json.write Json.pretty list with
    | error f => exact .failed (.written hfile) (isReported_of_write hjson)
    | ok text =>
      rw [Json.writtenText_of_write rfl hjson] at hfile
      have hholds : HoldsJson files path list text := .of_write hjson hfile
      exact .saved (.written hfile) (hlist ▸ hholds)

theorem outcome_ofEntities (hne : entities ≠ [])
    (hnul : '\x00' ∉ (pathIn directory asked).toList) :
    ∃ files shown, (ofEntities w directory asked entities).outcome = .ok (files, shown) ∧
      w.Opens (pathIn directory asked) files ∧
      ∀ path, shown.path = some path → path = pathIn directory asked ∧
        ∃ text, HoldsJson files path (.list (entities.map fun e => .object e.toFields)) text := by
  unfold ofEntities
  rw [if_neg (by simpa using hne)]
  dsimp only
  generalize pathIn directory asked = path at hnul ⊢
  have hends := ends_write w entities hnul
  generalize write w path entities = written at hends ⊢
  cases hends with
  | saved hopens hholds =>
    refine ⟨_, _, rfl, hopens, fun shown hshown => ?_⟩
    obtain rfl := Option.some.inj hshown
    exact ⟨rfl, _, hholds⟩
  | failed hopens hreported =>
    dsimp only
    rw [if_pos hreported]
    exact ⟨_, _, rfl, hopens, fun shown hshown => absurd hshown (Option.some_ne_none shown).symm⟩

/-- Whatever name is asked for, of all files only one can change, which lies directly in the
directory and has a name that ends in `.json`. If a path is given, it is that of this file, which
holds the JSON list of the entities. -/
theorem ofEntities_inside (w : Workspace) (hne : entities ≠ []) (hasked : '\x00' ∉ asked.toList)
    (hdirectory : directory ≠ "") (hnul : '\x00' ∉ directory.toList) :
    ∃ name, IsExportName name ∧
      ∃ files shown, (ofEntities w directory asked entities).outcome = .ok (files, shown) ∧
        w.Opens (FileName.join directory name) files ∧
        (∀ names, files.find? names ≠ w.find? names →
          ∃ place, w.locate directory = .ok (place, some .directory) ∧
            names = place ++ [name]) ∧
        ∀ path, shown.path = some path → path = FileName.join directory name ∧
          ∃ text, HoldsJson files path (.list (entities.map fun e => .object e.toFields)) text := by
  have hname := isExportName_fileName asked
  obtain ⟨files, shown, houtcome, hopens, hshown⟩ :=
    outcome_ofEntities (w := w) hne (notMem_pathIn hnul hasked)
  refine ⟨fileName asked, hname, files, shown, houtcome, hopens, ?_, hshown⟩
  intro names hchanged
  exact hopens.eq_of_ne hdirectory hname.toIsSingle hchanged

set_option maxRecDepth 2000 in
/-- A name that asks for a file above the directory, and what is written instead. -/
theorem ofEntities_inside_above :
    let w : Workspace := ⟨[(["tmp"], .directory), (["notes"], .file [104, 105])]⟩
    let entities : List Entity := [⟨"E1", ⟨0⟩, ⟨0⟩, .text "a", .text "f", .null, .null⟩,
      ⟨"E2", ⟨0⟩, ⟨86400000000⟩, .text "a", .text "f", .int 7, .int 2⟩]
    let text := "\n".intercalate [
      "[",
      "  \x7b",
      "    \"id\": \"E1\",",
      "    \"startDate\": \"1970-01-01T00:00:00.000Z\",",
      "    \"endDate\": \"1970-01-01T00:00:00.000Z\",",
      "    \"sourceArray\": \"a\",",
      "    \"sourceFile\": \"f\",",
      "    \"originalData\": null",
      "  \x7d,",
      "  \x7b",
      "    \"id\": \"E2\",",
      "    \"startDate\": \"1970-01-01T00:00:00.000Z\",",
      "    \"endDate\": \"1970-01-02T00:00:00.000Z\",",
      "    \"sourceArray\": \"a\",",
      "    \"sourceFile\": \"f\",",
      "    \"originalData\": 7,",
      "    \"yValue\": 2",
      "  \x7d",
      "]"]
    ∃ files status, (ofEntities w "tmp" "../../notes" entities).outcome =
        .ok (files, ⟨some "tmp/notes.json", status⟩) ∧
      files.find? ["notes"] = some (.file [104, 105]) ∧
      (∃ name, IsExportName name ∧ FileName.join "tmp" name = "tmp/notes.json" ∧
        w.Opens (FileName.join "tmp" name) files) ∧
      files.read "tmp/notes.json" = .ok (Utf8.encode text.toList) := by
  intro w entities text
  have hasked : '\x00' ∉ "../../notes".toList := by decide
  have hdirectory : "tmp" ≠ "" := by decide
  have hnul : '\x00' ∉ "tmp".toList := by decide
  obtain ⟨name, hname, files, shown, houtcome, hopens, hchanged, hshown⟩ :=
    ofEntities_inside w (List.cons_ne_nil _ _ : entities ≠ []) hasked hdirectory hnul
  have hrun : ∃ files status, (ofEntities w "tmp" "../../notes" entities).outcome =
      .ok (files, ⟨some "tmp/notes.json", status⟩) := ⟨_, _, rfl⟩
  obtain ⟨files', status, hrun⟩ := hrun
  obtain ⟨rfl, rfl⟩ := Prod.mk.inj (Except.ok.inj (houtcome.symm.trans hrun))
  obtain ⟨hpath, written, hholds⟩ := hshown _ rfl
  refine ⟨files, status, hrun, ?_, ⟨name, hname, hpath.symm, hopens⟩, ?_⟩
  · by_contra hnotes
    obtain ⟨place, hplace, hsame⟩ := hchanged ["notes"] hnotes
    have htmp : w.locate "tmp" = .ok (["tmp"], some .directory) := rfl
    rw [htmp] at hplace
    cases hplace
    exact absurd hsame (by simp)
  · have htext : Json.writtenText Json.pretty (.list (entities.map fun e => .object e.toFields)) =
        text := by
      decide +kernel
    obtain rfl : written = text := (Json.writtenText_of_write rfl hholds.written).symm.trans htext
    exact hholds.read

end Exported

end Timeline
