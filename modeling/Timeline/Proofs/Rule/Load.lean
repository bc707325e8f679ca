import Timeline.Proofs.Files.Workspace
import Timeline.Proofs.Rule.Entries

/-! # Loading a store

A store is loaded with the rules of the file at its path if they can be imported, and else with the
usual rules. Three kinds of files are not replaced by the usual rules: loading fails for a path
that is too long, for bytes that are no text and for an integer with too many digits.
-/

namespace Timeline

section Load

variable {w : Workspace} {place : String} {bytes : List UInt8} {cs : List Char} {rules : List Rule}
  {f : Failure}

/-- A path leads to a file from whose text these rules are imported. -/
def Workspace.Imports (w : Workspace) (path : String) (rules : List Rule) : Prop :=
  ∃ bytes cs, w.HasFile path bytes ∧ Utf8.decode bytes = .ok cs ∧
    (Rule.parse (String.ofList (Text.unifyLineEnds cs))).outcome = .ok rules

/-- What keeps a store from being loaded from a path. -/
inductive Workspace.Blocks (w : Workspace) (path : String) : Failure → Prop
  | nameTooLong : '\x00' ∉ path.toList → w.plainNode path = .error .nameTooLong →
    Blocks w path (.file (FileName.plain path) .nameTooLong)
  | notUtf8 {bytes : List UInt8} {fault : Utf8.Fault} : w.HasFile path bytes →
    Utf8.decode bytes = .error fault → Blocks w path (.notUtf8 fault)
  | tooManyDigits {bytes : List UInt8} {cs : List Char} {n : Nat} : w.HasFile path bytes →
    Utf8.decode bytes = .ok cs → Json.read (Text.unifyLineEnds cs) = .error (.tooManyDigits n) →
    Blocks w path (.tooManyDigits n)

namespace Workspace

theorem HasFile.unique {bytes' : List UInt8} (h : w.HasFile place bytes)
    (h' : w.HasFile place bytes') : bytes = bytes' := by
  cases h.node.symm.trans h'.node
  rfl

theorem Imports.unique {rules' : List Rule} (h : w.Imports place rules)
    (h' : w.Imports place rules') : rules = rules' := by
  obtain ⟨bytes, cs, hfile, hcs, hparse⟩ := h
  obtain ⟨bytes', cs', hfile', hcs', hparse'⟩ := h'
  cases hfile.unique hfile'
  cases hcs.symm.trans hcs'
  cases hparse.symm.trans hparse'
  rfl

theorem Blocks.unique {f' : Failure} (h : w.Blocks place f) (h' : w.Blocks place f') :
    f = f' := by
  cases h <;> cases h' <;> grind [HasFile, HasFile.unique]

theorem HasFile.not_blocks (h : w.HasFile place bytes) (hcs : Utf8.decode bytes = .ok cs)
    (hread : ∀ n, Json.read (Text.unifyLineEnds cs) ≠ .error (.tooManyDigits n)) :
    ¬w.Blocks place f := by
  intro hblocks
  cases hblocks with
  | nameTooLong _ hnode => cases h.node.symm.trans hnode
  | notUtf8 hfile hfault =>
    cases h.unique hfile
    cases hcs.symm.trans hfault
  | tooManyDigits hfile hcs' hdigits =>
    cases h.unique hfile
    cases hcs.symm.trans hcs'
    exact hread _ hdigits

theorem Imports.not_blocks (h : w.Imports place rules) : ¬w.Blocks place f := by
  obtain ⟨bytes, cs, hfile, hcs, hparse⟩ := h
  refine hfile.not_blocks hcs fun n hread => ?_
  have hdigits := Rule.outcome_parse_of_tooManyDigits (by rwa [String.toList_ofList])
  cases hparse.symm.trans hdigits

end Workspace

namespace RuleStore

/-- What becomes of a store that is loaded from a path. -/
inductive Loads (w : Workspace) (path : String) : Except Failure RuleStore → Prop
  | rules {rules : List Rule} : w.Imports path rules → Loads w path (.ok ⟨rules, some path⟩)
  | usual : (∀ rules, ¬w.Imports path rules) → (∀ f, ¬w.Blocks path f) →
    Loads w path (.ok (preset path))
  | fails {f : Failure} : w.Blocks path f → Loads w path (.error f)

theorem loads_ofBytes (h : w.HasFile place bytes) :
    Loads w place (ofBytes place bytes).outcome := by
  unfold ofBytes parseBytes
  cases hcs : Utf8.decode bytes with
  | error fault => exact .fails (.notUtf8 h hcs)
  | ok cs =>
    dsimp only
    rcases Rule.refuses_or_hasEntries (String.ofList (Text.unifyLineEnds cs)) with
      ⟨cause, hrefuses⟩ | ⟨n, hread⟩ | ⟨items, hentries, hvalid⟩
    · have hparse := Rule.outcome_parse_of_refuses hrefuses
      simp only [hparse]
      refine .usual ?_ fun f => h.not_blocks hcs fun n hread => ?_
      · rintro rules ⟨bytes', cs', hfile, hcs', hparse'⟩
        cases h.unique hfile
        cases hcs.symm.trans hcs'
        cases hparse.symm.trans hparse'
      · have hdigits := Rule.outcome_parse_of_tooManyDigits (by rwa [String.toList_ofList])
        cases hparse.symm.trans hdigits
    · simp only [Rule.outcome_parse_of_tooManyDigits hread]
      rw [String.toList_ofList] at hread
      exact .fails (.tooManyDigits h hcs hread)
    · obtain ⟨rules, hset, -⟩ := Rule.exists_areLastOf hvalid
      have hparse := (Rule.outcome_parse_of_hasEntries hentries).trans hset
      simp only [hparse]
      exact .rules ⟨bytes, cs, h, hcs, hparse⟩

theorem loads_preset (hnone : ∀ bytes, ¬w.HasFile place bytes)
    (hname : '\x00' ∉ place.toList → w.plainNode place ≠ .error .nameTooLong) :
    Loads w place (.ok (preset place)) := by
  refine .usual ?_ ?_
  · rintro rules ⟨bytes, -, hfile, -⟩
    exact hnone bytes hfile
  · intro f hblocks
    cases hblocks with
    | nameTooLong hnul hnode => exact hname hnul hnode
    | notUtf8 hfile _ => exact hnone _ hfile
    | tooManyDigits hfile _ _ => exact hnone _ hfile

theorem loads_load (w : Workspace) (settings : Settings) (path : Option String) :
    Loads w (choosePath settings [path]) (load w settings path).outcome := by
  unfold load
  generalize choosePath settings [path] = place
  by_cases hnul : '\x00' ∈ place.toList
  · rw [if_pos (by simpa using hnul)]
    exact loads_preset (fun _ hfile => hfile.nul hnul) (absurd hnul)
  · rw [if_neg (by simpa using hnul), ← Workspace.plainNode]
    cases hnode : w.plainNode place with
    | ok node =>
      cases node with
      | file bytes => exact loads_ofBytes ⟨hnul, hnode⟩
      | directory =>
        refine loads_preset ?_ fun _ => by simp [hnode]
        intro bytes hfile
        cases hnode.symm.trans hfile.node
    | error fault =>
      cases fault with
      | nameTooLong => exact .fails (.nameTooLong hnul hnode)
      | _ =>
        refine loads_preset ?_ fun _ => by simp [hnode]
        intro bytes hfile
        cases hnode.symm.trans hfile.node

/-- The rules of the file at a path are loaded, or else the usual ones; but a name that is too
long, bytes that are no text and integers that cannot be read make loading fail. -/
theorem load_outcome (w : Workspace) (settings : Settings) (path : Option String) :
    let place := choosePath settings [path]
    (∀ rules, w.Imports place rules → (load w settings path).outcome = .ok ⟨rules, some place⟩) ∧
      (∀ f, (load w settings path).outcome = .error f ↔ w.Blocks place f) ∧
      ((∀ rules, ¬w.Imports place rules) → (∀ f, ¬w.Blocks place f) →
        (load w settings path).outcome = .ok (preset place)) := by
  intro place
  have hloads : Loads w place (load w settings path).outcome := loads_load w settings path
  generalize (load w settings path).outcome = outcome at hloads
  refine ⟨fun rules himports => ?_, fun f => ⟨fun hfails => ?_, fun hblocks => ?_⟩,
    fun hnone hfree => ?_⟩
  · cases hloads with
    | rules h => rw [h.unique himports]
    | usual h => exact absurd himports (h rules)
    | fails h => exact absurd h himports.not_blocks
  · subst hfails
    cases hloads with
    | fails h => exact h
  · cases hloads with
    | rules h => exact absurd hblocks h.not_blocks
    | usual _ h => exact absurd hblocks (h f)
    | fails h => rw [h.unique hblocks]
  · cases hloads with
    | rules h => exact absurd h (hnone _)
    | usual => rfl
    | fails h => exact absurd h (hfree _)

/-- A file with an empty list is replaced by the usual rules. -/
theorem load_outcome_empty :
    let w : Workspace := ⟨[(["rules.json"], .file [0x5B, 0x5D])]⟩
    (∀ rules, ¬w.Imports "rules.json" rules) ∧ (∀ f, ¬w.Blocks "rules.json" f) ∧
      (load w {} (some "rules.json")).outcome = .ok (preset "rules.json") := by
  intro w
  have hfile : w.HasFile "rules.json" [0x5B, 0x5D] := ⟨by decide, rfl⟩
  have hcs : Utf8.decode [0x5B, 0x5D] = .ok ['[', ']'] := rfl
  have hread : Json.read (Text.unifyLineEnds ['[', ']']) = .ok (.list []) := rfl
  have hnone : ∀ rules, ¬w.Imports "rules.json" rules := by
    rintro rules ⟨bytes, cs, hfile', hcs', hparse⟩
    cases hfile.unique hfile'
    cases hcs.symm.trans hcs'
    rw [Rule.outcome_parse, Rule.readSet, String.toList_ofList, hread] at hparse
    cases hparse
  have hfree : ∀ f, ¬w.Blocks "rules.json" f :=
    fun f => hfile.not_blocks hcs fun n => by simp [hread]
  exact ⟨hnone, hfree, (load_outcome w {} (some "rules.json")).2.2 hnone hfree⟩

/-- A byte that no text starts with makes loading fail. -/
theorem load_outcome_notUtf8 :
    let w : Workspace := ⟨[(["rules.json"], .file [0xFF])]⟩
    (load w {} (some "rules.json")).outcome = .error (.notUtf8 ⟨0xFF, 0, 1, .startByte⟩) := by
  intro w
  rfl

end RuleStore

end Load

end Timeline
