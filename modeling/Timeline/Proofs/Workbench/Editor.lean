import Mathlib.Data.List.TakeWhile
import Timeline.Proofs.Json.Lines
import Timeline.Proofs.Rule.Export
import Timeline.Proofs.Rule.Load
import Timeline.Workbench.Rules

/-! # Saving the rule editor and loading it again

The rules of an editor that have been saved are loaded again, in the same order, unless there are
none: for a saved set without rules the usual rules are loaded.
-/

namespace Timeline

theorem Text.trim_ne_nil {c : Char} {cs : List Char} (h : c ∈ cs) (hc : isBlank c = false) :
    trim cs ≠ [] := by
  have hkept : c ∈ cs.dropWhile isBlank := by
    rw [← List.takeWhile_append_dropWhile (p := isBlank) (l := cs)] at h
    rcases List.mem_append.mp h with h | h
    · have hblank := List.mem_takeWhile_imp h
      rw [hc] at hblank
      cases hblank
    · exact h
  intro hnil
  rw [trim, trimEnd, List.reverse_eq_nil_iff, List.dropWhile_eq_nil_iff] at hnil
  have hblank := hnil c (List.mem_reverse.mpr hkept)
  rw [hc] at hblank
  cases hblank

namespace Rule

variable {rules : List Rule} {text : String}

theorem ofEditor_eq_parse {c : Char} (h : c ∈ text.toList) (hc : Text.isBlank c = false) :
    ofEditor text = parse text := by
  rw [ofEditor, if_neg]
  rw [List.isEmpty_iff]
  exact Text.trim_ne_nil h hc

theorem ofEditor_cases (h : (ofEditor text).outcome = .ok rules) :
    rules = [] ∨ AreImported rules := by
  unfold ofEditor at h
  split_ifs at h
  · cases h
    exact .inl rfl
  · exact .inr (areImported_of_parse h)

theorem areImported_defaults : AreImported defaults where
  valid := by
    intro r hr
    have hproblems : ∀ r ∈ defaults, problems (.object r.toFields) = [] := by decide
    have hfields : ofFields r.toFields = .ok r := by
      simp only [defaults, List.mem_cons, List.not_mem_nil, or_false] at hr
      rcases hr with rfl | rfl | rfl | rfl | rfl <;> rfl
    exact isValid_of_problems_eq_nil (v := .object r.toFields) (hproblems r hr) hfields
  nodup := represents_defaults.nodup
  ne_nil := by decide

end Rule

namespace RuleStore

variable {rules : List Rule} {store : RuleStore} {files : Workspace} {text : String}

theorem isExact_kept (h : store.toValue.Throughout (Json.IsExact Json.digitLimit)) :
    store.kept.Throughout (Json.IsExact Json.digitLimit) := by
  refine Value.throughout_object_iff.mpr ⟨List.nodup_singleton _, ?_⟩
  intro f hf
  obtain rfl := List.mem_singleton.mp hf
  exact h

theorem exists_kept (h : store.toValue.Throughout (Json.IsExact Json.digitLimit)) :
    ∃ text, Json.write Json.pretty store.kept = .ok text ∧
      Json.writtenText Json.pretty store.kept = text ∧
      parseBytes (Utf8.encode text.toList) = Rule.parse text ∧
      Json.read text.toList = .ok store.kept := by
  obtain ⟨text, hwrite, hwritten, hread⟩ := Json.exists_written (isExact_kept h)
  refine ⟨text, hwrite, hwritten, ?_, hread⟩
  rw [parseBytes, Utf8.decode_encode, Json.eq_text_of_write hwrite]
  simp only [Json.unifyLineEnds_text, String.ofList_toList]

/-- What is loaded from a file that some rules are kept in: these rules, or the usual ones if there
are none. -/
def loadedFrom (rules : List Rule) : List Rule :=
  if rules.isEmpty then Rule.defaults else rules

theorem areImported_loadedFrom (h : rules = [] ∨ Rule.AreImported rules) :
    Rule.AreImported (loadedFrom rules) := by
  rcases h with rfl | h
  · exact Rule.areImported_defaults
  · rw [loadedFrom, if_neg (by simpa using h.ne_nil)]
    exact h

theorem load_eq_ofBytes {settings : Settings} {path : Option String} {bytes : List UInt8}
    (h : files.HasFile (choosePath settings [path]) bytes) :
    load files settings path = ofBytes (choosePath settings [path]) bytes := by
  unfold load
  dsimp only
  rw [if_neg (by simpa using h.nul), ← Workspace.plainNode, h.node]

theorem outcome_ofBytes_kept (h : rules = [] ∨ Rule.AreImported rules) {place : String}
    (hkept : parseBytes (Utf8.encode text.toList) = Rule.parse text)
    (hread : Json.read text.toList = .ok (kept ⟨rules, none⟩)) :
    (ofBytes place (Utf8.encode text.toList)).outcome = .ok ⟨loadedFrom rules, some place⟩ := by
  unfold ofBytes
  rw [hkept]
  rcases h with rfl | h
  · -- a set without rules is refused, and the usual rules stand in for it
    have hparse : (Rule.parse text).outcome = .error (.rules .noRule) := by
      rw [Rule.outcome_parse, Rule.readSet, hread]
      rfl
    simp only [hparse]
    rfl
  · have hparse : (Rule.parse text).outcome = .ok rules := h.outcome_parse_eq hread rfl
    have hrules : rules.isEmpty = false := by simpa using h.ne_nil
    simp only [hparse, loadedFrom, hrules]
    rfl

theorem load_kept (w : Workspace) (settings : Settings) (path : Option String)
    (h : rules = [] ∨ Rule.AreImported rules)
    (hplace : w.IsWritable (choosePath settings [path])) :
    ∃ files, save ⟨rules, path⟩ w settings none =
        (files, .ok ⟨rules, some (choosePath settings [path])⟩) ∧
      (load files settings path).outcome =
        .ok ⟨loadedFrom rules, some (choosePath settings [path])⟩ := by
  have hexact : (toValue ⟨rules, path⟩).Throughout (Json.IsExact Json.digitLimit) := by
    rcases h with rfl | himported
    · simp [toValue, Json.IsExact]
    · exact himported.isExact_list
  obtain ⟨text, hwrite, hwritten, hparse, hread⟩ := exists_kept hexact
  obtain ⟨files, hfiles, hfile⟩ := hplace.exists_written text
  refine ⟨files, ?_, ?_⟩
  · have hchoose : choosePath settings [none, path] = choosePath settings [path] := rfl
    simp only [save, hchoose, hwritten, hfiles, hwrite]
    rw [if_neg (by simpa using hplace.nul)]
    rfl
  · rw [load_eq_ofBytes hfile]
    exact outcome_ofBytes_kept h hparse hread

theorem exists_exported (h : Rule.AreImported rules) (path : Option String) :
    ∃ text, exported ⟨rules, path⟩ = .ok text ∧ (Rule.ofEditor text).outcome = .ok rules := by
  obtain ⟨text, hwrite, hwritten, hread⟩ := Json.exists_written h.isExact_list
  refine ⟨text, hwrite, ?_⟩
  have hbracket : '[' ∈ text.toList := by
    rw [Json.eq_text_of_write hwrite, Json.text, String.toList_ofList, Json.chars, Json.bracketed]
    split_ifs <;> exact List.mem_cons_self
  rw [Rule.ofEditor_eq_parse hbracket rfl]
  exact h.outcome_parse_eq hread rfl

end RuleStore

namespace EditorText

variable {rules : List Rule} {text : String}

theorem outcome_store (h : (Rule.ofEditor text).outcome = .ok rules) (path : Option String) :
    (store text path).outcome = .ok ⟨rules, path⟩ := by
  have hdistinct : Rule.distinct rules = .ok rules := by
    rcases Rule.ofEditor_cases h with rfl | himported
    · rfl
    · rw [Rule.distinct_eq fun r hr => (himported.valid r hr).isNamed, himported.lastOfName_eq]
  have hmake : RuleStore.make rules path = .ok ⟨rules, path⟩ := by
    rw [RuleStore.make, hdistinct]
    rfl
  rw [store, Journaled.outcome_bind, h]
  exact hmake

theorem save_eq {w : Workspace} {settings : Settings} {path : Option String} {s : RuleStore}
    (h : (store text path).outcome = .ok s) : save w settings text path =
      ((s.save w settings none).1, ⟨(s.save w settings none).2, (store text path).journal⟩) := by
  simp only [save, h]

theorem rules_load {files : Workspace} {settings : Settings} {path : Option String}
    {store : RuleStore} (hstore : (RuleStore.load files settings path).outcome = .ok store)
    (htext : store.exported = .ok text) :
    (load files settings path).outcome.map (·.rules) = .ok (some text) := by
  rw [load, Journaled.outcome_bind, hstore, ok_bind, Journaled.outcome_bind]
  change (store.exported >>= _).map _ = _
  rw [htext]
  rfl

/-- The rules of an editor that are saved at a path are loaded again from there, or the usual rules
if there are none. -/
theorem load_saved (w : Workspace) (settings : Settings) (path : Option String)
    (hrules : (Rule.ofEditor text).outcome = .ok rules)
    (hplace : w.IsWritable (RuleStore.choosePath settings [path])) :
    let saved := save w settings text path
    saved.2.outcome = .ok ⟨rules, some (RuleStore.choosePath settings [path])⟩ ∧
      ∃ again, (load saved.1 settings path).outcome.map (·.rules) = .ok (some again) ∧
        (Rule.ofEditor again).outcome = .ok (if rules.isEmpty then Rule.defaults else rules) := by
  have hcases := Rule.ofEditor_cases hrules
  obtain ⟨files, hsave, hload⟩ := RuleStore.load_kept w settings path hcases hplace
  obtain ⟨again, hexported, hagain⟩ := RuleStore.exists_exported
    (RuleStore.areImported_loadedFrom hcases) (some (RuleStore.choosePath settings [path]))
  simp only [save_eq (outcome_store hrules path), hsave]
  exact ⟨trivial, again, rules_load hload hexported, hagain⟩

set_option maxRecDepth 2000 in
/-- A rule that replaces what a file in a directory held. -/
theorem load_saved_replaced :
    let text := "[\x7b\"name\": \"a\", \"arrayPath\": \"b\", \"startDatePath\": \"c\", " ++
      "\"endDatePath\": \"d\", \"color\": \"#1f77b4\", \"enabled\": true\x7d]"
    let rule : Rule :=
      ⟨.text "a", .text "b", .text "c", .text "d", .text "#1f77b4", .bool true, none, none⟩
    let w : Workspace := ⟨[(["conf", "rules.json"], .file [0xFF]), (["conf"], .directory)]⟩
    let path := some "conf/./rules.json"
    (Rule.ofEditor text).outcome = .ok [rule] ∧
      w.IsWritable (RuleStore.choosePath {} [path]) ∧
      ∃ again, (load (save w {} text path).1 {} path).outcome.map (·.rules) = .ok (some again) ∧
        (Rule.ofEditor again).outcome = .ok [rule] := by
  intro text rule w path
  have hread : Rule.readSet text = .ok (.list [.object [("name", .text "a"),
      ("arrayPath", .text "b"), ("startDatePath", .text "c"), ("endDatePath", .text "d"),
      ("color", .text "#1f77b4"), ("enabled", .bool true)]]) := by
    simp only [Rule.readSet, Json.read, text, String.toList_append, String.reduceToList]
    rfl
  have hrules : (Rule.ofEditor text).outcome = .ok [rule] := by
    have hbracket : '[' ∈ text.toList := by
      simp only [text, String.toList_append, String.reduceToList]
      exact List.mem_cons_self
    rw [Rule.ofEditor_eq_parse hbracket rfl, Rule.outcome_parse, hread]
    rfl
  have hwrite : (w.write (RuleStore.choosePath {} [path]) []).toOption.isSome = true := by
    decide +kernel
  have hplace : w.IsWritable (RuleStore.choosePath {} [path]) := by
    refine ⟨by decide, ?_⟩
    cases hfiles : w.write (RuleStore.choosePath {} [path]) [] with
    | ok files => exact ⟨files, rfl⟩
    | error fault =>
      rw [hfiles] at hwrite
      cases hwrite
  exact ⟨hrules, hplace, (load_saved w {} path hrules hplace).2⟩

/-- An empty editor holds no rules, and the usual ones once it has been saved and loaded. -/
theorem load_saved_empty :
    let saved := save .empty {} "" (some "rules.json")
    (Rule.ofEditor "").outcome = .ok [] ∧ saved.2.outcome = .ok ⟨[], some "rules.json"⟩ ∧
      ∃ again, (load saved.1 {} (some "rules.json")).outcome.map (·.rules) = .ok (some again) ∧
        (Rule.ofEditor again).outcome = .ok Rule.defaults := by
  have hplace : Workspace.empty.IsWritable (RuleStore.choosePath {} [some "rules.json"]) :=
    ⟨by decide, _, rfl⟩
  obtain ⟨files, hsave, hload⟩ :=
    RuleStore.load_kept .empty {} (some "rules.json") (.inl rfl) hplace
  obtain ⟨again, hexported, hagain⟩ :=
    RuleStore.exists_exported Rule.areImported_defaults (some "rules.json")
  have hempty : (Rule.ofEditor "").outcome = .ok [] := rfl
  simp only [save_eq (outcome_store hempty _), hsave]
  exact ⟨hempty, rfl, again, rules_load hload hexported, hagain⟩

end EditorText

end Timeline
