import Mathlib.Data.List.Forall2
import Timeline.Proofs.Extraction.Marks
import Timeline.Proofs.Extraction.Merge
import Timeline.Proofs.Rule.Import
import Timeline.Proofs.Table.Row
import Timeline.Proofs.View.Select
import Timeline.Proofs.Workbench.Accounts

/-! # All entities are shown

A query that narrows nothing down shows every extracted entity. The files that are chosen are known
by the names under which their documents were loaded, and the rules by which entities are shown are
those that found them.
-/

namespace Timeline

namespace Extracted

variable {rules : List Rule} {documents : Fields} {x : Extracted} {e : Entity}

/-- Something was extracted from a document. -/
def ComesOf (rules : List Rule) (d : String × Value) (y : Extraction) : Prop :=
  Extraction.ofDocument (.text d.1) d.2 rules = .ok y

theorem outcome_fromEach_eq_ok_iff {found : List Extraction} :
    (fromEach rules documents).outcome = .ok found ↔
      List.Forall₂ (ComesOf rules) documents found := by
  induction documents generalizing found with
  | nil =>
    rw [List.forall₂_nil_left_iff, fromEach]
    exact ⟨fun h => (Except.ok.inj h).symm, fun h => congrArg Except.ok h.symm⟩
  | cons d rest ih =>
    rw [fromEach, Journaled.outcome_bind, Extraction.outcome_journaled, List.forall₂_cons_left_iff]
    simp only [bind_eq_ok_iff, Journaled.outcome_bind, ih]
    constructor
    · rintro ⟨here, hhere, later, hlater, h⟩
      exact ⟨here, later, hhere, hlater, (Except.ok.inj h).symm⟩
    · rintro ⟨here, later, hhere, hlater, rfl⟩
      exact ⟨here, hhere, later, hlater, rfl⟩

theorem outcome_byRules : (byRules documents rules).outcome = (do
    let found ← (fromEach rules documents).outcome
    let warnings ← Warning.texts (found.flatMap (·.warnings))
    let entities ← Entity.merge (found.map (·.entities))
    let arrays ← Value.sort (Rule.arraysOf entities)
    return ⟨entities, statusOf entities documents warnings, arrays, columnsOf entities⟩) := by
  simp only [byRules, Journaled.outcome_bind]
  rfl

theorem exists_merge_of_byRules (h : (byRules documents rules).outcome = .ok x) :
    ∃ found, List.Forall₂ (ComesOf rules) documents found ∧
      Entity.merge (found.map (·.entities)) = .ok x.entities := by
  rw [outcome_byRules] at h
  obtain ⟨found, hfound, h⟩ := bind_eq_ok_iff.mp h
  obtain ⟨warnings, -, h⟩ := bind_eq_ok_iff.mp h
  obtain ⟨entities, hentities, h⟩ := bind_eq_ok_iff.mp h
  obtain ⟨arrays, -, h⟩ := bind_eq_ok_iff.mp h
  cases h
  exact ⟨found, outcome_fromEach_eq_ok_iff.mp hfound, hentities⟩

theorem exists_of_mem_right {α β : Type} {r : α → β → Prop} {xs : List α} {ys : List β} {y : β}
    (h : List.Forall₂ r xs ys) (hy : y ∈ ys) : ∃ x ∈ xs, r x y := by
  induction h with
  | nil => cases hy
  | cons hxy _ ih =>
    rcases List.mem_cons.mp hy with rfl | hy
    · exact ⟨_, List.mem_cons_self, hxy⟩
    · obtain ⟨x, hx, hxy⟩ := ih hy
      exact ⟨x, List.mem_cons_of_mem _ hx, hxy⟩

theorem marks_of_mem_byRules (h : (byRules documents rules).outcome = .ok x) (he : e ∈ x.entities) :
    ∃ d ∈ documents,
      (∃ r ∈ rules, r.isEnabled = true ∧ r.Marks (documentName (.text d.1)) e) ∨
      (∀ r ∈ rules, r.isEnabled = false) ∧ Detected.ComesFrom (documentName (.text d.1)) e := by
  obtain ⟨found, hfound, hmerge⟩ := exists_merge_of_byRules h
  obtain ⟨group, hgroup, he⟩ := Entity.mem_of_mem_merge hmerge he
  obtain ⟨y, hy, rfl⟩ := List.mem_map.mp hgroup
  obtain ⟨d, hd, hdocument⟩ := exists_of_mem_right hfound hy
  exact ⟨d, hd, Extraction.marks_of_mem_ofDocument hdocument he⟩

theorem outcome_ofDocuments {text : String} (hrules : (Rule.ofEditor text).outcome = .ok rules) :
    (ofDocuments documents text).outcome =
      if documents.isEmpty then .ok (nothing "Upload a JSON file first.")
      else (byRules documents rules).outcome := by
  unfold ofDocuments
  split
  · rfl
  · dsimp only
    split
    · rename_i hfault
      cases hrules.symm.trans hfault
    · rw [Journaled.outcome_bind, hrules]
      rfl

theorem byRules_of_ofDocuments {text : String}
    (hrules : (Rule.ofEditor text).outcome = .ok rules)
    (h : (ofDocuments documents text).outcome = .ok x) (hne : x.entities ≠ []) :
    (byRules documents rules).outcome = .ok x := by
  rw [outcome_ofDocuments hrules] at h
  split at h
  · cases h
    exact absurd rfl hne
  · exact h

end Extracted

namespace Rule

variable {rules : List Rule} {entities : List Entity} {e : Entity}

theorem isNamed_of_ofEditor {text : String} (h : (ofEditor text).outcome = .ok rules) :
    ∀ r ∈ rules, r.IsNamed := by
  unfold ofEditor at h
  split at h
  · cases h
    simp
  · obtain ⟨held, hheld, rfl⟩ := outcome_parse_eq_ok_iff.mp h
    exact fun r hr => (represents_lastOfName fun r hr => hheld.isNamed hr).isNamed hr

theorem arraysOf_snoc (entities : List Entity) (e : Entity) :
    arraysOf (entities ++ [e]) =
      if e.array.isIn (arraysOf entities) then arraysOf entities
      else arraysOf entities ++ [e.array] :=
  List.foldl_append

theorem mem_of_mem_arraysOf {array : Value} (h : array ∈ arraysOf entities) :
    ∃ e ∈ entities, e.array = array := by
  induction entities using List.reverseRecOn with
  | nil => cases h
  | append_singleton entities d ih =>
    have hearlier : array ∈ arraysOf entities → ∃ e ∈ entities ++ [d], e.array = array := by
      intro h
      obtain ⟨e, he, harray⟩ := ih h
      exact ⟨e, List.mem_append_left _ he, harray⟩
    rw [arraysOf_snoc] at h
    split at h
    · exact hearlier h
    · rcases List.mem_append.mp h with h | h
      · exact hearlier h
      · obtain rfl := List.mem_singleton.mp h
        exact ⟨d, by simp, rfl⟩

theorem isIn_of_mem {v : Value} {values : List Value} (hv : v.isText = true) (h : v ∈ values) :
    v.isIn values = true := by
  cases v with
  | text s => exact List.any_eq_true.mpr ⟨_, h, Value.same_text_iff.mpr rfl⟩
  | _ => cases hv

theorem mem_of_isIn {v : Value} {values : List Value} (htexts : ∀ w ∈ values, w.isText = true)
    (h : v.isIn values = true) : v ∈ values := by
  obtain ⟨w, hw, hsame⟩ := List.any_eq_true.mp h
  cases w with
  | text s => rwa [Value.same_text_iff.mp hsame]
  | _ => cases htexts _ hw

theorem mem_arraysOf (h : ∀ e ∈ entities, e.array.isText = true) (he : e ∈ entities) :
    e.array ∈ arraysOf entities := by
  induction entities using List.reverseRecOn with
  | nil => cases he
  | append_singleton entities d ih =>
    have htexts : ∀ v ∈ arraysOf entities, v.isText = true := by
      intro v hv
      obtain ⟨c, hc, rfl⟩ := mem_of_mem_arraysOf hv
      exact h c (List.mem_append_left _ hc)
    have hearlier := ih fun c hc => h c (List.mem_append_left _ hc)
    rw [arraysOf_snoc]
    rcases List.mem_append.mp he with he | he
    · split
      · exact hearlier he
      · exact List.mem_append_left _ (hearlier he)
    · obtain rfl := List.mem_singleton.mp he
      split
      · rename_i hin
        exact mem_of_isIn htexts hin
      · simp

theorem unhashable?_eq_none {v : Value} (h : v.isText = true) : v.unhashable? = none := by
  cases v <;> first | rfl | cases h

theorem namesOf_standIn (arrays : List Value) : View.namesOf (arrays.map standIn) = arrays := by
  have hall : (arrays.map standIn).filter (·.isEnabled) = arrays.map standIn := by
    refine List.filter_eq_self.mpr fun r hr => ?_
    obtain ⟨array, -, rfl⟩ := List.mem_map.mp hr
    rfl
  rw [View.namesOf, hall, List.map_map]
  exact List.map_id arrays

/-- The names of the rules by which entities are shown are texts, and every entity has one of them
that comes from an enabled rule, or from its path if no rule is enabled. -/
theorem mem_namesOf_shown (hnamed : ∀ r ∈ rules, r.IsNamed)
    (htext : ∀ e ∈ entities, e.array.isText = true)
    (hmarks : ∀ e ∈ entities, (∃ r ∈ rules, r.isEnabled = true ∧ e.array = r.name) ∨
      ∀ r ∈ rules, r.isEnabled = false) :
    (∀ name ∈ View.namesOf (shown rules entities), name.isText = true) ∧
      ∀ e ∈ entities, e.array ∈ View.namesOf (shown rules entities) := by
  unfold shown
  split
  · rename_i hany
    constructor
    · intro name hname
      obtain ⟨r, hr, rfl⟩ := List.mem_map.mp hname
      exact hnamed r (List.mem_filter.mp hr).1
    · intro e he
      rcases hmarks e he with ⟨r, hr, henabled, harray⟩ | hnone
      · exact List.mem_map.mpr ⟨r, List.mem_filter.mpr ⟨hr, henabled⟩, harray.symm⟩
      · obtain ⟨r, hr, henabled⟩ := List.any_eq_true.mp hany
        rw [hnone r hr] at henabled
        cases henabled
  · rw [namesOf_standIn]
    constructor
    · intro name hname
      obtain ⟨e, he, rfl⟩ := mem_of_mem_arraysOf hname
      exact htext e he
    · exact fun e he => mem_arraysOf htext he

end Rule

namespace View

variable {entities : List Entity} {rules : List Rule} {files : List Value}

theorem exists_make_of_all (hnames : ∀ name ∈ namesOf rules, name.isText = true)
    (hfiles : ∀ e ∈ entities, isSelected files e = true)
    (harrays : ∀ e ∈ entities, e.array ∈ namesOf rules) :
    ∃ view, (make entities rules files .everything).outcome = .ok view ∧
      IsLatestFirst entities view.entities := by
  have htests : ∀ e ∈ entities, ∀ test ∈ tests rules files .everything, test e = .ok true := by
    intro e he
    have htext := hnames _ (harrays e he)
    have heverything : Filter.everything.tests =
        [Filter.everything.keepsTime, Filter.everything.keepsArray] := rfl
    have hnamed : isNamed (namesOf rules) e = .ok true := by
      rw [isNamed, Rule.unhashable?_eq_none htext, Rule.isIn_of_mem htext (harrays e he)]
    rw [tests, heverything, List.forall_mem_cons, List.forall_mem_cons, List.forall_mem_cons,
      List.forall_mem_singleton]
    exact ⟨congrArg Except.ok (hfiles e he), hnamed, rfl, rfl⟩
  have hdecides : Decides rules files .everything entities := by
    refine ⟨fun r hr henabled => ?_, fun e he => ?_⟩
    · exact Rule.unhashable?_eq_none
        (hnames _ (List.mem_map_of_mem (List.mem_filter.mpr ⟨hr, henabled⟩)))
    · exact EntityTest.decided_of_forall fun test ht => ⟨true, htests e he test ht⟩
  obtain ⟨view, hview, hentities⟩ := exists_make hdecides
  refine ⟨view, hview, ?_⟩
  have hall : entities.filter (EntityTest.passes (tests rules files .everything)) = entities :=
    List.filter_eq_self.mpr fun e he => EntityTest.passes_iff.mpr (htests e he)
  rw [hentities, hall]
  exact isLatestFirst_latestFirst entities

end View

namespace Query

/-- A query that leaves nothing out: no array, column or window is chosen, and if files are chosen
they are all that have one of some names. -/
structure AsksForAll (q : Query) (names : List String) : Prop where
  files : q.files.truthy = false ∨
    ∃ items, q.files = .list items ∧ ∀ name ∈ names, .text name ∈ items
  arrays : q.arrays.truthy = false
  column : q.column.truthy = false ∨ Filter.isEmptyValue q.value = true
  start : q.start.truthy = false
  finish : q.finish.truthy = false

variable {q : Query} {names : List String}

theorem AsksForAll.filter_eq (h : q.AsksForAll names) : q.filter = .ok .everything := by
  have hcolumns : q.columns = .ok [] := by
    unfold columns
    rw [if_neg]
    rcases h.column with hcolumn | hvalue <;> simp_all
  have hwindow : q.window = .ok none := by simp [window, h.start, h.finish]
  have harrays : q.arrays.chosen = .ok [] := by simp [Value.chosen, h.arrays]
  simp only [filter, hcolumns, hwindow, harrays, ok_bind]
  rfl

theorem AsksForAll.exists_chosen (h : q.AsksForAll names) :
    ∃ files, q.files.chosen = .ok files ∧ (files = [] ∨ ∀ name ∈ names, .text name ∈ files) := by
  rcases h.files with hnone | ⟨items, hitems, hall⟩
  · exact ⟨[], by simp [Value.chosen, hnone], .inl rfl⟩
  · cases items with
    | nil => exact ⟨[], by rw [hitems]; rfl, .inl rfl⟩
    | cons item items => exact ⟨item :: items, by rw [hitems]; rfl, .inr hall⟩

end Query

namespace Shown

variable {documents : Fields} {rules : List Rule} {text : String} {x : Extracted} {q : Query}

theorem ofQuery_eq (hrules : (Rule.ofEditor text).outcome = .ok rules) {names : List String}
    (hq : q.AsksForAll names) (entities : List Entity) :
    (ofQuery entities text q).outcome =
      (byFilter entities q.files rules .everything).outcome := by
  have hinputs : (inputs text q).outcome = .ok (rules, .everything) := by
    rw [inputs, Journaled.outcome_bind, hrules, ok_bind, Journaled.outcome_bind]
    change (q.filter >>= _) = _
    rw [hq.filter_eq]
    rfl
  unfold ofQuery
  dsimp only
  rw [hinputs]
  dsimp only
  rw [Journaled.outcome_bind, hinputs]
  rfl

theorem table_ofView {entities : List Entity} {view : View} (hne : view.entities ≠ []) :
    (ofView entities view).table =
      some (Table.columns (Table.rows view.entities), (Table.rows view.entities).map
        (Table.cellsUnder (Table.columns (Table.rows view.entities)))) := by
  unfold ofView
  split
  · rename_i hnone
    exact absurd (List.map_eq_nil_iff.mp hnone) hne
  · rfl

end Shown

theorem Workbench.exists_view {b : Workbench} {uploads : List Upload} {found : Loaded}
    {text : String} {rules : List Rule} {x : Extracted} {q : Query}
    (hloaded : b.loaded uploads = .ok found) (hrules : (Rule.ofEditor text).outcome = .ok rules)
    (hextracted : (Extracted.ofDocuments found.documents text).outcome = .ok x)
    (hne : x.entities ≠ []) (hq : q.AsksForAll (found.documents.map (·.1))) :
    ∃ view, (Shown.ofQuery x.entities text q).outcome = .ok (Shown.ofView x.entities view) ∧
      View.IsLatestFirst x.entities view.entities := by
  have hmarks := fun e he => Extracted.marks_of_mem_byRules (e := e)
    (Extracted.byRules_of_ofDocuments hrules hextracted hne) he
  have hnamed := Rule.isNamed_of_ofEditor hrules
  have htext : ∀ e ∈ x.entities, e.array.isText = true := by
    intro e he
    obtain ⟨d, -, ⟨r, hr, -, hr'⟩ | ⟨-, hd⟩⟩ := hmarks e he
    · rw [hr'.array]
      exact hnamed r hr
    · exact hd.array
  have hfile : ∀ e ∈ x.entities, ∃ d ∈ found.documents, e.file = .text d.1 := by
    intro e he
    obtain ⟨d, hd, hmark⟩ := hmarks e he
    have hname := documentName_of_ofPath (ofPath_of_loaded hloaded hd)
    refine ⟨d, hd, ?_⟩
    rcases hmark with ⟨r, -, -, hr⟩ | ⟨-, hdetected⟩
    · rw [hr.file, hname]
    · rw [hdetected.file, hname]
  obtain ⟨hnames, harrays⟩ := Rule.mem_namesOf_shown hnamed htext fun e he => by
    obtain ⟨d, -, ⟨r, hr, henabled, hr'⟩ | ⟨hnone, -⟩⟩ := hmarks e he
    · exact .inl ⟨r, hr, henabled, hr'.array⟩
    · exact .inr hnone
  obtain ⟨files, hfiles, hall⟩ := hq.exists_chosen
  have hselected : ∀ e ∈ x.entities, View.isSelected files e = true := by
    intro e he
    rcases hall with rfl | hall
    · rfl
    · obtain ⟨d, hd, hfile⟩ := hfile e he
      refine View.isSelected_iff.mpr (.inr ⟨_, hall d.1 (List.mem_map_of_mem hd), ?_⟩)
      exact Value.same_text_iff.mpr hfile
  obtain ⟨view, hview, horder⟩ := View.exists_make_of_all hnames hselected harrays
  have hshown : (Shown.ofQuery x.entities text q).outcome =
      .ok (Shown.ofView x.entities view) := by
    rw [Shown.ofQuery_eq hrules hq, Shown.byFilter, Journaled.outcome_bind]
    change (q.files.chosen >>= _) = _
    rw [hfiles, ok_bind, Journaled.outcome_bind, hview]
    rfl
  exact ⟨view, hshown, horder⟩

/-- Nothing is lost between extraction and the view: a query that asks for all files and leaves
nothing out shows one row for each extracted entity, the latest first, under distinct headers and
with every value of the row. -/
theorem Workbench.shows_all {b : Workbench} {uploads : List Upload} {found : Loaded} {text : String}
    {rules : List Rule} {x : Extracted} {q : Query} (hloaded : b.loaded uploads = .ok found)
    (hrules : (Rule.ofEditor text).outcome = .ok rules)
    (hextracted : (Extracted.ofDocuments found.documents text).outcome = .ok x)
    (hne : x.entities ≠ []) (hq : q.AsksForAll (found.documents.map (·.1))) :
    ∃ shown headers cells order, (Shown.ofQuery x.entities text q).outcome = .ok shown ∧
      shown.table = some (headers, cells) ∧ headers.Nodup ∧
      View.IsLatestFirst x.entities order ∧
      List.Forall₂ (Table.Holds headers) (Table.rows order) cells := by
  obtain ⟨view, hshown, horder⟩ := exists_view hloaded hrules hextracted hne hq
  have hview : view.entities ≠ [] := by
    intro hnil
    have hperm := horder.perm
    rw [hnil] at hperm
    exact hne (List.nil_perm.mp hperm)
  exact ⟨_, _, _, view.entities, hshown, Shown.table_ofView hview, Table.nodup_columns _, horder,
    Table.holds_rows view.entities⟩

/-- The detected events of an upload that is known by the last part of its path. -/
theorem Workbench.shows_all_detected :
    let b := Workbench.start {} .empty "" ""
    let content := "\x7b\"e\": [\x7b\"start\": 1\x7d, \x7b\"start\": 2\x7d]\x7d".toList
    let q : Query := ⟨.list [.text "b.json"], .null, .null, .null, .null, .null⟩
    ∃ found x, b.loaded [.textStream content (some "a/b.json")] = .ok found ∧
      (Rule.ofEditor " ").outcome = .ok [] ∧
      (Extracted.ofDocuments found.documents " ").outcome = .ok x ∧ x.entities ≠ [] ∧
      q.AsksForAll (found.documents.map (·.1)) ∧
      ∃ shown headers cells, (Shown.ofQuery x.entities " " q).outcome = .ok shown ∧
        shown.table = some (headers, cells) ∧
        headers = ["_id", "_startDate", "_endDate", "_yValue", "_sourceArray", "_sourceFile",
          "_duration", "start"] ∧
        cells.map (·.map Value.plain) =
          [["e-1", "1970-01-01T00:00:00.002Z", "1970-01-01T00:00:00.002Z", "None", "e", "b.json",
              "0", "2"],
            ["e-0", "1970-01-01T00:00:00.001Z", "1970-01-01T00:00:00.001Z", "None", "e", "b.json",
              "0", "1"]] := by
  intro b content q
  let document : Value := .object [("e", .list [.object [("start", .int 1)],
    .object [("start", .int 2)]])]
  have hread : Json.read content = .ok document := by
    simp only [content, Json.read, String.reduceToList]
    rfl
  have hupload : Upload.read .empty (.int 10485760) (.textStream content (some "a/b.json")) =
      .ok document :=
    Upload.read_textStream (by decide +kernel) hread _
  have hname : Upload.nameAt (.textStream content (some "a/b.json")) 0 = "b.json" := by
    decide +kernel
  have hadded : Documents.ofUploads .empty (.int 10485760)
      [.textStream content (some "a/b.json")] = .ok ⟨[("b.json", document)], []⟩ := by
    rw [Documents.ofUploads, Documents.addAll, Documents.add_of_read hupload, hname, ok_bind]
    rfl
  obtain ⟨found, hfound, hdocuments⟩ : ∃ found,
      b.loaded [.textStream content (some "a/b.json")] = .ok found ∧
        found.documents = [("b.json", document)] :=
    ⟨_, (loaded_eq_ok_iff (List.cons_ne_nil _ _)).mpr ⟨_, hadded, rfl⟩, rfl⟩
  have hrules : (Rule.ofEditor " ").outcome = .ok [] := rfl
  let e := fun (id : String) (n : Int) =>
    Entity.mk id ⟨1000 * n⟩ ⟨1000 * n⟩ (.text "e") (.text "b.json") (.object [("start", .int n)])
      .null
  obtain ⟨x, hx, hentities⟩ : Yields (Extracted.ofDocuments found.documents " ").outcome
      (·.entities = [e "e-0" 1, e "e-1" 2]) := by
    rw [hdocuments]
    with_unfolding_all exact ⟨_, rfl, rfl⟩
  have hne : x.entities ≠ [] := by simp [hentities]
  have hq : q.AsksForAll (found.documents.map (·.1)) := by
    rw [hdocuments]
    exact ⟨.inr ⟨_, rfl, by simp⟩, rfl, .inl rfl, rfl, rfl⟩
  obtain ⟨shown, headers, cells, -, hshown, htable, -⟩ := shows_all hfound hrules hx hne hq
  obtain ⟨view, hview, horder⟩ := exists_view hfound hrules hx hne hq
  obtain rfl : shown = Shown.ofView x.entities view := Except.ok.inj (hshown.symm.trans hview)
  have hlater : (e "e-0" 1).start ≠ (e "e-1" 2).start := by simp [e]
  have hsorted : View.latestFirst [e "e-0" 1, e "e-1" 2] = [e "e-1" 2, e "e-0" 1] :=
    (View.latestFirst_swap hlater [] []).trans
      (View.latestFirst_eq_self (by simp [e, Instant.le_iff]))
  have horder : view.entities = [e "e-1" 2, e "e-0" 1] := by
    rw [← hsorted, ← hentities]
    exact horder.unique (View.isLatestFirst_latestFirst _)
  have hcells : (Shown.ofView x.entities view).table = _ :=
    Shown.table_ofView (by simp [horder])
  rw [horder, htable] at hcells
  obtain ⟨hheaders, hcells⟩ := Prod.mk.inj (Option.some.inj hcells)
  refine ⟨found, x, hfound, hrules, hx, hne, hq, _, headers, cells, hshown, htable, ?_, ?_⟩
  · rw [hheaders]
    decide +kernel
  · rw [hcells]
    decide +kernel

end Timeline
