import Mathlib.Data.List.Perm.Basic
import Timeline.Proofs.Workbench.Shown

/-! # Documents apart from each other

The entities of several documents are those of each document on its own, one block after the other:
documents have different names, so no entity of one is taken for an entity of another. A block
depends on its document alone.
-/

namespace Timeline

/-- An entity was found in the file of a name. -/
def Entity.isFrom (name : String) (e : Entity) : Bool :=
  e.file.same (.text name)

namespace Warning

theorem exists_text {w : Warning} (h : w.file.isText = true) : ∃ s, w.text = .ok s := by
  obtain ⟨name, hname⟩ := Value.isText_iff.mp h
  exact ⟨_, by rw [text, hname]; rfl⟩

theorem exists_texts {warnings : List Warning} (h : ∀ w ∈ warnings, w.file.isText = true) :
    ∃ found, texts warnings = .ok found := by
  induction warnings with
  | nil => exact ⟨[], rfl⟩
  | cons w rest ih =>
    obtain ⟨hw, hrest⟩ := List.forall_mem_cons.mp h
    obtain ⟨s, hs⟩ := exists_text hw
    obtain ⟨found, hfound⟩ := ih hrest
    exact ⟨s :: found, by rw [texts, hs, hfound]; rfl⟩

end Warning

theorem Value.exists_sort {values : List Value} (h : ∀ v ∈ values, v.isText = true) :
    ∃ sorted, sort values = .ok sorted := by
  have hordered : allOrdered values = true := by
    refine List.all_eq_true.mpr fun v hv => List.all_eq_true.mpr fun u hu => ?_
    obtain ⟨s, rfl⟩ := isText_iff.mp (h v hv)
    obtain ⟨t, rfl⟩ := isText_iff.mp (h u hu)
    rfl
  exact ⟨_, by rw [sort, if_pos (by simp [hordered])]⟩

namespace Extracted

variable {rules : List Rule} {documents : Fields} {d : String × Value} {y : Extraction}
  {found : List Extraction} {blocks : List (List Entity)} {block : List Entity}

/-- The entities of a document that is extracted and merged on its own. -/
structure IsBlock (rules : List Rule) (d : String × Value) (block : List Entity) : Prop where
  merged : ∃ y, Extraction.ofDocument (.text d.1) d.2 rules = .ok y ∧
    Entity.merge [y.entities] = .ok block
  file : ∀ e ∈ block, e.file = .text d.1

theorem rightUnique_isBlock (rules : List Rule) : Relator.RightUnique (IsBlock rules) := by
  intro d block block' h h'
  obtain ⟨y, hy, hmerge⟩ := h.merged
  obtain ⟨y', hy', hmerge'⟩ := h'.merged
  cases hy.symm.trans hy'
  exact Except.ok.inj (hmerge.symm.trans hmerge')

/-- What was extracted from a document. Its entities and warnings name the file, and the arrays of
its entities are named by texts. -/
structure IsOf (rules : List Rule) (d : String × Value) (y : Extraction) : Prop where
  extracted : ComesOf rules d y
  file : ∀ e ∈ y.entities, e.file = .text d.1
  array : ∀ e ∈ y.entities, e.array.isText = true
  warning : ∀ w ∈ y.warnings, w.file = .text d.1

theorem isOf_of_comesOf (hnamed : ∀ r ∈ rules, r.IsNamed) (hname : FileName.ofPath d.1 = d.1)
    (h : ComesOf rules d y) : IsOf rules d y := by
  have hfile := documentName_of_ofPath hname
  have hmarks := fun e he => Extraction.marks_of_mem_ofDocument (e := e) h he
  refine ⟨h, fun e he => ?_, fun e he => ?_, fun w hw => ?_⟩
  · rcases hmarks e he with ⟨r, -, -, hr⟩ | ⟨-, hdetected⟩
    · exact hr.file.trans hfile
    · exact hdetected.file.trans hfile
  · rcases hmarks e he with ⟨r, hr, -, hmark⟩ | ⟨-, hdetected⟩
    · rw [hmark.array]
      exact hnamed r hr
    · exact hdetected.array
  · exact (Extraction.isInside_of_mem_ofDocument h hw).file.trans hfile

theorem IsOf.unhashable?_eq_none (h : IsOf rules d y) :
    ∀ e ∈ y.entities, e.key.unhashable? = none := by
  intro e he
  rw [Entity.key, Entity.Key.unhashable?, h.file e he,
    Rule.unhashable?_eq_none (h.array e he)]
  rfl

theorem IsOf.isBlock (h : IsOf rules d y) :
    IsBlock rules d (Entity.firstOfKey [] y.entities) where
  merged := by
    refine ⟨y, h.extracted, Entity.merge_eq_ok_iff.mpr ⟨?_, by rw [List.flatten_singleton]⟩⟩
    exact List.forall_mem_singleton.mpr h.unhashable?_eq_none
  file e he := h.file e (Entity.mem_of_mem_firstOfKey he)

theorem exists_fromEach (hall : ∀ d ∈ documents, ∃ y, ComesOf rules d y) :
    ∃ found, List.Forall₂ (ComesOf rules) documents found := by
  induction documents with
  | nil => exact ⟨[], .nil⟩
  | cons d rest ih =>
    obtain ⟨⟨y, hy⟩, hrest⟩ := List.forall_mem_cons.mp hall
    obtain ⟨found, hfound⟩ := ih hrest
    exact ⟨y :: found, .cons hy hfound⟩

theorem pairwise_apart (h : List.Forall₂ (IsOf rules) documents found)
    (hdistinct : (documents.map (·.1)).Nodup) :
    (found.map (·.entities)).Pairwise Entity.Apart := by
  induction h with
  | nil => exact .nil
  | @cons d y documents found hd hrest ih =>
    obtain ⟨hnew, hdistinct⟩ := List.nodup_cons.mp hdistinct
    refine List.pairwise_cons.mpr ⟨List.forall_mem_map.mpr ?_, ih hdistinct⟩
    intro z hz e he e' he'
    obtain ⟨d', hd', hz⟩ := exists_of_mem_right hrest hz
    have hne : d.1 ≠ d'.1 := fun hname => hnew (List.mem_map.mpr ⟨d', hd', hname.symm⟩)
    simp [Entity.key, Entity.Key.same, hd.file e he, hz.file e' he', hne]

theorem isBlock_filter (h : List.Forall₂ (IsBlock rules) documents blocks)
    (hdistinct : (documents.map (·.1)).Nodup) (hd : d ∈ documents) :
    IsBlock rules d (blocks.flatten.filter (·.isFrom d.1)) := by
  induction h with
  | nil => cases hd
  | @cons d' block documents blocks hblock hrest ih =>
    obtain ⟨hnew, hdistinct⟩ := List.nodup_cons.mp hdistinct
    rw [List.flatten_cons, List.filter_append]
    rcases List.mem_cons.mp hd with rfl | hd
    · have hall : block.filter (·.isFrom d.1) = block :=
        List.filter_eq_self.mpr fun e he => by simp [Entity.isFrom, hblock.file e he]
      have hnone : blocks.flatten.filter (·.isFrom d.1) = [] := by
        refine List.filter_eq_nil_iff.mpr fun e he hfrom => ?_
        obtain ⟨other, hother, he⟩ := List.mem_flatten.mp he
        obtain ⟨d', hd', hother⟩ := exists_of_mem_right hrest hother
        have hname : d'.1 = d.1 := Value.text.inj
          ((hother.file e he).symm.trans (Value.same_text_iff.mp hfrom))
        exact hnew (List.mem_map.mpr ⟨d', hd', hname⟩)
      rwa [hall, hnone, List.append_nil]
    · have hnone : block.filter (·.isFrom d.1) = [] := by
        refine List.filter_eq_nil_iff.mpr fun e he hfrom => ?_
        have hname : d'.1 = d.1 := Value.text.inj
          ((hblock.file e he).symm.trans (Value.same_text_iff.mp hfrom))
        exact hnew (List.mem_map.mpr ⟨d, hd, hname.symm⟩)
      rw [hnone]
      exact ih hdistinct hd

section Rules

variable {text : String} {x : Extracted} (hrules : (Rule.ofEditor text).outcome = .ok rules)
  (hdocuments : Documents.AreNamed documents)

include hrules hdocuments

theorem isOf_of_forall₂ (hfound : List.Forall₂ (ComesOf rules) documents found) :
    List.Forall₂ (IsOf rules) documents found := by
  have hnamed := Rule.isNamed_of_ofEditor hrules
  have hstable := hdocuments.stable
  clear hdocuments
  induction hfound with
  | nil => exact .nil
  | cons hd _ ih =>
    obtain ⟨hname, hstable⟩ := List.forall_mem_cons.mp hstable
    exact .cons (isOf_of_comesOf hnamed hname hd) (ih hstable)

theorem exists_ofDocuments (hall : ∀ d ∈ documents, ∃ y, ComesOf rules d y) :
    ∃ x, (ofDocuments documents text).outcome = .ok x := by
  rw [outcome_ofDocuments hrules]
  split
  · exact ⟨_, rfl⟩
  · obtain ⟨found, hfound⟩ := exists_fromEach hall
    have hof := isOf_of_forall₂ hrules hdocuments hfound
    have hfrom : ∀ y ∈ found, ∃ d, IsOf rules d y := by
      intro y hy
      obtain ⟨d, -, hy⟩ := exists_of_mem_right hof hy
      exact ⟨d, hy⟩
    obtain ⟨warnings, hwarnings⟩ : ∃ warnings,
        Warning.texts (found.flatMap (·.warnings)) = .ok warnings := by
      refine Warning.exists_texts fun w hw => ?_
      obtain ⟨y, hy, hw⟩ := List.mem_flatMap.mp hw
      obtain ⟨d, hy⟩ := hfrom y hy
      exact Value.isText_iff.mpr ⟨d.1, hy.warning w hw⟩
    obtain ⟨entities, hentities⟩ : ∃ entities,
        Entity.merge (found.map (·.entities)) = .ok entities := by
      refine ⟨_, Entity.merge_eq_ok_iff.mpr ⟨List.forall_mem_map.mpr fun y hy => ?_, rfl⟩⟩
      obtain ⟨d, hy⟩ := hfrom y hy
      exact hy.unhashable?_eq_none
    obtain ⟨arrays, harrays⟩ : ∃ arrays, Value.sort (Rule.arraysOf entities) = .ok arrays := by
      refine Value.exists_sort fun v hv => ?_
      obtain ⟨e, he, rfl⟩ := Rule.mem_of_mem_arraysOf hv
      obtain ⟨group, hgroup, he⟩ := Entity.mem_of_mem_merge hentities he
      obtain ⟨y, hy, rfl⟩ := List.mem_map.mp hgroup
      obtain ⟨d, hy⟩ := hfrom y hy
      exact hy.array e he
    refine ⟨⟨entities, statusOf entities documents warnings, arrays, columnsOf entities⟩, ?_⟩
    rw [outcome_byRules, outcome_fromEach_eq_ok_iff.mpr hfound, ok_bind, hwarnings, ok_bind,
      hentities, ok_bind, harrays]
    rfl

/-- The entities of documents are those of each of them, one block after the other. -/
theorem exists_blocks (h : (ofDocuments documents text).outcome = .ok x) :
    ∃ blocks, List.Forall₂ (IsBlock rules) documents blocks ∧ x.entities = blocks.flatten := by
  rw [outcome_ofDocuments hrules] at h
  split at h
  · rename_i hempty
    cases h
    rw [List.isEmpty_iff.mp hempty]
    exact ⟨[], .nil, rfl⟩
  · obtain ⟨found, hfound, hmerge⟩ := exists_merge_of_byRules h
    have hof := isOf_of_forall₂ hrules hdocuments hfound
    refine ⟨found.map fun y => Entity.firstOfKey [] y.entities,
      List.forall₂_map_right_iff.mpr (hof.imp fun _ _ hy => hy.isBlock), ?_⟩
    rw [(Entity.merge_eq_ok_iff.mp hmerge).2,
      Entity.firstOfKey_flatten (pairwise_apart hof hdocuments.distinct), List.map_map]
    rfl

end Rules

end Extracted

/-- Documents are extracted apart from each other. If each of the loaded documents can be
extracted, all of them can, and the entities are those of each document merged on its own, one block
after the other. Whatever else is loaded, a document has the same entities, and the same documents
in another order have the same blocks in that order. -/
theorem Workbench.extracted_blocks {b : Workbench} {uploads : List Upload} {found : Loaded}
    {text : String} {rules : List Rule} (hloaded : b.loaded uploads = .ok found)
    (hrules : (Rule.ofEditor text).outcome = .ok rules)
    (hall : ∀ d ∈ found.documents, ∃ y, Extracted.ComesOf rules d y) :
    ∃ x blocks, (Extracted.ofDocuments found.documents text).outcome = .ok x ∧
      List.Forall₂ (Extracted.IsBlock rules) found.documents blocks ∧
      x.entities = blocks.flatten ∧
      ∀ (b' : Workbench) (uploads' : List Upload) (found' : Loaded) (x' : Extracted),
        b'.loaded uploads' = .ok found' →
        (Extracted.ofDocuments found'.documents text).outcome = .ok x' →
        (∀ d ∈ found.documents, d ∈ found'.documents →
          x'.entities.filter (·.isFrom d.1) = x.entities.filter (·.isFrom d.1)) ∧
        (found'.documents.Perm found.documents →
          ∃ blocks', List.Forall₂ (Extracted.IsBlock rules) found'.documents blocks' ∧
            blocks'.Perm blocks ∧ x'.entities = blocks'.flatten) := by
  have hnamed := areNamed_of_loaded hloaded
  obtain ⟨x, hx⟩ := Extracted.exists_ofDocuments hrules hnamed hall
  obtain ⟨blocks, hblocks, hentities⟩ := Extracted.exists_blocks hrules hnamed hx
  refine ⟨x, blocks, hx, hblocks, hentities, ?_⟩
  intro b' uploads' found' x' hloaded' hx'
  have hnamed' := areNamed_of_loaded hloaded'
  obtain ⟨blocks', hblocks', hentities'⟩ := Extracted.exists_blocks hrules hnamed' hx'
  have hunique := Extracted.rightUnique_isBlock rules
  constructor
  · intro d hd hd'
    rw [hentities, hentities']
    exact hunique (Extracted.isBlock_filter hblocks' hnamed'.distinct hd')
      (Extracted.isBlock_filter hblocks hnamed.distinct hd)
  · intro hperm
    exact ⟨blocks', hblocks', List.rel_perm_imp hunique hblocks' hblocks hperm, hentities'⟩

/-- Two documents of the same content. -/
theorem Workbench.extracted_blocks_same :
    let b := Workbench.start {} .empty "" ""
    let content := "\x7b\"e\": [\x7b\"start\": 1, \"id\": 2\x7d]\x7d".toList
    let e := fun (file : String) => Entity.mk "2" ⟨1000⟩ ⟨1000⟩ (.text "e") (.text file)
      (.object [("start", .int 1), ("id", .int 2)]) .null
    ∃ found, b.loaded [.textStream content (some "a.json"), .textStream content (some "b.json")] =
        .ok found ∧
      (Rule.ofEditor " ").outcome = .ok [] ∧
      (∀ d ∈ found.documents, ∃ y, Extracted.ComesOf [] d y) ∧
      ∃ x blocks, (Extracted.ofDocuments found.documents " ").outcome = .ok x ∧
        List.Forall₂ (Extracted.IsBlock []) found.documents blocks ∧
        x.entities = blocks.flatten ∧
        x.entities = [e "a.json", e "b.json"] := by
  intro b content e
  let document : Value :=
    .object [("e", .list [.object [("start", .int 1), ("id", .int 2)]])]
  have hread : Json.read content = .ok document := by
    simp only [content, Json.read, String.reduceToList]
    rfl
  have hupload : ∀ name, Upload.read .empty (.int 10485760) (.textStream content name) =
      .ok document :=
    Upload.read_textStream (by decide +kernel) hread
  have ha : Upload.nameAt (.textStream content (some "a.json")) 0 = "a.json" := by decide +kernel
  have hb : Upload.nameAt (.textStream content (some "b.json")) 1 = "b.json" := by decide +kernel
  let documents : Fields := [("a.json", document), ("b.json", document)]
  have hadded : Documents.ofUploads .empty (.int 10485760)
      [.textStream content (some "a.json"), .textStream content (some "b.json")] =
        .ok ⟨documents, []⟩ := by
    rw [Documents.ofUploads, Documents.addAll, Documents.add_of_read (hupload _), ha, ok_bind,
      Documents.addAll, Documents.add_of_read (hupload _), hb, ok_bind]
    rfl
  have hloaded : b.loaded _ = _ :=
    (loaded_eq_ok_iff (List.cons_ne_nil _ _)).mpr ⟨_, hadded, rfl⟩
  have hrules : (Rule.ofEditor " ").outcome = .ok [] := rfl
  have hall : ∀ d ∈ documents, Yields (Extraction.ofDocument (.text d.1) d.2 []) fun _ => True := by
    decide +kernel
  have hcomes : ∀ d ∈ documents, ∃ y, Extracted.ComesOf [] d y := fun d hd =>
    (hall d hd).imp fun _ => And.left
  obtain ⟨x, blocks, hx, hblocks, hentities, -⟩ := extracted_blocks hloaded hrules hcomes
  obtain ⟨y, hy, hrun⟩ : Yields (Extracted.ofDocuments documents " ").outcome
      (·.entities = [e "a.json", e "b.json"]) := by
    with_unfolding_all exact ⟨_, rfl, rfl⟩
  obtain rfl : x = y := Except.ok.inj (hx.symm.trans hy)
  exact ⟨_, hloaded, hrules, hcomes, x, blocks, hx, hblocks, hentities, hrun⟩

end Timeline
