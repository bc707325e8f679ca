import Timeline.Proofs.Files.Name
import Timeline.Proofs.Outcome
import Timeline.Proofs.Value.Fields
import Timeline.Workbench.Session

/-! # Names of loaded documents

Loaded documents have distinct names, and each of them is known by its own name wherever it is
looked up.
-/

namespace Timeline

namespace Documents

variable {w : Workspace} {limit : Number} {ds found : Documents} {documents : Fields}

theorem loaded_of_addAll {p : Fields → Prop}
    (hinsert : ∀ path v documents, p documents →
      p (Fields.insert (FileName.ofPath path) v documents))
    {uploads : List Upload} {place : Nat} (h : p ds.loaded)
    (hadd : addAll w limit ds place uploads = .ok found) : p found.loaded := by
  induction uploads generalizing ds place with
  | nil =>
    cases hadd
    exact h
  | cons u rest ih =>
    obtain ⟨next, hnext, hadd⟩ := bind_eq_ok_iff.mp hadd
    refine ih ?_ hadd
    unfold add at hnext
    split at hnext
    · cases hnext
      exact hinsert _ _ _ h
    · cases hnext
      exact h
    · cases hnext

/-- The names of documents are distinct, and each is the name of itself. -/
structure AreNamed (documents : Fields) : Prop where
  distinct : (documents.map (·.1)).Nodup
  stable : ∀ name ∈ documents.map (·.1), FileName.ofPath name = name

theorem AreNamed.insert (h : AreNamed documents) (path : String) (v : Value) :
    AreNamed (Fields.insert (FileName.ofPath path) v documents) where
  distinct := Fields.nodup_insert h.distinct _ v
  stable := by
    intro name hname
    rw [Fields.keys_insert] at hname
    split at hname
    · exact h.stable name hname
    · rcases List.mem_append.mp hname with hname | hname
      · exact h.stable name hname
      · obtain rfl := List.mem_singleton.mp hname
        exact FileName.ofPath_ofPath path

end Documents

namespace Workbench

variable {b : Workbench} {uploads : List Upload} {found : Loaded}

theorem areNamed_of_loaded (h : b.loaded uploads = .ok found) :
    Documents.AreNamed found.documents := by
  have hempty : Documents.AreNamed [] := ⟨List.nodup_nil, List.forall_mem_nil _⟩
  unfold loaded at h
  split at h
  · cases h
    exact hempty
  · obtain ⟨ds, hds, h⟩ := bind_eq_ok_iff.mp h
    cases h
    exact Documents.loaded_of_addAll (fun path v _ hnamed => hnamed.insert path v) hempty hds

theorem ofPath_of_loaded (h : b.loaded uploads = .ok found) {name : String} {document : Value}
    (hd : (name, document) ∈ found.documents) : FileName.ofPath name = name :=
  (areNamed_of_loaded h).stable name (List.mem_map_of_mem hd)

end Workbench

theorem documentName_of_ofPath {name : String} (h : FileName.ofPath name = name) :
    documentName (.text name) = .text name := by
  unfold documentName
  split
  · exact congrArg Value.text h
  · rfl

end Timeline
