import Timeline.Files.Document
import Timeline.Proofs.Outcome

/-! # Loading a file

A file is loaded with the document that it holds, or it has a fault that says why not. Two things
are no faults of a file: a path that is no path, and an integer with too many digits.
-/

namespace Timeline

namespace Workspace

variable {w : Workspace} {limit : Number} {path : String}

/-- A path leads to a file that is not too large. -/
structure HoldsBytes (w : Workspace) (limit : Number) (path : String) (bytes : List UInt8) :
    Prop where
  nul : '\x00' ∉ path.toList
  node : w.node path = .ok (.file bytes)
  within : Upload.isOver bytes.length limit = false

/-- A path leads to a file that holds a text. -/
def HoldsText (w : Workspace) (limit : Number) (path : String) (cs : List Char) : Prop :=
  ∃ bytes, w.HoldsBytes limit path bytes ∧ Utf8.decode bytes = .ok cs

def HoldsDocument (w : Workspace) (limit : Number) (path : String) (document : Value) : Prop :=
  ∃ cs, w.HoldsText limit path cs ∧ Json.read (Text.unifyLineEnds cs) = .ok document

/-- What is wrong with the file at a path. -/
inductive HasFault (w : Workspace) (limit : Number) (path : String) : LoadFailure → Prop
  | unreadable {fault : FileFault} : '\x00' ∉ path.toList → w.node path = .error fault →
    HasFault w limit path (.unreadable path fault)
  | tooLarge {size : Nat} : '\x00' ∉ path.toList → w.size path = .ok size →
    Upload.isOver size limit = true →
    HasFault w limit path (.tooLarge path size (Value.ofNumber limit).plain)
  | directory : '\x00' ∉ path.toList → w.node path = .ok .directory →
    Upload.isOver directorySize limit = false →
    HasFault w limit path (.unreadable path .isDirectory)
  | notUtf8 {bytes : List UInt8} {fault : Utf8.Fault} : w.HoldsBytes limit path bytes →
    Utf8.decode bytes = .error fault → HasFault w limit path (.notUtf8 path fault)
  | notJson {cs : List Char} {fault : Json.Fault} : w.HoldsText limit path cs →
    Json.read (Text.unifyLineEnds cs) = .error (.fault fault) →
    HasFault w limit path (.notJson path fault)

/-- What keeps a file from being loaded without being a fault of it. -/
inductive Interrupts (w : Workspace) (limit : Number) (path : String) : Failure → Prop
  | nul : '\x00' ∈ path.toList → Interrupts w limit path .nulInPath
  | tooManyDigits {cs : List Char} {n : Nat} : w.HoldsText limit path cs →
    Json.read (Text.unifyLineEnds cs) = .error (.tooManyDigits n) →
    Interrupts w limit path (.tooManyDigits n)

/-- What becomes of a path from which a document is loaded. -/
inductive Loads (w : Workspace) (limit : Number) (path : String) : Except Failure Value → Prop
  | document {v : Value} : w.HoldsDocument limit path v → Loads w limit path (.ok v)
  | fault {f : LoadFailure} : w.HasFault limit path f → Loads w limit path (.error (.load f))
  | interrupt {f : Failure} : w.Interrupts limit path f → Loads w limit path (.error f)

theorem Interrupts.not_load {f : LoadFailure} : ¬w.Interrupts limit path (.load f) := nofun

end Workspace

namespace Upload

variable {w : Workspace} {limit : Number} {path : String} {cs : List Char}

theorem content_of_holdsBytes {bytes : List UInt8} (h : w.HoldsBytes limit path bytes) :
    (Upload.file path).content w limit = (decode path bytes).map Text.unifyLineEnds := by
  have hsize : w.size path = .ok bytes.length := by rw [Workspace.size, h.node]
  have hread : w.read path = .ok bytes := by rw [Workspace.read, h.node]
  simp only [content, List.contains_eq_mem, h.nul, decide_false, Bool.false_eq_true, if_false,
    hsize, hread, opened, ok_bind, checkSize, h.within]
  rfl

theorem content_of_holdsText (h : w.HoldsText limit path cs) :
    (Upload.file path).content w limit = .ok (Text.unifyLineEnds cs) := by
  obtain ⟨bytes, hbytes, hcs⟩ := h
  rw [content_of_holdsBytes hbytes, decode, hcs]
  rfl

theorem read_of_holdsDocument {v : Value} (h : w.HoldsDocument limit path v) :
    (Upload.file path).read w limit = .ok v := by
  obtain ⟨cs, hcs, hread⟩ := h
  rw [read, content_of_holdsText hcs, ok_bind, hread]
  rfl

theorem read_of_hasFault {f : LoadFailure} (h : w.HasFault limit path f) :
    (Upload.file path).read w limit = .error (.load f) := by
  cases h with
  | unreadable hnul hnode => simp [read, content, hnul, Workspace.size, hnode, opened]
  | tooLarge hnul hsize hover => simp [read, content, hnul, hsize, opened, checkSize, hover]
  | directory hnul hnode hwithin =>
    simp [read, content, hnul, Workspace.size, Workspace.read, hnode, opened, checkSize, hwithin]
  | notUtf8 hbytes hfault =>
    rw [read, content_of_holdsBytes hbytes, decode, hfault]
    rfl
  | notJson hcs hread =>
    rw [read, content_of_holdsText hcs, ok_bind, hread]
    rfl

theorem read_of_interrupts {f : Failure} (h : w.Interrupts limit path f) :
    (Upload.file path).read w limit = .error f := by
  cases h with
  | nul hnul => simp [read, content, hnul]
  | tooManyDigits hcs hread =>
    rw [read, content_of_holdsText hcs, ok_bind, hread]
    rfl

theorem loads_of_holdsBytes {bytes : List UInt8} (h : w.HoldsBytes limit path bytes) :
    w.Loads limit path ((Upload.file path).read w limit) := by
  cases hcs : Utf8.decode bytes with
  | error fault =>
    have hfault := Workspace.HasFault.notUtf8 h hcs
    rw [read_of_hasFault hfault]
    exact .fault hfault
  | ok cs =>
    have htext : w.HoldsText limit path cs := ⟨bytes, h, hcs⟩
    rcases hread : Json.read (Text.unifyLineEnds cs) with (fault | n) | v
    · have hfault := Workspace.HasFault.notJson htext hread
      rw [read_of_hasFault hfault]
      exact .fault hfault
    · have hinterrupts := Workspace.Interrupts.tooManyDigits htext hread
      rw [read_of_interrupts hinterrupts]
      exact .interrupt hinterrupts
    · have hdocument : w.HoldsDocument limit path v := ⟨cs, htext, hread⟩
      rw [read_of_holdsDocument hdocument]
      exact .document hdocument

theorem loads_read (w : Workspace) (limit : Number) (path : String) :
    w.Loads limit path ((Upload.file path).read w limit) := by
  have hfault : ∀ {f}, w.HasFault limit path f →
      w.Loads limit path ((Upload.file path).read w limit) := by
    intro f h
    rw [read_of_hasFault h]
    exact .fault h
  by_cases hnul : '\x00' ∈ path.toList
  · rw [read_of_interrupts (.nul hnul)]
    exact .interrupt (.nul hnul)
  cases hnode : w.node path with
  | error fault => exact hfault (.unreadable hnul hnode)
  | ok node =>
    cases node with
    | file bytes =>
      have hsize : w.size path = .ok bytes.length := by rw [Workspace.size, hnode]
      by_cases hover : isOver bytes.length limit = true
      · exact hfault (.tooLarge hnul hsize hover)
      · exact loads_of_holdsBytes ⟨hnul, hnode, Bool.eq_false_iff.mpr hover⟩
    | directory =>
      have hsize : w.size path = .ok Workspace.directorySize := by rw [Workspace.size, hnode]
      by_cases hover : isOver Workspace.directorySize limit = true
      · exact hfault (.tooLarge hnul hsize hover)
      · exact hfault (.directory hnul hnode (Bool.eq_false_iff.mpr hover))

end Upload

namespace Workspace

variable {w : Workspace} {limit : Number} {path : String} {f : Failure}

theorem HoldsDocument.not_interrupts {v : Value} (h : w.HoldsDocument limit path v) :
    ¬w.Interrupts limit path f := by
  intro hinterrupts
  cases (Upload.read_of_holdsDocument h).symm.trans (Upload.read_of_interrupts hinterrupts)

theorem HasFault.not_interrupts {fault : LoadFailure} (h : w.HasFault limit path fault) :
    ¬w.Interrupts limit path f := by
  intro hinterrupts
  cases (Upload.read_of_hasFault h).symm.trans (Upload.read_of_interrupts hinterrupts)
  exact hinterrupts.not_load

end Workspace

end Timeline
