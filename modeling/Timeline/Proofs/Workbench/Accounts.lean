import Timeline.Proofs.Workbench.Documents

/-! # Accounts of loaded files

Each file that is loaded is read or has a fault. A document is kept under the name of its file, and
of the documents of one name only the last one is kept. So no document is lost exactly if the files
that are read have different names.
-/

namespace Timeline

namespace Upload

/-- The name under which the document of the file at a place is kept. -/
def nameAt (u : Upload) (place : Nat) : String :=
  FileName.ofPath (u.identifier place)

def reading? (w : Workspace) (limit : Number) (p : Upload × Nat) : Option (String × Value) :=
  match p.1.read w limit with
  | .ok v => some (p.1.nameAt p.2, v)
  | .error _ => none

def fault? (w : Workspace) (limit : Number) (u : Upload) : Option LoadFailure :=
  match u.read w limit with
  | .error (.load f) => some f
  | _ => none

/-- A file is read, or it has a fault. -/
def IsAnswered (w : Workspace) (limit : Number) (u : Upload) : Prop :=
  (∃ v, u.read w limit = .ok v) ∨ ∃ f, u.read w limit = .error (.load f)

theorem read_textStream {w : Workspace} {limit : Number} {cs : List Char} {v : Value}
    (hsize : isOver cs.length limit = false) (hread : Json.read cs = .ok v)
    (name : Option String) : Upload.read w limit (.textStream cs name) = .ok v := by
  simp [Upload.read, content, checkSize, hsize, hread]

end Upload

namespace Documents

variable {w : Workspace} {limit : Number} {ds found next : Documents} {u : Upload}
  {uploads : List Upload} {place : Nat}

def readings (w : Workspace) (limit : Number) (place : Nat) (uploads : List Upload) : Fields :=
  (uploads.zipIdx place).filterMap (Upload.reading? w limit)

def faultsOf (w : Workspace) (limit : Number) (uploads : List Upload) : List LoadFailure :=
  uploads.filterMap (Upload.fault? w limit)

section Read

variable {v : Value} (h : u.read w limit = .ok v)

include h

theorem add_of_read : ds.add w limit place u =
    .ok { ds with loaded := Fields.insert (u.nameAt place) v ds.loaded } := by
  rw [add, h]
  rfl

theorem readings_of_read : readings w limit place (u :: uploads) =
    (u.nameAt place, v) :: readings w limit (place + 1) uploads := by
  rw [readings, List.zipIdx_cons, List.filterMap_cons, Upload.reading?, h]
  rfl

theorem faultsOf_of_read : faultsOf w limit (u :: uploads) = faultsOf w limit uploads := by
  rw [faultsOf, List.filterMap_cons, Upload.fault?, h]
  rfl

end Read

section Fault

variable {f : LoadFailure} (h : u.read w limit = .error (.load f))

include h

theorem add_of_fault : ds.add w limit place u = .ok { ds with faults := ds.faults ++ [f] } := by
  rw [add, h]

theorem readings_of_fault : readings w limit place (u :: uploads) =
    readings w limit (place + 1) uploads := by
  rw [readings, List.zipIdx_cons, List.filterMap_cons, Upload.reading?, h]
  rfl

theorem faultsOf_of_fault : faultsOf w limit (u :: uploads) = f :: faultsOf w limit uploads := by
  rw [faultsOf, List.filterMap_cons, Upload.fault?, h]
  rfl

end Fault

theorem isAnswered_of_add (h : ds.add w limit place u = .ok next) : u.IsAnswered w limit := by
  unfold add at h
  split at h
  · rename_i v hread
    exact .inl ⟨v, hread⟩
  · rename_i f hread
    exact .inr ⟨f, hread⟩
  · cases h

/-- Files are loaded exactly if each of them is read or has a fault. Then the documents that are
read are put under their names, one after the other, and the faults are kept. -/
theorem addAll_eq_ok_iff : addAll w limit ds place uploads = .ok found ↔
    (∀ u ∈ uploads, u.IsAnswered w limit) ∧
      found = ⟨ds.loaded.insertAll (readings w limit place uploads),
        ds.faults ++ faultsOf w limit uploads⟩ := by
  -- on the files; what was loaded before them stays general
  induction uploads generalizing ds place with
  | nil => simp [addAll, readings, faultsOf, Fields.insertAll, eq_comm]
  | cons u rest ih =>
    rw [addAll, List.forall_mem_cons, and_assoc]
    constructor
    · intro h
      obtain ⟨next, hnext, hrest⟩ := bind_eq_ok_iff.mp h
      have hanswered := isAnswered_of_add hnext
      refine ⟨hanswered, ?_⟩
      rcases hanswered with ⟨v, hread⟩ | ⟨f, hread⟩
      · rw [add_of_read hread] at hnext
        cases hnext
        rw [readings_of_read hread, faultsOf_of_read hread]
        exact ih.mp hrest
      · rw [add_of_fault hread] at hnext
        cases hnext
        rw [readings_of_fault hread, faultsOf_of_fault hread, List.append_cons]
        exact ih.mp hrest
    · rintro ⟨⟨v, hread⟩ | ⟨f, hread⟩, hrest⟩
      · rw [readings_of_read hread, faultsOf_of_read hread] at hrest
        rw [add_of_read hread, ok_bind]
        exact ih.mpr hrest
      · rw [readings_of_fault hread, faultsOf_of_fault hread, List.append_cons] at hrest
        rw [add_of_fault hread, ok_bind]
        exact ih.mpr hrest

theorem length_readings_add (place : Nat) (h : ∀ u ∈ uploads, u.IsAnswered w limit) :
    (readings w limit place uploads).length + (faultsOf w limit uploads).length =
      uploads.length := by
  induction uploads generalizing place with
  | nil => rfl
  | cons u rest ih =>
    obtain ⟨hu, hrest⟩ := List.forall_mem_cons.mp h
    have hlength := ih (place + 1) hrest
    rcases hu with ⟨v, hread⟩ | ⟨f, hread⟩
    · rw [readings_of_read hread, faultsOf_of_read hread, List.length_cons, List.length_cons]
      omega
    · rw [readings_of_fault hread, faultsOf_of_fault hread, List.length_cons, List.length_cons]
      omega

theorem mem_readings {p : Upload × Nat} {v : Value} (hp : p ∈ uploads.zipIdx place)
    (hread : p.1.read w limit = .ok v) :
    (p.1.nameAt p.2, v) ∈ readings w limit place uploads := by
  refine List.mem_filterMap.mpr ⟨p, hp, ?_⟩
  rw [Upload.reading?, hread]

/-- What is loaded from files accounts for each of them. -/
structure AccountsFor (w : Workspace) (limit : Number) (uploads : List Upload)
    (ds : Documents) : Prop where
  /-- The faults are those of the files, in their order. -/
  faults : ds.faults = faultsOf w limit uploads
  /-- A file is read, or has a fault. -/
  total : (readings w limit 0 uploads).length + ds.faults.length = uploads.length
  /-- Under a name the last document is kept that is read from a file of the name. -/
  last : ∀ name, ds.loaded.get? name = Fields.get? (readings w limit 0 uploads).reverse name
  /-- Each file has a document or a fault of its own exactly if the names of what is read differ. -/
  complete_iff : ds.loaded.length + ds.faults.length = uploads.length ↔
    ((readings w limit 0 uploads).map (·.1)).Nodup
  /-- Then all that is read is kept. -/
  keeps : ((readings w limit 0 uploads).map (·.1)).Nodup →
    ds.loaded = readings w limit 0 uploads ∧
      ∀ p ∈ uploads.zipIdx, ∀ v, p.1.read w limit = .ok v →
        ds.loaded.get? (p.1.nameAt p.2) = some v

theorem accountsFor_of_ofUploads (h : ofUploads w limit uploads = .ok ds) :
    AccountsFor w limit uploads ds := by
  obtain ⟨hanswered, rfl⟩ := addAll_eq_ok_iff.mp h
  have htotal := length_readings_add 0 hanswered
  constructor
  case faults => rfl
  case total => exact htotal
  case last => exact Fields.get?_ofList _
  case complete_iff =>
    rw [← Fields.length_ofList_eq_iff, ← htotal]
    exact Nat.add_right_cancel_iff
  case keeps =>
    rintro hnodup
    have hkept : Fields.ofList (readings w limit 0 uploads) = readings w limit 0 uploads :=
      Fields.ofList_eq_self hnodup
    refine ⟨hkept, ?_⟩
    rintro p hp v hread
    refine (congrArg (Fields.get? · _) hkept).trans ?_
    exact Fields.get?_of_mem hnodup (mem_readings hp hread)

end Documents

namespace Workbench

variable {b : Workbench} {uploads : List Upload} {found : Loaded}

theorem loaded_eq_ok_iff (hne : uploads ≠ []) : b.loaded uploads = .ok found ↔
    ∃ ds, Documents.ofUploads b.workspace b.settings.maxFileSize uploads = .ok ds ∧
      found = ⟨ds.loaded, ds.status, ds.paths b.settings.maxPathDepth⟩ := by
  rw [loaded, if_neg (by simpa using hne), bind_eq_ok_iff]
  simp only [pure_eq_ok, Except.ok.injEq, eq_comm]

/-- Of each file that is loaded the document is read, or it is reported. The document of a name is
the last one that is read from a file of this name. So every file that is read has its own document
exactly if the names of these files differ. -/
theorem loaded_accounts (hne : uploads ≠ []) (h : b.loaded uploads = .ok found) :
    ∃ ds, found.documents = ds.loaded ∧ found.status = ds.status ∧
      Documents.AccountsFor b.workspace b.settings.maxFileSize uploads ds := by
  obtain ⟨ds, hds, rfl⟩ := (loaded_eq_ok_iff hne).mp h
  exact ⟨ds, rfl, rfl, Documents.accountsFor_of_ofUploads hds⟩

/-- A stream with a name, no file, and a stream without a name. -/
theorem loaded_accounts_streams :
    let b := Workbench.start {} .empty "" ""
    let uploads := [Upload.textStream ['[', ']'] (some "a/x.json"), .nothing,
      .textStream ['n', 'u', 'l', 'l'] none]
    ∃ found, b.loaded uploads = .ok found ∧
      found.documents = [("x.json", .list []), ("<_io.StringIO object at 2>", .null)] := by
  intro b uploads
  have hne : uploads ≠ [] := List.cons_ne_nil _ _
  have hfirst : Upload.read .empty (.int 10485760) (.textStream ['[', ']'] (some "a/x.json")) =
      .ok (.list []) := Upload.read_textStream (by decide +kernel) rfl _
  have hnothing : Upload.read .empty (.int 10485760) .nothing = .error (.load .nothing) := rfl
  have hlast : Upload.read .empty (.int 10485760) (.textStream ['n', 'u', 'l', 'l'] none) =
      .ok .null := Upload.read_textStream (by decide +kernel) rfl _
  have hreadings : Documents.readings .empty (.int 10485760) 0 uploads =
      [("x.json", .list []), ("<_io.StringIO object at 2>", .null)] := by
    have hname : Upload.nameAt (.textStream ['[', ']'] (some "a/x.json")) 0 = "x.json" := by
      decide +kernel
    have hplace : Upload.nameAt (.textStream ['n', 'u', 'l', 'l'] none) 2 =
        "<_io.StringIO object at 2>" := by decide +kernel
    rw [Documents.readings_of_read hfirst, Documents.readings_of_fault hnothing,
      Documents.readings_of_read hlast, hname, hplace]
    rfl
  have hanswered : ∀ u ∈ uploads, u.IsAnswered .empty (.int 10485760) := by
    simp only [uploads, List.forall_mem_cons]
    exact ⟨.inl ⟨_, hfirst⟩, .inr ⟨_, hnothing⟩, .inl ⟨_, hlast⟩, List.forall_mem_nil _⟩
  have hloaded : ∃ found, b.loaded uploads = .ok found :=
    ⟨_, (loaded_eq_ok_iff hne).mpr ⟨_, Documents.addAll_eq_ok_iff.mpr ⟨hanswered, rfl⟩, rfl⟩⟩
  obtain ⟨found, hfound⟩ := hloaded
  obtain ⟨ds, hdocuments, -, haccounts⟩ := loaded_accounts hne hfound
  have hnames : ((Documents.readings .empty (.int 10485760) 0 uploads).map (·.1)).Nodup := by
    rw [hreadings]
    decide
  refine ⟨found, hfound, ?_⟩
  rw [hdocuments, (haccounts.keeps hnames).1]
  exact hreadings

/-- Two streams of one name that are both read. Only the second document is kept, and nothing is
said about the first one. -/
theorem loaded_accounts_sameName :
    let b := Workbench.start {} .empty "" ""
    let uploads := [Upload.textStream ['[', ']'] (some "a/data.json"),
      .textStream ['n', 'u', 'l', 'l'] (some "b/data.json")]
    (∀ u ∈ uploads, ∃ v, u.read b.workspace b.settings.maxFileSize = .ok v) ∧
      ∃ found, b.loaded uploads = .ok found ∧ found.documents = [("data.json", .null)] ∧
        found.status = "Loaded 1 file(s)." := by
  intro b uploads
  have hfirst : Upload.read .empty (.int 10485760)
      (.textStream ['[', ']'] (some "a/data.json")) = .ok (.list []) :=
    Upload.read_textStream (by decide +kernel) rfl _
  have hlast : Upload.read .empty (.int 10485760)
      (.textStream ['n', 'u', 'l', 'l'] (some "b/data.json")) = .ok .null :=
    Upload.read_textStream (by decide +kernel) rfl _
  have hname : Upload.nameAt (.textStream ['[', ']'] (some "a/data.json")) 0 = "data.json" := by
    decide +kernel
  have hother : Upload.nameAt (.textStream ['n', 'u', 'l', 'l'] (some "b/data.json")) 1 =
      "data.json" := by decide +kernel
  have hadded : Documents.ofUploads .empty (.int 10485760) uploads =
      .ok ⟨[("data.json", .null)], []⟩ := by
    rw [Documents.ofUploads, Documents.addAll, Documents.add_of_read hfirst, hname, ok_bind,
      Documents.addAll, Documents.add_of_read hlast, hother, ok_bind]
    rfl
  refine ⟨?_, _, (loaded_eq_ok_iff (List.cons_ne_nil _ _)).mpr ⟨_, hadded, rfl⟩, rfl, ?_⟩
  · simp only [uploads, List.forall_mem_cons]
    exact ⟨⟨_, hfirst⟩, ⟨_, hlast⟩, List.forall_mem_nil _⟩
  · decide +kernel

end Workbench

end Timeline
