import Mathlib.Data.List.Forall2
import Timeline.Proofs.Extraction.Marks
import Timeline.Proofs.Files.Load
import Timeline.Proofs.Text.Utf8

/-! # Extraction from several files

Each file gives what its document gives, and a file with a fault gives a single warning. A batch
stops only at a path that is no path and at an integer with too many digits.
-/

namespace Timeline

namespace Extraction

variable {w : Workspace} {settings : Settings} {rules : List Rule} {path : String}
  {paths : List String}

/-- What the file at a path gives: what its document gives, or one warning about its fault. No other
warning is about a file. -/
inductive Gives (w : Workspace) (settings : Settings) (rules : List Rule) (path : String)
    (x : Extraction) : Prop
  | document {v : Value} : w.HoldsDocument settings.maxFileSize path v →
    ofDocument (.text path) v rules = .ok x →
    (∀ warning ∈ x.warnings, warning.cause.scope ≠ .file) → Gives w settings rules path x
  | fault {f : LoadFailure} : w.HasFault settings.maxFileSize path f → x.entities = [] →
    x.warnings = [⟨.unloaded f, documentName (.text path), none, none⟩] →
    Gives w settings rules path x

theorem Gives.not_interrupts {x : Extraction} {f : Failure} (h : Gives w settings rules path x) :
    ¬w.Interrupts settings.maxFileSize path f := by
  cases h with
  | document hdocument => exact hdocument.not_interrupts
  | fault hfault => exact hfault.not_interrupts

/-- Rules can be followed in the document at a path, if there is one. -/
def CanFollow (w : Workspace) (settings : Settings) (rules : List Rule) (path : String) : Prop :=
  ∀ v, w.HoldsDocument settings.maxFileSize path v → ∃ x, ofDocument (.text path) v rules = .ok x

/-- What becomes of a path. -/
inductive Takes (w : Workspace) (settings : Settings) (rules : List Rule) (path : String) :
    Except Failure Extraction → Prop
  | gives {x : Extraction} : Gives w settings rules path x → Takes w settings rules path (.ok x)
  | stops {f : Failure} : w.Interrupts settings.maxFileSize path f →
    Takes w settings rules path (.error f)

theorem takes_ofFile (h : CanFollow w settings rules path) :
    Takes w settings rules path (ofFile w settings rules path) := by
  have hloads := Upload.loads_read w settings.maxFileSize path
  unfold ofFile
  generalize (Upload.file path).read w settings.maxFileSize = outcome at hloads
  cases hloads with
  | @document v hdocument =>
    obtain ⟨x, hx⟩ := h v hdocument
    simp only [hx]
    exact .gives (.document hdocument hx fun v hv => (isInside_of_mem_ofDocument hx hv).scope)
  | fault hfault => exact .gives (.fault hfault rfl rfl)
  | interrupt hinterrupts =>
    cases hinterrupts with
    | nul hnul => exact .stops (.nul hnul)
    | tooManyDigits hcs hread => exact .stops (.tooManyDigits hcs hread)

theorem outcome_ofFiles_cons (path : String) (rest : List String) :
    (ofFiles w settings rules (path :: rest)).outcome = (do
      let here ← ofFile w settings rules path
      let later ← (ofFiles w settings rules rest).outcome
      return here ++ later) := by
  simp only [ofFiles, Journaled.outcome_bind, outcome_journaled]
  rfl

theorem exists_gives (hfollow : ∀ path ∈ paths, CanFollow w settings rules path)
    (hnone : ∀ path ∈ paths, ∀ f, ¬w.Interrupts settings.maxFileSize path f) :
    ∃ parts, (ofFiles w settings rules paths).outcome = .ok (concat parts) ∧
      List.Forall₂ (Gives w settings rules) paths parts := by
  induction paths with
  | nil => exact ⟨[], rfl, .nil⟩
  | cons path rest ih =>
    obtain ⟨hpath, hrest⟩ := List.forall_mem_cons.mp hfollow
    obtain ⟨hfree, hnone⟩ := List.forall_mem_cons.mp hnone
    obtain ⟨parts, hparts, hgives⟩ := ih hrest hnone
    have htakes := takes_ofFile hpath
    rw [outcome_ofFiles_cons]
    generalize ofFile w settings rules path = outcome at htakes
    cases htakes with
    | @gives x hx =>
      refine ⟨x :: parts, ?_, .cons hx hgives⟩
      rw [ok_bind, hparts]
      rfl
    | stops hinterrupts => exact absurd hinterrupts (hfree _)

/-- The first path that interrupts a batch does so with this failure. -/
def StopsAt (w : Workspace) (settings : Settings) (paths : List String) (f : Failure) : Prop :=
  ∃ before path behind, paths = before ++ path :: behind ∧
    (∀ p ∈ before, ∀ g, ¬w.Interrupts settings.maxFileSize p g) ∧
    w.Interrupts settings.maxFileSize path f

theorem stopsAt_cons_iff {rest : List String} {f : Failure} :
    StopsAt w settings (path :: rest) f ↔ w.Interrupts settings.maxFileSize path f ∨
      (∀ g, ¬w.Interrupts settings.maxFileSize path g) ∧ StopsAt w settings rest f :=
  exists_first_cons_iff

theorem outcome_ofFiles_eq_error_iff (hfollow : ∀ path ∈ paths, CanFollow w settings rules path)
    {f : Failure} :
    (ofFiles w settings rules paths).outcome = .error f ↔ StopsAt w settings paths f := by
  induction paths with
  | nil =>
    exact iff_of_false nofun not_exists_first_nil
  | cons path rest ih =>
    obtain ⟨hpath, hrest⟩ := List.forall_mem_cons.mp hfollow
    have htakes := takes_ofFile hpath
    rw [outcome_ofFiles_cons, stopsAt_cons_iff, ← ih hrest]
    generalize ofFile w settings rules path = outcome at htakes
    cases htakes with
    | gives hx => simp [bind_eq_error_iff, hx.not_interrupts]
    | @stops g hinterrupts =>
      rw [error_bind, Except.error.injEq]
      constructor
      · rintro rfl
        exact .inl hinterrupts
      · rintro (hstops | ⟨hfree, -⟩)
        · exact Except.error.inj ((Upload.read_of_interrupts hinterrupts).symm.trans
            (Upload.read_of_interrupts hstops))
        · exact absurd hinterrupts (hfree g)

/-- A batch of files of which none interrupts it gives, in the order of the paths, what the
documents give that can be loaded and one warning for each file that cannot. It fails exactly at the
first path with an interruption. -/
theorem ofFiles_outcome (hfollow : ∀ path ∈ paths, CanFollow w settings rules path) :
    ((∀ path ∈ paths, ∀ f, ¬w.Interrupts settings.maxFileSize path f) →
      ∃ x parts, (ofFiles w settings rules paths).outcome = .ok x ∧
        List.Forall₂ (Gives w settings rules) paths parts ∧
        x.entities = parts.flatMap (·.entities) ∧ x.warnings = parts.flatMap (·.warnings)) ∧
      ∀ f, (ofFiles w settings rules paths).outcome = .error f ↔ StopsAt w settings paths f := by
  refine ⟨fun hnone => ?_, fun f => outcome_ofFiles_eq_error_iff hfollow⟩
  obtain ⟨parts, hparts, hgives⟩ := exists_gives hfollow hnone
  exact ⟨concat parts, parts, hparts, hgives, entities_concat parts, warnings_concat parts⟩

/-- A missing file and one that is no text, before a document. -/
theorem ofFiles_outcome_missing :
    let w : Workspace := ⟨[(["b.json"], .file [0xFF]), (["c.json"], .file [0x5B, 0x5D])]⟩
    let paths := ["a.json", "b.json", "c.json"]
    (∀ path ∈ paths, CanFollow w {} Rule.defaults path) ∧
      (∀ path ∈ paths, ∀ f, ¬w.Interrupts (.int 10485760) path f) ∧
      ∃ x parts, (ofFiles w {} Rule.defaults paths).outcome = .ok x ∧
        List.Forall₂ (Gives w {} Rule.defaults) paths parts ∧
        x.entities = parts.flatMap (·.entities) ∧ x.warnings = parts.flatMap (·.warnings) := by
  intro w paths
  have hfollow : ∀ path ∈ paths, CanFollow w {} Rule.defaults path :=
    fun path _ v _ => exists_ofDocument List.mem_cons_self rfl (.text path) v
  have ha : w.HasFault (.int 10485760) "a.json" (.unreadable "a.json" .missing) :=
    .unreadable (by decide) rfl
  have hb : w.HasFault (.int 10485760) "b.json" (.notUtf8 "b.json" ⟨0xFF, 0, 1, .startByte⟩) :=
    .notUtf8 ⟨by decide, rfl, by decide +kernel⟩ rfl
  have hc : w.HoldsDocument (.int 10485760) "c.json" (.list []) :=
    ⟨['[', ']'], ⟨[0x5B, 0x5D], ⟨by decide, rfl, by decide +kernel⟩, rfl⟩, rfl⟩
  have hnone : ∀ path ∈ paths, ∀ f, ¬w.Interrupts (.int 10485760) path f := by
    simp only [paths, List.forall_mem_cons]
    exact ⟨fun _ => ha.not_interrupts, fun _ => hb.not_interrupts, fun _ => hc.not_interrupts,
      List.forall_mem_nil _⟩
  exact ⟨hfollow, hnone, (ofFiles_outcome hfollow).1 hnone⟩

end Extraction

theorem Json.readWith_replicate {limit n : Nat} (h : limit < n) :
    readWith limit (List.replicate n '1') = .error (.tooManyDigits n) := by
  obtain ⟨m, rfl⟩ := Nat.exists_eq_succ_of_ne_zero (Nat.ne_zero_of_lt h)
  have hlength : (List.replicate m '1').length = m := List.length_replicate
  have hdigits : digits ('1' :: List.replicate m '1') = ('1' :: List.replicate m '1', []) := by
    rw [← List.replicate_succ]
    simp [digits, Text.isAsciiDigit]
  rw [List.replicate_succ]
  generalize List.replicate m '1' = ds at hdigits hlength
  have hwhole : wholePart? ('1' :: ds) = some ('1' :: ds, []) := by simp [wholePart?, hdigits]
  have hnumber : number limit ('1' :: ds) = .error (.tooManyDigits (m + 1)) := by
    unfold number
    simp [hwhole, fractionPart?, exponentPart?, hlength, h]
  have hword : word? ('1' :: ds) = none := rfl
  simp [readWith, document, skip, isSpace, value, hword, hnumber]

/-- An integer of too many digits costs the files behind it. -/
theorem Extraction.ofFiles_outcome_tooManyDigits :
    let w : Workspace := ⟨[(["a.json"], .file (Utf8.encode (List.replicate 4301 '1'))),
      (["b.json"], .file [0x5B, 0x5D])]⟩
    let paths := ["a.json", "b.json"]
    (∀ path ∈ paths, CanFollow w {} Rule.defaults path) ∧
      (ofFiles w {} Rule.defaults paths).outcome = .error (.tooManyDigits 4301) := by
  intro w paths
  have hfollow : ∀ path ∈ paths, CanFollow w {} Rule.defaults path :=
    fun path _ v _ => exists_ofDocument List.mem_cons_self rfl (.text path) v
  have hbytes : w.HoldsBytes (.int 10485760) "a.json" (Utf8.encode (List.replicate 4301 '1')) :=
    ⟨by decide, rfl, by decide +kernel⟩
  have hread : Json.read (Text.unifyLineEnds (List.replicate 4301 '1')) =
      .error (.tooManyDigits 4301) := by
    have hline : '\r' ∉ List.replicate 4301 '1' :=
      fun h => absurd (List.eq_of_mem_replicate h) (by decide)
    rw [Text.unifyLineEnds_of_notMem hline]
    exact Json.readWith_replicate (by decide)
  have hinterrupts : w.Interrupts (.int 10485760) "a.json" (.tooManyDigits 4301) :=
    .tooManyDigits ⟨_, hbytes, Utf8.decode_encode _⟩ hread
  refine ⟨hfollow, (outcome_ofFiles_eq_error_iff hfollow).mpr ?_⟩
  exact ⟨[], "a.json", ["b.json"], rfl, List.forall_mem_nil _, hinterrupts⟩

end Timeline
