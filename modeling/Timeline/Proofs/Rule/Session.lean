import Timeline.Proofs.Json.Writer
import Timeline.Proofs.Rule.Import
import Timeline.Rule.Session

/-! # Rule stores refine maps in order

Whatever commands a rule store is given, it stays the map by name that the same commands make of
the map of its first rules: each step of the store is a step of the map, with the same answer.
-/

namespace Timeline

/-- A map of rules in place of a rule store, with the path of its file and the files around it. -/
structure MapSession where
  map : OrderedMap Rule
  path : Option String
  files : Workspace

/-- The names in a command are texts. -/
def RuleCommand.IsNamed : RuleCommand → Prop
  | .add r => r.IsNamed
  | .remove name => name.isText = true
  | .update name _ => name.isText = true
  | .set rules => ∀ r ∈ rules, r.IsNamed
  | _ => True

/-- A path leads to a file with a rule set of these rules. -/
def Workspace.HoldsRules (w : Workspace) (path : String) (rules : List Rule) : Prop :=
  '\x00' ∉ path.toList ∧ ∃ bytes,
    w.node (if FileName.plain path = "" then "." else FileName.plain path) = .ok (.file bytes) ∧
      Rule.HeldByBytes bytes rules

/-- All rules of a store have a JSON form, which is written to a path in these files. -/
def RuleStore.Saves (s : RuleStore) (w : Workspace) (path : String) (files : Workspace) : Prop :=
  '\x00' ∉ path.toList ∧ ∃ text,
    Json.write Json.pretty s.kept = .ok text ∧ w.writeText path text = .ok files

/-- The rules of a map are written to a path in these files. -/
def MapSession.Saves (t : MapSession) (path : String) (files : Workspace) : Prop :=
  RuleStore.Saves ⟨t.map.values, t.path⟩ t.files path files

/-- What a command does to a map of rules, with its answer. -/
inductive MapSession.Moves (settings : Settings) :
    MapSession → RuleCommand → Except Failure RuleAnswer → MapSession → Prop
  | add {t r k} : r.name = .text k →
    Moves settings t (.add r) (.ok .done) { t with map := t.map.insert k r }
  | remove {t k} :
    Moves settings t (.remove (.text k)) (.ok (.removed (t.map.value k).isSome))
      { t with map := t.map.erase k }
  | update {t k changes r changed} : t.map.value k = some r →
    (∀ c ∈ changes, c.1 ∈ Rule.changeable) → r.IsChanged changes changed →
    Moves settings t (.update (.text k) changes) (.ok (.updated (some changed)))
      { t with map := t.map.insert k changed }
  | updateNothing {t k changes} : t.map.value k = none → Fields.has changes "name" = false →
    Moves settings t (.update (.text k) changes) (.ok (.updated none)) t
  | updateUnknown {t k changes r field} : t.map.value k = some r →
    Fields.has changes "name" = false → Rule.FirstUnknown changes field →
    Moves settings t (.update (.text k) changes) (.error (.unknownField field)) t
  | updateName {t name changes} : Fields.has changes "name" = true →
    Moves settings t (.update name changes) (.error .repeatedName) t
  | set {t rules} :
    Moves settings t (.set rules) (.ok .done) { t with map := Rule.mapOf rules }
  | reset {t} :
    Moves settings t .reset (.ok .done) { t with map := Rule.mapOf Rule.defaults }
  | importText {t text rules} : Rule.HeldBy text rules →
    Moves settings t (.importText (.text text)) (.ok (.imported (Rule.mapOf rules).values))
      { t with map := Rule.mapOf rules }
  | importFails {t v f} : (∀ text rules, v = .text text → ¬Rule.HeldBy text rules) →
    Moves settings t (.importText v) (.error f) t
  | save {t path files} : t.Saves (RuleStore.choosePath settings [path, t.path]) files →
    Moves settings t (.save path) (.ok .done)
      ⟨t.map, some (RuleStore.choosePath settings [path, t.path]), files⟩
  | saveFails {t path files f} :
    (∀ files, ¬t.Saves (RuleStore.choosePath settings [path, t.path]) files) →
    Moves settings t (.save path) (.error f) { t with files := files }
  | load {t path rules} : t.files.HoldsRules (RuleStore.choosePath settings [path]) rules →
    Moves settings t (.load path) (.ok .done)
      { t with map := Rule.mapOf rules, path := some (RuleStore.choosePath settings [path]) }
  /-- Without rules in the file the usual rules come in place of all. -/
  | loadUsual {t path} :
    (∀ rules, ¬t.files.HoldsRules (RuleStore.choosePath settings [path]) rules) →
    Moves settings t (.load path) (.ok .done)
      { t with
        map := Rule.mapOf Rule.defaults, path := some (RuleStore.choosePath settings [path]) }
  | loadFails {t path f} :
    (∀ rules, ¬t.files.HoldsRules (RuleStore.choosePath settings [path]) rules) →
    Moves settings t (.load path) (.error f) t

/-- What some commands do one after the other, with the answer of each. -/
inductive MapSession.Runs (settings : Settings) :
    MapSession → List RuleCommand → List (Except Failure RuleAnswer) → MapSession → Prop
  | nil {t} : Runs settings t [] [] t
  | cons {t c answer u rest answers v} : MapSession.Moves settings t c answer u →
    Runs settings u rest answers v → Runs settings t (c :: rest) (answer :: answers) v

namespace RuleStore

theorem save_cases (s : RuleStore) (w : Workspace) (settings : Settings) (path : Option String) :
    (∃ files, s.Saves w (choosePath settings [path, s.path]) files ∧
      s.save w settings path =
        (files, .ok { s with path := some (choosePath settings [path, s.path]) })) ∨
    ∃ files f, (∀ files, ¬s.Saves w (choosePath settings [path, s.path]) files) ∧
      s.save w settings path = (files, .error f) := by
  unfold save
  generalize choosePath settings [path, s.path] = place
  by_cases hnul : '\x00' ∈ place.toList
  · right
    refine ⟨w, .nulInPath, fun files hsaves => hsaves.1 hnul, ?_⟩
    simp [hnul]
  · cases hwrite : Json.write Json.pretty s.kept with
    | ok text =>
      rw [Json.writtenText_of_write rfl hwrite]
      cases hfile : w.writeText place text with
      | ok files =>
        left
        refine ⟨files, ⟨hnul, text, hwrite, hfile⟩, ?_⟩
        simp [hnul, hfile]
      | error f =>
        right
        refine ⟨w, f, ?_, by simp [hnul, hfile]⟩
        rintro files ⟨-, text', htext, hfiles⟩
        cases hwrite.symm.trans htext
        cases hfile.symm.trans hfiles
    | error f =>
      right
      have hnone : ∀ files, ¬s.Saves w place files := by
        rintro files ⟨-, text, htext, -⟩
        cases hwrite.symm.trans htext
      cases hfile : w.writeText place (Json.writtenText Json.pretty s.kept) with
      | ok files => exact ⟨files, f, hnone, by simp [hnul, hfile]⟩
      | error f => exact ⟨w, f, hnone, by simp [hnul, hfile]⟩

/-- A store that is made of rules that some source holds, or of the usual rules if there are none,
or cannot be made at all. -/
def MakesOf (held : List Rule → Prop) (path : String) (made : Except Failure RuleStore) : Prop :=
  (∃ rules, held rules ∧ made = .ok ⟨Rule.lastOfName rules, some path⟩) ∨
    (∀ rules, ¬held rules) ∧ (made = .ok (preset path) ∨ ∃ f, made = .error f)

theorem ofBytes_makesOf (path : String) (bytes : List UInt8) :
    MakesOf (Rule.HeldByBytes bytes) path (ofBytes path bytes).outcome := by
  have hparse : ∀ found, (parseBytes bytes).outcome = .ok found ↔
      ∃ rules, Rule.HeldByBytes bytes rules ∧ found = Rule.lastOfName rules :=
    fun _ => Rule.outcome_parseBytes_eq_ok_iff
  unfold ofBytes
  generalize parseBytes bytes = found at hparse ⊢
  obtain ⟨outcome, journal⟩ := found
  cases outcome with
  | ok found =>
    obtain ⟨rules, hheld, rfl⟩ := (hparse found).mp rfl
    exact .inl ⟨rules, hheld, rfl⟩
  | error f =>
    right
    constructor
    · intro rules hheld
      cases (hparse _).mpr ⟨rules, hheld, rfl⟩
    · cases f <;> first | exact .inl rfl | exact .inr ⟨_, rfl⟩

theorem load_makesOf (w : Workspace) (settings : Settings) (path : Option String) :
    MakesOf (w.HoldsRules (choosePath settings [path])) (choosePath settings [path])
      (load w settings path).outcome := by
  unfold load
  generalize choosePath settings [path] = place
  by_cases hnul : '\x00' ∈ place.toList
  · right
    refine ⟨fun rules hheld => hheld.1 hnul, .inl ?_⟩
    simp [hnul]
    rfl
  · rw [if_neg (by simpa using hnul)]
    cases hnode : w.node (if FileName.plain place = "" then "." else FileName.plain place) with
    | error fault =>
      right
      constructor
      · rintro rules ⟨-, bytes, hbytes, -⟩
        cases hnode.symm.trans hbytes
      · cases fault <;> first | exact .inl rfl | exact .inr ⟨_, rfl⟩
    | ok node =>
      cases node with
      | directory =>
        right
        refine ⟨?_, .inl rfl⟩
        rintro rules ⟨-, bytes, hbytes, -⟩
        cases hnode.symm.trans hbytes
      | file bytes =>
        rcases ofBytes_makesOf place bytes with ⟨rules, hheld, hmade⟩ | ⟨hnone, hmade⟩
        · exact .inl ⟨rules, ⟨hnul, bytes, hnode, hheld⟩, hmade⟩
        · right
          refine ⟨?_, hmade⟩
          rintro rules ⟨-, bytes', hbytes, hheld⟩
          cases hnode.symm.trans hbytes
          exact hnone rules hheld

end RuleStore

namespace RuleSession

variable {settings : Settings} {s : RuleSession} {t : MapSession}

/-- A session stands for a map if its store does, with the same path and the same files. -/
structure StandsFor (s : RuleSession) (t : MapSession) : Prop where
  rules : Rule.Represents s.store.rules t.map
  path : s.store.path = t.path
  files : s.files = t.files

/-- A step of a session that a map can take as well, with the same answer. -/
def Matches (settings : Settings) (t : MapSession) (c : RuleCommand)
    (result : RuleSession × Journaled RuleAnswer) : Prop :=
  ∃ u, MapSession.Moves settings t c result.2.outcome u ∧ result.1.StandsFor u

section Moved

variable {α : Type} {x : Journaled α} {next : α → RuleStore × RuleAnswer} {c : RuleCommand}
variable {u : MapSession}

theorem matches_of_ok {a : α} (hx : x.outcome = .ok a)
    (hmove : MapSession.Moves settings t c (.ok (next a).2) u)
    (hu : StandsFor { s with store := (next a).1 } u) : Matches settings t c (s.moved x next) := by
  unfold moved
  rw [hx]
  exact ⟨u, hmove, hu⟩

theorem matches_of_error {f : Failure} (hx : x.outcome = .error f)
    (hmove : MapSession.Moves settings t c (.error f) u) (hu : s.StandsFor u) :
    Matches settings t c (s.moved x next) := by
  unfold moved
  rw [hx]
  exact ⟨u, hmove, hu⟩

end Moved

theorem matches_add (h : s.StandsFor t) {r : Rule} (hr : r.IsNamed) :
    Matches settings t (.add r) (s.step settings (.add r)) :=
  matches_of_ok rfl (.add hr.name_eq) ⟨h.rules.put hr.name_eq, h.path, h.files⟩

theorem matches_remove (h : s.StandsFor t) (k : String) :
    Matches settings t (.remove (.text k)) (s.step settings (.remove (.text k))) := by
  have hfound : s.store.has (.text k) = (t.map.value k).isSome := by
    rw [← h.rules.value, List.isSome_find?]
    rfl
  apply matches_of_ok rfl
  · rw [hfound]
    exact .remove
  · exact ⟨h.rules.filter k, h.path, h.files⟩

theorem matches_update (h : s.StandsFor t) (k : String) (changes : Fields) :
    Matches settings t (.update (.text k) changes)
      (s.step settings (.update (.text k) changes)) := by
  have hget : s.store.get? (.text k) = t.map.value k := h.rules.value k
  cases hname : Fields.has changes "name" with
  | true =>
    apply matches_of_error _ (.updateName hname) h
    simp [RuleStore.update, hname, Journaled.ofExcept]
  | false =>
    cases hvalue : t.map.value k with
    | none =>
      apply matches_of_ok (a := (s.store, none)) _ (.updateNothing hvalue hname) h
      simp [RuleStore.update, hname, hget, hvalue, Journaled.ofExcept]
    | some r =>
      obtain ⟨hr, hrname⟩ := h.rules.value_eq_some_iff.mp hvalue
      cases hchange : r.change changes with
      | error f =>
        obtain ⟨field, hfirst, rfl⟩ := Rule.change_eq_error_iff.mp hchange
        apply matches_of_error _ (.updateUnknown hvalue hname hfirst) h
        simp [RuleStore.update, hname, hget, hvalue, hchange, Journaled.ofExcept]
      | ok changed =>
        obtain ⟨hknown, hfields⟩ := Rule.change_eq_ok_iff.mp hchange
        have hchanged : changed.name = .text k := hfields.name.trans hrname
        have hput := Rule.replaceFirst_eq_put hchanged ⟨r, hr, hrname⟩
        apply matches_of_ok (a := (s.store.add changed, some changed)) _
          (.update hvalue hknown hfields)
        · exact ⟨h.rules.put hchanged, h.path, h.files⟩
        · simp [RuleStore.update, hname, hget, hvalue, hchange, hput, RuleStore.add,
            Journaled.ofExcept]

theorem matches_set (h : s.StandsFor t) {rules : List Rule} (hr : ∀ r ∈ rules, r.IsNamed) :
    Matches settings t (.set rules) (s.step settings (.set rules)) := by
  apply matches_of_ok (a := { s.store with rules := Rule.lastOfName rules }) _ .set
  · exact ⟨Rule.represents_lastOfName hr, h.path, h.files⟩
  · simp [RuleStore.setRules, Rule.distinct_eq hr, Journaled.ofExcept]

theorem matches_reset (h : s.StandsFor t) :
    Matches settings t .reset (s.step settings .reset) :=
  matches_of_ok rfl .reset ⟨Rule.represents_defaults, h.path, h.files⟩

theorem matches_importText (h : s.StandsFor t) (v : Value) :
    Matches settings t (.importText v) (s.step settings (.importText v)) := by
  have houtcome : (s.store.importText v).outcome =
      (Rule.parseValue v).outcome.map fun rules => { s.store with rules := rules } := by
    unfold RuleStore.importText
    rw [Journaled.outcome_bind]
    cases (Rule.parseValue v).outcome <;> rfl
  cases hparse : (Rule.parseValue v).outcome with
  | ok found =>
    cases v with
    | text text =>
      obtain ⟨rules, hheld, rfl⟩ := Rule.outcome_parse_eq_ok_iff.mp hparse
      have hrules := Rule.represents_lastOfName fun r hr => hheld.isNamed hr
      apply matches_of_ok (by rw [houtcome, hparse]; rfl)
      · change MapSession.Moves settings t _ (.ok (.imported (Rule.lastOfName rules))) _
        rw [hrules.eq_values]
        exact .importText hheld
      · exact ⟨hrules, h.path, h.files⟩
    | _ => cases hparse
  | error f =>
    refine matches_of_error (by rw [houtcome, hparse]; rfl) (.importFails ?_) h
    rintro text rules rfl hheld
    have hok := Rule.outcome_parse_eq_ok_iff.mpr ⟨rules, hheld, rfl⟩
    cases hparse.symm.trans hok

theorem StandsFor.store_eq (h : s.StandsFor t) : s.store = ⟨t.map.values, t.path⟩ := by
  obtain ⟨⟨rules, path⟩, files⟩ := s
  obtain ⟨hrules, rfl, rfl⟩ := h
  rw [← hrules.eq_values]

theorem matches_save (h : s.StandsFor t) (path : Option String) :
    Matches settings t (.save path) (s.step settings (.save path)) := by
  have hsaves : ∀ place files, t.Saves place files ↔ s.store.Saves s.files place files := by
    intro place files
    rw [MapSession.Saves, ← h.store_eq, ← h.files]
  have hplace : RuleStore.choosePath settings [path, s.store.path] =
      RuleStore.choosePath settings [path, t.path] := by rw [h.path]
  rcases RuleStore.save_cases s.store s.files settings path with
    ⟨files, hfiles, heq⟩ | ⟨files, f, hfiles, heq⟩
  · have hmove : MapSession.Moves settings t (.save path) (.ok .done) _ :=
      .save (hplace ▸ (hsaves _ _).mpr hfiles)
    unfold step
    simp only [heq]
    exact matches_of_ok rfl hmove ⟨h.rules, congrArg some hplace, rfl⟩
  · have hmove : MapSession.Moves settings t (.save path) (.error f) { t with files := files } :=
      .saveFails fun files hsaved => hfiles files ((hsaves _ _).mp (hplace ▸ hsaved))
    unfold step
    simp only [heq]
    exact matches_of_error rfl hmove ⟨h.rules, h.path, rfl⟩

theorem matches_load (h : s.StandsFor t) (path : Option String) :
    Matches settings t (.load path) (s.step settings (.load path)) := by
  have hmade := RuleStore.load_makesOf s.files settings path
  rw [h.files] at hmade
  rw [step, h.files]
  rcases hmade with ⟨rules, hheld, hmade⟩ | ⟨hnone, hmade | ⟨f, hmade⟩⟩
  · obtain ⟨bytes, hbytes⟩ := hheld.2
    have hnamed : ∀ r ∈ rules, r.IsNamed := fun r hr => hbytes.2.isNamed hr
    exact matches_of_ok hmade (.load hheld) ⟨Rule.represents_lastOfName hnamed, rfl, h.files⟩
  · exact matches_of_ok hmade (.loadUsual hnone) ⟨Rule.represents_defaults, rfl, h.files⟩
  · exact matches_of_error hmade (.loadFails hnone) h

/-- A session that stands for a map stands for one after each command. -/
theorem step_matches (h : s.StandsFor t) {c : RuleCommand} (hc : c.IsNamed) :
    Matches settings t c (s.step settings c) := by
  cases c with
  | add r => exact matches_add h hc
  | remove name =>
    cases name with
    | text k => exact matches_remove h k
    | _ => cases hc
  | update name changes =>
    cases name with
    | text k => exact matches_update h k changes
    | _ => cases hc
  | set rules => exact matches_set h hc
  | reset => exact matches_reset h
  | importText v => exact matches_importText h v
  | save path => exact matches_save h path
  | load path => exact matches_load h path

theorem run_matches (settings : Settings) (h : s.StandsFor t) {commands : List RuleCommand}
    (hcommands : ∀ c ∈ commands, c.IsNamed) :
    ∃ u, MapSession.Runs settings t commands (s.run settings commands).2 u ∧
      (s.run settings commands).1.StandsFor u := by
  induction commands generalizing s t with
  | nil => exact ⟨t, .nil, h⟩
  | cons c rest ih =>
    obtain ⟨hc, hrest⟩ := List.forall_mem_cons.mp hcommands
    have hstep : Matches settings t c (s.step settings c) := step_matches h hc
    obtain ⟨u, hmove, hu⟩ := hstep
    obtain ⟨v, hruns, hv⟩ := ih hu hrest
    exact ⟨v, .cons hmove hruns, hv⟩

theorem store_of_moved_error {α : Type} {x : Journaled α} {next : α → RuleStore × RuleAnswer}
    {f : Failure} (h : (s.moved x next).2.outcome = .error f) :
    (s.moved x next).1.store = s.store := by
  unfold moved at h ⊢
  split at h
  · cases h
  · rfl

theorem store_of_error {c : RuleCommand} {f : Failure}
    (h : (s.step settings c).2.outcome = .error f) :
    (s.step settings c).1.store = s.store := by
  cases c with
  | save path =>
    unfold step at h ⊢
    exact store_of_moved_error h
  | _ => exact store_of_moved_error h

/-- A rule store refines a map in the order of insertion: the store of some rules answers any
commands as the map of these rules does, and afterwards holds its values in its order, each under
its key. Names are distinct, a name finds the only rule it has, and what fails leaves the store as
it is. -/
theorem run_refines (settings : Settings) (files : Workspace) (path : Option String)
    {rules : List Rule} (hrules : ∀ r ∈ rules, r.IsNamed) {commands : List RuleCommand}
    (hcommands : ∀ c ∈ commands, c.IsNamed) :
    ∃ store, RuleStore.make rules path = .ok store ∧ ∃ last : MapSession,
      MapSession.Runs settings ⟨Rule.mapOf rules, path, files⟩ commands
        (run settings ⟨store, files⟩ commands).2 last ∧
      let s := (run settings ⟨store, files⟩ commands).1
      s.store = ⟨last.map.values, last.path⟩ ∧ s.files = last.files ∧
      s.store.rules.map (·.name) = last.map.keys.map .text ∧ (s.store.rules.map (·.name)).Nodup ∧
      (∀ name, s.store.get? (.text name) = last.map.value name) ∧
      (∀ name r, s.store.get? (.text name) = some r ↔ r ∈ s.store.rules ∧ r.name = .text name) ∧
      ∀ c f, (s.step settings c).2.outcome = .error f → (s.step settings c).1.store = s.store := by
  refine ⟨⟨Rule.lastOfName rules, path⟩, ?_, ?_⟩
  · rw [RuleStore.make, Rule.distinct_eq hrules]
    rfl
  · have hstart : StandsFor ⟨⟨Rule.lastOfName rules, path⟩, files⟩
        ⟨Rule.mapOf rules, path, files⟩ := ⟨Rule.represents_lastOfName hrules, rfl, rfl⟩
    obtain ⟨last, hruns, hlast⟩ := run_matches settings hstart hcommands
    refine ⟨last, hruns, hlast.store_eq, hlast.files, hlast.rules.names, hlast.rules.nodup,
      hlast.rules.value, ?_, fun _ _ => store_of_error⟩
    intro name r
    rw [← hlast.rules.value_eq_some_iff, ← hlast.rules.value]
    rfl

/-- A rule loses its category and gets another color at its place, and the rule before it goes. -/
theorem run_refines_update :
    let commands : List RuleCommand :=
      [.update (.text "tasks") [("color", .text "#000000"), ("y_axis_path", .null)],
        .remove (.text "timeline")]
    ∃ store, RuleStore.make Rule.defaults none = .ok store ∧ ∃ last,
      MapSession.Runs {} ⟨Rule.mapOf Rule.defaults, none, .empty⟩ commands
        (run {} ⟨store, .empty⟩ commands).2 last ∧
      last.map.keys = ["events", "tasks", "deployments", "projects"] ∧
      last.map.value "tasks" = some {
        name := .text "tasks", array := .text "data.tasks", start := .text "startTime"
        finish := .text "endTime", color := .text "#000000", enabled := .bool true
        category := none, id := some (.text "taskId") } := by
  intro commands
  have hcommands : ∀ c ∈ commands, c.IsNamed := by
    simp [commands, RuleCommand.IsNamed, Value.isText]
  obtain ⟨store, hstore, last, hruns, -, -, hnames, -, hvalue, -⟩ :=
    run_refines {} .empty none Rule.isNamed_of_mem_defaults hcommands
  obtain rfl := Except.ok.inj (hstore.symm.trans (RuleStore.make_defaults none))
  refine ⟨_, hstore, last, hruns, ?_, ?_⟩
  · have hstored : (run {} ⟨⟨Rule.defaults, none⟩, .empty⟩ commands).1.store.rules.map (·.name) =
        ["events", "tasks", "deployments", "projects"].map .text := by
      with_unfolding_all rfl
    exact List.map_injective_iff.mpr Rule.text_injective (hnames.symm.trans hstored)
  · rw [← hvalue]
    with_unfolding_all rfl

end RuleSession

end Timeline
