import Timeline.Proofs.Filter.Sieve
import Timeline.Proofs.View.Order

/-! # What the view shows

The view has exactly the entities that its rules, files and filter ask for, in the order of the
view, as long as no test that is reached fails. The order of the rules, of the files and of the
column filters makes no difference.
-/

namespace Timeline

/-- A span of time meets a window that has both ends. -/
def Window.Meets (w : Window) (start finish : Instant) : Prop :=
  ∃ first last, w = ⟨some first, some last⟩ ∧ start ≤ last ∧ first ≤ finish

namespace View

open EntityTest

variable {rules rules' : List Rule} {files files' : List Value} {f f' : Filter}
  {entities : List Entity} {e : Entity}

/-- What is asked of an entity that is shown. -/
structure Shows (rules : List Rule) (files : List Value) (f : Filter) (e : Entity) : Prop where
  file : files = [] ∨ ∃ file ∈ files, e.file.same file = true
  rule : ∃ r ∈ rules, r.enabled.truthy = true ∧ e.array.same r.name = true
  time : ∀ w ∈ f.window, w.Meets e.start e.finish
  array : f.arrays.truthy = false ∨ e.array.isElementOf f.arrays = .ok true
  column : ∀ c ∈ f.columns, c.2 = .null ∨ c.2 = .text "" ∨
    (do Value.matchesFilter (← e.column c.1) c.2) = .ok true

noncomputable instance : DecidablePred (Shows rules files f) :=
  fun _ => Classical.propDecidable _

def namesOf (rules : List Rule) : List Value :=
  (rules.filter (·.isEnabled)).map (·.name)

def tests (rules : List Rule) (files : List Value) (f : Filter) : List EntityTest :=
  (fun e => .ok (isSelected files e)) :: isNamed (namesOf rules) :: f.tests

/-- The names of the enabled rules can be keys, and no test fails that an entity reaches. -/
structure Decides (rules : List Rule) (files : List Value) (f : Filter) (entities : List Entity) :
    Prop where
  name : ∀ r ∈ rules, r.isEnabled = true → r.name.unhashable? = none
  test : ∀ e ∈ entities, Decided (tests rules files f) e

theorem enabledNames_eq_ok_iff {names : List Value} :
    enabledNames rules = .ok names ↔
      (∀ r ∈ rules, r.isEnabled = true → r.name.unhashable? = none) ∧ names = namesOf rules := by
  have hnone : (namesOf rules).findSome? (·.unhashable?) = none ↔
      ∀ r ∈ rules, r.isEnabled = true → r.name.unhashable? = none := by
    simp only [namesOf, List.findSome?_eq_none_iff, List.mem_map, List.mem_filter]
    constructor
    · exact fun h r hr he => h _ ⟨r, ⟨hr, he⟩, rfl⟩
    · rintro h _ ⟨r, ⟨hr, he⟩, rfl⟩
      exact h r hr he
  rw [← hnone]
  unfold enabledNames namesOf
  dsimp only
  cases ((rules.filter (·.isEnabled)).map (·.name)).findSome? (·.unhashable?) <;> simp [eq_comm]

theorem select_eq_sieve :
    select entities rules files f =
      (do
        let _ ← enabledNames rules
        return latestFirst (← sieve (tests rules files f) entities)) := by
  cases h : enabledNames rules with
  | error e => simp [select, h]
  | ok names =>
    obtain ⟨-, rfl⟩ := enabledNames_eq_ok_iff.mp h
    simp only [select, h, ok_bind, tests, sieve, filterM_ok, Filter.apply_eq_sieve, bind_assoc]

/-- The view has a result exactly if every test that is reached gives an answer, and then shows
the entities that pass them all. -/
theorem select_eq_ok_iff {shown : List Entity} :
    select entities rules files f = .ok shown ↔ Decides rules files f entities ∧
      shown = latestFirst (entities.filter (passes (tests rules files f))) := by
  rw [select_eq_sieve, bind_eq_ok_iff]
  simp only [bind_eq_ok_iff, enabledNames_eq_ok_iff, sieve_eq_ok_iff, pure_eq_ok, Except.ok.injEq]
  constructor
  · rintro ⟨_, ⟨hn, -⟩, _, ⟨ht, rfl⟩, rfl⟩
    exact ⟨⟨hn, ht⟩, rfl⟩
  · rintro ⟨⟨hn, ht⟩, rfl⟩
    exact ⟨_, ⟨hn, rfl⟩, _, ⟨ht, rfl⟩, rfl⟩

theorem isSelected_iff : isSelected files e = true ↔
    files = [] ∨ ∃ file ∈ files, e.file.same file = true := by
  simp [isSelected, Value.isIn]

theorem isIn_namesOf_iff {v : Value} : v.isIn (namesOf rules) = true ↔
    ∃ r ∈ rules, r.enabled.truthy = true ∧ v.same r.name = true := by
  simp only [Value.isIn, namesOf, List.any_map, List.any_filter, List.any_eq_true,
    Function.comp_apply, Bool.and_eq_true, Rule.isEnabled]

theorem isNamed_eq_of_ok {names : List Value} {b : Bool} (h : isNamed names e = .ok b) :
    isNamed names e = .ok (e.array.isIn names) := by
  unfold isNamed at h ⊢
  split at h
  · cases h
  · rfl

theorem overlaps_eq_ok_true_iff {w : Window} {start finish : Instant} :
    w.overlaps (some start) (some finish) = .ok true ↔ w.Meets start finish := by
  rcases w with ⟨_ | first, _ | last⟩
  · simp [Window.overlaps, Window.atMost, Window.Meets]
  · by_cases hs : start ≤ last <;>
      simp [Window.overlaps, Window.atMost, Window.atLeast, Window.Meets, hs]
  · simp [Window.overlaps, Window.atMost, Window.Meets]
  · have hmeets : Window.Meets ⟨some first, some last⟩ start finish ↔
        start ≤ last ∧ first ≤ finish := by
      constructor
      · rintro ⟨_, _, h, hs⟩
        cases h
        exact hs
      · exact fun hs => ⟨first, last, rfl, hs⟩
    by_cases hs : start ≤ last <;>
      simp [Window.overlaps, Window.atMost, Window.atLeast, hmeets, hs]

theorem keepsTime_eq_ok_true_iff :
    f.keepsTime e = .ok true ↔ ∀ w ∈ f.window, w.Meets e.start e.finish := by
  unfold Filter.keepsTime
  cases f.window with
  | none => simp
  | some w => simp [overlaps_eq_ok_true_iff]

theorem keepsArray_eq_ok_true_iff :
    f.keepsArray e = .ok true ↔
      f.arrays.truthy = false ∨ e.array.isElementOf f.arrays = .ok true := by
  unfold Filter.keepsArray
  cases f.arrays.truthy <;> simp

theorem columnTests_eq_ok_true_iff :
    (∀ test ∈ f.activeColumns.map Filter.columnTest, test e = .ok true) ↔
      ∀ c ∈ f.columns, c.2 = .null ∨ c.2 = .text "" ∨
        (do Value.matchesFilter (← e.column c.1) c.2) = .ok true := by
  simp only [Filter.activeColumns, List.forall_mem_map, List.mem_filter, Bool.not_eq_true',
    ← Bool.not_eq_true, Filter.isEmptyValue_iff, and_imp, ← or_assoc]
  constructor
  · intro h c hc
    exact Classical.or_iff_not_imp_left.mpr (h c hc)
  · intro h c hc
    exact Classical.or_iff_not_imp_left.mp (h c hc)

/-- An entity that decides all tests it reaches passes them exactly if it is to be shown. -/
theorem passes_iff_shows (h : Decided (tests rules files f) e) :
    passes (tests rules files f) e = true ↔ Shows rules files f e := by
  have hnamed : isSelected files e = true →
      isNamed (namesOf rules) e = .ok (e.array.isIn (namesOf rules)) := by
    intro hs
    obtain ⟨_, hfile, hrest⟩ := h
    obtain ⟨_, hb, -⟩ := hrest (by rw [← hs]; exact (Except.ok.inj hfile).symm)
    exact isNamed_eq_of_ok hb
  simp only [passes_iff, tests, Filter.tests, List.forall_mem_cons, Except.ok.injEq,
    keepsTime_eq_ok_true_iff, keepsArray_eq_ok_true_iff, columnTests_eq_ok_true_iff]
  constructor
  · rintro ⟨hfile, hname, htime, harray, hcolumn⟩
    rw [hnamed hfile, Except.ok.injEq] at hname
    exact ⟨isSelected_iff.mp hfile, isIn_namesOf_iff.mp hname, htime, harray, hcolumn⟩
  · rintro ⟨hfile, hrule, htime, harray, hcolumn⟩
    have hfile := isSelected_iff.mpr hfile
    refine ⟨hfile, ?_, htime, harray, hcolumn⟩
    rw [hnamed hfile, isIn_namesOf_iff.mpr hrule]

theorem tests_eq_of_perm (hr : rules'.Perm rules) (hf : files'.Perm files) (f : Filter) :
    tests rules' files' f = tests rules files f := by
  have hnames : (namesOf rules').Perm (namesOf rules) := (hr.filter _).map _
  have hnamed : isNamed (namesOf rules') = isNamed (namesOf rules) := by
    funext e
    simp only [isNamed, Value.isIn, hnames.any_eq]
  have hselected : isSelected files' = isSelected files := by
    funext e
    simp only [isSelected, Value.isIn, hf.any_eq, hf.isEmpty_eq]
  simp only [tests, hnamed, hselected]

theorem Decides.perm (h : Decides rules files f entities) (hr : rules'.Perm rules)
    (hf : files'.Perm files) : Decides rules' files' f entities := by
  refine ⟨fun r hm => h.name r (hr.mem_iff.mp hm), ?_⟩
  rw [tests_eq_of_perm hr hf]
  exact h.test

theorem Shows.of_perm (h : Shows rules files f e) (hc : f'.columns.Perm f.columns)
    (hw : f'.window = f.window) (ha : f'.arrays = f.arrays) : Shows rules files f' e :=
  ⟨h.file, h.rule, hw ▸ h.time, ha ▸ h.array, fun c hm => h.column c (hc.mem_iff.mp hm)⟩

theorem make_outcome : (make entities rules files f).outcome =
    (select entities rules files f).map fun kept => ⟨kept, rules, files, f⟩ := by
  unfold make
  cases select entities rules files f <;> rfl

theorem exists_make (h : Decides rules files f entities) :
    ∃ view, (make entities rules files f).outcome = .ok view ∧
      view.entities = latestFirst (entities.filter (passes (tests rules files f))) := by
  rw [make_outcome, select_eq_ok_iff.mpr ⟨h, rfl⟩]
  exact ⟨_, rfl, rfl⟩

/-- The view shows exactly the entities that are asked for, each as often as it is there, the
latest first and those that start together in their order; no other list does. Rules, files and
column filters in another order give the same view. -/
theorem make_isLatestFirst (h : Decides rules files f entities) :
    ∃ view, (make entities rules files f).outcome = .ok view ∧
      (∀ shown, IsLatestFirst (entities.filter (Shows rules files f)) shown ↔
        shown = view.entities) ∧
      ∀ rules' files' f', rules'.Perm rules → files'.Perm files →
        f'.columns.Perm f.columns → f'.window = f.window → f'.arrays = f.arrays →
        Decides rules files f' entities →
        ∃ view', (make entities rules' files' f').outcome = .ok view' ∧
          view'.entities = view.entities := by
  have hfilter : ∀ {f : Filter}, Decides rules files f entities →
      entities.filter (passes (tests rules files f)) = entities.filter (Shows rules files f) := by
    intro f h
    refine List.filter_congr fun e he => ?_
    rw [Bool.eq_iff_iff, passes_iff_shows (h.test e he), decide_eq_true_iff]
  obtain ⟨view, hview, hentities⟩ := exists_make h
  refine ⟨view, hview, ?_, ?_⟩
  · intro shown
    have hview : IsLatestFirst (entities.filter (Shows rules files f)) view.entities := by
      rw [hentities, hfilter h]
      exact isLatestFirst_latestFirst _
    constructor
    · exact fun hshown => hshown.unique hview
    · rintro rfl
      exact hview
  · intro rules' files' f' hr hf hc hw ha h'
    obtain ⟨view', hview', hentities'⟩ := exists_make (h'.perm hr hf)
    refine ⟨view', hview', ?_⟩
    have hshows : entities.filter (Shows rules files f') =
        entities.filter (Shows rules files f) := by
      refine List.filter_congr fun e _ => decide_eq_decide.mpr ⟨fun hs => ?_, fun hs => ?_⟩
      · exact hs.of_perm hc.symm hw.symm ha.symm
      · exact hs.of_perm hc hw ha
    rw [hentities', hentities, tests_eq_of_perm hr hf, hfilter h', hfilter h, hshows]

/-- Two entities that start together stay in their order behind a later one. -/
theorem make_isLatestFirst_tie :
    let e := fun (id : String) (start : Int) =>
      Entity.mk id ⟨start⟩ ⟨start⟩ (.text "a") (.text "f") .null (.text "x")
    let entities := [e "one" 1, e "two" 2, e "three" 1]
    let rules := [Rule.preset "a" "a" "start" "end" "#000000" "type" "id"]
    let f : Filter := ⟨[("id", .text ""), ("yValue", .list [.text "x"])],
      some ⟨some ⟨0⟩, some ⟨2⟩⟩, .list [.text "a"]⟩
    Decides rules [] f entities ∧
      ∃ view, (make entities rules [] f).outcome = .ok view ∧
        IsLatestFirst (entities.filter (Shows rules [] f)) view.entities ∧
        view.entities = [e "two" 2, e "one" 1, e "three" 1] := by
  intro e entities rules f
  have hpasses : ∀ e ∈ entities, passes (tests rules [] f) e = true := by
    intro e he
    simp only [entities, List.mem_cons, List.not_mem_nil, or_false] at he
    rcases he with rfl | rfl | rfl <;>
      simp [e, rules, f, passes, tests, isSelected, isNamed, namesOf, Rule.preset,
        Rule.isEnabled, Filter.tests, Filter.keepsTime, Window.overlaps, Window.atMost,
        Window.atLeast, Filter.keepsArray, Value.truthy, Value.isElementOf, Value.isIn,
        Value.same, Value.unhashable?, Filter.activeColumns, Filter.isEmptyValue, Value.isNull,
        Filter.columnTest, Filter.keepsColumn, Entity.column, Entity.ownColumn?,
        Value.matchesFilter, Value.hits, Instant.le_iff, holds]
  have hd : Decides rules [] f entities := by
    refine ⟨?_, fun e he => decided_of_forall fun test ht => ?_⟩
    · intro r hr _
      obtain rfl := List.mem_singleton.mp hr
      rfl
    · exact ⟨true, passes_iff.mp (hpasses e he) test ht⟩
  obtain ⟨view, hview, horder, -⟩ := make_isLatestFirst hd
  obtain ⟨_, hmade, hentities⟩ := exists_make hd
  obtain rfl := Except.ok.inj (hview.symm.trans hmade)
  rw [List.filter_eq_self.mpr hpasses] at hentities
  have hlater : (e "one" 1).start ≠ (e "two" 2).start := by simp [e]
  have hsorted : latestFirst entities = [e "two" 2, e "one" 1, e "three" 1] :=
    (latestFirst_swap hlater [] [e "three" 1]).trans
      (latestFirst_eq_self (by simp [e, Instant.le_iff]))
  exact ⟨hd, view, hview, (horder _).mpr rfl, hentities.trans hsorted⟩

end View

end Timeline
