import Timeline.Proofs.Filter.Sieve
import Timeline.Proofs.Json.Writer
import Timeline.Proofs.Number.Range
import Timeline.Proofs.Path.Failure
import Timeline.Proofs.Path.Keys

/-! # Failing to filter

Of the tests of a filter only those that ask for a number can fail, and only on an integer that is
out of the range of binary64. So a filter has a result exactly if no such integer is reached. Any
other value that cannot be compared with the value of a filter does not match.
-/

namespace Timeline

namespace EntityTest

variable {test : EntityTest} {tests rest : List EntityTest} {e : Entity} {g : Failure}

/-- The first test that an entity does not pass is one without an answer. -/
def StopsAt (tests : List EntityTest) (e : Entity) (g : Failure) : Prop :=
  ∃ before test after, tests = before ++ test :: after ∧ (∀ t ∈ before, t e = .ok true) ∧
    test e = .error g

theorem not_stopsAt_nil : ¬StopsAt [] e g :=
  not_exists_first_nil

theorem stopsAt_cons_iff :
    StopsAt (test :: rest) e g ↔ test e = .error g ∨ test e = .ok true ∧ StopsAt rest e g :=
  exists_first_cons_iff

theorem stopsAt_cons_of_answer (h : ∃ b, test e = .ok b) :
    StopsAt (test :: rest) e g ↔ test e = .ok true ∧ StopsAt rest e g := by
  obtain ⟨b, hb⟩ := h
  rw [stopsAt_cons_iff, hb]
  exact or_iff_right nofun

/-- Tests fail exactly if they stop at an entity. -/
theorem failsBy_sieve (tests : List EntityTest) (entities : List Entity) :
    FailsBy (sieve tests entities) fun g => ∃ e ∈ entities, StopsAt tests e g := by
  induction tests generalizing entities with
  | nil => exact (FailsBy.of_ok entities).congr fun g => by simp [not_stopsAt_nil]
  | cons test rest ih =>
    have hrest : ∀ kept, entities.filterM test = .ok kept → FailsBy (sieve rest kept) fun g =>
        ∃ e ∈ entities, test e = .ok true ∧ StopsAt rest e g := by
      intro kept hkept
      obtain ⟨-, rfl⟩ := filterM_eq_ok_iff.mp hkept
      refine (ih _).congr fun g => ?_
      simp only [List.mem_filter, holds_iff, and_assoc]
    refine ((failsBy_filterM test entities).bind hrest).congr fun g => ?_
    simp only [stopsAt_cons_iff, and_or_left, exists_or]

end EntityTest

namespace Value

variable {v wanted : Value} {g : Failure}

/-- A value that a filter of a column may have: neither an object nor a day. -/
def IsWanted : Value → Prop
  | .object _ => False
  | .day _ => False
  | _ => True

/-- A value that can be compared with the value of a filter: with a number one that is read as a
number, with a moment only a moment, and with any other all but null. -/
def IsComparable (v : Value) : Value → Prop
  | .int _ => ∃ x, v.toDouble? = .ok (some x)
  | .float _ => ∃ x, v.toDouble? = .ok (some x)
  | .moment _ => ∃ m, v = .moment m
  | _ => v ≠ .null

/-- A filter asks for a number, and the value is an integer out of the range. -/
def Overflows (v wanted : Value) : Prop :=
  wanted.properNumber?.isSome = true ∧ ∃ n, v = .int n ∧ IsOutOfRange n

theorem toDouble?_eq_error_iff :
    v.toDouble? = .error g ↔ g = .integerTooLarge ∧ ∃ n, v = .int n ∧ IsOutOfRange n := by
  cases v with
  | int n =>
    have hrange := Double.isFinite_ofInt_iff (n := n)
    rw [toDouble?]
    split
    · rename_i hfinite
      refine iff_of_false (fun h => by cases h) ?_
      rintro ⟨-, m, hm, hout⟩
      cases hm
      exact hrange.mp hfinite hout
    · rename_i hinfinite
      have hout : IsOutOfRange n := not_not.mp (mt hrange.mpr hinfinite)
      constructor
      · rintro ⟨⟩
        exact ⟨rfl, n, rfl, hout⟩
      · rintro ⟨rfl, -⟩
        rfl
  | _ =>
    refine iff_of_false (fun h => by cases h) ?_
    rintro ⟨-, n, hn, -⟩
    cases hn

theorem hasNumber_eq_error_iff {n : Number} :
    v.hasNumber n = .error g ↔ g = .integerTooLarge ∧ ∃ m, v = .int m ∧ IsOutOfRange m := by
  rw [hasNumber, bind_eq_error_iff, toDouble?_eq_error_iff]
  refine or_iff_left ?_
  rintro ⟨x, -, hdone⟩
  cases x <;> cases hdone

theorem exists_toDouble?_of_hasNumber {n : Number} (h : v.hasNumber n = .ok true) :
    ∃ x, v.toDouble? = .ok (some x) := by
  obtain ⟨x, hx, hsame⟩ := bind_eq_ok_iff.mp h
  cases x with
  | none => cases hsame
  | some x => exact ⟨x, hx⟩

theorem hits_int (v : Value) (n : Int) : v.hits (.int n) = v.hasNumber (.int n) := by
  cases v <;> rfl

theorem hits_float (v : Value) (x : Double) : v.hits (.float x) = v.hasNumber (.float x) := by
  cases v <;> rfl

/-- A value with an identifier is matched with an answer, unless a filter asks for a number and the
value is an integer out of the range. -/
theorem hits_eq_error_iff (hv : ∃ s, v.identifier = .ok s) (hw : wanted.IsWanted) :
    v.hits wanted = .error g ↔ g = .integerTooLarge ∧ v.Overflows wanted := by
  obtain ⟨s, hs⟩ := hv
  cases wanted with
  | int n => simp [hits_int, hasNumber_eq_error_iff, Overflows, properNumber?]
  | float x => simp [hits_float, hasNumber_eq_error_iff, Overflows, properNumber?]
  | object fields => exact hw.elim
  | day d => exact hw.elim
  | text t => cases v <;> simp [hits, hs, Overflows, properNumber?]
  | null =>
    have ht : Value.null.identifier = .ok "null" := rfl
    cases v <;> simp [hits, sameIdentifier, hs, ht, Overflows, properNumber?]
  | bool b =>
    obtain ⟨t, ht⟩ := exists_identifier (v := .bool b) (by simp [IsPlain])
    cases v <;> simp [hits, sameIdentifier, hs, ht, Overflows, properNumber?]
  | _ => cases v <;> simp [hits, Overflows, properNumber?]

theorem isComparable_of_hits (h : v.hits wanted = .ok true) : v.IsComparable wanted := by
  cases wanted with
  | int n =>
    rw [hits_int] at h
    exact exists_toDouble?_of_hasNumber h
  | float x =>
    rw [hits_float] at h
    exact exists_toDouble?_of_hasNumber h
  | moment n =>
    cases v with
    | moment m => exact ⟨m, rfl⟩
    | _ => cases h
  | _ =>
    rintro rfl
    cases h

end Value

namespace Entity

variable {e : Entity} {column : String} {v : Value}

/-- An entity whose array and file are texts and whose data and category are JSON. -/
structure IsPlain (e : Entity) : Prop where
  array : e.array.isText = true
  file : e.file.isText = true
  data : e.data.Throughout Value.IsPlain
  category : e.category.Throughout Value.IsPlain

theorem identifier_of_isText (h : v.isText = true) : ∃ s, v.identifier = .ok s := by
  cases v with
  | text s => exact ⟨s, rfl⟩
  | _ => cases h

theorem IsPlain.identifier_of_ownColumn (h : e.IsPlain) (hv : e.ownColumn? column = some v) :
    ∃ s, v.identifier = .ok s := by
  unfold ownColumn? at hv
  split at hv
  · cases hv
    exact ⟨_, rfl⟩
  · cases hv
    exact ⟨_, rfl⟩
  · cases hv
    exact ⟨_, rfl⟩
  · cases hv
    exact Value.exists_identifier h.category
  · cases hv
    exact identifier_of_isText h.array
  · cases hv
    exact identifier_of_isText h.file
  · cases hv

theorem IsPlain.exists_column (h : e.IsPlain) (hcolumn : Path.HasShortIndices column) :
    ∃ found, e.column column = .ok found ∧ ∀ v ∈ found, ∃ s, v.identifier = .ok s := by
  unfold Entity.column
  split
  · rename_i v hown
    refine ⟨some v, rfl, ?_⟩
    rintro _ ⟨⟩
    exact h.identifier_of_ownColumn hown
  · obtain ⟨found, hfound⟩ := hcolumn.exists_resolve e.data
    refine ⟨found, hfound, ?_⟩
    rintro v ⟨⟩
    exact Value.exists_identifier (Path.throughout_of_resolve h.data hfound)

end Entity

namespace Filter

variable {f : Filter} {entities : List Entity} {e : Entity} {c : String × Value} {columns : Fields}
  {g : Failure}

/-- A filter whose window has both ends, with a list of arrays, and with columns that are paths with
short indices and have values to look for. -/
structure IsWellFormed (f : Filter) : Prop where
  window : ∀ w ∈ f.window, w.start.isSome = true ∧ w.finish.isSome = true
  arrays : f.arrays.isList = true
  paths : ∀ c ∈ f.columns, Path.HasShortIndices c.1
  values : ∀ c ∈ f.columns, c.2.IsWanted

/-- An integer out of the range is compared with a number: an entity that passes all tests before
has it in a column that is asked for a number. -/
def Overflows (f : Filter) (e : Entity) : Prop :=
  ∃ before c after n, f.activeColumns = before ++ c :: after ∧ f.keepsTime e = .ok true ∧
    f.keepsArray e = .ok true ∧ (∀ b ∈ before, keepsColumn b.1 b.2 e = .ok true) ∧
    c.2.properNumber?.isSome = true ∧ e.column c.1 = .ok (some (.int n)) ∧ IsOutOfRange n

theorem IsWellFormed.exists_keepsTime (h : f.IsWellFormed) (e : Entity) :
    ∃ b, f.keepsTime e = .ok b := by
  unfold keepsTime
  split
  · exact ⟨true, rfl⟩
  · rename_i w hw
    obtain ⟨hstart, hfinish⟩ := h.window w hw
    obtain ⟨start, hstart⟩ := Option.isSome_iff_exists.mp hstart
    obtain ⟨finish, hfinish⟩ := Option.isSome_iff_exists.mp hfinish
    simp only [Window.overlaps, Window.atMost, Window.atLeast, hstart, hfinish, ok_bind]
    split <;> exact ⟨_, rfl⟩

theorem IsWellFormed.exists_keepsArray (h : f.IsWellFormed) (e : Entity) :
    ∃ b, f.keepsArray e = .ok b := by
  have harrays := h.arrays
  unfold keepsArray
  split
  · cases hf : f.arrays with
    | list items => exact ⟨_, rfl⟩
    | _ =>
      rw [hf] at harrays
      cases harrays
  · exact ⟨true, rfl⟩

theorem keepsColumn_eq_error_iff {column : String} {wanted : Value} (he : e.IsPlain)
    (hpath : Path.HasShortIndices column) (hvalue : wanted.IsWanted) :
    keepsColumn column wanted e = .error g ↔ g = .integerTooLarge ∧
      wanted.properNumber?.isSome = true ∧
        ∃ n, e.column column = .ok (some (.int n)) ∧ IsOutOfRange n := by
  obtain ⟨found, hfound, hidentifier⟩ := he.exists_column hpath
  rw [keepsColumn, hfound, ok_bind]
  cases found with
  | none => simp [Value.matchesFilter]
  | some v =>
    rw [Value.matchesFilter, Value.hits_eq_error_iff (hidentifier v rfl) hvalue]
    simp only [Value.Overflows, Except.ok.injEq, Option.some.injEq]

theorem stopsAt_columns_iff :
    EntityTest.StopsAt (columns.map columnTest) e g ↔ ∃ before c after,
      columns = before ++ c :: after ∧ (∀ b ∈ before, keepsColumn b.1 b.2 e = .ok true) ∧
        keepsColumn c.1 c.2 e = .error g := by
  constructor
  · rintro ⟨before, test, after, hsplit, hbefore, hfails⟩
    obtain ⟨before, rest, rfl, rfl, hrest⟩ := List.map_eq_append_iff.mp hsplit
    obtain ⟨c, after, rfl, rfl, rfl⟩ := List.map_eq_cons_iff.mp hrest
    exact ⟨before, c, after, rfl, List.forall_mem_map.mp hbefore, hfails⟩
  · rintro ⟨before, c, after, rfl, hbefore, hfails⟩
    refine ⟨before.map columnTest, columnTest c, after.map columnTest, ?_, ?_, hfails⟩
    · rw [List.map_append, List.map_cons]
    · exact List.forall_mem_map.mpr hbefore

/-- The tests of a filter stop at an entity exactly if an integer out of the range is reached. -/
theorem stopsAt_tests_iff (hf : f.IsWellFormed) (he : e.IsPlain) :
    EntityTest.StopsAt f.tests e g ↔ g = .integerTooLarge ∧ f.Overflows e := by
  have hcolumn : ∀ c ∈ f.activeColumns, keepsColumn c.1 c.2 e = .error g ↔
      g = .integerTooLarge ∧ c.2.properNumber?.isSome = true ∧
        ∃ n, e.column c.1 = .ok (some (.int n)) ∧ IsOutOfRange n := by
    intro c hc
    have hmem := List.mem_of_mem_filter hc
    exact keepsColumn_eq_error_iff he (hf.paths c hmem) (hf.values c hmem)
  rw [tests, EntityTest.stopsAt_cons_of_answer (hf.exists_keepsTime e),
    EntityTest.stopsAt_cons_of_answer (hf.exists_keepsArray e), stopsAt_columns_iff]
  constructor
  · rintro ⟨htime, harray, before, c, after, hsplit, hbefore, hfails⟩
    have hc : c ∈ f.activeColumns := hsplit ▸ List.mem_append_right _ List.mem_cons_self
    obtain ⟨rfl, hnumber, n, hn, hout⟩ := (hcolumn c hc).mp hfails
    exact ⟨rfl, before, c, after, n, hsplit, htime, harray, hbefore, hnumber, hn, hout⟩
  · rintro ⟨rfl, before, c, after, n, hsplit, htime, harray, hbefore, hnumber, hn, hout⟩
    have hc : c ∈ f.activeColumns := hsplit ▸ List.mem_append_right _ List.mem_cons_self
    have hfails := (hcolumn c hc).mpr ⟨rfl, hnumber, n, hn, hout⟩
    exact ⟨htime, harray, before, c, after, hsplit, hbefore, hfails⟩

theorem failsBy_apply (hf : f.IsWellFormed) (he : ∀ e ∈ entities, e.IsPlain) :
    FailsBy (f.apply entities) fun g => g = .integerTooLarge ∧ ∃ e ∈ entities, f.Overflows e := by
  rw [apply_eq_sieve]
  refine (EntityTest.failsBy_sieve f.tests entities).congr fun g => ?_
  rw [← exists_and_left]
  refine exists_congr fun e => ?_
  rw [and_left_comm]
  exact and_congr_right fun hmem => stopsAt_tests_iff hf (he e hmem)

theorem isComparable_of_mem_apply {kept : List Entity} (h : f.apply entities = .ok kept)
    (he : e ∈ kept) (hc : c ∈ f.activeColumns) :
    ∃ v, e.column c.1 = .ok (some v) ∧ v.IsComparable c.2 := by
  rw [apply_eq_sieve, EntityTest.sieve_eq_ok_iff] at h
  obtain ⟨-, rfl⟩ := h
  have hpasses := EntityTest.passes_iff.mp (List.mem_filter.mp he).2
  have htest : columnTest c ∈ f.tests :=
    List.mem_cons_of_mem _ (List.mem_cons_of_mem _ (List.mem_map_of_mem hc))
  obtain ⟨found, hfound, hmatch⟩ := bind_eq_ok_iff.mp (hpasses _ htest)
  cases found with
  | none => cases hmatch
  | some v => exact ⟨v, hfound, Value.isComparable_of_hits hmatch⟩

/-- An event with a value in the column `n`. -/
def eventWith (v : Value) : Entity where
  id := "E1"
  start := ⟨0⟩
  finish := ⟨0⟩
  array := .text "events"
  file := .text "d.json"
  data := .object [("n", v)]
  category := .null

/-- The filter that asks for one in the column `n`. -/
def asksForOne : Filter where
  columns := [("n", .int 1)]
  window := none
  arrays := .list []

theorem isWellFormed_asksForOne : asksForOne.IsWellFormed where
  window := nofun
  arrays := rfl
  paths := List.forall_mem_singleton.mpr (by decide +kernel)
  values := List.forall_mem_singleton.mpr trivial

theorem isPlain_eventWith {v : Value} (h : v.Throughout Value.IsPlain) : (eventWith v).IsPlain where
  array := rfl
  file := rfl
  data := by simp [eventWith, h, Value.IsPlain]
  category := by simp [eventWith, Value.IsPlain]

theorem isPlain_int (n : Int) : (eventWith (.int n)).IsPlain :=
  isPlain_eventWith (by simp [Value.IsPlain])

theorem column_eventWith (v : Value) : (eventWith v).column "n" = .ok (some v) := rfl

theorem activeColumns_asksForOne : asksForOne.activeColumns = [("n", .int 1)] := by
  simp [activeColumns, asksForOne, isEmptyValue, Value.isNull]

theorem overflows_asksForOne_iff {v : Value} :
    asksForOne.Overflows (eventWith v) ↔ ∃ n, v = .int n ∧ IsOutOfRange n := by
  constructor
  · rintro ⟨before, c, after, n, hsplit, -, -, -, -, hcolumn, hout⟩
    have hc : c ∈ [("n", Value.int 1)] :=
      activeColumns_asksForOne ▸ hsplit ▸ List.mem_append_right _ List.mem_cons_self
    obtain rfl := List.mem_singleton.mp hc
    rw [column_eventWith] at hcolumn
    cases hcolumn
    exact ⟨n, rfl, hout⟩
  · rintro ⟨n, rfl, hout⟩
    refine ⟨[], ("n", .int 1), [], n, activeColumns_asksForOne, rfl, rfl, ?_, rfl, ?_, hout⟩
    · exact List.forall_mem_nil _
    · exact column_eventWith (.int n)

theorem overflows_int_iff {n : Int} :
    asksForOne.Overflows (eventWith (.int n)) ↔ IsOutOfRange n := by
  simp [overflows_asksForOne_iff]

theorem apply_int_fails_iff {n : Int} :
    (¬∃ kept, asksForOne.apply [eventWith (.int n)] = .ok kept) ↔ IsOutOfRange n := by
  have hplain : ∀ e ∈ [eventWith (.int n)], e.IsPlain :=
    List.forall_mem_singleton.mpr (isPlain_int n)
  rw [(failsBy_apply isWellFormed_asksForOne hplain).returns_iff]
  simp [overflows_int_iff]

/-- Filtering fails exactly if an integer out of the range of binary64 is compared with a number,
and by nothing else. If it has a result, a value that cannot be compared did not match: what is kept
has in each column of the filter a value that can be. -/
theorem apply_outcome (hf : f.IsWellFormed) (he : ∀ e ∈ entities, e.IsPlain) :
    (∀ g, f.apply entities = .error g → g = .integerTooLarge) ∧
      ((∃ kept, f.apply entities = .ok kept) ↔ ∀ e ∈ entities, ¬f.Overflows e) ∧
      ∀ kept, f.apply entities = .ok kept → ∀ e ∈ kept, ∀ c ∈ f.activeColumns,
        ∃ v, e.column c.1 = .ok (some v) ∧ v.IsComparable c.2 := by
  have hfails := failsBy_apply hf he
  refine ⟨fun g hg => (hfails.sound g hg).1, ?_, ?_⟩
  · rw [hfails.returns_iff]
    constructor
    · intro hnone e hmem hover
      exact hnone .integerTooLarge ⟨rfl, e, hmem, hover⟩
    · rintro hnone g ⟨-, e, hmem, hover⟩
      exact hnone e hmem hover
  · intro kept hkept e hmem c hc
    exact isComparable_of_mem_apply hkept hmem hc

/-- A text that is no number does not match, and the largest integer in the range is compared. -/
theorem apply_outcome_compared :
    let entities := [eventWith (.text "one"), eventWith (.int (2 ^ 1024 - 2 ^ 970 - 1))]
    ∃ kept, asksForOne.apply entities = .ok kept ∧ eventWith (.text "one") ∉ kept := by
  intro entities
  have hplain : ∀ e ∈ entities, e.IsPlain := by
    refine List.forall_mem_cons.mpr ⟨?_, List.forall_mem_singleton.mpr ?_⟩
    · exact isPlain_eventWith (by simp [Value.IsPlain])
    · exact isPlain_int _
  obtain ⟨-, hreturns, hcomparable⟩ := apply_outcome isWellFormed_asksForOne hplain
  have hrange : ¬IsOutOfRange (2 ^ 1024 - 2 ^ 970 - 1) := by decide +kernel
  have hnone : ∀ e ∈ entities, ¬asksForOne.Overflows e := by
    refine List.forall_mem_cons.mpr ⟨?_, List.forall_mem_singleton.mpr ?_⟩
    · rw [overflows_asksForOne_iff]
      rintro ⟨n, hn, -⟩
      cases hn
    · exact mt overflows_int_iff.mp hrange
  obtain ⟨kept, hkept⟩ := hreturns.mpr hnone
  refine ⟨kept, hkept, fun hmem => ?_⟩
  obtain ⟨v, hv, x, hx⟩ := hcomparable kept hkept _ hmem ("n", .int 1)
    (activeColumns_asksForOne ▸ List.mem_singleton_self _)
  cases (column_eventWith _).symm.trans hv
  have htext : readDouble? "one".toList = none := by decide +kernel
  rw [Value.toDouble?, htext] at hx
  cases hx

/-- An integer of 401 digits is compared with one. -/
theorem apply_outcome_overflow :
    asksForOne.IsWellFormed ∧ (eventWith (.int (10 ^ 400))).IsPlain ∧
      (Nat.toDigits 10 (10 ^ 400)).length ≤ Json.digitLimit ∧
        ¬∃ kept, asksForOne.apply [eventWith (.int (10 ^ 400))] = .ok kept := by
  have hout : IsOutOfRange (10 ^ 400) := by decide +kernel
  have hdigits : ∀ k < Json.digitLimit, (Nat.toDigits 10 (10 ^ k)).length ≤ Json.digitLimit := by
    intro k hk
    apply (Nat.length_toDigits_le_iff (by decide) (by decide)).mpr
    exact Nat.pow_lt_pow_right (by decide) hk
  refine ⟨isWellFormed_asksForOne, isPlain_int _, hdigits 400 (by decide), ?_⟩
  exact apply_int_fails_iff.mpr hout

end Filter

end Timeline
