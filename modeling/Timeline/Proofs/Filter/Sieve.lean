import Timeline.Filter
import Timeline.Proofs.Outcome

/-! # Filters as tests

A filter is a list of tests, each made on the entities that the tests before it have kept. It has
a result exactly if every test that is reached gives an answer, and then keeps the entities that
pass all tests.
-/

namespace Timeline

abbrev EntityTest := Entity → Except Failure Bool

namespace EntityTest

def sieve : List EntityTest → List Entity → Except Failure (List Entity)
  | [], entities => .ok entities
  | test :: rest, entities => do sieve rest (← entities.filterM test)

/-- Every test that an entity reaches gives an answer; a test is reached if those before it say
yes. -/
def Decided : List EntityTest → Entity → Prop
  | [], _ => True
  | test :: rest, e => ∃ b, test e = .ok b ∧ (b = true → Decided rest e)

def passes (tests : List EntityTest) (e : Entity) : Bool :=
  tests.all fun test => holds (test e)

theorem passes_iff {tests : List EntityTest} {e : Entity} :
    passes tests e = true ↔ ∀ test ∈ tests, test e = .ok true := by
  simp [passes]

theorem decided_of_forall {tests : List EntityTest} {e : Entity}
    (h : ∀ test ∈ tests, ∃ b, test e = .ok b) : Decided tests e := by
  induction tests with
  | nil => trivial
  | cons test rest ih =>
    obtain ⟨b, hb⟩ := h test List.mem_cons_self
    exact ⟨b, hb, fun _ => ih fun t ht => h t (List.mem_cons_of_mem _ ht)⟩

theorem sieve_eq_ok_iff {tests : List EntityTest} {entities kept : List Entity} :
    sieve tests entities = .ok kept ↔
      (∀ e ∈ entities, Decided tests e) ∧ kept = entities.filter (passes tests) := by
  induction tests generalizing entities with
  | nil =>
    have hall : entities.filter (passes []) = entities := List.filter_eq_self.mpr fun _ _ => rfl
    simp [sieve, Decided, hall, eq_comm]
  | cons test rest ih =>
    have hfilter : (entities.filter fun e => holds (test e)).filter (passes rest) =
        entities.filter (passes (test :: rest)) := by
      rw [List.filter_filter]
      exact List.filter_congr fun e _ => Bool.and_comm _ _
    rw [sieve, bind_eq_ok_iff]
    constructor
    · rintro ⟨_, hsome, hrest⟩
      obtain ⟨hb, rfl⟩ := filterM_eq_ok_iff.mp hsome
      obtain ⟨hd, rfl⟩ := ih.mp hrest
      refine ⟨?_, hfilter⟩
      intro e he
      obtain ⟨b, hb⟩ := hb e he
      refine ⟨b, hb, fun ht => hd e (List.mem_filter.mpr ⟨he, ?_⟩)⟩
      rw [hb, ht, holds]
    · rintro ⟨hd, rfl⟩
      refine ⟨_, filterM_eq_ok_iff.mpr ⟨fun e he => ?_, rfl⟩, ih.mpr ⟨fun e he => ?_, ?_⟩⟩
      · obtain ⟨b, hb, -⟩ := hd e he
        exact ⟨b, hb⟩
      · obtain ⟨he, ht⟩ := List.mem_filter.mp he
        obtain ⟨b, hb, hrest⟩ := hd e he
        rw [hb] at ht
        exact hrest ht
      · exact hfilter.symm

end EntityTest

namespace Filter

open EntityTest

def columnTest (c : String × Value) : EntityTest :=
  keepsColumn c.1 c.2

def tests (f : Filter) : List EntityTest :=
  f.keepsTime :: f.keepsArray :: f.activeColumns.map columnTest

theorem applyColumns_eq_sieve (columns : Fields) (entities : List Entity) :
    applyColumns columns entities = sieve (columns.map columnTest) entities := by
  induction columns generalizing entities with
  | nil => rfl
  | cons c columns ih =>
    simp only [applyColumns, List.map_cons, sieve, ih]
    rfl

theorem apply_eq_sieve (f : Filter) (entities : List Entity) :
    f.apply entities = sieve f.tests entities := by
  simp only [apply, applyColumns_eq_sieve, tests, sieve]

theorem isEmptyValue_iff {v : Value} : isEmptyValue v = true ↔ v = .null ∨ v = .text "" := by
  cases v <;> simp [isEmptyValue, Value.isNull, Value.same, Value.sameNumber, Value.number?]

end Filter

end Timeline
