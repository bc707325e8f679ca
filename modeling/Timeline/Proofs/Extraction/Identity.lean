import Timeline.Proofs.Extraction.Marks
import Timeline.Proofs.Extraction.Merge
import Timeline.Proofs.Number.Natural
import Timeline.Proofs.Rule.Store

/-! # Identities of extracted entities

An item gives itself an identity, or else it is known by its place in the array. Identities by place
differ from each other, but an item may give itself the one that another item has by its place.
Merging keeps all entities of a document exactly if no item with an entity does so.
-/

namespace Timeline

namespace Rule

variable {r : Rule} {file item document : Value} {items : List Value} {index : Nat} {e f : Entity}

def placeId (r : Rule) (index : Nat) : String :=
  r.name.plain ++ "-" ++ naturalText index

/-- The identity that an item gives itself: the text of what the rule finds, if it counts as
given. -/
def ownId? (r : Rule) (item : Value) : Option String := do
  let path ← r.id.bind (·.ifTruthy)
  let found ← (Path.resolveAt item path).toOption
  let v ← found.bind (·.ifTruthy)
  v.identifier.toOption

/-- One item gives itself the identity that the other has by its place, and both have entities. -/
structure Clash (r : Rule) (file : Value) (p q : Value × Nat) : Prop where
  own : r.ownId? p.1 = some (r.placeId q.2)
  placed : r.ownId? q.1 = none
  isSome_own : (r.entityAt? file p).isSome = true
  isSome_placed : (r.entityAt? file q).isSome = true

instance (r : Rule) (file : Value) (p q : Value × Nat) : Decidable (r.Clash file p q) :=
  decidable_of_iff ((r.ownId? p.1 = some (r.placeId q.2) ∧ r.ownId? q.1 = none) ∧
      (r.entityAt? file p).isSome = true ∧ (r.entityAt? file q).isSome = true)
    ⟨fun h => ⟨h.1.1, h.1.2, h.2.1, h.2.2⟩,
      fun h => ⟨⟨h.own, h.placed⟩, h.isSome_own, h.isSome_placed⟩⟩

def HasClash (r : Rule) (file : Value) (items : List Value) : Prop :=
  ∃ p ∈ items.zipIdx, ∃ q ∈ items.zipIdx, r.Clash file p q

instance (r : Rule) (file : Value) (items : List Value) : Decidable (r.HasClash file items) :=
  inferInstanceAs (Decidable (∃ p ∈ items.zipIdx, ∃ q ∈ items.zipIdx, r.Clash file p q))

/-- A rule that can be followed in a document finds items that clash. -/
def Confuses (r : Rule) (file document : Value) : Prop :=
  ∃ items, r.Follows file document items ∧ r.HasClash file items

theorem placeId_injective (r : Rule) : Function.Injective r.placeId := by
  intro i j h
  have htext : naturalText i = naturalText j := by simpa [placeId] using h
  exact naturalText_injective htext

theorem eq_getD_of_idOf {s : String} (h : r.idOf item index = .ok s) :
    s = (r.ownId? item).getD (r.placeId index) := by
  unfold idOf at h
  cases hpath : r.id.bind (·.ifTruthy) with
  | none =>
    rw [hpath] at h
    cases h
    simp [ownId?, hpath, placeId]
  | some path =>
    rw [hpath] at h
    obtain ⟨found, hfound, h⟩ := bind_eq_ok_iff.mp h
    dsimp only at h
    cases hgiven : found.bind (·.ifTruthy) with
    | none =>
      rw [hgiven] at h
      cases h
      simp [ownId?, hpath, hfound, Except.toOption, hgiven, placeId]
    | some v =>
      rw [hgiven] at h
      have htext : v.identifier = .ok s := h
      simp [ownId?, hpath, hfound, Except.toOption, hgiven, htext]

theorem id_of_entityAt? {p : Value × Nat} (h : r.entityAt? file p = some e) :
    e.id = (r.ownId? p.1).getD (r.placeId p.2) :=
  eq_getD_of_idOf (holds_of_build (entityAt?_eq_some_iff.mp h)).id

theorem Clash.id_eq {p q : Value × Nat} (h : r.Clash file p q) (he : r.entityAt? file p = some e)
    (hf : r.entityAt? file q = some f) : e.id = f.id := by
  rw [id_of_entityAt? he, id_of_entityAt? hf, h.own, h.placed, Option.getD_some, Option.getD_none]

theorem Clash.ne {p q : Value × Nat} (h : r.Clash file p q) : p.1 ≠ q.1 := by
  intro heq
  have hown := h.own
  rw [heq, h.placed] at hown
  cases hown

/-- Two items at different places that do not give themselves one identity have entities of one
identity only if they clash. -/
theorem clash_of_id_eq {p q : Value × Nat} (he : r.entityAt? file p = some e)
    (hf : r.entityAt? file q = some f) (hplace : p.2 ≠ q.2)
    (hown : ∀ s, r.ownId? p.1 = some s → ∀ t, r.ownId? q.1 = some t → s ≠ t) (hid : e.id = f.id) :
    r.Clash file p q ∨ r.Clash file q p := by
  have hep : (r.entityAt? file p).isSome = true := Option.isSome_of_eq_some he
  have hfq : (r.entityAt? file q).isSome = true := Option.isSome_of_eq_some hf
  rw [id_of_entityAt? he, id_of_entityAt? hf] at hid
  cases hp : r.ownId? p.1 with
  | none =>
    rw [hp, Option.getD_none] at hid
    cases hq : r.ownId? q.1 with
    | none =>
      rw [hq, Option.getD_none] at hid
      exact absurd (r.placeId_injective hid) hplace
    | some t =>
      rw [hq, Option.getD_some] at hid
      exact .inr ⟨by rw [hq, hid], hp, hfq, hep⟩
  | some s =>
    rw [hp, Option.getD_some] at hid
    cases hq : r.ownId? q.1 with
    | none =>
      rw [hq, Option.getD_none] at hid
      exact .inl ⟨by rw [hp, hid], hq, hep, hfq⟩
    | some t =>
      rw [hq, Option.getD_some] at hid
      exact absurd hid (hown s hp t hq)

theorem pairwise_zipIdx (h : (items.filterMap r.ownId?).Nodup) :
    items.zipIdx.Pairwise fun p q =>
      p.2 ≠ q.2 ∧ ∀ s, r.ownId? p.1 = some s → ∀ t, r.ownId? q.1 = some t → s ≠ t := by
  rw [List.pairwise_and_iff]
  constructor
  · rw [← List.pairwise_map (f := Prod.snd), List.zipIdx_map_snd]
    exact List.nodup_range'
  · rw [← List.pairwise_map (f := Prod.fst) (R := fun a b =>
      ∀ s, r.ownId? a = some s → ∀ t, r.ownId? b = some t → s ≠ t), List.zipIdx_map_fst]
    exact List.pairwise_filterMap.mp h

/-- If the items that give themselves an identity differ in it, the entities of an array differ in
theirs exactly if no items clash. -/
theorem nodup_ids_iff (h : (items.filterMap r.ownId?).Nodup) :
    ((items.zipIdx.filterMap (r.entityAt? file)).map (·.id)).Nodup ↔ ¬r.HasClash file items := by
  constructor
  · rintro hnodup ⟨p, hp, q, hq, hclash⟩
    obtain ⟨e, he⟩ := Option.isSome_iff_exists.mp hclash.isSome_own
    obtain ⟨f, hf⟩ := Option.isSome_iff_exists.mp hclash.isSome_placed
    have hsame : e = f := List.inj_on_of_nodup_map hnodup (List.mem_filterMap.mpr ⟨p, hp, he⟩)
      (List.mem_filterMap.mpr ⟨q, hq, hf⟩) (hclash.id_eq he hf)
    -- one entity would hold both items
    apply hclash.ne
    rw [← (holds_of_build (entityAt?_eq_some_iff.mp he)).data,
      ← (holds_of_build (entityAt?_eq_some_iff.mp hf)).data, hsame]
  · rintro hfree
    rw [List.Nodup, List.pairwise_map, List.pairwise_filterMap]
    refine (pairwise_zipIdx h).imp_of_mem ?_
    rintro p q hp hq ⟨hplace, hown⟩ e he f hf hid
    rcases clash_of_id_eq he hf hplace hown hid with hclash | hclash
    · exact hfree ⟨p, hp, q, hq, hclash⟩
    · exact hfree ⟨q, hq, p, hp, hclash⟩

theorem nodup_ids_extract_iff (h : ∀ items, Path.resolveAt document r.array =
      .ok (some (.list items)) → (items.filterMap r.ownId?).Nodup) :
    ((r.extract file document).entities.map (·.id)).Nodup ↔ ¬r.Confuses file document := by
  by_cases hfollows : ∃ items, r.Follows file document items
  · obtain ⟨items, hfollows⟩ := hfollows
    have hclash : r.Confuses file document ↔ r.HasClash file items := by
      constructor
      · rintro ⟨others, hothers, hclash⟩
        have hitems := hothers.array.symm.trans hfollows.array
        simp only [Except.ok.injEq, Option.some.injEq, Value.list.injEq] at hitems
        rwa [← hitems]
      · rintro hclash
        exact ⟨items, hfollows, hclash⟩
    rw [hclash, hfollows.extract_eq, entities_collect hfollows.failure]
    exact nodup_ids_iff (h items hfollows.array)
  · have hnone : (r.extract file document).entities = [] :=
      List.eq_nil_iff_forall_not_mem.mpr fun e he => hfollows (exists_follows_of_mem_extract he)
    rw [hnone]
    constructor
    · rintro - ⟨items, hitems, -⟩
      exact hfollows ⟨items, hitems⟩
    · rintro -
      exact List.nodup_nil

theorem nodup_keys_extract_iff : ((r.extract file document).entities.map (·.key)).Nodup ↔
    ((r.extract file document).entities.map (·.id)).Nodup := by
  have hkeys : (r.extract file document).entities.map (·.key) =
      ((r.extract file document).entities.map (·.id)).map (Entity.Key.mk file r.name) := by
    rw [List.map_map]
    refine List.map_congr_left fun e he => ?_
    rw [Entity.key, (marks_of_mem_extract he).file, (marks_of_mem_extract he).array]
    rfl
  rw [hkeys]
  exact List.nodup_map_iff fun s t h => congrArg Entity.Key.id h

end Rule

theorem isText_documentName (id : String) : (documentName (.text id)).isText = true := by
  unfold documentName
  split_ifs <;> rfl

namespace Extraction

variable {rules : List Rule} {file document : Value}

/-- Entities of rules with different names differ in their keys exactly if those of each rule differ
in their identities. -/
theorem nodup_keys_byRules_iff (hnames : (rules.map (·.name)).Nodup) :
    ((byRules file document rules).entities.map (·.key)).Nodup ↔
      ∀ r ∈ rules, ((r.extract file document).entities.map (·.id)).Nodup := by
  rw [entities_byRules, List.map_flatMap, List.nodup_flatMap]
  simp only [Rule.nodup_keys_extract_iff]
  apply and_iff_left
  refine (List.pairwise_map.mp hnames).imp fun {r r'} hname => ?_
  rintro k hk hk'
  obtain ⟨e, he, rfl⟩ := List.mem_map.mp hk
  obtain ⟨e', he', hkey⟩ := List.mem_map.mp hk'
  apply hname
  rw [← (Rule.marks_of_mem_extract he).array, ← (Rule.marks_of_mem_extract he').array]
  exact (congrArg Entity.Key.array hkey).symm

/-- Let items give themselves different identities. Then the enabled rules of a list with different
names find entities of different keys in a document, and merging keeps them all, exactly if none of
these rules finds an item with an entity that gives itself the identity which another item with an
entity has by its place. -/
theorem ofDocument_distinct (hnamed : ∀ r ∈ rules, r.IsNamed)
    (hnames : (rules.map (·.name)).Nodup) (henabled : ∃ r ∈ rules, r.isEnabled = true)
    (hids : ∀ r ∈ rules, r.isEnabled = true → ∀ items, Path.resolveAt document r.array =
      .ok (some (.list items)) → (items.filterMap r.ownId?).Nodup) (id : String) :
    ∃ found, ofDocument (.text id) document rules = .ok found ∧
      ((found.entities.map (·.key)).Nodup ↔ ∀ r ∈ rules, r.isEnabled = true →
        ¬r.Confuses (documentName (.text id)) document) ∧
      (Entity.merge [found.entities] = .ok found.entities ↔ ∀ r ∈ rules, r.isEnabled = true →
        ¬r.Confuses (documentName (.text id)) document) := by
  obtain ⟨r, hr, hrEnabled⟩ := henabled
  refine ⟨_, ofDocument_eq hr hrEnabled (.text id) document, ?_⟩
  have hkeys : ((byRules (documentName (.text id)) document
      (rules.filter (·.isEnabled))).entities.map (·.key)).Nodup ↔
      ∀ r ∈ rules, r.isEnabled = true → ¬r.Confuses (documentName (.text id)) document := by
    have hsublist : ((rules.filter (·.isEnabled)).map (·.name)).Sublist (rules.map (·.name)) :=
      List.filter_sublist.map _
    rw [nodup_keys_byRules_iff (hnames.sublist hsublist)]
    simp only [List.mem_filter, and_imp]
    exact forall₃_congr fun r hr henabled => Rule.nodup_ids_extract_iff (hids r hr henabled)
  have htexts : ∀ e ∈ (byRules (documentName (.text id)) document
      (rules.filter (·.isEnabled))).entities, e.file.isText = true ∧ e.array.isText = true := by
    intro e he
    rw [entities_byRules, List.mem_flatMap] at he
    obtain ⟨r, hr, he⟩ := he
    have hmarks := Rule.marks_of_mem_extract he
    rw [hmarks.file, hmarks.array]
    exact ⟨isText_documentName id, hnamed r (List.mem_of_mem_filter hr)⟩
  exact ⟨hkeys, (Entity.merge_singleton_iff htexts).trans hkeys⟩

/-- An item may give itself the identity of a place whose item gives itself another one. -/
theorem ofDocument_distinct_mixed :
    let rule := Rule.preset "events" "events" "start" "end" "#1f77b4" "priority" "id"
    let item := fun id => Value.object [("id", .text id), ("start", .text "2024-01-01")]
    let document := Value.object [("events", .list [item "E1", item "", item "events-0"])]
    ∃ found, ofDocument (.text "d.json") document [rule] = .ok found ∧
      found.entities.map (·.id) = ["E1", "events-1", "events-0"] ∧
      Entity.merge [found.entities] = .ok found.entities := by
  intro rule item document
  have harray : ∀ items, Path.resolveAt document rule.array = .ok (some (.list items)) →
      items = [item "E1", item "", item "events-0"] := by
    rintro items ⟨⟩
    rfl
  have hnamed : ∀ r ∈ [rule], r.IsNamed := List.forall_mem_singleton.mpr rfl
  have hids : ∀ r ∈ [rule], r.isEnabled = true → ∀ items,
      Path.resolveAt document r.array = .ok (some (.list items)) →
        (items.filterMap r.ownId?).Nodup := by
    rintro r hr - items hitems
    obtain rfl := List.mem_singleton.mp hr
    rw [harray items hitems]
    decide +kernel
  obtain ⟨found, hfound, -, hmerge⟩ := ofDocument_distinct hnamed (List.nodup_singleton _)
    ⟨rule, List.mem_cons_self, rfl⟩ hids "d.json"
  refine ⟨found, hfound, ?_, hmerge.mpr ?_⟩
  · cases hfound
    decide +kernel
  · rintro r hr - ⟨items, hfollows, hclash⟩
    obtain rfl := List.mem_singleton.mp hr
    rw [harray items hfollows.array] at hclash
    exact absurd hclash (by decide +kernel)

/-- An item that gives itself the identity which the next one has by its place. Of the two entities
merging keeps one. -/
theorem ofDocument_distinct_clash :
    let rule := Rule.preset "events" "events" "start" "end" "#1f77b4" "priority" "id"
    let first := Value.object [("id", .text "events-1"), ("start", .text "2024-01-01")]
    let second := Value.object [("start", .text "2024-02-01")]
    let document := Value.object [("events", .list [first, second])]
    rule.IsNamed ∧ rule.isEnabled = true ∧
      (∀ items, Path.resolveAt document rule.array = .ok (some (.list items)) →
        (items.filterMap rule.ownId?).Nodup) ∧
      ∃ found, ofDocument (.text "d.json") document [rule] = .ok found ∧
        found.entities.map (·.id) = ["events-1", "events-1"] ∧
        ¬(found.entities.map (·.key)).Nodup ∧
        (Entity.merge [found.entities]).toOption.map (·.length) = some 1 := by
  intro rule first second document
  refine ⟨rfl, rfl, ?_, _, ofDocument_eq List.mem_cons_self rfl _ _, ?_, ?_, ?_⟩
  · rintro items ⟨⟩
    decide +kernel
  · decide +kernel
  · rintro hnodup
    have hnames : (([rule].filter (·.isEnabled)).map (·.name)).Nodup :=
      List.nodup_singleton rule.name
    have hrule := (nodup_keys_byRules_iff hnames).mp hnodup rule List.mem_cons_self
    exact absurd hrule (by decide +kernel)
  · decide +kernel

end Extraction

end Timeline
