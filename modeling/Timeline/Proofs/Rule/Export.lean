import Timeline.Proofs.Json.RoundTrip
import Timeline.Proofs.Json.Writer
import Timeline.Proofs.Rule.Valid

/-! # Exported rules are imported again

A store of imported rules is written as JSON, as a list or as it is kept in a file. Importing what
is written gives the same rules in the same order.
-/

namespace Timeline

namespace Json

theorem IsExact.isPlain {limit : Nat} {v : Value} (h : IsExact limit v) : v.IsPlain := by
  cases v <;> first | exact h | trivial

theorem exists_written {v : Value} (h : v.Throughout (IsExact digitLimit)) :
    ∃ s, write pretty v = .ok s ∧ writtenText pretty v = s ∧ read s.toList = .ok v := by
  have hwrite := write_eq_ok pretty (h.mono fun _ => IsExact.isPlain)
  refine ⟨_, hwrite, writtenText_of_write rfl hwrite, ?_⟩
  rw [text, String.toList_ofList]
  exact readWith_chars rfl h

end Json

namespace Rule

variable {rules : List Rule} {r : Rule}

theorem put_of_notMem_names (hr : r.IsNamed) (h : r.name ∉ rules.map (·.name)) :
    r.put rules = rules ++ [r] := by
  induction rules with
  | nil => rfl
  | cons s rest ih =>
    obtain ⟨hs, hrest⟩ := not_or.mp (mt List.mem_cons.mpr h)
    have hne : ¬s.name.same r.name = true := by
      rw [hr.name_eq, Value.same_text_iff, ← hr.name_eq]
      exact Ne.symm hs
    rw [put, if_neg hne, ih hrest, List.cons_append]

theorem lastOfName_snoc (rules : List Rule) (r : Rule) :
    lastOfName (rules ++ [r]) = r.put (lastOfName rules) :=
  List.foldl_append

theorem lastOfName_eq_self (hnamed : ∀ r ∈ rules, r.IsNamed)
    (hnodup : (rules.map (·.name)).Nodup) : lastOfName rules = rules := by
  induction rules using List.reverseRecOn with
  | nil => rfl
  | append_singleton rules r ih =>
    rw [List.map_append, List.nodup_append] at hnodup
    obtain ⟨hrules, -, hdisjoint⟩ := hnodup
    have hr : r.name ∉ rules.map (·.name) :=
      fun hmem => hdisjoint _ hmem _ List.mem_cons_self rfl
    rw [lastOfName_snoc, ih (fun s hs => hnamed s (List.mem_append_left _ hs)) hrules,
      put_of_notMem_names (hnamed r (by simp)) hr]

/-- Rules as they are imported. -/
structure AreImported (rules : List Rule) : Prop where
  valid : ∀ r ∈ rules, r.IsValid
  nodup : (rules.map (·.name)).Nodup
  ne_nil : rules ≠ []

theorem HeldBy.isValid {text : String} (h : HeldBy text rules) (hr : r ∈ rules) : r.IsValid := by
  obtain ⟨v, items, -, -, -, hentries⟩ := h
  obtain ⟨w, hw, hfields⟩ := exists_entry_of_mem hentries hr
  have hvalid : (problems w).isEmpty = true := (List.mem_filter.mp hw).2
  exact isValid_of_problems_eq_nil (List.isEmpty_iff.mp hvalid) hfields

theorem HeldBy.ne_nil {text : String} (h : HeldBy text rules) : rules ≠ [] := by
  obtain ⟨v, items, -, -, hne, hentries⟩ := h
  obtain ⟨w, rest, hvalid⟩ := List.exists_cons_of_ne_nil hne
  rw [hvalid] at hentries
  obtain ⟨r, -, hentries⟩ := bind_eq_ok_iff.mp hentries
  obtain ⟨rs, -, hentries⟩ := bind_eq_ok_iff.mp hentries
  cases hentries
  exact List.cons_ne_nil r rs

theorem mem_of_mem_put {s : Rule} (h : s ∈ r.put rules) : s = r ∨ s ∈ rules := by
  induction rules with
  | nil => exact .inl (List.mem_singleton.mp h)
  | cons t rest ih => grind [put]

theorem mem_of_mem_lastOfName (h : r ∈ lastOfName rules) : r ∈ rules := by
  induction rules using List.reverseRecOn with
  | nil => exact h
  | append_singleton rules s ih =>
    rw [lastOfName_snoc] at h
    rcases mem_of_mem_put h with rfl | h
    · simp
    · exact List.mem_append_left _ (ih h)

theorem lastOfName_ne_nil (h : rules ≠ []) : lastOfName rules ≠ [] := by
  induction rules using List.reverseRecOn with
  | nil => exact absurd rfl h
  | append_singleton rules s ih =>
    rw [lastOfName_snoc]
    cases lastOfName rules with
    | nil => simp [put]
    | cons t rest =>
      rw [put]
      split <;> simp

theorem areImported_of_parse {text : String} (h : (parse text).outcome = .ok rules) :
    AreImported rules := by
  obtain ⟨held, hheld, rfl⟩ := outcome_parse_eq_ok_iff.mp h
  exact {
    valid := fun r hr => hheld.isValid (mem_of_mem_lastOfName hr)
    nodup := (represents_lastOfName fun r hr => hheld.isNamed hr).nodup
    ne_nil := lastOfName_ne_nil hheld.ne_nil }

theorem IsValid.isExact (h : r.IsValid) :
    (Value.object r.toFields).Throughout (Json.IsExact Json.digitLimit) := by
  have hgiven : ∀ v, isGivenText v = true → v.Throughout (Json.IsExact Json.digitLimit) := by
    intro v hv
    obtain ⟨s, rfl, -⟩ := isGivenText_iff.mp hv
    exact Value.throughout_text_iff.mpr trivial
  rw [Value.throughout_object_iff]
  constructor
  · change (r.toFields.map (·.1)).Nodup
    unfold toFields
    cases r.category <;> cases r.id <;> simp
  · intro f hf
    simp only [toFields, List.mem_append, List.mem_cons, List.not_mem_nil, or_false,
      Option.mem_toList, Option.map_eq_some_iff] at hf
    rcases hf with ((((rfl | rfl | rfl | rfl) | ⟨v, hv, rfl⟩) | ⟨v, hv, rfl⟩) | rfl | rfl)
    · exact hgiven _ h.name
    · exact hgiven _ h.array
    · exact hgiven _ h.start
    · exact hgiven _ h.finish
    · exact hgiven _ (h.category v hv)
    · exact hgiven _ (h.id v hv)
    · obtain ⟨s, hs, -⟩ := h.color
      simp [hs, Json.IsExact]
    · obtain ⟨b, hb⟩ := h.enabled
      simp [hb, Json.IsExact]

theorem ofEntries_toFields (h : ∀ r ∈ rules, r.IsValid) :
    ofEntries (rules.map fun r => .object r.toFields) = .ok rules := by
  induction rules with
  | nil => rfl
  | cons r rest ih =>
    obtain ⟨hr, hrest⟩ := List.forall_mem_cons.mp h
    rw [List.map_cons, ofEntries, Value.fields, hr.ofFields_toFields, ih hrest]
    rfl

namespace AreImported

variable (h : AreImported rules)

include h

theorem lastOfName_eq : lastOfName rules = rules :=
  lastOfName_eq_self (fun r hr => (h.valid r hr).isNamed) h.nodup

theorem validEntries_toFields :
    validEntries (rules.map fun r => .object r.toFields) =
      rules.map fun r => .object r.toFields := by
  apply List.filter_eq_self.mpr
  intro v hv
  obtain ⟨r, hr, rfl⟩ := List.mem_map.mp hv
  rw [(h.valid r hr).problems_toFields]
  rfl

theorem outcome_parse_eq {s : String} {v : Value} (hread : Json.read s.toList = .ok v)
    (hentries : entries v = .ok (rules.map fun r => .object r.toFields)) :
    (parse s).outcome = .ok rules := by
  have hset : readSet s = .ok v := by rw [readSet, hread]
  refine outcome_parse_eq_ok_iff.mpr ⟨rules, ⟨v, _, hset, hentries, ?_, ?_⟩, h.lastOfName_eq.symm⟩
  · rw [h.validEntries_toFields]
    exact mt List.map_eq_nil_iff.mp h.ne_nil
  · rw [h.validEntries_toFields]
    exact ofEntries_toFields h.valid

theorem isExact_list :
    (Value.list (rules.map fun r => .object r.toFields)).Throughout
      (Json.IsExact Json.digitLimit) := by
  refine Value.throughout_list_iff.mpr ⟨trivial, ?_⟩
  intro v hv
  obtain ⟨r, hr, rfl⟩ := List.mem_map.mp hv
  exact (h.valid r hr).isExact

end AreImported

end Rule

namespace RuleStore

/-- The rules imported from a text are imported again from what a store of them exports, and from
what it keeps in a file. -/
theorem parse_written {text : String} {rules : List Rule}
    (h : (Rule.parse text).outcome = .ok rules) (path : Option String) :
    ∃ store, make rules path = .ok store ∧
      (∃ exported, store.exported = .ok exported ∧ (Rule.parse exported).outcome = .ok rules) ∧
      ∃ kept, Json.write Json.pretty store.kept = .ok kept ∧
        Json.writtenText Json.pretty store.kept = kept ∧
        (Rule.parse kept).outcome = .ok rules := by
  have himported := Rule.areImported_of_parse h
  have hmake : make rules path = .ok ⟨rules, path⟩ := by
    rw [make, Rule.distinct_eq fun r hr => (himported.valid r hr).isNamed, himported.lastOfName_eq]
    rfl
  refine ⟨⟨rules, path⟩, hmake, ?_, ?_⟩
  · obtain ⟨exported, hwrite, -, hread⟩ := Json.exists_written himported.isExact_list
    exact ⟨exported, hwrite, himported.outcome_parse_eq hread rfl⟩
  · have hkept : (kept ⟨rules, path⟩).Throughout (Json.IsExact Json.digitLimit) := by
      refine Value.throughout_object_iff.mpr ⟨List.nodup_singleton _, ?_⟩
      intro f hf
      obtain rfl := List.mem_singleton.mp hf
      exact himported.isExact_list
    obtain ⟨written, hwrite, hwritten, hread⟩ := Json.exists_written hkept
    exact ⟨written, hwrite, hwritten, himported.outcome_parse_eq hread rfl⟩

set_option maxRecDepth 2000 in
/-- A rule with an empty path, which is none, and a name beyond ASCII. -/
theorem parse_written_unset :
    let text := "[\x7b\"name\": \"\\u00e9v\", \"arrayPath\": \"a\", \"startDatePath\": \"s\", " ++
      "\"endDatePath\": \"e\", \"idPath\": \"\", \"color\": \"#1f77b4\", \"enabled\": false\x7d]"
    let rule : Rule :=
      ⟨.text "év", .text "a", .text "s", .text "e", .text "#1f77b4", .bool false, none, none⟩
    (Rule.parse text).outcome = .ok [rule] ∧
    ∃ store, make [rule] none = .ok store ∧
      (∃ exported, store.exported = .ok exported ∧
        (Rule.parse exported).outcome = .ok [rule]) ∧
      ∃ kept, Json.write Json.pretty store.kept = .ok kept ∧
        Json.writtenText Json.pretty store.kept = kept ∧
        (Rule.parse kept).outcome = .ok [rule] := by
  intro text rule
  have h : (Rule.parse text).outcome = .ok [rule] := by
    have hread : Rule.readSet text = .ok (.list [.object [("name", .text "év"),
        ("arrayPath", .text "a"), ("startDatePath", .text "s"), ("endDatePath", .text "e"),
        ("idPath", .text ""), ("color", .text "#1f77b4"), ("enabled", .bool false)]]) := by
      simp only [Rule.readSet, Json.read, text, String.toList_append, String.reduceToList]
      rfl
    rw [Rule.outcome_parse, hread]
    rfl
  exact ⟨h, parse_written h none⟩

end RuleStore

end Timeline
