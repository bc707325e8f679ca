import Timeline.Proofs.Rule.Store

/-! # The rules held by a text

A text holds rules if it is the JSON of a rule set with a valid entry. The rules that are imported
are those held by the text, each name at its first place and with its last rule.
-/

namespace Timeline

theorem Entity.field_eq_ok_iff {fields : Fields} {k : String} {v : Value} :
    Entity.field fields k = .ok v ↔ fields.get? k = some v := by
  unfold Entity.field
  split <;> simp_all

namespace Rule

variable {rules : List Rule} {r : Rule} {text : String}

theorem ofFields_eq_ok_iff {fields : Fields} : ofFields fields = .ok r ↔
    fields.get? "name" = some r.name ∧ fields.get? "arrayPath" = some r.array ∧
    fields.get? "startDatePath" = some r.start ∧ fields.get? "endDatePath" = some r.finish ∧
    fields.get? "color" = some r.color ∧
    r.enabled = (fields.get? "enabled").getD (.bool true) ∧
    r.category = (fields.get? "yAxisPath").bind (·.ifTruthy) ∧
    r.id = (fields.get? "idPath").bind (·.ifTruthy) := by
  unfold ofFields
  simp only [bind_eq_ok_iff, Entity.field_eq_ok_iff]
  constructor
  · rintro ⟨name, hname, array, harray, start, hstart, finish, hfinish, color, hcolor, ⟨⟩⟩
    exact ⟨hname, harray, hstart, hfinish, hcolor, rfl, rfl, rfl⟩
  · rintro ⟨hname, harray, hstart, hfinish, hcolor, henabled, hcategory, hid⟩
    refine ⟨_, hname, _, harray, _, hstart, _, hfinish, _, hcolor, ?_⟩
    rw [← henabled, ← hcategory, ← hid]
    rfl

theorem isNamed_of_valid {v : Value} (hv : problems v = []) (hr : ofFields v.fields = .ok r) :
    r.IsNamed := by
  cases v with
  | object fields =>
    simp only [problems, List.append_eq_nil_iff] at hv
    obtain ⟨⟨⟨⟨⟨⟨⟨hname, -⟩, -⟩, -⟩, -⟩, -⟩, -⟩, -⟩ := hv
    have hget : Fields.get? fields "name" = some r.name := (ofFields_eq_ok_iff.mp hr).1
    cases hvalue : r.name <;>
      simp_all [IsNamed, Value.isText, requiredProblems, Value.orNull, isGivenText]
  | _ => exact absurd hv (by simp [problems])

theorem ofEntries_eq_cons_iff {items : List Value} : ofEntries items = .ok (r :: rules) ↔
    ∃ v rest, items = v :: rest ∧ ofFields v.fields = .ok r ∧ ofEntries rest = .ok rules := by
  cases items with
  | nil => simp [ofEntries]
  | cons v items =>
    simp only [ofEntries, bind_eq_ok_iff, pure_eq_ok, Except.ok.injEq, List.cons.injEq]
    constructor
    · rintro ⟨s, hs, rest, hrest, rfl, rfl⟩
      exact ⟨v, items, ⟨rfl, rfl⟩, hs, hrest⟩
    · rintro ⟨w, rest, ⟨rfl, rfl⟩, hw, hrest⟩
      exact ⟨r, hw, rules, hrest, rfl, rfl⟩

theorem exists_split_of_ofEntries {items : List Value} {before after : List Rule}
    (h : ofEntries items = .ok (before ++ r :: after)) : ∃ front v back,
      items = front ++ v :: back ∧ ofFields v.fields = .ok r ∧ ofEntries back = .ok after := by
  induction before generalizing items with
  | nil =>
    obtain ⟨v, rest, rfl, hv, hrest⟩ := ofEntries_eq_cons_iff.mp h
    exact ⟨[], v, rest, rfl, hv, hrest⟩
  | cons s before ih =>
    obtain ⟨w, rest, rfl, -, hrest⟩ := ofEntries_eq_cons_iff.mp h
    obtain ⟨front, v, back, rfl, hv, hback⟩ := ih hrest
    exact ⟨w :: front, v, back, rfl, hv, hback⟩

theorem exists_entry_of_mem {entries : List Value} (h : ofEntries entries = .ok rules)
    (hr : r ∈ rules) : ∃ v ∈ entries, ofFields v.fields = .ok r := by
  obtain ⟨before, after, rfl⟩ := List.append_of_mem hr
  obtain ⟨front, v, back, rfl, hv, -⟩ := exists_split_of_ofEntries h
  exact ⟨v, by simp, hv⟩

theorem mem_validEntries_iff {items : List Value} {v : Value} :
    v ∈ validEntries items ↔ v ∈ items ∧ problems v = [] := by
  simp [validEntries]

theorem isNamed_of_ofEntries {items : List Value} (h : ofEntries (validEntries items) = .ok rules)
    (hr : r ∈ rules) : r.IsNamed := by
  obtain ⟨v, hv, hfields⟩ := exists_entry_of_mem h hr
  exact isNamed_of_valid (mem_validEntries_iff.mp hv).2 hfields

theorem ofSet_eq {items : List Value} (hne : validEntries items ≠ [])
    (h : ofEntries (validEntries items) = .ok rules) : ofSet items = .ok (lastOfName rules) := by
  unfold ofSet
  split
  · contradiction
  · rw [h, ok_bind, distinct_eq fun r hr => isNamed_of_ofEntries h hr]

/-- A text is the JSON of a rule set with valid entries, whose rules are these. -/
def HeldBy (text : String) (rules : List Rule) : Prop :=
  ∃ v items, readSet text = .ok v ∧ entries v = .ok items ∧ validEntries items ≠ [] ∧
    ofEntries (validEntries items) = .ok rules

theorem HeldBy.isNamed (h : HeldBy text rules) (hr : r ∈ rules) : r.IsNamed := by
  obtain ⟨v, items, -, -, -, hentries⟩ := h
  exact isNamed_of_ofEntries hentries hr

theorem outcome_parse (text : String) :
    (parse text).outcome = (do
      let v ← readSet text
      let items ← entries v
      ofSet items) := by
  unfold parse
  simp only [Journaled.outcome_bind]
  rfl

theorem outcome_parse_eq_ok_iff {found : List Rule} :
    (parse text).outcome = .ok found ↔ ∃ rules, HeldBy text rules ∧ found = lastOfName rules := by
  rw [outcome_parse]
  simp only [bind_eq_ok_iff]
  constructor
  · rintro ⟨v, hv, items, hitems, hset⟩
    unfold ofSet at hset
    split at hset
    · cases hset
    · rename_i hne
      obtain ⟨rules, hrules, hdistinct⟩ := bind_eq_ok_iff.mp hset
      have hheld : HeldBy text rules := ⟨v, items, hv, hitems, hne, hrules⟩
      rw [distinct_eq fun r hr => hheld.isNamed hr] at hdistinct
      cases hdistinct
      exact ⟨rules, hheld, rfl⟩
  · rintro ⟨rules, ⟨v, items, hv, hitems, hne, hrules⟩, rfl⟩
    exact ⟨v, hv, items, hitems, ofSet_eq hne hrules⟩

def HeldByBytes (bytes : List UInt8) (rules : List Rule) : Prop :=
  ∃ cs, Utf8.decode bytes = .ok cs ∧ HeldBy (String.ofList (Text.unifyLineEnds cs)) rules

theorem HeldByBytes.isNamed {bytes : List UInt8} (h : HeldByBytes bytes rules) (hr : r ∈ rules) :
    r.IsNamed := by
  obtain ⟨cs, -, hheld⟩ := h
  exact hheld.isNamed hr

theorem outcome_parseBytes_eq_ok_iff {bytes : List UInt8} {found : List Rule} :
    (RuleStore.parseBytes bytes).outcome = .ok found ↔
      ∃ rules, HeldByBytes bytes rules ∧ found = lastOfName rules := by
  unfold RuleStore.parseBytes
  cases hdecode : Utf8.decode bytes with
  | error f =>
    constructor
    · intro h
      cases h
    · rintro ⟨rules, ⟨cs, hcs, -⟩, -⟩
      cases hdecode.symm.trans hcs
  | ok cs =>
    constructor
    · intro h
      obtain ⟨rules, hheld, rfl⟩ := outcome_parse_eq_ok_iff.mp h
      exact ⟨rules, ⟨cs, hdecode, hheld⟩, rfl⟩
    · rintro ⟨rules, ⟨cs', hcs, hheld⟩, rfl⟩
      cases hdecode.symm.trans hcs
      exact outcome_parse_eq_ok_iff.mpr ⟨rules, hheld, rfl⟩

end Rule

end Timeline
