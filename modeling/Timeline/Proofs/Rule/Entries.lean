import Timeline.Proofs.Rule.WellFormed

/-! # Imported entries

A text is refused as a rule set if it is no JSON, if it holds no list of entries, or if none of its
entries is valid. Of the valid entries the last one of each name is imported, at the place of the
first; the other entries are as good as absent.
-/

namespace Timeline.Rule

variable {text : String} {v : Value} {items : List Value} {rules : List Rule} {r : Rule}

/-- The entries of a rule set: the items of a list, or of the list in an object. -/
inductive Lists : Value → List Value → Prop
  | items {items : List Value} : Lists (.list items) items
  | configurations {fields : Fields} {items : List Value} :
    fields.get? "configurations" = some (.list items) → Lists (.object fields) items

theorem entries_eq_ok_iff : entries v = .ok items ↔ Lists v items := by
  constructor
  · intro h
    cases v with
    | list found =>
      cases h
      exact .items
    | object fields =>
      unfold entries at h
      dsimp only at h
      cases hget : Fields.get? fields "configurations" with
      | none =>
        rw [hget] at h
        cases h
      | some w =>
        rw [hget, Value.orNull, Option.getD_some] at h
        cases w <;> cases h
        exact .configurations hget
    | _ => cases h
  · rintro (_ | hget)
    · rfl
    · rw [entries, hget]
      rfl

theorem entries_cases (v : Value) :
    (∃ items, entries v = .ok items) ∨ entries v = .error (.rules .noList) := by
  unfold entries
  dsimp only
  split
  · exact .inl ⟨_, rfl⟩
  · exact .inr rfl

/-- A text is the JSON of a rule set with these entries. -/
def HasEntries (text : String) (items : List Value) : Prop :=
  ∃ v, Json.read text.toList = .ok v ∧ Lists v items

/-- What keeps the rules of a text from being imported. -/
inductive Refuses (text : String) : ImportFailure → Prop
  | notJson {f : Json.Fault} : Json.read text.toList = .error (.fault f) →
    Refuses text (.notJson f)
  | noList {v : Value} : Json.read text.toList = .ok v → (∀ items, ¬Lists v items) →
    Refuses text .noList
  | noRule {items : List Value} : HasEntries text items → (∀ v ∈ items, problems v ≠ []) →
    Refuses text .noRule

theorem exists_rule_of_problems_eq_nil (h : problems v = []) : ∃ r, ofFields v.fields = .ok r := by
  obtain ⟨fields, rfl, hobject⟩ := problems_eq_nil_iff_isRuleObject.mp h
  obtain ⟨name, hname, -⟩ := hobject.name
  obtain ⟨array, harray, -⟩ := hobject.array
  obtain ⟨start, hstart, -⟩ := hobject.start
  obtain ⟨finish, hfinish, -⟩ := hobject.finish
  obtain ⟨color, hcolor, -⟩ := hobject.color
  exact ⟨⟨.text name, .text array, .text start, .text finish, .text color, _, _, _⟩,
    ofFields_eq_ok_iff.mpr ⟨hname, harray, hstart, hfinish, hcolor, rfl, rfl, rfl⟩⟩

theorem exists_rules_of_valid (h : ∀ v ∈ items, problems v = []) :
    ∃ rules, ofEntries items = .ok rules := by
  induction items with
  | nil => exact ⟨[], rfl⟩
  | cons v rest ih =>
    obtain ⟨hv, hrest⟩ := List.forall_mem_cons.mp h
    obtain ⟨r, hr⟩ := exists_rule_of_problems_eq_nil hv
    obtain ⟨rules, hrules⟩ := ih hrest
    exact ⟨r :: rules, by rw [ofEntries, hr, hrules]; rfl⟩

theorem outcome_parse_of_hasEntries (h : HasEntries text items) :
    (parse text).outcome = ofSet items := by
  obtain ⟨v, hread, hlists⟩ := h
  rw [outcome_parse, readSet, hread, ok_bind, entries_eq_ok_iff.mpr hlists, ok_bind]

theorem outcome_parse_of_tooManyDigits {n : Nat}
    (h : Json.read text.toList = .error (.tooManyDigits n)) :
    (parse text).outcome = .error (.tooManyDigits n) := by
  rw [outcome_parse, readSet, h]
  rfl

theorem outcome_parse_of_refuses {cause : ImportFailure} (h : Refuses text cause) :
    (parse text).outcome = .error (.rules cause) := by
  cases h with
  | notJson hread =>
    rw [outcome_parse, readSet, hread]
    rfl
  | @noList v hread hnone =>
    have hentries : entries v = .error (.rules .noList) := by
      rcases entries_cases v with ⟨items, hitems⟩ | hentries
      · exact absurd (entries_eq_ok_iff.mp hitems) (hnone items)
      · exact hentries
    rw [outcome_parse, readSet, hread, ok_bind, hentries]
    rfl
  | @noRule items hentries hnone =>
    have hvalid : validEntries items = [] := by
      simpa [validEntries] using hnone
    rw [outcome_parse_of_hasEntries hentries, ofSet, hvalid]

/-- A text is refused, or has too long an integer, or has a valid entry. -/
theorem refuses_or_hasEntries (text : String) :
    (∃ cause, Refuses text cause) ∨ (∃ n, Json.read text.toList = .error (.tooManyDigits n)) ∨
      ∃ items, HasEntries text items ∧ ∃ v ∈ items, problems v = [] := by
  cases hread : Json.read text.toList with
  | error failure =>
    cases failure with
    | fault f => exact .inl ⟨_, .notJson hread⟩
    | tooManyDigits n => exact .inr (.inl ⟨n, rfl⟩)
  | ok v =>
    by_cases hlists : ∃ items, Lists v items
    · obtain ⟨items, hlists⟩ := hlists
      have hentries : HasEntries text items := ⟨v, hread, hlists⟩
      by_cases hvalid : ∃ v ∈ items, problems v = []
      · exact .inr (.inr ⟨items, hentries, hvalid⟩)
      · exact .inl ⟨_, .noRule hentries (by simpa using hvalid)⟩
    · exact .inl ⟨_, .noList hread (by simpa using hlists)⟩

def entryName (v : Value) : String :=
  match Fields.get? v.fields "name" with
  | some (.text s) => s
  | _ => ""

/-- The rules of the last entries of each name, in the order of the first ones. -/
structure AreLastOf (items : List Value) (rules : List Rule) : Prop where
  names : rules.map (·.name) = (items.map entryName).eraseDups.map .text
  nodup : (rules.map (·.name)).Nodup
  last : ∀ r ∈ rules, ∃ before v after, items = before ++ v :: after ∧
    ofFields v.fields = .ok r ∧ r.name = .text (entryName v) ∧
    ∀ w ∈ after, entryName w ≠ entryName v

theorem key_of_ofFields (h : ofFields v.fields = .ok r) : r.key = entryName v := by
  unfold key entryName
  rw [(ofFields_eq_ok_iff.mp h).1]
  cases r.name <;> rfl

theorem map_key_of_ofEntries (h : ofEntries items = .ok rules) :
    rules.map key = items.map entryName := by
  induction rules generalizing items with
  | nil =>
    cases items with
    | nil => rfl
    | cons v rest => simp [ofEntries, bind_eq_ok_iff] at h
  | cons r rules ih =>
    obtain ⟨v, rest, rfl, hv, hrest⟩ := ofEntries_eq_cons_iff.mp h
    rw [List.map_cons, List.map_cons, key_of_ofFields hv, ih hrest]

theorem areLastOf_lastOfName (h : ofEntries items = .ok rules) (hnamed : ∀ r ∈ rules, r.IsNamed) :
    AreLastOf items (lastOfName rules) := by
  have hmap : Represents (lastOfName rules) (mapOf rules) := represents_lastOfName hnamed
  refine ⟨?_, hmap.nodup, fun r hr => ?_⟩
  · rw [hmap.names, ← map_key_of_ofEntries h]
    change ((rules.map fun r => (r.key, r)).map (·.1)).eraseDups.map Value.text = _
    rw [List.map_map]
    rfl
  · have hname : r.name = .text r.key := (hmap.isNamed hr).name_eq
    have hvalue : OrderedMap.lastValue (rules.map fun r => (r.key, r)) r.key = some r :=
      hmap.value_eq_some_iff.mpr ⟨hr, hname⟩
    obtain ⟨before, after, hsplit, hafter⟩ := OrderedMap.exists_split_of_lastValue hvalue
    obtain ⟨before, rest, rfl, -, hrest⟩ := List.map_eq_append_iff.mp hsplit
    obtain ⟨s, after, rfl, hs, rfl⟩ := List.map_eq_cons_iff.mp hrest
    have hsr : s = r := congrArg Prod.snd hs
    rw [hsr] at h
    obtain ⟨front, v, back, rfl, hv, hback⟩ := exists_split_of_ofEntries h
    have hkey : r.key = entryName v := key_of_ofFields hv
    refine ⟨front, v, back, rfl, hv, hkey ▸ hname, fun w hw => ?_⟩
    have hmem : entryName w ∈ after.map key := by
      rw [map_key_of_ofEntries hback]
      exact List.mem_map_of_mem hw
    obtain ⟨s, hs, hsw⟩ := List.mem_map.mp hmem
    rw [← hsw, ← hkey]
    exact hafter _ (List.mem_map_of_mem hs)

theorem exists_areLastOf (hvalid : ∃ v ∈ items, problems v = []) :
    ∃ rules, ofSet items = .ok rules ∧ AreLastOf (validEntries items) rules := by
  have hproblems : ∀ v ∈ validEntries items, problems v = [] :=
    fun v hv => (mem_validEntries_iff.mp hv).2
  obtain ⟨rules, hrules⟩ := exists_rules_of_valid hproblems
  have hne : validEntries items ≠ [] := by
    obtain ⟨v, hv, hproblem⟩ := hvalid
    exact List.ne_nil_of_mem (mem_validEntries_iff.mpr ⟨hv, hproblem⟩)
  exact ⟨lastOfName rules, ofSet_eq hne hrules,
    areLastOf_lastOfName hrules fun r hr => isNamed_of_ofEntries hrules hr⟩

theorem ofSet_congr {others : List Value} (h : validEntries others = validEntries items) :
    ofSet others = ofSet items := by
  rw [ofSet, h, ofSet]

theorem HasEntries.not_refuses {cause : ImportFailure} (h : HasEntries text items)
    (hvalid : ∃ v ∈ items, problems v = []) : ¬Refuses text cause := by
  intro hrefuses
  obtain ⟨rules, hset, -⟩ := exists_areLastOf hvalid
  rw [← outcome_parse_of_hasEntries h, outcome_parse_of_refuses hrefuses] at hset
  cases hset

/-- A text is refused for exactly these causes. From any other whose integers can be read the last
valid entry of each name is imported, whatever the entries are that are not valid. -/
theorem parse_exact (text : String) :
    (∀ cause, (parse text).outcome = .error (.rules cause) ↔ Refuses text cause) ∧
      ((∀ cause, ¬Refuses text cause) →
        (∀ n, Json.read text.toList ≠ .error (.tooManyDigits n)) →
        ∃ items rules, HasEntries text items ∧ (parse text).outcome = .ok rules ∧
          AreLastOf (validEntries items) rules ∧
          ∀ other others, HasEntries other others →
            validEntries others = validEntries items → (parse other).outcome = .ok rules) := by
  rcases refuses_or_hasEntries text with ⟨cause, hrefuses⟩ | ⟨n, hread⟩ |
    ⟨items, hentries, hvalid⟩
  · have houtcome := outcome_parse_of_refuses hrefuses
    refine ⟨fun cause' => ⟨fun h => ?_, outcome_parse_of_refuses⟩,
      fun hnone => absurd hrefuses (hnone cause)⟩
    cases houtcome.symm.trans h
    exact hrefuses
  · have houtcome := outcome_parse_of_tooManyDigits hread
    refine ⟨fun cause => ⟨fun h => ?_, outcome_parse_of_refuses⟩,
      fun _ hdigits => absurd hread (hdigits n)⟩
    cases houtcome.symm.trans h
  · obtain ⟨rules, hset, hlast⟩ := exists_areLastOf hvalid
    have hparse : ∀ other others, HasEntries other others →
        validEntries others = validEntries items → (parse other).outcome = .ok rules := by
      intro other others hothers hsame
      rw [outcome_parse_of_hasEntries hothers, ofSet_congr hsame, hset]
    have houtcome := hparse text items hentries rfl
    refine ⟨fun cause => ⟨fun h => ?_, outcome_parse_of_refuses⟩,
      fun _ _ => ⟨items, rules, hentries, houtcome, hlast, hparse⟩⟩
    cases houtcome.symm.trans h

set_option maxRecDepth 4000 in
/-- A later rule takes the place of an earlier one, and a number between them is passed over. -/
theorem parse_exact_replaced :
    let entry (name color : String) := "\x7b\"name\": \"" ++ name ++ "\", \"arrayPath\": " ++
      "\"a\", \"startDatePath\": \"s\", \"endDatePath\": \"e\", \"color\": \"" ++ color ++
      "\", \"enabled\": true\x7d"
    let text := "[" ++ entry "b" "#000000" ++ ", 7, " ++ entry "a" "#111111" ++ ", " ++
      entry "b" "#222222" ++ "]"
    let object (name color : String) : Value := .object [("name", .text name),
      ("arrayPath", .text "a"), ("startDatePath", .text "s"), ("endDatePath", .text "e"),
      ("color", .text color), ("enabled", .bool true)]
    let items := [object "b" "#000000", .int 7, object "a" "#111111", object "b" "#222222"]
    HasEntries text items ∧ (∀ cause, ¬Refuses text cause) ∧
      (∀ n, Json.read text.toList ≠ .error (.tooManyDigits n)) ∧
      ∃ found rules, HasEntries text found ∧ (parse text).outcome = .ok rules ∧
        AreLastOf (validEntries found) rules ∧
        rules.map (fun r => (r.name, r.color)) =
          [(.text "b", .text "#222222"), (.text "a", .text "#111111")] := by
  intro entry text object items
  have hread : Json.read text.toList = .ok (.list items) := by
    simp only [Json.read, text, entry, String.toList_append, String.reduceToList]
    rfl
  have hentries : HasEntries text items := ⟨_, hread, .items⟩
  have hvalid : ∃ v ∈ items, problems v = [] := ⟨object "b" "#000000", by simp [items], by decide⟩
  have hnone : ∀ cause, ¬Refuses text cause := fun cause => hentries.not_refuses hvalid
  have hdigits : ∀ n, Json.read text.toList ≠ .error (.tooManyDigits n) := by simp [hread]
  obtain ⟨found, rules, hfound, hrules, hlast, -⟩ := (parse_exact text).2 hnone hdigits
  refine ⟨hentries, hnone, hdigits, found, rules, hfound, hrules, hlast, ?_⟩
  have hset : ofSet items = .ok rules := (outcome_parse_of_hasEntries hentries).symm.trans hrules
  cases hset
  simp [lastOfName, put]

end Timeline.Rule
