import Timeline.Proofs.Path.Joined
import Timeline.Proofs.Rule.Export
import Timeline.Proofs.Rule.Suggest

/-! # Names of suggested rules

A suggested rule is named by the last key of its array, or by the path of the array if that key is
taken. The path is not looked up: a single key may be its own path, and then it is taken as well.
So names are distinct exactly if no array comes with both a key and a path that are names already,
and otherwise a store of the rules keeps fewer of them.
-/

namespace Timeline.Rule

open Timeline.Path

variable {document first v : Value} {fields : Fields} {palette : List Value} {rules : List Rule}
  {arrays before : List (List String)} {keys others names : List String} {name : String}

theorem nodup_arraysIn {fields : Fields} (hkeys : (fields.map (·.1)).Nodup)
    (h : ∀ f ∈ fields, ((arraysAt f.2).map (·.1)).Nodup) :
    ((arraysIn fields).map (·.1)).Nodup := by
  induction fields with
  | nil => exact List.nodup_nil
  | cons f rest ih =>
    obtain ⟨hf, hrest⟩ := List.nodup_cons.mp hkeys
    obtain ⟨hv, hbelow⟩ := List.forall_mem_cons.mp h
    have hbelowKey : ((arraysAt f.2).map fun a => f.1 :: a.1).Nodup := by
      have hmap := hv.map (List.cons_injective (a := f.1))
      rwa [List.map_map] at hmap
    rw [arraysIn, List.map_append, List.map_map, List.nodup_append]
    refine ⟨hbelowKey, ih hrest hbelow, ?_⟩
    rintro a ha b hb rfl
    obtain ⟨c, -, hc⟩ := List.mem_map.mp ha
    obtain ⟨d, hd, hkeys⟩ := List.mem_map.mp hb
    obtain ⟨g, hg, tail, htail, -⟩ := mem_arraysIn_iff.mp hd
    have hkey : f.1 = g.1 := (List.cons.inj (hc.trans (hkeys.symm.trans htail))).1
    exact hf (List.mem_map.mpr ⟨g, hg, hkey.symm⟩)

theorem nodup_arraysAt (h : v.Throughout Value.IsPlain) : ((arraysAt v).map (·.1)).Nodup := by
  induction v using Value.induct with
  | scalar v hv => cases v <;> first | exact List.nodup_nil | cases hv
  | list items => cases items <;> simp [arraysAt]
  | object fields ih => exact nodup_arraysIn h.self fun f hf => ih f hf (h.of_mem_fields hf)

theorem mem_suggestedKeys_iff (h : v.Throughout Value.IsPlain) :
    keys ∈ suggestedKeys v ↔ ∃ first rest dates,
      (Address.ofKeys keys).walk v = some (.list (first :: rest)) ∧
        first.dates? = .ok (some dates) := by
  rw [suggestedKeys, datedKeys, List.mem_map]
  constructor
  · rintro ⟨⟨keys, first⟩, hmem, rfl⟩
    obtain ⟨hmem, hdated⟩ := List.mem_filter.mp hmem
    obtain ⟨rest, hwalk⟩ := (mem_arraysAt_iff h).mp hmem
    obtain ⟨dates, hdates⟩ := isDated_iff.mp hdated
    exact ⟨first, rest, dates, hwalk, hdates⟩
  · rintro ⟨first, rest, dates, hwalk, hdates⟩
    refine ⟨(keys, first), List.mem_filter.mpr ⟨?_, isDated_iff.mpr ⟨dates, hdates⟩⟩, rfl⟩
    exact (mem_arraysAt_iff h).mpr ⟨rest, hwalk⟩

theorem nodup_suggestedKeys (h : v.Throughout Value.IsPlain) : (suggestedKeys v).Nodup :=
  (nodup_arraysAt h).sublist (List.filter_sublist.map _)

theorem eq_nil_iff_of_mem (hkeys : keys ∈ suggestedKeys v) : keys = [] ↔ v.isList = true := by
  obtain ⟨a, ha, rfl⟩ := List.mem_map.mp hkeys
  have hmem := List.mem_of_mem_filter ha
  cases v with
  | list items =>
    cases items with
    | nil => cases hmem
    | cons first rest =>
      cases List.mem_singleton.mp hmem
      exact iff_of_true rfl rfl
  | object fields =>
    obtain ⟨f, -, tail, htail, -⟩ := mem_arraysIn_iff.mp hmem
    simp [htail, Value.isList]
  | _ => cases hmem

theorem ofKeys_eq_iff_of_mem (hkeys : keys ∈ suggestedKeys v)
    (hothers : others ∈ suggestedKeys v) :
    ofKeys keys = ofKeys others ↔ dropEmpty keys = dropEmpty others := by
  by_cases hlist : v.isList = true
  · rw [(eq_nil_iff_of_mem hkeys).mpr hlist, (eq_nil_iff_of_mem hothers).mpr hlist]
    exact iff_of_true rfl rfl
  · apply ofKeys_eq_iff
    · exact mt (eq_nil_iff_of_mem hkeys).mp hlist
    · exact mt (eq_nil_iff_of_mem hothers).mp hlist

theorem nextName_mem_iff :
    nextName names keys ∈ names ↔ lastKey keys ∈ names ∧ ofKeys keys ∈ names := by
  unfold nextName
  split
  · rename_i hkey
    exact (and_iff_right hkey).symm
  · rename_i hkey
    exact iff_of_false hkey fun h => hkey h.1

/-- An array comes with a key and with a path that are both names for the arrays before it. -/
def Clashes (arrays : List (List String)) : Prop :=
  ∃ before keys after, arrays = before ++ keys :: after ∧ lastKey keys ∈ namesFor before ∧
    ofKeys keys ∈ namesFor before

theorem not_clashes_nil : ¬Clashes [] := by
  rintro ⟨before, keys, after, hsplit, -⟩
  cases before <;> cases hsplit

theorem clashes_snoc_iff :
    Clashes (arrays ++ [keys]) ↔
      Clashes arrays ∨ lastKey keys ∈ namesFor arrays ∧ ofKeys keys ∈ namesFor arrays := by
  constructor
  · rintro ⟨before, others, after, hsplit, htaken⟩
    rcases List.eq_nil_or_concat after with rfl | ⟨after, last, rfl⟩
    · obtain ⟨rfl, hlast⟩ := List.append_inj' hsplit rfl
      cases hlast
      exact .inr htaken
    · have hshift : arrays ++ [keys] = (before ++ others :: after) ++ [last] := by
        rw [hsplit, List.concat_eq_append, List.append_assoc]
        rfl
      obtain ⟨harrays, -⟩ := List.append_inj' hshift rfl
      exact .inl ⟨before, others, after, harrays, htaken⟩
  · rintro (⟨before, others, after, rfl, htaken⟩ | htaken)
    · exact ⟨before, others, after ++ [keys], List.append_assoc .., htaken⟩
    · exact ⟨arrays, keys, [], rfl, htaken⟩

/-- The names for arrays are distinct exactly if none of them clashes with those before it. -/
theorem nodup_namesFor_iff : (namesFor arrays).Nodup ↔ ¬Clashes arrays := by
  induction arrays using List.reverseRecOn with
  | nil => exact iff_of_true List.nodup_nil not_clashes_nil
  | append_singleton arrays keys ih =>
    rw [namesFor_snoc, clashes_snoc_iff, not_or, ← ih, ← nextName_mem_iff, ← List.concat_eq_append,
      List.nodup_concat]
    exact and_comm

theorem exists_of_mem_namesFor (h : name ∈ namesFor arrays) :
    ∃ keys ∈ arrays, name = lastKey keys ∨ name = ofKeys keys := by
  induction arrays using List.reverseRecOn with
  | nil => cases h
  | append_singleton arrays keys ih =>
    rw [namesFor_snoc] at h
    rcases List.mem_append.mp h with h | h
    · obtain ⟨others, hothers, hname⟩ := ih h
      exact ⟨others, List.mem_append_left _ hothers, hname⟩
    · obtain rfl := List.mem_singleton.mp h
      exact ⟨keys, List.mem_append_right _ List.mem_cons_self, (ite_eq_or_eq ..).symm⟩

theorem lastKey_mem_namesFor (h : keys ∈ arrays) : lastKey keys ∈ namesFor arrays := by
  induction arrays using List.reverseRecOn with
  | nil => cases h
  | append_singleton arrays others ih =>
    rw [namesFor_snoc, List.mem_append]
    rcases List.mem_append.mp h with h | h
    · exact .inl (ih h)
    · obtain rfl := List.mem_singleton.mp h
      unfold nextName
      split
      · rename_i htaken
        exact .inl htaken
      · exact .inr List.mem_cons_self

theorem not_clashes (hnodup : arrays.Nodup)
    (hpaths : ∀ keys ∈ arrays, ∀ others ∈ arrays, ofKeys keys = ofKeys others → keys = others)
    (hkeys : ∀ keys ∈ arrays, ∀ others ∈ arrays, ofKeys keys = lastKey others → keys = others) :
    ¬Clashes arrays := by
  rintro ⟨before, keys, after, rfl, -, htaken⟩
  have hmem : keys ∈ before ++ keys :: after := List.mem_append_right _ List.mem_cons_self
  obtain ⟨others, hothers, hname⟩ := exists_of_mem_namesFor htaken
  have hmemOthers : others ∈ before ++ keys :: after := List.mem_append_left _ hothers
  obtain rfl : keys = others := hname.elim (hkeys _ hmem _ hmemOthers) (hpaths _ hmem _ hmemOthers)
  exact (List.nodup_append.mp hnodup).2.2 _ hothers _ List.mem_cons_self rfl

/-- An array at the top whose key is written as it is clashes with any array of this key before
it. -/
theorem clashes_of_top {k : String} {after : List (List String)} (hk : escape k = k)
    (hbefore : ∃ keys ∈ before, lastKey keys = k) : Clashes (before ++ [k] :: after) := by
  obtain ⟨keys, hkeys, rfl⟩ := hbefore
  have htaken := lastKey_mem_namesFor hkeys
  refine ⟨before, [lastKey keys], after, rfl, htaken, ?_⟩
  have hpath : ofKeys [lastKey keys] = lastKey keys := hk
  rwa [hpath]

theorem AreFor.isNamed (h : AreFor rules palette document arrays) : ∀ r ∈ rules, r.IsNamed := by
  intro r hr
  have hname : r.name ∈ rules.map (·.name) := List.mem_map_of_mem hr
  rw [h.names] at hname
  obtain ⟨name, -, hname⟩ := List.mem_map.mp hname
  exact isNamed_of_name_eq hname.symm

theorem AreFor.arrays_eq (h : AreFor rules palette document arrays) :
    rules.map (·.array) = arrays.map fun keys => .text (ofKeys keys) := by
  have heach := h.each
  clear h
  induction heach with
  | nil => rfl
  | cons hr _ ih =>
    obtain ⟨first, rest, dates, hr⟩ := hr
    rw [List.map_cons, List.map_cons, ih, hr.array]

theorem AreFor.nodup_names_iff (h : AreFor rules palette document arrays) :
    (rules.map (·.name)).Nodup ↔ ¬Clashes arrays := by
  rw [h.names, List.nodup_map_iff text_injective, nodup_namesFor_iff]

theorem nodup_arrays_iff (hplain : document.Throughout Value.IsPlain)
    (h : AreFor rules palette document (suggestedKeys document)) :
    (rules.map (·.array)).Nodup ↔ ((suggestedKeys document).map dropEmpty).Nodup := by
  have hnodup := nodup_suggestedKeys hplain
  rw [h.arrays_eq, List.nodup_map_iff_inj_on hnodup, List.nodup_map_iff_inj_on hnodup]
  refine forall₂_congr fun keys hkeys => forall₂_congr fun others hothers => ?_
  rw [text_injective.eq_iff, ofKeys_eq_iff_of_mem hkeys hothers]

theorem make_eq_self_iff (hnamed : ∀ r ∈ rules, r.IsNamed) (path : Option String) :
    RuleStore.make rules path = .ok ⟨rules, path⟩ ↔ (rules.map (·.name)).Nodup := by
  rw [RuleStore.make, distinct_eq hnamed, ok_bind]
  constructor
  · intro h
    have hsame : lastOfName rules = rules := congrArg RuleStore.rules (Except.ok.inj h)
    rw [← hsame]
    exact (represents_lastOfName hnamed).nodup
  · intro hnodup
    rw [lastOfName_eq_self hnamed hnodup]
    rfl

/-- Rules are suggested in turn for the arrays that keys lead to and whose first item has dates,
with the colors in turn, and named by the last key or, if that is taken, by the path. Their names
are distinct, and a store keeps them all, exactly if no array clashes with those before it. Their
paths are distinct exactly if the keys are, but for empty ones at the front. So both are distinct if
no key is empty and no path is the key of another array; and an array at the top clashes if its key
is written as it is and an array before it has the same one. -/
theorem suggest_names (hplain : document.Throughout Value.IsPlain)
    (h : suggest palette document = .ok rules) (path : Option String) :
    AreFor rules palette document (suggestedKeys document) ∧ (suggestedKeys document).Nodup ∧
      (∀ keys, keys ∈ suggestedKeys document ↔ ∃ first rest dates,
        (Address.ofKeys keys).walk document = some (.list (first :: rest)) ∧
          first.dates? = .ok (some dates)) ∧
      ((rules.map (·.name)).Nodup ↔ ¬Clashes (suggestedKeys document)) ∧
      (RuleStore.make rules path = .ok ⟨rules, path⟩ ↔ ¬Clashes (suggestedKeys document)) ∧
      ((rules.map (·.array)).Nodup ↔ ((suggestedKeys document).map dropEmpty).Nodup) ∧
      ((∀ keys ∈ suggestedKeys document, "" ∉ keys) →
        (∀ keys ∈ suggestedKeys document, ∀ others ∈ suggestedKeys document,
          ofKeys keys = lastKey others → keys = others) →
        ¬Clashes (suggestedKeys document) ∧ ((suggestedKeys document).map dropEmpty).Nodup) ∧
      (∀ before k after, suggestedKeys document = before ++ [k] :: after → escape k = k →
        (∃ keys ∈ before, lastKey keys = k) → Clashes (suggestedKeys document)) := by
  have hfor := areFor_of_suggest hplain h
  have hnodup := nodup_suggestedKeys hplain
  refine ⟨hfor, hnodup, fun keys => mem_suggestedKeys_iff hplain, hfor.nodup_names_iff, ?_,
    nodup_arrays_iff hplain hfor, ?_, ?_⟩
  · rw [make_eq_self_iff hfor.isNamed, hfor.nodup_names_iff]
  · intro hfull hkeys
    have hdrop : ∀ keys ∈ suggestedKeys document, dropEmpty keys = keys := fun keys hmem =>
      dropEmpty_eq_self (hfull keys hmem)
    constructor
    · refine not_clashes hnodup ?_ hkeys
      intro keys hmem others hothers hpath
      have hsame := (ofKeys_eq_iff_of_mem hmem hothers).mp hpath
      rwa [hdrop keys hmem, hdrop others hothers] at hsame
    · rw [List.map_congr_left hdrop, List.map_id']
      exact hnodup
  · intro before k after hsplit hk hbefore
    rw [hsplit]
    exact clashes_of_top hk hbefore

/-- Two arrays of one key below different ones are named by the key and by the path. -/
theorem suggest_names_nested :
    let events := Value.object [("events", .list [.object [("start", .int 1)]])]
    let document := Value.object [("a", events), ("b", events)]
    document.Throughout Value.IsPlain ∧
      ∃ rules, suggest [.text "#1f77b4"] document = .ok rules ∧
        rules.map (·.name) = [.text "events", .text "b.events"] ∧
        RuleStore.make rules none = .ok ⟨rules, none⟩ := by
  intro events document
  have hplain : document.Throughout Value.IsPlain := by
    simp [document, events, Value.IsPlain]
  obtain ⟨rules, hrules⟩ : ∃ rules, suggest [.text "#1f77b4"] document = .ok rules := ⟨_, rfl⟩
  have hkeys : suggestedKeys document = [["a", "events"], ["b", "events"]] := rfl
  obtain ⟨hfor, -, -, -, hkept, -, hdistinct, -⟩ := suggest_names hplain hrules none
  rw [hkeys] at hfor hkept hdistinct
  obtain ⟨hclashes, -⟩ := hdistinct (by decide) (by decide +kernel)
  refine ⟨hplain, rules, hrules, hfor.names, hkept.mpr hclashes⟩

/-- An array at the top has the key of one that comes before it: both rules have the same name, and
a store keeps one of them. -/
theorem suggest_names_top :
    let events := Value.list [.object [("start", .int 1)]]
    let document := Value.object [("a", .object [("events", events)]), ("events", events)]
    document.Throughout Value.IsPlain ∧
      ∃ r s, suggest [.text "#1f77b4"] document = .ok [r, s] ∧ r.name = .text "events" ∧
        s.name = .text "events" ∧ RuleStore.make [r, s] none = .ok ⟨[s], none⟩ := by
  intro events document
  have hplain : document.Throughout Value.IsPlain := by
    simp [document, events, Value.IsPlain]
  obtain ⟨rules, hrules⟩ : ∃ rules, suggest [.text "#1f77b4"] document = .ok rules := ⟨_, rfl⟩
  have hkeys : suggestedKeys document = [["a", "events"], ["events"]] := rfl
  have hfor := areFor_of_suggest hplain hrules
  rw [hkeys] at hfor
  obtain ⟨r, rest, rfl, hr, hrest⟩ := List.map_eq_cons_iff.mp hfor.names
  obtain ⟨s, rfl, hs⟩ := List.map_eq_singleton_iff.mp hrest
  have hr : r.name = .text "events" := hr
  have hs : s.name = .text "events" := hs
  refine ⟨hplain, r, s, hrules, hr, hs, ?_⟩
  rw [RuleStore.make, distinct_eq hfor.isNamed, ok_bind]
  simp [lastOfName, put, hr, hs]

end Timeline.Rule
