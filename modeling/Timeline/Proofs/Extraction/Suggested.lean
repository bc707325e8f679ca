import Timeline.Proofs.Extraction.Marks
import Timeline.Proofs.Json.Writer
import Timeline.Proofs.Path.Failure
import Timeline.Proofs.Rule.Suggest

/-! # Extraction by suggested rules

A rule whose dates and identity are fields of the items gives an entity for every item with a
start, and no warning but about items. A rule that was suggested for an array is such a rule if
the keys of the dates are their own paths. Then the first item of the array is found.
-/

namespace Timeline

namespace Rule

open Timeline.Path

variable {r : Rule} {file item document v : Value} {items : List Value} {index : Nat}
  {dates : DateFields} {k : String}

theorem extract_eq_found (harray : structureProblems r.array = .ok [])
    (hstart : structureProblems r.start = .ok [])
    (hitems : resolveAt document r.array = .ok (some (.list items)))
    (hfailure : (r.collect file 0 items).failure = none) :
    r.extract file document = (r.collect file 0 items).found := by
  have hpaths : r.malformedPath? = .ok none := by
    rw [malformedPath?, harray, ok_bind]
    dsimp only
    rw [hstart]
    rfl
  have hfollows : r.Follows file document items := ⟨hpaths, hitems, hfailure⟩
  exact hfollows.extract_eq

theorem failure_collect_eq_none
    (h : ∀ item ∈ items, ∀ index, ∃ built, r.build file item index = .ok built) :
    (r.collect file index items).failure = none := by
  induction items generalizing index with
  | nil => rfl
  | cons item rest ih =>
    obtain ⟨hitem, hrest⟩ := List.forall_mem_cons.mp h
    obtain ⟨built, hbuilt⟩ := hitem index
    rw [collect, hbuilt]
    exact ih hrest

/-- A rule that takes the start and the identity of an item from its fields. -/
structure ReadsFields (r : Rule) (dates : DateFields) : Prop where
  start : r.start = .text dates.start
  finish : r.finish = .text dates.finish
  start_path : IsOwnPath dates.start
  category : ∀ v, r.category = some v → ∃ k, v = .text k
  id : ∀ v, r.id = some v → ∃ k, v = .text k ∧ IsOwnPath k

def HasStart (dates : DateFields) (item : Value) : Prop :=
  ∃ t, (Value.orNull (item.fields.get? dates.start)).instant = .ok (some t)

/-- Reading the start of an item does not fail. If it is a date, the paths of the end and of the
category do not stop at an index with too many digits, and what is found at the path of the end can
be read. -/
structure CanBeBuilt (r : Rule) (dates : DateFields) (item : Value) : Prop where
  start : (Value.orNull (item.fields.get? dates.start)).CanBeRead
  finish_path : HasStart dates item → ∀ f, ¬StopsAt item (split dates.finish) f
  finish : HasStart dates item → ∀ v, resolve item dates.finish = .ok (some v) → v.CanBeRead
  category : HasStart dates item → ∀ k, r.category = some (.text k) →
    ∀ f, ¬StopsAt item (split k) f

/-- An entity holds an item with the instants of its dates, that of the end if its key is a path
as it is. -/
structure IsDated (e : Entity) (item : Value) (dates : DateFields) : Prop where
  data : e.data = item
  start : (Value.orNull (item.fields.get? dates.start)).instant = .ok (some e.start)
  finish : IsPlainPath dates.finish →
    (Value.orNull (item.fields.get? dates.finish)).instant = .ok (some e.finish)

theorem resolveAt_text (h : IsOwnPath k) (v : Value) :
    resolveAt v (.text k) = .ok (v.fields.get? k) :=
  h.resolve v

theorem exists_instantAt (hpath : ∀ f, ¬StopsAt item (split k) f)
    (hread : ∀ v, resolve item k = .ok (some v) → v.CanBeRead) :
    ∃ t, instantAt item (.text k) = .ok t := by
  obtain ⟨found, hfound⟩ := exists_resolve_iff.mpr hpath
  have hat : resolveAt item (.text k) = .ok found := hfound
  rw [instantAt, hat, ok_bind]
  cases found with
  | none => exact ⟨_, rfl⟩
  | some v => exact hread v hfound

theorem instantAt_text (h : IsPlainPath k) (v : Value) :
    instantAt v (.text k) = (Value.orNull (v.fields.get? k)).instant := by
  have hat : resolveAt v (.text k) = .ok (v.fields.get? k) := h.resolve v
  rw [instantAt, hat, ok_bind]
  cases v.fields.get? k <;> rfl

namespace ReadsFields

variable (h : r.ReadsFields dates)

include h

theorem exists_categoryOf
    (hpath : ∀ k, r.category = some (.text k) → ∀ f, ¬StopsAt item (split k) f) :
    ∃ c, r.categoryOf item = .ok c := by
  unfold categoryOf
  cases hcategory : r.category.bind Value.ifTruthy with
  | none => exact ⟨_, rfl⟩
  | some path =>
    obtain ⟨v, hv, htruthy⟩ := Option.bind_eq_some_iff.mp hcategory
    obtain ⟨-, rfl⟩ := Value.ifTruthy_eq_some_iff.mp htruthy
    obtain ⟨k, rfl⟩ := h.category v hv
    obtain ⟨found, hfound⟩ := exists_resolve_iff.mpr (hpath k hv)
    have hat : resolveAt item (.text k) = .ok found := hfound
    exact ⟨Value.orNull found, by simp [hat]⟩

theorem exists_idOf (hplain : item.Throughout Value.IsPlain) (index : Nat) :
    ∃ id, r.idOf item index = .ok id := by
  unfold idOf
  cases hid : r.id.bind Value.ifTruthy with
  | none => exact ⟨_, rfl⟩
  | some path =>
    obtain ⟨v, hv, htruthy⟩ := Option.bind_eq_some_iff.mp hid
    obtain ⟨-, rfl⟩ := Value.ifTruthy_eq_some_iff.mp htruthy
    obtain ⟨k, rfl, hk⟩ := h.id v hv
    dsimp only
    rw [resolveAt_text hk, ok_bind]
    cases hfound : (item.fields.get? k).bind Value.ifTruthy with
    | none => exact ⟨_, rfl⟩
    | some w =>
      obtain ⟨v, hv, htruthy⟩ := Option.bind_eq_some_iff.mp hfound
      obtain ⟨-, rfl⟩ := Value.ifTruthy_eq_some_iff.mp htruthy
      exact Value.exists_identifier (hplain.of_get? hv)

theorem yields_entityFrom (hplain : item.Throughout Value.IsPlain)
    (hbuilt : r.CanBeBuilt dates item) (hstart : HasStart dates item) (index : Nat)
    (start : Instant) :
    Yields (r.entityFrom file item index start) fun e => e.data = item ∧ e.start = start ∧
      ∀ t, IsPlainPath dates.finish →
        (Value.orNull (item.fields.get? dates.finish)).instant = .ok (some t) → e.finish = t := by
  obtain ⟨last, hlast⟩ := exists_instantAt (hbuilt.finish_path hstart) (hbuilt.finish hstart)
  obtain ⟨category, hcategory⟩ := h.exists_categoryOf (hbuilt.category hstart)
  obtain ⟨id, hid⟩ := h.exists_idOf hplain index
  rw [entityFrom, h.finish, hlast, ok_bind, hcategory, ok_bind, hid, ok_bind]
  refine .of_ok ⟨rfl, rfl, fun t hpath ht => ?_⟩
  rw [instantAt_text hpath, ht] at hlast
  cases hlast
  rfl

theorem yields_build (hplain : item.Throughout Value.IsPlain) (hbuilt : r.CanBeBuilt dates item)
    (index : Nat) :
    Yields (r.build file item index) fun built => ∀ s t,
      (Value.orNull (item.fields.get? dates.start)).instant = .ok (some s) →
      (Value.orNull (item.fields.get? dates.finish)).instant = .ok (some t) →
      ∃ e, built = .ok e ∧ IsDated e item dates := by
  obtain ⟨first, hfirst⟩ := hbuilt.start
  rw [build, h.start, resolveAt_text h.start_path, ok_bind]
  cases hget : item.fields.get? dates.start with
  | none =>
    refine .of_ok ?_
    rintro s t ⟨⟩
  | some v =>
    rw [hget] at hfirst
    have hinstant : v.instant = .ok first := hfirst
    dsimp only
    rw [hinstant, ok_bind]
    cases first with
    | none =>
      refine .of_ok ?_
      rintro s t hs
      cases hinstant.symm.trans hs
    | some start =>
      have hstart : HasStart dates item := ⟨start, by rw [hget]; exact hinstant⟩
      refine (h.yields_entityFrom hplain hbuilt hstart index start).bind ?_
      rintro e ⟨hdata, hfrom, hfinish⟩
      refine .of_ok fun s t hs ht => ⟨e, rfl, hdata, ?_, fun hpath => ?_⟩
      · rw [hget, hfrom]
        exact hinstant
      · rw [ht, hfinish t hpath ht]

end ReadsFields

theorem isOwnPath_of_mem_idKeys (h : k ∈ idKeys) : IsOwnPath k := by
  have hall : ∀ k ∈ idKeys, (k ≠ "" ∧ '[' ∉ k.toList ∧ ']' ∉ k.toList) ∧ k ≠ root ∧
      escape k = k := by
    decide
  obtain ⟨⟨hne, hopening, hclosing⟩, hroot, hescape⟩ := hall k h
  exact ⟨⟨hne, hopening, hclosing⟩, hroot, hescape⟩

theorem mem_idKeys_of_id? {fields : Fields} (h : fields.id? = some k) : k ∈ idKeys := by
  unfold Fields.id? Fields.firstPresent? at h
  exact List.mem_of_find?_eq_some h

namespace IsFor

variable {palette : List Value} {keys : List String} {first : Value} {rest : List Value}
  (h : r.IsFor palette document keys first rest dates)

include h

theorem readsFields (hstart : IsOwnPath dates.start) : r.ReadsFields dates where
  start := h.start
  finish := h.finish
  start_path := hstart
  category v hv := by
    obtain ⟨k, -, rfl⟩ := Option.map_eq_some_iff.mp (h.category.symm.trans hv)
    exact ⟨k, rfl⟩
  id v hv := by
    obtain ⟨k, hk, rfl⟩ := Option.map_eq_some_iff.mp (h.id.symm.trans hv)
    exact ⟨k, rfl, isOwnPath_of_mem_idKeys (mem_idKeys_of_id? hk)⟩

theorem resolveAt_array (hkeys : HavePath keys ∨ ∃ k, keys = [k] ∧ IsPlainPath k) :
    resolveAt document r.array = .ok (some (.list (first :: rest))) := by
  rw [h.array]
  rcases hkeys with hkeys | ⟨k, rfl, hk⟩
  · exact hkeys.resolve h.walk (by simp)
  · have hget : document.fields.get? k = some (.list (first :: rest)) := by
      rw [← Value.child?_eq, ← Address.walk_key]
      exact h.walk
    rw [hk.ofKeys_eq, ← hget]
    exact hk.resolve document

/-- The rule finds the first item of its array, and nothing is wrong with the rule. -/
theorem extract_first (hplain : document.Throughout Value.IsPlain) (hkeys : HavePath keys)
    (hreads : r.ReadsFields dates) (hbuilt : ∀ item ∈ first :: rest, r.CanBeBuilt dates item) :
    (∀ w ∈ (r.extract file document).warnings, w.cause.scope = .item) ∧
      ∃ e ∈ (r.extract file document).entities, IsDated e first dates := by
  have hitems : ∀ item ∈ first :: rest, item.Throughout Value.IsPlain := fun item hitem =>
    (Address.throughout_walk hplain h.walk).of_mem_items hitem
  have hbuild : ∀ item ∈ first :: rest, ∀ index, ∃ built, r.build file item index = .ok built := by
    intro item hitem index
    obtain ⟨built, hitem, -⟩ := hreads.yields_build (hitems item hitem) (hbuilt item hitem) index
    exact ⟨built, hitem⟩
  have harray : structureProblems r.array = .ok [] := by
    rw [h.array]
    exact hkeys.structureProblems
  have hstart : structureProblems r.start = .ok [] := by
    rw [h.start]
    exact hreads.start_path.structureProblems
  rw [extract_eq_found harray hstart (h.resolveAt_array (.inl hkeys))
    (failure_collect_eq_none hbuild)]
  refine ⟨fun w hw => (about_item_of_mem_collect hw).2, ?_⟩
  obtain ⟨hfirst, -⟩ := List.forall_mem_cons.mp hitems
  obtain ⟨hfirstBuilt, -⟩ := List.forall_mem_cons.mp hbuilt
  obtain ⟨⟨s, hs⟩, t, ht⟩ := Value.exists_instants hfirst h.detected
  obtain ⟨built, hentity, hdated⟩ := hreads.yields_build hfirst hfirstBuilt 0
  obtain ⟨e, rfl, he⟩ := hdated s t hs ht
  rw [collect, hentity]
  exact ⟨e, List.mem_append_left _ List.mem_cons_self, he⟩

end IsFor

end Rule

namespace Extraction

theorem ofDocument_singleton {r : Rule} (h : r.isEnabled = true) (id document : Value) :
    ofDocument id document [r] = .ok (byRules (documentName id) document [r]) := by
  have hrules : [r].filter (·.isEnabled) = [r] := by simp [h]
  rw [ofDocument_eq List.mem_cons_self h, hrules]

theorem entities_byRules_singleton (file document : Value) (r : Rule) :
    (byRules file document [r]).entities = (r.extract file document).entities := by
  rw [entities_byRules, List.flatMap_singleton]

theorem warnings_byRules_singleton (file document : Value) (r : Rule) :
    (byRules file document [r]).warnings = (r.extract file document).warnings := by
  rw [warnings_byRules, List.flatMap_singleton]

theorem exists_ofDocument_singleton {r : Rule} (h : r.isEnabled = true) (id document : Value) :
    ∃ found, ofDocument id document [r] = .ok found ∧
      found.entities = (r.extract (documentName id) document).entities ∧
      found.warnings = (r.extract (documentName id) document).warnings :=
  ⟨_, ofDocument_singleton h id document, entities_byRules_singleton _ _ r,
    warnings_byRules_singleton _ _ r⟩

end Extraction

namespace Rule

open Timeline.Path

/-- A suggested rule belongs to an array that keys lead to. It is valid exactly if its texts are not
empty and its color is a color, and its name and its path are not empty if the last key is not. Its
path leads to the array if the keys have a path or are a single key that is one. If the keys have a
path and the key of the start is its own path, and nothing that is read of the items fails,
extraction by the rule has no warning about it and finds the first item with its dates. -/
theorem extract_suggested (id : Value) {palette : List Value} {document : Value}
    {rules : List Rule} {r : Rule} (hplain : document.Throughout Value.IsPlain)
    (h : suggest palette document = .ok rules) (hr : r ∈ rules) :
    ∃ keys first rest dates, r.IsFor palette document keys first rest dates ∧
      (problems (.object r.toFields) = [] ↔
        (r.name ≠ .text "" ∧ r.array ≠ .text "" ∧ dates.start ≠ "" ∧ dates.finish ≠ "") ∧
          ∃ s, r.color = .text s ∧ isHexColor s = true) ∧
      (lastKey keys ≠ "" → r.name ≠ .text "" ∧ r.array ≠ .text "") ∧
      (HavePath keys ∨ (∃ k, keys = [k] ∧ IsPlainPath k) →
        resolveAt document r.array = .ok (some (.list (first :: rest)))) ∧
      (HavePath keys → IsOwnPath dates.start →
        (∀ item ∈ first :: rest, r.CanBeBuilt dates item) →
        ∃ found, Extraction.ofDocument id document [r] = .ok found ∧
          (∀ w ∈ found.warnings, w.cause.scope = .item) ∧
          ∃ e ∈ found.entities, IsDated e first dates) := by
  obtain ⟨keys, first, rest, dates, hfor⟩ := exists_isFor hplain h hr
  refine ⟨keys, first, rest, dates, hfor, hfor.problems_eq_nil_iff, hfor.ne_empty,
    hfor.resolveAt_array, ?_⟩
  intro hkeys hstart hbuilt
  have henabled : r.isEnabled = true := by
    rw [isEnabled, hfor.enabled]
    rfl
  obtain ⟨found, hfound, hentities, hwarnings⟩ :=
    Extraction.exists_ofDocument_singleton henabled id document
  refine ⟨found, hfound, ?_⟩
  rw [hentities, hwarnings]
  exact hfor.extract_first hplain hkeys (hfor.readsFields hstart) hbuilt

set_option maxRecDepth 4000 in
/-- The rule for an array whose key has a point finds its item, whose category is in a field with
brackets in its key. -/
theorem extract_suggested_point :
    let first := Value.object
      [("start", .text "2024-01-01"), ("to", .text "2024-01-02"), ("size[mm]", .int 3)]
    let document := Value.object [("a.b", .list [first])]
    let r : Rule :=
      { name := .text "a.b", array := .text "a\\.b", start := .text "start", finish := .text "to"
        color := .text "#1f77b4", enabled := .bool true, category := some (.text "size[mm]")
        id := none }
    document.Throughout Value.IsPlain ∧ suggest [.text "#1f77b4"] document = .ok [r] ∧
      problems (.object r.toFields) = [] ∧
      resolveAt document r.array = .ok (some (.list [first])) ∧
      ∃ found, Extraction.ofDocument (.text "file") document [r] = .ok found ∧
        (∀ w ∈ found.warnings, w.cause.scope = .item) ∧
        ∃ e ∈ found.entities, e.data = first ∧ e.start = ⟨1704067200000000⟩ ∧
          e.finish = ⟨1704153600000000⟩ := by
  intro first document r
  have hplain : document.Throughout Value.IsPlain := by
    simp [document, first, Value.IsPlain]
  have hsuggest : suggest [.text "#1f77b4"] document = .ok [r] := by rfl
  refine ⟨hplain, hsuggest, ?_⟩
  obtain ⟨keys, item, rest, dates, hfor, hvalid, -, hresolve, hextract⟩ :=
    extract_suggested (.text "file") hplain hsuggest (List.mem_singleton_self _)
  obtain ⟨rfl, rfl, rfl⟩ : keys = ["a.b"] ∧ item = first ∧ rest = [] := by
    have hwalk := hfor.walk
    cases keys with
    | nil => simp [Address.ofKeys, Address.walk, document] at hwalk
    | cons k keys =>
      obtain ⟨w, hw, hbelow⟩ := Option.bind_eq_some_iff.mp hwalk
      have hmem : (k, w) ∈ [("a.b", Value.list [first])] := Fields.mem_of_get? hw
      cases List.mem_singleton.mp hmem
      cases keys with
      | nil =>
        cases hbelow
        exact ⟨rfl, rfl, rfl⟩
      | cons j keys => cases hbelow
  have hdates : first.dates? = .ok (some ⟨"start", "to"⟩) := by rfl
  obtain rfl : dates = ⟨"start", "to"⟩ := by
    simpa [hdates, eq_comm] using hfor.detected
  have hkeys : HavePath ["a.b"] := by
    refine ⟨List.forall_mem_singleton.mpr ⟨by decide, by decide, by decide⟩, by decide⟩
  have hstart : IsOwnPath "start" := ⟨⟨by decide, by decide, by decide⟩, by decide, by decide⟩
  have hfinish : IsPlainPath "to" := ⟨by decide, by decide, by decide, by decide, by decide⟩
  have hfrom : (Value.text "2024-01-01").instant = .ok (some ⟨1704067200000000⟩) := by
    rfl
  have hto : (Value.text "2024-01-02").instant = .ok (some ⟨1704153600000000⟩) := by
    rfl
  have hbuilt : ∀ item ∈ [first], r.CanBeBuilt ⟨"start", "to"⟩ item := by
    refine List.forall_mem_singleton.mpr ⟨⟨_, hfrom⟩, fun _ f => ?_, fun _ v hv => ?_, ?_⟩
    · have hshort : HasShortIndices "to" := by decide +kernel
      exact hshort.not_stopsAt
    · cases (hfinish.resolve first).symm.trans hv
      exact ⟨_, hto⟩
    · rintro - k ⟨⟩ f
      have hshort : HasShortIndices "size[mm]" := by decide +kernel
      exact hshort.not_stopsAt
  obtain ⟨found, hfound, hwarnings, e, he, hdata, hfirst, hlast⟩ := hextract hkeys hstart hbuilt
  have hgiven : problems (.object r.toFields) = [] :=
    hvalid.mpr ⟨⟨by simp [r], by simp [r], by decide, by decide⟩, _, rfl, by decide⟩
  refine ⟨hgiven, hresolve (.inl hkeys), found, hfound, hwarnings, e, he, hdata, ?_, ?_⟩
  · exact Option.some.inj (Except.ok.inj (hfirst.symm.trans hfrom))
  · exact Option.some.inj (Except.ok.inj ((hlast hfinish).symm.trans hto))

/-- A key with brackets is not told from an element of a list: the rule for its array finds
nothing. -/
theorem extract_suggested_bracket :
    let document := Value.object [("a[b]", .list [.object [("start", .int 1)]])]
    document.Throughout Value.IsPlain ∧
      ∃ r, suggest [.text "#1f77b4"] document = .ok [r] ∧
        resolveAt document r.array = .ok none ∧
        ∃ found, Extraction.ofDocument (.text "file") document [r] = .ok found ∧
          found.entities = [] ∧ ∃ w ∈ found.warnings, w.cause.scope = .rule := by
  intro document
  have hplain : document.Throughout Value.IsPlain := by
    simp [document, Value.IsPlain]
  have hsuggest : suggest [.text "#1f77b4"] document = .ok [
      { name := .text "a[b]", array := .text "a[b]", start := .text "start"
        finish := .text "start", color := .text "#1f77b4", enabled := .bool true
        category := some (.text "start"), id := none }] := by
    rfl
  exact ⟨hplain, _, hsuggest, rfl, _, rfl, rfl, _, List.mem_cons_self, rfl⟩

end Rule

end Timeline
