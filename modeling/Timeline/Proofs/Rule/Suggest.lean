import Timeline.Proofs.Detection.Dates
import Timeline.Proofs.Path.Keys
import Timeline.Proofs.Rule.Store
import Timeline.Proofs.Rule.Valid
import Timeline.Rule.Suggest

/-! # Suggested rules

A suggested rule belongs to an array that is reached by keys: its array path is the path of these
keys, and its dates are the keys that are found in the first item. It is valid if none of these
keys is empty and the colors are colors.
-/

namespace Timeline.Rule

open Timeline.Path

/-- The key that an array is known by: the last one that leads to it. -/
def lastKey (keys : List String) : String :=
  keys.getLast?.getD "root"

theorem ofKeys_ne_empty_of_lastKey {keys : List String} (h : lastKey keys ≠ "") :
    ofKeys keys ≠ "" := by
  refine ofKeys_ne_empty fun hlast => h ?_
  rw [lastKey, hlast]
  rfl

mutual

/-- The arrays of some fields and of the objects in them, but the empty ones: the keys that lead to
each of them, and its first item. -/
def arraysIn : List (String × Value) → List (List String × Value)
  | [] => []
  | (k, v) :: rest => (arraysAt v).map (fun a => (k :: a.1, a.2)) ++ arraysIn rest

/-- The arrays that keys lead to from a value, but the empty ones. -/
def arraysAt : Value → List (List String × Value)
  | .list (first :: _) => [([], first)]
  | .object fields => arraysIn fields
  | _ => []

end

variable {document first v : Value} {fields : Fields} {k : String} {keys : List String}
  {a : List String × Value} {c : Candidate}

theorem mem_arraysIn_iff :
    a ∈ arraysIn fields ↔ ∃ f ∈ fields, ∃ keys, a.1 = f.1 :: keys ∧ (keys, a.2) ∈ arraysAt f.2 := by
  induction fields with
  | nil => simp [arraysIn]
  | cons f rest ih =>
    rw [arraysIn, List.mem_append, ih, List.exists_mem_cons_iff, List.mem_map]
    apply or_congr_left
    constructor
    · rintro ⟨b, hb, rfl⟩
      exact ⟨b.1, rfl, hb⟩
    · rintro ⟨keys, hkeys, hmem⟩
      exact ⟨_, hmem, Prod.ext hkeys.symm rfl⟩

theorem cons_mem_arraysIn_iff (hfields : (Value.object fields).IsPlain) :
    (k :: keys, first) ∈ arraysIn fields ↔
      ∃ v, fields.get? k = some v ∧ (keys, first) ∈ arraysAt v := by
  rw [mem_arraysIn_iff]
  constructor
  · rintro ⟨⟨j, v⟩, hf, others, heq, hmem⟩
    cases heq
    exact ⟨v, Fields.get?_of_mem hfields hf, hmem⟩
  · rintro ⟨v, hv, hmem⟩
    exact ⟨(k, v), Fields.mem_of_get? hv, keys, rfl, hmem⟩

theorem mem_arraysAt_iff (h : v.Throughout Value.IsPlain) :
    (keys, first) ∈ arraysAt v ↔
      ∃ rest, (Address.ofKeys keys).walk v = some (.list (first :: rest)) := by
  induction keys generalizing v with
  | nil =>
    cases v with
    | list items => cases items <;> simp [arraysAt, Address.ofKeys, Address.walk, eq_comm]
    | object fields => simp [arraysAt, mem_arraysIn_iff, Address.ofKeys, Address.walk]
    | _ => simp [arraysAt, Address.ofKeys, Address.walk]
  | cons k keys ih =>
    rw [Address.walk_ofKeys_cons]
    cases v with
    | object fields =>
      have hbelow : ∀ w, Fields.get? fields k = some w → w.Throughout Value.IsPlain :=
        fun w hw => h.of_get? hw
      rw [arraysAt, cons_mem_arraysIn_iff h.self]
      simp only [Value.fields, Option.bind_eq_some_iff]
      constructor
      · rintro ⟨w, hw, hmem⟩
        obtain ⟨rest, hrest⟩ := (ih (hbelow w hw)).mp hmem
        exact ⟨rest, w, hw, hrest⟩
      · rintro ⟨rest, w, hw, hrest⟩
        exact ⟨w, hw, (ih (hbelow w hw)).mpr ⟨rest, hrest⟩⟩
    | list items => cases items <;> simp [arraysAt, Value.fields, Fields.get?]
    | _ => simp [arraysAt, Value.fields, Fields.get?]

theorem lastKey_cons (k : String) (hne : keys ≠ []) : lastKey (k :: keys) = lastKey keys := by
  rw [lastKey, List.getLast?_cons_of_ne_nil hne, lastKey]

mutual

theorem candidatesIn_eq (path : String) : ∀ fields : List (String × Value),
    candidatesIn path fields = (arraysIn fields).map fun a =>
      ⟨lastKey a.1, Address.renderBelow path (Address.ofKeys a.1), a.2⟩
  | [] => rfl
  | (k, v) :: rest => by
    rw [candidatesIn, arraysIn, List.map_append, List.map_map, candidatesAt_eq k _ v,
      candidatesIn_eq path rest]
    rfl

theorem candidatesAt_eq (key path : String) : ∀ v : Value,
    candidatesAt key path v = (arraysAt v).map fun a =>
      ⟨lastKey (key :: a.1), Address.renderBelow path (Address.ofKeys a.1), a.2⟩
  | .list [] => rfl
  | .list (first :: rest) => rfl
  | .object fields => by
    rw [candidatesAt, arraysAt, candidatesIn_eq path fields]
    refine List.map_congr_left fun a ha => ?_
    obtain ⟨f, -, keys, hkeys, -⟩ := mem_arraysIn_iff.mp ha
    rw [lastKey_cons key (by simp [hkeys])]
  | .null | .bool _ | .int _ | .float _ | .text _ | .moment _ | .day _ | .tuple _ | .set _ => rfl

end

/-- An array is known by the last key that leads to it, and has the path of the keys. -/
def candidateOf (a : List String × Value) : Candidate where
  key := lastKey a.1
  path := ofKeys a.1
  first := a.2

theorem candidates_eq (document : Value) :
    candidates document = (arraysAt document).map candidateOf := by
  unfold candidates
  split
  · rename_i fields
    rw [candidatesIn_eq, arraysAt]
    refine List.map_congr_left fun a ha => ?_
    obtain ⟨f, -, keys, hkeys, -⟩ := mem_arraysIn_iff.mp ha
    rw [candidateOf, ofKeys, if_neg (by simp [hkeys])]
    rfl
  · rfl
  · rename_i hobject hlist
    cases document with
    | object fields => exact absurd rfl (hobject fields)
    | list items =>
      cases items with
      | nil => rfl
      | cons first rest => exact absurd rfl (hlist first rest)
    | _ => rfl

/-- Whether an item has dates that are found. -/
def isDated (item : Value) : Bool :=
  match item.dates? with
  | .ok (some _) => true
  | _ => false

theorem isDated_iff : isDated v = true ↔ ∃ dates, v.dates? = .ok (some dates) := by
  unfold isDated
  split <;> simp_all

def datedKeys (arrays : List (List String × Value)) : List (List String) :=
  (arrays.filter fun a => isDated a.2).map (·.1)

def suggestedKeys (document : Value) : List (List String) :=
  datedKeys (arraysAt document)

/-- A rule is the one for the array at some keys, with its first item and the dates in it. -/
structure IsFor (r : Rule) (palette : List Value) (document : Value) (keys : List String)
    (first : Value) (rest : List Value) (dates : DateFields) : Prop where
  walk : (Address.ofKeys keys).walk document = some (.list (first :: rest))
  detected : first.dates? = .ok (some dates)
  /-- The name is the last key, or the path if that is taken. -/
  name : r.name = .text (lastKey keys) ∨ r.name = .text (ofKeys keys)
  array : r.array = .text (ofKeys keys)
  start : r.start = .text dates.start
  finish : r.finish = .text dates.finish
  color : r.color ∈ palette
  enabled : r.enabled = .bool true
  category : r.category = (first.fields.category?.or first.fields.numeric.head?).map .text
  id : r.id = first.fields.id?.map .text

/-- The name for an array behind other names: the last key, or the path if that is taken. -/
def nextName (names keys : List String) : String :=
  if lastKey keys ∈ names then ofKeys keys else lastKey keys

def namesFor (arrays : List (List String)) : List String :=
  arrays.foldl (fun names keys => names ++ [nextName names keys]) []

theorem namesFor_snoc (arrays : List (List String)) (keys : List String) :
    namesFor (arrays ++ [keys]) = namesFor arrays ++ [nextName (namesFor arrays) keys] := by
  rw [namesFor, List.foldl_append]
  rfl

/-- Rules for the arrays that some keys lead to, in this order. -/
structure AreFor (rules : List Rule) (palette : List Value) (document : Value)
    (arrays : List (List String)) : Prop where
  each : List.Forall₂ (fun r keys => ∃ first rest dates,
    r.IsFor palette document keys first rest dates) rules arrays
  names : rules.map (·.name) = (namesFor arrays).map .text
  /-- The colors are used in turn. -/
  colors : ∀ i r, rules[i]? = some r → palette[i % palette.length]? = some r.color

variable {palette : List Value} {found rules : List Rule} {r : Rule} {arrays : List (List String)}

theorem areFor_nil : AreFor [] palette document [] where
  each := .nil
  names := rfl
  colors := nofun

theorem AreFor.snoc (h : AreFor found palette document arrays)
    (hr : ∃ first rest dates, r.IsFor palette document keys first rest dates)
    (hname : r.name = .text (nextName (namesFor arrays) keys))
    (hcolor : palette[found.length % palette.length]? = some r.color) :
    AreFor (found ++ [r]) palette document (arrays ++ [keys]) where
  each := List.rel_append h.each (.cons hr .nil)
  names := by
    rw [List.map_append, h.names, namesFor_snoc, List.map_append, List.map_singleton, hname]
    rfl
  colors i s hs := by
    rcases Nat.lt_trichotomy i found.length with hless | rfl | hmore
    · rw [List.getElem?_append_left hless] at hs
      exact h.colors i s hs
    · rw [List.getElem?_concat_length] at hs
      cases hs
      exact hcolor
    · rw [List.getElem?_eq_none (by simp; omega)] at hs
      cases hs

theorem nameFor_eq {names : List String} (h : found.map (·.name) = names.map .text) :
    nameFor found (candidateOf (keys, first)) = nextName names keys := by
  have htaken : found.any (fun r => r.name.same (.text (lastKey keys))) = true ↔
      lastKey keys ∈ names := by
    rw [← List.mem_map_of_injective text_injective, ← h, List.any_eq_true, List.mem_map]
    simp only [Value.same_text_iff]
  unfold nameFor nextName
  simp only [candidateOf, htaken]

theorem colorAt_eq_ok_iff {n : Nat} {color : Value} :
    colorAt palette n = .ok color ↔ palette[n % palette.length]? = some color := by
  unfold colorAt
  split <;> simp_all

theorem AreFor.of_ofCandidate (h : AreFor found palette document arrays) {rest : List Value}
    (hwalk : (Address.ofKeys keys).walk document = some (.list (first :: rest))) {color : Value}
    (hcolor : palette[found.length % palette.length]? = some color) {rule : Option Rule}
    (hrule : ofCandidate (nameFor found (candidateOf (keys, first))) color
      (candidateOf (keys, first)) = .ok rule) :
    AreFor (found ++ rule.toList) palette document (arrays ++ datedKeys [(keys, first)]) := by
  rw [nameFor_eq h.names] at hrule
  obtain ⟨dates, hdates, hrule⟩ := bind_eq_ok_iff.mp hrule
  have hdates : first.dates? = .ok dates := hdates
  cases dates with
  | none =>
    have hkeys : datedKeys [(keys, first)] = [] := by simp [datedKeys, isDated, hdates]
    cases hrule
    simpa [hkeys] using h
  | some dates =>
    have hkeys : datedKeys [(keys, first)] = [keys] := by simp [datedKeys, isDated, hdates]
    have hname : nextName (namesFor arrays) keys = lastKey keys ∨
        nextName (namesFor arrays) keys = ofKeys keys := (ite_eq_or_eq ..).symm
    cases hrule
    rw [hkeys]
    refine h.snoc ⟨first, rest, dates, ?_⟩ rfl hcolor
    exact ⟨hwalk, hdates, hname.imp (congrArg _) (congrArg _), rfl, rfl, rfl,
      List.mem_of_getElem? hcolor, rfl, rfl, rfl⟩

theorem AreFor.of_suggestFrom (hplain : document.Throughout Value.IsPlain)
    (h : AreFor found palette document arrays) {next : List (List String × Value)}
    (hnext : ∀ a ∈ next, a ∈ arraysAt document)
    (hrules : suggestFrom palette found (next.map candidateOf) = .ok rules) :
    AreFor rules palette document (arrays ++ datedKeys next) := by
  induction next generalizing found arrays with
  | nil =>
    cases hrules
    simpa [datedKeys] using h
  | cons a next ih =>
    obtain ⟨hmem, hnext⟩ := List.forall_mem_cons.mp hnext
    obtain ⟨rest, hwalk⟩ := (mem_arraysAt_iff hplain).mp hmem
    obtain ⟨color, hcolor, hrules⟩ := bind_eq_ok_iff.mp hrules
    obtain ⟨rule, hrule, hrules⟩ := bind_eq_ok_iff.mp hrules
    have hkeys : datedKeys (a :: next) = datedKeys [a] ++ datedKeys next := by
      rw [datedKeys, ← List.singleton_append, List.filter_append, List.map_append]
      rfl
    rw [hkeys, ← List.append_assoc]
    exact ih (h.of_ofCandidate hwalk (colorAt_eq_ok_iff.mp hcolor) hrule) hnext hrules

/-- The suggested rules are those for the arrays whose first item has dates. -/
theorem areFor_of_suggest (hplain : document.Throughout Value.IsPlain)
    (h : suggest palette document = .ok rules) :
    AreFor rules palette document (suggestedKeys document) := by
  rw [suggest, candidates_eq] at h
  exact areFor_nil.of_suggestFrom hplain (fun _ ha => ha) h

theorem exists_isFor (hplain : document.Throughout Value.IsPlain)
    (h : suggest palette document = .ok rules) (hr : r ∈ rules) :
    ∃ keys first rest dates, r.IsFor palette document keys first rest dates := by
  obtain ⟨i, hi, rfl⟩ := List.mem_iff_getElem.mp hr
  have heach := (areFor_of_suggest hplain h).each
  exact ⟨_, heach.get hi (heach.length_eq ▸ hi)⟩

namespace IsFor

variable {keys : List String} {first : Value} {rest : List Value} {dates : DateFields}

theorem orNull_map_text (k : Option String) :
    Value.orNull (k.map .text) = .null ∨ ∃ s, Value.orNull (k.map .text) = .text s := by
  cases k with
  | none => exact .inl rfl
  | some s => exact .inr ⟨s, rfl⟩

theorem ne_empty (h : r.IsFor palette document keys first rest dates) (hlast : lastKey keys ≠ "") :
    r.name ≠ .text "" ∧ r.array ≠ .text "" := by
  have hpath := ofKeys_ne_empty_of_lastKey hlast
  rw [h.array]
  refine ⟨?_, mt Value.text.inj hpath⟩
  rcases h.name with hname | hname
  · rw [hname]
    exact mt Value.text.inj hlast
  · rw [hname]
    exact mt Value.text.inj hpath

theorem problems_eq_nil_iff (h : r.IsFor palette document keys first rest dates) :
    problems (.object r.toFields) = [] ↔
      (r.name ≠ .text "" ∧ r.array ≠ .text "" ∧ dates.start ≠ "" ∧ dates.finish ≠ "") ∧
        ∃ s, r.color = .text s ∧ isHexColor s = true := by
  obtain ⟨name, hname⟩ : ∃ name, r.name = .text name := by
    rcases h.name with hname | hname
    · exact ⟨_, hname⟩
    · exact ⟨_, hname⟩
  rw [problems_toFields_eq_nil_iff, hname, h.array, h.start, h.finish, h.category, h.id]
  simp only [isGivenText_text_iff, ne_eq, Value.text.injEq]
  exact and_congr_right fun _ =>
    and_iff_left ⟨⟨true, h.enabled⟩, orNull_map_text _, orNull_map_text _⟩

end IsFor

end Timeline.Rule
