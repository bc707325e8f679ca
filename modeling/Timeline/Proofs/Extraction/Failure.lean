import Timeline.Proofs.Detected.Complete
import Timeline.Proofs.Detected.Distinct
import Timeline.Proofs.Detection.Failure
import Timeline.Proofs.Extraction.Marks

/-! # Failing to extract

Extraction by rules never fails. Without an enabled rule it fails exactly if some item of some array
that can be reached has a text with too many digits where its start or its end is looked for.
-/

namespace Timeline

namespace Detected

open Timeline.Path

variable {array path k : String} {file : Value} {arrays later : List (Address × List Value)}

/-- An item of one of some arrays has a text that stops the search for its dates. -/
def HasStop (arrays : List (Address × List Value)) (f : Failure) : Prop :=
  ∃ p ∈ arrays, ∃ v ∈ p.2, v.fields.Stops f

theorem hasStop_cons_iff {a : Address} {items : List Value} {f : Failure} :
    HasStop ((a, items) :: arrays) f ↔ (∃ v ∈ items, v.fields.Stops f) ∨ HasStop arrays f := by
  simp [HasStop]

theorem hasStop_append_iff {f : Failure} :
    HasStop (arrays ++ later) f ↔ HasStop arrays f ∨ HasStop later f := by
  simp only [HasStop, List.mem_append, or_and_right, exists_or]

theorem hasStop_below_iff {s : Step} {f : Failure} :
    HasStop (arrays.map (below s)) f ↔ HasStop arrays f := by
  simp only [HasStop, List.mem_map, exists_exists_and_eq_and, below]

theorem failsBy_itemEvent {item : Value} (h : item.Throughout Value.IsPlain) (index : Nat) :
    FailsBy (itemEvent? array file index item) item.fields.Stops := by
  unfold itemEvent?
  refine (Value.failsBy_dates h).bind_ok fun found hfound => ?_
  cases found with
  | none => exact ⟨none, rfl⟩
  | some keys =>
    cases item with
    | object fields =>
      obtain ⟨hstart, t, hfinish⟩ := Value.exists_instants h hfound
      obtain ⟨e, he, -⟩ := yields_event h hstart ⟨_, hfinish⟩ index
      exact ⟨e, he⟩
    | _ => cases hfound

theorem failsBy_events {items : List Value} (h : ∀ v ∈ items, v.Throughout Value.IsPlain)
    (index : Nat) :
    FailsBy (events array file index items) fun f => ∃ v ∈ items, v.fields.Stops f := by
  induction items generalizing index with
  | nil => exact (FailsBy.of_ok []).congr fun f => by simp
  | cons item rest ih =>
    obtain ⟨hitem, hrest⟩ := List.forall_mem_cons.mp h
    unfold events
    exact ((failsBy_itemEvent hitem index).combine (ih hrest (index + 1))).congr fun f => by simp

mutual

theorem failsBy_inFields (path : String) : ∀ fields : List (String × Value),
    (∀ f ∈ fields, f.2.Throughout Value.IsPlain) →
      FailsBy (inFields file path fields) (HasStop (arraysOf fields))
  | [], _ => (FailsBy.of_ok []).congr fun f => by simp [arraysOf, HasStop]
  | (k, v) :: rest, h => by
    obtain ⟨hv, hrest⟩ := List.forall_mem_cons.mp h
    rw [inFields, arraysOf]
    exact ((failsBy_inValue (join path k) k v hv).combine (failsBy_inFields path rest hrest)).congr
      fun f => hasStop_append_iff.symm

theorem failsBy_inValue (path k : String) : ∀ v : Value, v.Throughout Value.IsPlain →
    FailsBy (inValue file path v) (HasStop (arraysAt k v))
  | .list items, h => by
    have hitems : ∀ v ∈ items, v.Throughout Value.IsPlain := fun _ hv => h.of_mem_items hv
    rw [inValue, arraysAt]
    exact ((failsBy_events hitems 0).combine (failsBy_inItems path k 0 items hitems)).congr
      fun f => hasStop_cons_iff.symm
  | .object fields, h => by
    rw [inValue, arraysAt]
    exact (failsBy_inFields path fields fun _ hf => h.of_mem_fields hf).congr
      fun f => hasStop_below_iff.symm
  | .null, _ | .bool _, _ | .int _, _ | .float _, _ | .text _, _ | .moment _, _ | .day _, _
  | .tuple _, _ | .set _, _ => (FailsBy.of_ok []).congr fun f => by simp [arraysAt, HasStop]

theorem failsBy_inItems (path k : String) : ∀ (i : Nat) (items : List Value),
    (∀ v ∈ items, v.Throughout Value.IsPlain) →
      FailsBy (inItems file path i items) (HasStop (arraysIn k i items))
  | _, [], _ => (FailsBy.of_ok []).congr fun f => by simp [arraysIn, HasStop]
  | i, v :: rest, h => by
    obtain ⟨hv, hrest⟩ := List.forall_mem_cons.mp h
    have hlater := failsBy_inItems path k (i + 1) rest hrest
    cases v with
    | object fields =>
      rw [inItems, arraysIn]
      have hhere := failsBy_inFields (itemPath path i) fields fun _ hf => hv.of_mem_fields hf
      refine (hhere.combine hlater).congr fun f => ?_
      rw [hasStop_append_iff, hasStop_below_iff]
    | _ => exact hlater

end

def StopsIn (document : Value) (f : Failure) : Prop :=
  ∃ a items v, ArrayAt (searched document) a items ∧ v ∈ items ∧ v.fields.Stops f

theorem hasStop_arraysOf_iff {document : Value} {f : Failure} :
    HasStop (arraysOf (searched document)) f ↔ StopsIn document f := by
  constructor
  · rintro ⟨⟨a, items⟩, hp, v, hv, hstops⟩
    exact ⟨a, items, v, mem_arraysOf_iff.mp hp, hv, hstops⟩
  · rintro ⟨a, items, v, ha, hv, hstops⟩
    exact ⟨(a, items), mem_arraysOf_iff.mpr ha, v, hv, hstops⟩

theorem StopsIn.exists_count {document : Value} {f : Failure} (h : StopsIn document f) :
    ∃ n, Json.digitLimit < n ∧ f = .tooManyDigits n := by
  obtain ⟨a, items, v, -, -, hstops | hstops⟩ := h
  · exact hstops.exists_count
  · exact hstops.exists_count

theorem failsBy_inDocument {document : Value} (h : document.Throughout Value.IsPlain) :
    FailsBy (inDocument file document) (StopsIn document) := by
  rw [inDocument_eq]
  exact (failsBy_inFields _ (searched document) (searched_of_throughout h)).congr
    fun f => hasStop_arraysOf_iff

end Detected

namespace Extraction

variable {document : Value}

theorem failsBy_ofDocument (h : document.Throughout Value.IsPlain) (id : Value)
    (rules : List Rule) :
    FailsBy (ofDocument id document rules) fun f =>
      (∀ r ∈ rules, r.isEnabled = false) ∧ Detected.StopsIn document f := by
  by_cases henabled : ∃ r ∈ rules, r.isEnabled = true
  · obtain ⟨r, hr, henabled⟩ := henabled
    obtain ⟨x, hx⟩ := exists_ofDocument hr henabled id document
    rw [hx]
    refine (FailsBy.of_ok x).congr fun f => iff_of_false not_false ?_
    rintro ⟨hdisabled, -⟩
    cases henabled.symm.trans (hdisabled r hr)
  · have hdisabled : ∀ r ∈ rules, r.isEnabled = false := by simpa using henabled
    have hdetect : ofDocument id document rules = detect (documentName id) document := by
      rw [ofDocument, List.filter_eq_nil_iff.mpr fun r hr => by simp [hdisabled r hr]]
    rw [hdetect]
    exact ((Detected.failsBy_inDocument h).bind_ok fun found _ => ⟨_, rfl⟩).congr
      fun f => (and_iff_right hdisabled).symm

/-- Extraction from a document of the kinds of JSON returns exactly if a rule is enabled or no item
of an array that can be reached has a text with too many digits where its dates are looked for. The
digits are the only cause of a failure. -/
theorem ofDocument_outcome (h : document.Throughout Value.IsPlain) (id : Value)
    (rules : List Rule) :
    ((∃ x, ofDocument id document rules = .ok x) ↔
      (∃ r ∈ rules, r.isEnabled = true) ∨ ∀ f, ¬Detected.StopsIn document f) ∧
      ∀ f, ofDocument id document rules = .error f →
        (∃ n, Json.digitLimit < n ∧ f = .tooManyDigits n) ∧
          (∀ r ∈ rules, r.isEnabled = false) ∧ Detected.StopsIn document f := by
  have hfails := failsBy_ofDocument h id rules
  constructor
  · rw [hfails.returns_iff]
    constructor
    · intro hnone
      by_cases henabled : ∃ r ∈ rules, r.isEnabled = true
      · exact .inl henabled
      · exact .inr fun f hstops => hnone f ⟨by simpa using henabled, hstops⟩
    · rintro (⟨r, hr, henabled⟩ | hnone) f ⟨hdisabled, hstops⟩
      · cases henabled.symm.trans (hdisabled r hr)
      · exact hnone f hstops
  · intro f hf
    obtain ⟨hdisabled, hstops⟩ := hfails.sound f hf
    exact ⟨hstops.exists_count, hdisabled, hstops⟩

theorem throughout_isPlain_start (s : String) :
    (Value.object [("events", .list [.object [("start", .text s)]])]).Throughout Value.IsPlain := by
  simp [Value.IsPlain]

/-- A start with too many digits, where a rule is enabled. -/
theorem ofDocument_outcome_enabled :
    let document := Value.object [("events", .list
      [.object [("start", .text (String.ofList (List.replicate 4301 '1')))]])]
    document.Throughout Value.IsPlain ∧
      ∃ x, ofDocument (.text "d.json") document Rule.defaults = .ok x := by
  intro document
  have h := throughout_isPlain_start (String.ofList (List.replicate 4301 '1'))
  exact ⟨h, (ofDocument_outcome h _ _).1.mpr (.inl ⟨_, List.mem_cons_self, rfl⟩)⟩

end Extraction

theorem Value.isOverlong_replicate {n : Nat} (h : Json.digitLimit < n) :
    (Value.text (String.ofList (List.replicate n '1'))).IsOverlong (.tooManyDigits n) := by
  have hlist : (String.ofList (List.replicate n '1')).toList = List.replicate n '1' :=
    String.toList_ofList
  have hblank : ∀ c ∈ List.replicate n '1', Text.isBlank c = false := by
    intro c hc
    rw [List.eq_of_mem_replicate hc]
    rfl
  have htrim : Text.trim (List.replicate n '1') = List.replicate n '1' :=
    Text.trim_eq_self (fun c hc => hblank c (List.mem_of_head? hc))
      fun c hc => hblank c (List.mem_of_getLast? hc)
  have hsign : signPart (List.replicate n '1') = (false, List.replicate n '1') := by
    cases n with
    | zero => rfl
    | succ m => exact signPart_of_isDigit rfl
  have hinteger : isIntegerText (List.replicate n '1') = true := by
    rw [isIntegerText, hsign]
    have hne : n ≠ 0 := Nat.ne_zero_of_lt h
    have hdigit : Text.isDigit '1' = true := rfl
    simp [hne, hdigit]
  have hlong : (Value.text (String.ofList (List.replicate n '1'))).IsOverlong _ :=
    .text (by rwa [hlist, htrim]) (by rwa [hlist, htrim, hsign, List.length_replicate])
  rwa [hlist, htrim, hsign, List.length_replicate] at hlong

/-- A start with too many digits, where no rule is enabled. -/
theorem Extraction.ofDocument_outcome_overlong :
    let document := Value.object [("events", .list
      [.object [("start", .text (String.ofList (List.replicate 4301 '1')))]])]
    document.Throughout Value.IsPlain ∧
      ∃ f, ofDocument (.text "d.json") document [] = .error f := by
  intro document
  have h := throughout_isPlain_start (String.ofList (List.replicate 4301 '1'))
  refine ⟨h, (failsBy_ofDocument h _ _).complete (.tooManyDigits 4301)
    ⟨List.forall_mem_nil _, ?_⟩⟩
  refine ⟨_, _, _, .value List.mem_cons_self, List.mem_cons_self, .inr ?_⟩
  have hlong := Value.isOverlong_replicate (n := 4301) (by decide)
  generalize Value.text (String.ofList (List.replicate 4301 '1')) = v at hlong
  have hne : Text.lower "start" ≠ Text.lower "startDate" := by decide +kernel
  have hfirst : Fields.likeKeyword? [("start", v)] "startDate" = none := by
    simp [Fields.likeKeyword?, hne]
  have hsecond : Fields.likeKeyword? [("start", v)] "start" = some ("start", v) := by
    simp [Fields.likeKeyword?]
  exact (Fields.stopsAt_cons_iff_of_none hfirst).mpr (.here hsecond hlong)

end Timeline
