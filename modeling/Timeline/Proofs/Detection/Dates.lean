import Timeline.Detection
import Timeline.Proofs.Time.Failure

/-! # Detected dates

The search for the start and the end of an object goes by stages: exact matches, keys that hold a
keyword, and any field that looks like a date. Each stage finds fields that hold dates. Looking for
them does not fail if the values of the object can be read as dates or not, and only a field whose
key is a keyword has to be read.
-/

namespace Timeline

variable {must : Prop}

namespace Value

variable {v : Value}

theorem looksLikeDate_cases (hplain : v.IsPlain) :
    v.looksLikeDate = .ok false ∨
      v.looksLikeDate = (do return (← v.instant).isSome) ∧ ∃ t, v.instant = .ok t := by
  cases v with
  | int n =>
    rw [looksLikeDate]
    split
    · exact .inr ⟨rfl, exists_instant hplain nofun⟩
    · exact .inl rfl
  | float x =>
    rw [looksLikeDate]
    split
    · exact .inr ⟨rfl, exists_instant hplain nofun⟩
    · exact .inl rfl
  | text s =>
    rw [looksLikeDate]
    split
    · rename_i hs
      have hinteger := isIntegerText_eq_false_of_startsLikeDate hs
      have hne : s ≠ "" := by
        rintro rfl
        revert hs
        decide
      have hread : (text s).instant = readInstant s := by simp [instant, truthy, hne]
      rw [hread]
      exact .inr ⟨rfl, exists_readInstant fun htrue => by simp [hinteger] at htrue⟩
    · exact .inl rfl
  | moment m => exact hplain.elim
  | day d => exact hplain.elim
  | _ => exact .inl rfl

theorem yields_looksLikeDate (hplain : v.IsPlain) :
    Yields v.looksLikeDate fun b => b = true → ∃ t, v.instant = .ok (some t) := by
  rcases looksLikeDate_cases hplain with hlooks | ⟨hlooks, t, ht⟩
  · rw [hlooks]
    exact .of_ok (by simp)
  · rw [hlooks, ht]
    refine .of_ok fun hsome => ?_
    obtain ⟨u, rfl⟩ := Option.isSome_iff_exists.mp hsome
    exact ⟨u, rfl⟩

theorem looksLikeDate_eq_false (hplain : v.IsPlain) (h : v.instant = .ok none) :
    v.looksLikeDate = .ok false := by
  rcases looksLikeDate_cases hplain with hlooks | ⟨hlooks, -⟩
  · exact hlooks
  · rw [hlooks, h]
    rfl

end Value

namespace Fields

variable {fields : Fields} {key : String} {keywords : List String} {v : Value}

/-- A field with a key holds a date. -/
def HasDate (fields : Fields) (key : String) : Prop :=
  ∃ v t, (key, v) ∈ fields ∧ v.instant = .ok (some t)

def LooksDated (fields : Fields) (key : String) : Prop :=
  ∃ v, (key, v) ∈ fields ∧ v.looksLikeDate = .ok true

/-- A key holds one of some keywords, in any case. -/
def HoldsKeyword (keywords : List String) (key : String) : Prop :=
  ∃ keyword ∈ keywords, Text.occursIn (Text.lower keyword).toList (Text.lower key).toList = true

theorem HasDate.of_instant (hv : (key, v) ∈ fields) (h : ∃ t, v.instant = .ok (some t)) :
    fields.HasDate key := by
  obtain ⟨t, ht⟩ := h
  exact ⟨v, t, hv, ht⟩

theorem LooksDated.hasDate (hplain : ∀ f ∈ fields, f.2.IsPlain) (h : fields.LooksDated key) :
    fields.HasDate key := by
  obtain ⟨v, hv, hlooks⟩ := h
  obtain ⟨b, hb, hdate⟩ := Value.yields_looksLikeDate (hplain _ hv)
  cases hlooks.symm.trans hb
  exact .of_instant hv (hdate rfl)

theorem looksDated_of_looksLikeDate
    (h : (Value.orNull (get? fields key)).looksLikeDate = .ok true) : fields.LooksDated key := by
  cases hget : get? fields key with
  | none =>
    rw [hget] at h
    cases h
  | some v =>
    rw [hget] at h
    exact ⟨v, mem_of_get? hget, h⟩

theorem HoldsKeyword.mono {others : List String} (h : HoldsKeyword keywords key)
    (hsub : ∀ keyword ∈ keywords, keyword ∈ others) : HoldsKeyword others key :=
  h.imp fun _ hk => hk.imp_left (hsub _)

/-- The first field of one of some keywords has a key and holds a date. -/
def IsExact (fields : Fields) (keywords : List String) (key : String) : Prop :=
  ∃ keyword ∈ keywords, ∃ v t, likeKeyword? fields keyword = some (key, v) ∧
    v.instant = .ok (some t)

theorem IsExact.hasDate (h : fields.IsExact keywords key) : fields.HasDate key := by
  obtain ⟨_, -, v, t, hlike, ht⟩ := h
  exact ⟨v, t, List.mem_of_find?_eq_some hlike, ht⟩

theorem meets_exactMatch (hread : must → ∀ f ∈ fields, f.2.CanBeRead) (keywords : List String) :
    Meets must (exactMatch? fields keywords) fun found =>
      ∀ key ∈ found, fields.IsExact keywords key := by
  induction keywords with
  | nil => exact .of_ok (by simp)
  | cons keyword rest ih =>
    have hrest := ih.mono fun _ hfound key hkey =>
      (hfound key hkey).imp fun _ hk => hk.imp_left (List.mem_cons_of_mem keyword)
    unfold exactMatch?
    cases hlike : likeKeyword? fields keyword with
    | none => exact hrest
    | some f =>
      obtain ⟨key, v⟩ := f
      have hmem : (key, v) ∈ fields := List.mem_of_find?_eq_some hlike
      refine (Meets.of_returns fun hmust => hread hmust _ hmem).bind fun t ht => ?_
      cases t with
      | none => exact hrest
      | some t =>
        refine .of_ok ?_
        rintro _ ⟨⟩
        exact ⟨keyword, List.mem_cons_self, v, t, hlike, ht⟩

/-- The start that is looked for behind the exact matches, when the ends are known. -/
def otherStart? (fields : Fields) (ends : List String) (finish : Option String) :
    Except Failure (Option String) := do
  let starts ← partialMatches fields [] startKeywords
  orElse? (starts.find? (fun key => some key ≠ finish)) do
    orElse? (← firstDate? (ends ++ finish.toList) fields) do
      match finish with
      | none => return none
      | some key =>
        if ends.all (· = key) && (← (Value.orNull (get? fields key)).looksLikeDate)
        then return some key
        else return none

theorem dates?_eq_stages (fields : Fields) : fields.dates? = do
    let ends ← partialMatches fields [] endKeywords
    let exactEnd ← exactMatch? fields endKeywords
    let exactStart ← exactMatch? fields startKeywords
    let finish := exactEnd.or ends.head?
    let start ← orElse? exactStart (fields.otherStart? ends finish)
    return start.map fun key => ⟨key, finish.getD key⟩ :=
  rfl

section Looks

variable (hlooks : must → ∀ f ∈ fields, ∃ b, f.2.looksLikeDate = .ok b)

include hlooks

theorem meets_partialMatchesOf (keyword : String) (found : List String) {part : Fields}
    (hpart : ∀ f ∈ part, f ∈ fields) :
    Meets must (partialMatchesOf keyword found part) fun keys =>
      ∀ key ∈ keys, HoldsKeyword [keyword] key ∧ fields.LooksDated key := by
  induction part generalizing found with
  | nil => exact .of_ok (List.forall_mem_nil _)
  | cons f rest ih =>
    obtain ⟨key, v⟩ := f
    obtain ⟨hmem, hrest⟩ := List.forall_mem_cons.mp hpart
    have hlater : ∀ matched : Bool,
        (matched = true → HoldsKeyword [keyword] key ∧ fields.LooksDated key) →
        Meets must (do
          let later ← partialMatchesOf keyword (if matched then found ++ [key] else found) rest
          return if matched then key :: later else later)
          fun keys => ∀ key ∈ keys, HoldsKeyword [keyword] key ∧ fields.LooksDated key := by
      intro matched hkey
      refine (ih _ hrest).bind fun later hlater => .of_ok ?_
      cases matched with
      | false => exact hlater
      | true => exact List.forall_mem_cons.mpr ⟨hkey rfl, hlater⟩
    unfold partialMatchesOf
    dsimp only
    split
    · rename_i hholds
      rw [Bool.and_eq_true] at hholds
      refine (Meets.of_returns fun hmust => hlooks hmust _ hmem).bind fun matched hmatched =>
        hlater matched ?_
      rintro rfl
      exact ⟨⟨keyword, List.mem_singleton_self _, hholds.2⟩, v, hmem, hmatched⟩
    · exact hlater false (by simp)

theorem meets_partialMatches {found all : List String} (hall : ∀ keyword ∈ keywords, keyword ∈ all)
    (hfound : ∀ key ∈ found, HoldsKeyword all key ∧ fields.LooksDated key) :
    Meets must (partialMatches fields found keywords) fun keys =>
      ∀ key ∈ keys, HoldsKeyword all key ∧ fields.LooksDated key := by
  induction keywords generalizing found with
  | nil => exact .of_ok hfound
  | cons keyword rest ih =>
    obtain ⟨hkeyword, hrest⟩ := List.forall_mem_cons.mp hall
    refine (meets_partialMatchesOf hlooks keyword found fun _ => id).bind fun new hnew =>
      ih hrest ?_
    refine List.forall_mem_append.mpr ⟨hfound, fun key hkey => (hnew key hkey).imp_left ?_⟩
    exact (·.mono (List.forall_mem_singleton.mpr hkeyword))

theorem meets_firstDate (except : List String) {part : Fields} (hpart : ∀ f ∈ part, f ∈ fields) :
    Meets must (firstDate? except part) fun found => ∀ key ∈ found, fields.LooksDated key := by
  induction part with
  | nil => exact .of_ok (by simp)
  | cons f rest ih =>
    obtain ⟨key, v⟩ := f
    obtain ⟨hmem, hrest⟩ := List.forall_mem_cons.mp hpart
    unfold firstDate?
    refine (Meets.of_returns fun hmust => hlooks hmust _ hmem).bind fun b hb => ?_
    split
    · rename_i hfirst
      rw [Bool.and_eq_true] at hfirst
      refine .of_ok ?_
      rintro _ ⟨⟩
      exact ⟨v, hmem, hfirst.2 ▸ hb⟩
    · exact ih hrest

omit hlooks in
theorem meets_orElse {p : String → Prop} {found : Option String}
    {later : Except Failure (Option String)} (hfound : ∀ key ∈ found, p key)
    (hlater : Meets must later fun found => ∀ key ∈ found, p key) :
    Meets must (orElse? found later) fun found => ∀ key ∈ found, p key := by
  cases found with
  | none => exact hlater
  | some key => exact .of_ok hfound

theorem meets_otherStart (ends : List String) (finish : Option String) :
    Meets must (fields.otherStart? ends finish) fun start =>
      ∀ key ∈ start, fields.LooksDated key := by
  refine (meets_partialMatches hlooks (fun _ => id) (List.forall_mem_nil _)).bind
    fun starts hstarts => ?_
  refine meets_orElse (fun key hkey => (hstarts key (List.mem_of_find?_eq_some hkey)).2) ?_
  refine (meets_firstDate hlooks _ fun _ => id).bind fun first hfirst => meets_orElse hfirst ?_
  cases finish with
  | none => exact .of_ok (by simp)
  | some key =>
    have hvalue : must → ∃ b, (Value.orNull (get? fields key)).looksLikeDate = .ok b := by
      intro hmust
      cases hget : get? fields key with
      | none => exact ⟨false, rfl⟩
      | some v => exact hlooks hmust _ (mem_of_get? hget)
    refine (Meets.of_returns hvalue).bind fun b hb => ?_
    split
    · rename_i hlone
      rw [Bool.and_eq_true] at hlone
      refine .of_ok ?_
      rintro _ ⟨⟩
      exact looksDated_of_looksLikeDate (hlone.2 ▸ hb)
    · exact .of_ok (by simp)

end Looks

/-- How the start and the end of an object were found: each is an exact match if there is one. Any
other start looks like a date, and any other end is the first field that looks like one and holds a
keyword of ends, or else the start. -/
structure FoundBy (fields : Fields) (found : Option DateFields) (exactStart exactEnd : Option String)
    (ends : List String) : Prop where
  exact_start : exactMatch? fields startKeywords = .ok exactStart
  exact_end : exactMatch? fields endKeywords = .ok exactEnd
  end_holds : ∀ key ∈ ends, HoldsKeyword endKeywords key ∧ fields.LooksDated key
  start_eq : ∀ key ∈ exactStart, ∃ keys ∈ found, keys.start = key
  start_looks : exactStart = none → ∀ keys ∈ found, fields.LooksDated keys.start
  finish_eq : ∀ keys ∈ found, keys.finish = (exactEnd.or ends.head?).getD keys.start

theorem exists_foundBy {found : Option DateFields} (h : dates? fields = .ok found) :
    ∃ exactStart exactEnd ends, FoundBy fields found exactStart exactEnd ends := by
  rw [dates?_eq_stages] at h
  obtain ⟨ends, hends, h⟩ := bind_eq_ok_iff.mp h
  obtain ⟨exactEnd, hexactEnd, h⟩ := bind_eq_ok_iff.mp h
  obtain ⟨exactStart, hexactStart, h⟩ := bind_eq_ok_iff.mp h
  obtain ⟨start, hstart, h⟩ := bind_eq_ok_iff.mp h
  cases h
  refine ⟨exactStart, exactEnd, ends, hexactStart, hexactEnd, ?_, ?_, ?_, ?_⟩
  · exact (meets_partialMatches False.elim (fun _ => id) (List.forall_mem_nil _)).sound ends hends
  · rintro key rfl
    cases hstart
    exact ⟨_, rfl, rfl⟩
  · rintro rfl keys hkeys
    obtain ⟨key, hkey, rfl⟩ := Option.map_eq_some_iff.mp hkeys
    exact (meets_otherStart False.elim _ _).sound start hstart key hkey
  · intro keys hkeys
    obtain ⟨key, -, rfl⟩ := Option.map_eq_some_iff.mp hkeys
    rfl

namespace FoundBy

variable {found : Option DateFields} {exactStart exactEnd : Option String} {ends : List String}
  {keys : DateFields}

theorem start_cases (h : FoundBy fields found exactStart exactEnd ends) (hkeys : keys ∈ found) :
    exactStart = some keys.start ∧ fields.IsExact startKeywords keys.start ∨
      exactStart = none ∧ fields.LooksDated keys.start := by
  cases hexact : exactStart with
  | none => exact .inr ⟨rfl, h.start_looks hexact keys hkeys⟩
  | some key =>
    obtain ⟨_, hsame, rfl⟩ := h.start_eq key hexact
    cases hkeys.symm.trans hsame
    exact .inl ⟨rfl, (meets_exactMatch False.elim _).sound _ h.exact_start _ hexact⟩

theorem finish_cases (h : FoundBy fields found exactStart exactEnd ends) (hkeys : keys ∈ found) :
    exactEnd = some keys.finish ∧ fields.IsExact endKeywords keys.finish ∨
      HoldsKeyword endKeywords keys.finish ∧ fields.LooksDated keys.finish ∨
      keys.finish = keys.start := by
  have hfinish := h.finish_eq keys hkeys
  cases hexact : exactEnd with
  | some key =>
    rw [hexact] at hfinish
    obtain rfl : keys.finish = key := hfinish
    exact .inl ⟨rfl, (meets_exactMatch False.elim _).sound _ h.exact_end _ hexact⟩
  | none =>
    cases hends : ends.head? with
    | some key =>
      rw [hexact, hends] at hfinish
      obtain rfl : keys.finish = key := hfinish
      exact .inr (.inl (h.end_holds _ (List.mem_of_head? hends)))
    | none =>
      rw [hexact, hends] at hfinish
      exact .inr (.inr hfinish)

theorem hasDate (h : FoundBy fields found exactStart exactEnd ends)
    (hplain : ∀ f ∈ fields, f.2.IsPlain) (hkeys : keys ∈ found) :
    fields.HasDate keys.start ∧ fields.HasDate keys.finish := by
  have hstart : fields.HasDate keys.start := by
    rcases h.start_cases hkeys with ⟨-, hexact⟩ | ⟨-, hlooks⟩
    · exact hexact.hasDate
    · exact hlooks.hasDate hplain
  refine ⟨hstart, ?_⟩
  rcases h.finish_cases hkeys with ⟨-, hexact⟩ | ⟨-, hlooks⟩ | hsame
  · exact hexact.hasDate
  · exact hlooks.hasDate hplain
  · exact hsame ▸ hstart

end FoundBy

section Plain

variable (hplain : ∀ f ∈ fields, f.2.IsPlain)

include hplain

theorem exists_looksLikeDate : ∀ f ∈ fields, ∃ b, f.2.looksLikeDate = .ok b := by
  intro f hf
  obtain ⟨b, hb, -⟩ := Value.yields_looksLikeDate (hplain f hf)
  exact ⟨b, hb⟩

theorem exists_partialMatches (keywords : List String) :
    ∃ keys, partialMatches fields [] keywords = .ok keys :=
  (meets_partialMatches (fun _ => exists_looksLikeDate hplain) (fun _ => id)
    (List.forall_mem_nil _)).returns trivial

theorem exists_start (ends : List String) (finish exactStart : Option String) :
    ∃ start, orElse? exactStart (fields.otherStart? ends finish) = .ok start := by
  cases exactStart with
  | some key => exact ⟨_, rfl⟩
  | none => exact (meets_otherStart (fun _ => exists_looksLikeDate hplain) ends finish).returns trivial

end Plain

/-- The values of some fields are of kinds of JSON, and can be read as dates or not if they have
to. -/
def CanBeSearched (must : Prop) (fields : Fields) : Prop :=
  ∀ f ∈ fields, f.2.IsPlain ∧ (must → f.2.CanBeRead)

/-- The start and the end that are found in an object are dates, and looking for them does not fail
if every value can be read. -/
theorem meets_dates (h : fields.CanBeSearched must) :
    Meets must fields.dates? fun found =>
      ∀ keys ∈ found, fields.HasDate keys.start ∧ fields.HasDate keys.finish := by
  have hplain : ∀ f ∈ fields, f.2.IsPlain := fun f hf => (h f hf).1
  constructor
  · intro hmust
    have hread : ∀ f ∈ fields, f.2.CanBeRead := fun f hf => (h f hf).2 hmust
    obtain ⟨ends, hends⟩ := exists_partialMatches hplain endKeywords
    obtain ⟨exactEnd, hexactEnd⟩ := (meets_exactMatch (fun _ => hread) endKeywords).returns trivial
    obtain ⟨exactStart, hexactStart⟩ :=
      (meets_exactMatch (fun _ => hread) startKeywords).returns trivial
    obtain ⟨start, hstart⟩ := exists_start hplain ends (exactEnd.or ends.head?) exactStart
    rw [dates?_eq_stages, hends, ok_bind, hexactEnd, ok_bind, hexactStart, ok_bind]
    exact ⟨_, bind_eq_ok_iff.mpr ⟨start, hstart, rfl⟩⟩
  · intro found hfound keys hkeys
    obtain ⟨_, _, _, hby⟩ := exists_foundBy hfound
    exact hby.hasDate hplain hkeys

end Fields

namespace Value

theorem exists_instants {v : Value} {keys : DateFields} (hplain : v.Throughout IsPlain)
    (h : v.dates? = .ok (some keys)) :
    (∃ t, (orNull (v.fields.get? keys.start)).instant = .ok (some t)) ∧
      ∃ t, (orNull (v.fields.get? keys.finish)).instant = .ok (some t) := by
  have hnodup : (v.fields.map (·.1)).Nodup := by
    cases v with
    | object fields => exact hplain.self
    | _ => exact List.nodup_nil
  have hsearch : v.fields.CanBeSearched False := by
    rintro ⟨k, w⟩ hw
    exact ⟨(hplain.of_get? (Fields.get?_of_mem hnodup hw)).self, False.elim⟩
  have hdates : v.fields.dates? = .ok (some keys) := by
    unfold dates? at h
    split at h
    · cases h
    · exact h
  have hinstant : ∀ k, v.fields.HasDate k →
      ∃ t, (orNull (v.fields.get? k)).instant = .ok (some t) := by
    rintro k ⟨w, t, hw, ht⟩
    rw [Fields.get?_of_mem hnodup hw]
    exact ⟨t, ht⟩
  obtain ⟨hstart, hfinish⟩ := (Fields.meets_dates hsearch).sound _ hdates _ rfl
  exact ⟨hinstant _ hstart, hinstant _ hfinish⟩

end Value

end Timeline
