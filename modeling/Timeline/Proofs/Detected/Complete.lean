import Timeline.Proofs.Detected.Names
import Timeline.Proofs.Detection.Dates
import Timeline.Proofs.Json.Writer
import Timeline.Proofs.Path.Resolve

/-! # Detection is complete

In a searchable document every array that can be reached is found by its written address, and the
events with this address are the items of the array that have a start, in order. There are no
other events.
-/

namespace Timeline

namespace Detected

open Timeline.Path

/-- Whether a value is an object with fields in which a start is found. -/
def isEvent : Value → Bool
  | .object fields =>
    !fields.isEmpty && match Fields.dates? fields with
      | .ok (some _) => true
      | _ => false
  | _ => false

/-- Whether an event is one of the array at a path. -/
def isAt (path : String) (e : Entity) : Bool :=
  e.array.same (.text path)

theorem eq_of_isAt {path array : String} {e : Entity} (h : isAt path e = true)
    (harray : e.array = .text array) : array = path :=
  Value.text.inj (harray.symm.trans (Value.same_text_iff.mp h))

section Events

variable {fields : Fields} {array : String} {file : Value}

theorem yields_event (h : (Value.object fields).Throughout Value.IsPlain) {start finish : String}
    (hstart : ∃ t, (Value.orNull (fields.get? start)).instant = .ok (some t))
    (hfinish : ∃ t, (Value.orNull (fields.get? finish)).instant = .ok t) (index : Nat) :
    Yields (event? fields array (some start) (some finish) file index) fun found =>
      found.map (·.data) = some (.object fields) ∧ ∀ e ∈ found, e.array = .text array := by
  obtain ⟨first, hfirst⟩ := hstart
  obtain ⟨last, hlast⟩ := hfinish
  have hfirst : instantOf fields (some start) = .ok (some first) := hfirst
  have hlast : instantOf fields (some finish) = .ok last := hlast
  unfold event?
  rw [hfirst, ok_bind, hlast, ok_bind]
  dsimp only
  split
  · rename_i key hid
    obtain ⟨id, hid⟩ := Value.exists_identifier (h.orNull_get? trivial key)
    rw [Value.fields] at hid
    rw [hid]
    exact .of_ok ⟨rfl, by rintro _ ⟨⟩; rfl⟩
  · exact .of_ok ⟨rfl, by rintro _ ⟨⟩; rfl⟩

theorem canBeSearched (h : (Value.object fields).IsSearchable) : fields.CanBeSearched True := by
  rintro ⟨k, v⟩ hv
  have hv := h.of_mem_fields hv
  exact ⟨hv.plain.self, fun _ => hv.dates.self⟩

theorem yields_itemEvent {item : Value} (h : item.IsSearchable) (index : Nat) :
    Yields (itemEvent? array file index item) fun found =>
      (found.map (·.data)).toList = [item].filter isEvent ∧ ∀ e ∈ found, e.array = .text array := by
  cases item with
  | object fields =>
    cases fields with
    | nil =>
      have hempty : isEvent (.object []) = false := rfl
      exact .of_ok ⟨by simp [hempty], by simp⟩
    | cons f rest =>
      obtain ⟨found, hfound⟩ := (Fields.meets_dates (canBeSearched h)).returns trivial
      have hdates : (Value.object (f :: rest)).dates? = .ok found := hfound
      unfold itemEvent?
      rw [hdates, ok_bind]
      cases found with
      | none => exact .of_ok ⟨by simp [isEvent, hfound], by simp⟩
      | some keys =>
        obtain ⟨hstart, t, hfinish⟩ := Value.exists_instants h.plain hdates
        refine (yields_event h.plain hstart ⟨_, hfinish⟩ index).mono fun found hevent => ?_
        exact ⟨by simp [hevent.1, isEvent, hfound], hevent.2⟩
  | _ => exact .of_ok ⟨rfl, by simp⟩

theorem yields_events {items : List Value} (h : ∀ v ∈ items, v.IsSearchable) (index : Nat) :
    Yields (events array file index items) fun found =>
      found.map (·.data) = items.filter isEvent ∧ ∀ e ∈ found, e.array = .text array := by
  induction items generalizing index with
  | nil => exact .of_ok ⟨rfl, by simp⟩
  | cons item rest ih =>
    obtain ⟨hitem, hrest⟩ := List.forall_mem_cons.mp h
    unfold events
    refine (yields_itemEvent hitem index).bind fun here hhere => ?_
    refine (ih hrest (index + 1)).bind fun later hlater => .of_ok ⟨?_, ?_⟩
    · rw [List.map_append, hlater.1, ← Option.toList_map, hhere.1, ← List.filter_append]
      rfl
    · simpa [or_imp, forall_and] using ⟨hhere.2, hlater.2⟩

end Events

theorem nameOf_of_isSearchable {fields : Fields} {a : Address} {items : List Value}
    (ha : ArrayAt fields a items) (h : (Value.object fields).IsSearchable) :
    nameOf a = a.render := by
  rw [nameOf, shortened_eq_self fun s hs => (ha.isWritable_steps h s hs).2]

theorem hasPathKeys_of_hasWritableKeys {v : Value} (h : v.HasWritableKeys) : v.HasPathKeys := by
  cases v with
  | object fields => exact fun f hf => ⟨(h f hf).1, (h f hf).2.1, (h f hf).2.2.1⟩
  | _ => trivial

/-- The events of some arrays are, for each of them, the items with a start, and nothing else. -/
theorem yields_eventsAt (file : Value) {found : List (Address × List Value)} (a : Address)
    (h : ∀ p ∈ found, ∀ v ∈ p.2, v.IsSearchable) :
    Yields (eventsAt file a found) fun es =>
      (∀ e ∈ es, ∃ p ∈ found, e.array = .text (nameOf (a ++ p.1))) ∧
      ((found.map fun p => nameOf (a ++ p.1)).Nodup → ∀ p ∈ found,
        (es.filter (isAt (nameOf (a ++ p.1)))).map (·.data) = p.2.filter isEvent) := by
  induction found with
  | nil => exact .of_ok ⟨by simp, by simp⟩
  | cons p rest ih =>
    obtain ⟨hp, hrest⟩ := List.forall_mem_cons.mp h
    unfold eventsAt
    refine (yields_events hp 0).bind fun here hhere => ?_
    refine (ih hrest).bind fun later hlater => .of_ok ⟨?_, ?_⟩
    · refine List.forall_mem_append.mpr ⟨fun e he => ⟨p, List.mem_cons_self, hhere.2 e he⟩, ?_⟩
      intro e he
      obtain ⟨q, hq, harray⟩ := hlater.1 e he
      exact ⟨q, List.mem_cons_of_mem _ hq, harray⟩
    · intro hnodup q hq
      obtain ⟨hnew, hnodup⟩ := List.nodup_cons.mp hnodup
      rw [List.filter_append, List.map_append]
      -- paths are distinct, so the events of one array are all here or all behind
      rcases List.mem_cons.mp hq with rfl | hq
      · have hall : here.filter (isAt (nameOf (a ++ q.1))) = here :=
          List.filter_eq_self.mpr fun e he => by simp [isAt, hhere.2 e he]
        have hnone : later.filter (isAt (nameOf (a ++ q.1))) = [] := by
          refine List.filter_eq_nil_iff.mpr fun e he hat => ?_
          obtain ⟨r, hr, harray⟩ := hlater.1 e he
          exact hnew (List.mem_map.mpr ⟨r, hr, eq_of_isAt hat harray⟩)
        rw [hall, hnone, hhere.1]
        exact List.append_nil _
      · have hnone : here.filter (isAt (nameOf (a ++ q.1))) = [] := by
          refine List.filter_eq_nil_iff.mpr fun e he hat => ?_
          exact hnew (List.mem_map.mpr ⟨q, hq, (eq_of_isAt hat (hhere.2 e he)).symm⟩)
        rw [hnone, hlater.2 hnodup q hq]
        rfl

/-- Detection is sound and complete, and what it finds can be addressed: in a searchable document
every array that is reached is found by its written address, addresses that are written alike are
the same, and the events of an array are its items with a start, in order. There are no others. -/
theorem inDocument_complete (file : Value) {fields : Fields}
    (h : (Value.object fields).IsSearchable) :
    ∃ found, inDocument file (.object fields) = .ok found ∧
      (∀ a items, ArrayAt fields a items →
        resolve (.object fields) a.render = .ok (some (.list items)) ∧
        (found.filter (isAt a.render)).map (·.data) = items.filter isEvent) ∧
      (∀ a b items others, ArrayAt fields a items → ArrayAt fields b others →
        a.render = b.render → a = b) ∧
      ∀ e ∈ found, ∃ a items, ArrayAt fields a items ∧ e.array = .text a.render := by
  have hsearch : inDocument file (.object fields) = eventsAt file [] (arraysOf fields) :=
    inFields_eq file (List.forall_mem_nil _) fields
      (havePathKeys_of_object (h.keys.mono fun _ => hasPathKeys_of_hasWritableKeys))
  have harrays : ∀ p ∈ arraysOf fields, ∀ v ∈ p.2, v.IsSearchable := fun p hp v hv =>
    ((mem_arraysOf_iff.mp hp).isSearchable h).of_mem_items hv
  have hinjective : ∀ a b items others, ArrayAt fields a items → ArrayAt fields b others →
      a.render = b.render → a = b :=
    fun a b items others ha hb => Address.render_injective (ha.isWritable h) (hb.isWritable h)
  have hname : ∀ p ∈ arraysOf fields, nameOf ([] ++ p.1) = p.1.render := fun p hp =>
    nameOf_of_isSearchable (mem_arraysOf_iff.mp hp) h
  have hnames : ((arraysOf fields).map fun p => nameOf ([] ++ p.1)).Nodup := by
    have haddresses := nodup_arraysOf fields h.nodup fun _ hf => h.plain.of_mem_fields hf
    have hmap : ((arraysOf fields).map fun p => nameOf ([] ++ p.1)) =
        ((arraysOf fields).map (·.1)).map Address.render := by
      rw [List.map_map]
      exact List.map_congr_left hname
    rw [hmap]
    refine haddresses.map_on ?_
    intro a ha b hb hab
    obtain ⟨p, hp, rfl⟩ := List.mem_map.mp ha
    obtain ⟨q, hq, rfl⟩ := List.mem_map.mp hb
    exact hinjective _ _ _ _ (mem_arraysOf_iff.mp hp) (mem_arraysOf_iff.mp hq) hab
  obtain ⟨found, hfound, hsound, hcomplete⟩ := yields_eventsAt file [] harrays
  refine ⟨found, hsearch.trans hfound, ?_, hinjective, ?_⟩
  · intro a items ha
    have hevents := hcomplete hnames (a, items) (mem_arraysOf_iff.mpr ha)
    rw [hname _ (mem_arraysOf_iff.mpr ha)] at hevents
    refine ⟨?_, hevents⟩
    have hroot := Address.render_ne_root (ha.isWritable h) fun s hs =>
      (ha.isWritable_steps h s hs).2
    rw [resolve_render _ (ha.isWritable h) hroot, ha.walk h.plain]
  · intro e he
    obtain ⟨p, hp, harray⟩ := hsound e he
    rw [hname p hp] at harray
    exact ⟨p.1, p.2, mem_arraysOf_iff.mp hp, harray⟩

/-- An array in an item of another one, below a key with a point. -/
theorem inDocument_complete_nested :
    let items : List Value := [.object [("start", .int 2)], .object [("other", .int 3)]]
    let fields : Fields := [("a.b", .list [.object [("start", .int 1), ("c", .list items)]])]
    (Value.object fields).IsSearchable ∧
      ∃ found, inDocument (.text "file") (.object fields) = .ok found ∧
        (found.filter (isAt "a\\.b[0].c")).map (·.data) = [.object [("start", .int 2)]] := by
  intro items fields
  have h : (Value.object fields).IsSearchable := by
    constructor
    · simp [fields, items, Value.IsPlain]
    · simp [fields, items, Value.HasWritableKeys, root]
    · simp [fields, items, Value.HasShortIndices, Json.digitLimit]
      decide
    · simp [fields, items, Value.CanBeRead, Value.instant, Value.truthy]
  have hinner : ArrayAt fields [⟨"a.b", some 0⟩, ⟨"c", none⟩] items :=
    .element List.mem_cons_self rfl (.value (List.mem_cons_of_mem _ List.mem_cons_self))
  have hevent : isEvent (.object [("start", .int 2)]) = true := by decide
  have hother : isEvent (.object [("other", .int 3)]) = false := by decide
  obtain ⟨found, hfound, harrays, -⟩ := inDocument_complete (.text "file") h
  refine ⟨h, found, hfound, (harrays _ _ hinner).2.trans ?_⟩
  simp [items, hevent, hother]

end Detected

end Timeline
