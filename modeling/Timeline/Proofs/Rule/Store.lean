import Timeline.Proofs.Outcome
import Timeline.Proofs.Rule.OrderedMap
import Timeline.Rule.Store

/-! # Rules as a map by name

Rules whose names are distinct texts stand for a map in the order of insertion. Each way to change
the rules of a store (putting a rule in its place, passing over the rules of a name, keeping the
last rule of each name) is an operation of the map.
-/

namespace Timeline

namespace Rule

variable {rules : List Rule} {r : Rule} {k : String}

def key (r : Rule) : String :=
  match r.name with
  | .text s => s
  | _ => ""

def IsNamed (r : Rule) : Prop :=
  r.name.isText = true

theorem IsNamed.name_eq (h : r.IsNamed) : r.name = .text r.key := by
  unfold IsNamed Value.isText at h
  unfold key
  split at h <;> simp_all

theorem isNamed_of_name_eq (h : r.name = .text k) : r.IsNamed := by
  simp [IsNamed, h, Value.isText]

/-- The map of rules: each name at its first place and with its last rule. -/
def mapOf (rules : List Rule) : OrderedMap Rule :=
  .ofPairs (rules.map fun r => (r.key, r))

/-- Rules stand for a map if their names in order are its keys and the rule found for a name is
its value. -/
structure Represents (rules : List Rule) (m : OrderedMap Rule) : Prop where
  names : rules.map (·.name) = m.keys.map .text
  value : ∀ k, rules.find? (fun r => r.name.same (.text k)) = m.value k

theorem text_injective : Function.Injective Value.text := fun _ _ h => Value.text.inj h

namespace Represents

variable {m : OrderedMap Rule} (h : Represents rules m)

include h

theorem nodup : (rules.map (·.name)).Nodup := by
  rw [h.names]
  exact m.nodup.map text_injective

theorem text_mem_names_iff : .text k ∈ rules.map (·.name) ↔ k ∈ m.keys := by
  rw [h.names]
  exact List.mem_map_of_injective text_injective

theorem isNamed (hr : r ∈ rules) : r.IsNamed := by
  have hname : r.name ∈ rules.map (·.name) := List.mem_map_of_mem hr
  rw [h.names] at hname
  obtain ⟨k, -, hk⟩ := List.mem_map.mp hname
  exact isNamed_of_name_eq hk.symm

theorem name_of_value (hr : m.value k = some r) : r.name = .text k := by
  rw [← h.value] at hr
  simpa using List.find?_some hr

theorem value_eq_some_iff : m.value k = some r ↔ r ∈ rules ∧ r.name = .text k := by
  constructor
  · intro hr
    refine ⟨?_, h.name_of_value hr⟩
    rw [← h.value] at hr
    exact List.mem_of_find?_eq_some hr
  · rintro ⟨hr, hname⟩
    have hmem : .text k ∈ rules.map (·.name) := hname ▸ List.mem_map_of_mem hr
    obtain ⟨s, hs⟩ := Option.isSome_iff_exists.mp ((m.mem_keys k).mp (h.text_mem_names_iff.mp hmem))
    have hs' : s ∈ rules := by
      have := h.value k ▸ hs
      exact List.mem_of_find?_eq_some this
    rw [hs, List.inj_on_of_nodup_map h.nodup hs' hr ((h.name_of_value hs).trans hname.symm)]

theorem eq_values : rules = m.values := by
  have hkeys : m.keys = rules.map key := by
    apply List.map_injective_iff.mpr text_injective
    rw [← h.names, List.map_map]
    exact List.map_congr_left fun r hr => (h.isNamed hr).name_eq
  have hvalue : ∀ r ∈ rules, m.value r.key = some r := fun r hr =>
    h.value_eq_some_iff.mpr ⟨hr, (h.isNamed hr).name_eq⟩
  rw [OrderedMap.values, hkeys, List.filterMap_map]
  exact (List.filterMap_congr hvalue).trans List.filterMap_some |>.symm

end Represents

theorem names_put (hr : r.name = .text k) {keys : List String}
    (h : rules.map (·.name) = keys.map .text) :
    (r.put rules).map (·.name) = (if k ∈ keys then keys else keys ++ [k]).map .text := by
  induction rules generalizing keys with
  | nil =>
    cases keys with
    | nil => simp [put, hr]
    | cons j keys => cases h
  | cons s rest ih =>
    cases keys with
    | nil => cases h
    | cons j keys =>
      simp only [List.map_cons, List.cons.injEq] at h
      obtain ⟨hs, hrest⟩ := h
      rw [put, hr]
      by_cases hj : k = j
      · subst hj
        simp [hs, hr, hrest]
      · have hne : ¬s.name.same (.text k) = true := by simp [hs, Ne.symm hj]
        rw [if_neg hne, List.map_cons, hs, ih hrest]
        by_cases hk : k ∈ keys <;> simp [hj, hk]

theorem find?_put (hr : r.name = .text k) (rules : List Rule) (j : String) :
    (r.put rules).find? (fun s => s.name.same (.text j)) =
      if j = k then some r else rules.find? fun s => s.name.same (.text j) := by
  induction rules with
  | nil => grind [put, Value.same_text_iff]
  | cons s rest ih => grind [put, Value.same_text_iff]

namespace Represents

variable {m : OrderedMap Rule}

theorem put (h : Represents rules m) (hr : r.name = .text k) :
    Represents (r.put rules) (m.insert k r) where
  names := names_put hr h.names
  value j := by
    rw [find?_put hr, h.value]
    rfl

theorem filter (h : Represents rules m) (k : String) :
    Represents (rules.filter fun r => !r.name.same (.text k)) (m.erase k) where
  names := by
    change _ = (m.keys.filter (· ≠ k)).map Value.text
    have hnames : (rules.map (·.name)).filter (fun v => !v.same (.text k)) =
        (rules.filter fun r => !r.name.same (.text k)).map (·.name) := List.filter_map
    rw [← hnames, h.names, List.filter_map]
    congr 1
    apply List.filter_congr
    intro j _
    by_cases hj : j = k <;> simp [hj]
  value j := by
    change _ = if j = k then none else m.value j
    rw [List.find?_filter, ← h.value]
    split
    · rename_i hj
      subst hj
      simp
    · rename_i hj
      congr 1
      funext r
      grind [Value.same_text_iff]

end Represents

theorem represents_nil : Represents [] .empty where
  names := rfl
  value _ := rfl

theorem represents_lastOfName (h : ∀ r ∈ rules, r.IsNamed) :
    Represents (lastOfName rules) (mapOf rules) := by
  induction rules using List.reverseRecOn with
  | nil => exact represents_nil
  | append_singleton rules r ih =>
    have hrules : ∀ r ∈ rules, r.IsNamed := fun r hr => h r (List.mem_append_left _ hr)
    have hr : r.IsNamed := h r (by simp)
    have hmap : mapOf (rules ++ [r]) = (mapOf rules).insert r.key r := by
      rw [mapOf, List.map_append]
      exact OrderedMap.ofPairs_snoc _ _ _
    rw [hmap, lastOfName, List.foldl_append]
    exact (ih hrules).put hr.name_eq

theorem distinct_eq (h : ∀ r ∈ rules, r.IsNamed) : distinct rules = .ok (lastOfName rules) := by
  have hnone : rules.findSome? (·.name.unhashable?) = none := by
    apply List.findSome?_eq_none_iff.mpr
    intro r hr
    rw [(h r hr).name_eq]
    rfl
  rw [distinct, hnone]

/-- The fields of a rule that may change. -/
def changeable : List String :=
  ["array_path", "start_date_path", "end_date_path", "color", "enabled", "y_axis_path", "id_path"]

/-- What a field holds after changes: the last value that is given for it, or else the old one. -/
def given (changes : Fields) (field : String) (old : Value) : Value :=
  (OrderedMap.lastValue changes field).getD old

/-- What a field that may be missing holds after changes; null takes it away. -/
def givenOptional (changes : Fields) (field : String) (old : Option Value) : Option Value :=
  match OrderedMap.lastValue changes field with
  | none => old
  | some v => if v.isNull then none else some v

/-- A rule with changes, field by field. The name stays. -/
structure IsChanged (r : Rule) (changes : Fields) (changed : Rule) : Prop where
  name : changed.name = r.name
  array : changed.array = given changes "array_path" r.array
  start : changed.start = given changes "start_date_path" r.start
  finish : changed.finish = given changes "end_date_path" r.finish
  color : changed.color = given changes "color" r.color
  enabled : changed.enabled = given changes "enabled" r.enabled
  category : changed.category = givenOptional changes "y_axis_path" r.category
  id : changed.id = givenOptional changes "id_path" r.id

/-- The first field among changes that may not change. -/
def FirstUnknown (changes : Fields) (field : String) : Prop :=
  ∃ before c after, changes = before ++ c :: after ∧ (∀ b ∈ before, b.1 ∈ changeable) ∧
    (c.1 ∉ changeable ∧ c.1 = field)

section Changes

variable {field : String} {v : Value} {s changed : Rule} {changes : Fields}

theorem given_cons (old : Value) (j : String) :
    given ((field, v) :: changes) j old = given changes j (if j = field then v else old) := by
  rw [given, OrderedMap.lastValue_cons, given]
  by_cases hj : j = field <;> cases OrderedMap.lastValue changes j <;> simp [hj]

theorem givenOptional_cons (old : Option Value) (j : String) :
    givenOptional ((field, v) :: changes) j old =
      givenOptional changes j (if j = field then optional v else old) := by
  rw [givenOptional, OrderedMap.lastValue_cons, givenOptional]
  by_cases hj : j = field <;> cases OrderedMap.lastValue changes j <;> simp [hj, optional]

theorem isChanged_iff :
    r.IsChanged changes changed ↔ changed = {
      name := r.name
      array := given changes "array_path" r.array
      start := given changes "start_date_path" r.start
      finish := given changes "end_date_path" r.finish
      color := given changes "color" r.color
      enabled := given changes "enabled" r.enabled
      category := givenOptional changes "y_axis_path" r.category
      id := givenOptional changes "id_path" r.id } := by
  constructor
  · rintro ⟨hname, harray, hstart, hfinish, hcolor, henabled, hcategory, hid⟩
    cases changed
    simp_all
  · rintro rfl
    constructor <;> rfl

theorem isChanged_nil_iff : r.IsChanged [] changed ↔ changed = r :=
  isChanged_iff

theorem isChanged_cons_iff (h : r.set? field v = some s) :
    r.IsChanged ((field, v) :: changes) changed ↔ s.IsChanged changes changed := by
  unfold set? at h
  split at h <;> cases h <;> simp [isChanged_iff, given_cons, givenOptional_cons]

theorem set?_eq_none_iff : r.set? field v = none ↔ field ∉ changeable := by
  unfold set? changeable
  split <;> simp_all

theorem mem_changeable (h : r.set? field v = some s) : field ∈ changeable := by
  by_contra hunknown
  cases h.symm.trans (set?_eq_none_iff.mpr hunknown)

/-- Changes to fields that may change make a rule with just these changes. -/
theorem change_eq_ok_iff :
    r.change changes = .ok changed ↔
      (∀ c ∈ changes, c.1 ∈ changeable) ∧ r.IsChanged changes changed := by
  induction changes generalizing r with
  | nil =>
    rw [isChanged_nil_iff]
    simp [change, eq_comm]
  | cons c rest ih =>
    obtain ⟨field, v⟩ := c
    rw [change, List.forall_mem_cons]
    cases hset : r.set? field v with
    | none => exact iff_of_false nofun fun h => set?_eq_none_iff.mp hset h.1.1
    | some s =>
      rw [isChanged_cons_iff hset, and_iff_right (mem_changeable hset)]
      exact ih

theorem change_eq_error_iff {f : Failure} :
    r.change changes = .error f ↔
      ∃ field, FirstUnknown changes field ∧ f = .unknownField field := by
  induction changes generalizing r with
  | nil => exact iff_of_false nofun fun ⟨field, hfirst, _⟩ => not_exists_first_nil hfirst
  | cons c rest ih =>
    obtain ⟨field, v⟩ := c
    have hcons : ∀ j, FirstUnknown ((field, v) :: rest) j ↔
        (field ∉ changeable ∧ field = j) ∨ field ∈ changeable ∧ FirstUnknown rest j :=
      fun j => exists_first_cons_iff
    rw [change]
    simp only [hcons]
    cases hset : r.set? field v with
    | none =>
      have hunknown := set?_eq_none_iff.mp hset
      simp [hunknown, eq_comm]
    | some s => simpa [mem_changeable hset] using ih

end Changes

theorem replaceFirst_eq_put (hr : r.name = .text k) (h : ∃ s ∈ rules, s.name = .text k) :
    RuleStore.replaceFirst (.text k) r rules = r.put rules := by
  induction rules with
  | nil =>
    obtain ⟨s, hs, -⟩ := h
    cases hs
  | cons t rest ih =>
    rw [RuleStore.replaceFirst, put, hr]
    by_cases ht : t.name = .text k
    · simp [ht]
    · obtain ⟨s, hs, hname⟩ := h
      rcases List.mem_cons.mp hs with rfl | hs
      · exact absurd hname ht
      · simp [ht, ih ⟨s, hs, hname⟩]

theorem isNamed_of_mem_defaults : ∀ r ∈ defaults, r.IsNamed := by
  simp [defaults, preset, IsNamed, Value.isText]

theorem lastOfName_defaults : lastOfName defaults = defaults := by
  simp [lastOfName, defaults, put, preset]

theorem represents_defaults : Represents defaults (mapOf defaults) := by
  have h := represents_lastOfName isNamed_of_mem_defaults
  rwa [lastOfName_defaults] at h

end Rule

theorem RuleStore.make_defaults (path : Option String) :
    make Rule.defaults path = .ok ⟨Rule.defaults, path⟩ := by
  rw [make, Rule.distinct_eq Rule.isNamed_of_mem_defaults, Rule.lastOfName_defaults]
  rfl

end Timeline
