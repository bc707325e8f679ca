import Timeline.Failure

/-! # Outcomes

Operations one after the other: the whole has a result exactly if each operation has one, and
then it is that of the last.
-/

namespace Timeline

variable {α β : Type}

@[simp] theorem ok_bind (a : α) (f : α → Except Failure β) : (Except.ok a >>= f) = f a := rfl

@[simp] theorem error_bind (e : Failure) (f : α → Except Failure β) :
    (Except.error e >>= f) = .error e := rfl

@[simp] theorem pure_eq_ok (a : α) : (pure a : Except Failure α) = .ok a := rfl

theorem bind_eq_ok_iff {x : Except Failure α} {f : α → Except Failure β} {b : β} :
    (x >>= f) = .ok b ↔ ∃ a, x = .ok a ∧ f a = .ok b := by
  cases x <;> simp

theorem bind_eq_error_iff {x : Except Failure α} {f : α → Except Failure β} {e : Failure} :
    (x >>= f) = .error e ↔ x = .error e ∨ ∃ a, x = .ok a ∧ f a = .error e := by
  cases x <;> simp

theorem not_exists_first_nil {p q : α → Prop} :
    ¬∃ before a after, ([] : List α) = before ++ a :: after ∧ (∀ b ∈ before, p b) ∧ q a := by
  rintro ⟨before, a, after, hsplit, -⟩
  cases before <;> cases hsplit

/-- The first element with a property is at the head of a list, or behind it in the rest. -/
theorem exists_first_cons_iff {p q : α → Prop} {a : α} {rest : List α} :
    (∃ before b after, a :: rest = before ++ b :: after ∧ (∀ c ∈ before, p c) ∧ q b) ↔
      q a ∨ p a ∧ ∃ before b after, rest = before ++ b :: after ∧ (∀ c ∈ before, p c) ∧ q b := by
  constructor
  · rintro ⟨before, b, after, hsplit, hbefore, hb⟩
    cases before with
    | nil =>
      cases hsplit
      exact .inl hb
    | cons first before =>
      cases hsplit
      obtain ⟨hfirst, hbefore⟩ := List.forall_mem_cons.mp hbefore
      exact .inr ⟨hfirst, before, b, after, rfl, hbefore, hb⟩
  · rintro (ha | ⟨ha, before, b, after, rfl, hbefore, hb⟩)
    · exact ⟨[], a, rest, rfl, List.forall_mem_nil _, ha⟩
    · exact ⟨a :: before, b, after, rfl, List.forall_mem_cons.mpr ⟨ha, hbefore⟩, hb⟩

/-- An operation has a result, which has a property. -/
def Yields (x : Except Failure α) (p : α → Prop) : Prop :=
  ∃ a, x = .ok a ∧ p a

namespace Yields

variable {x : Except Failure α} {p q : α → Prop}

theorem of_ok {a : α} (h : p a) : Yields (.ok a) p :=
  ⟨a, rfl, h⟩

theorem ok_iff {a : α} : Yields (.ok a) p ↔ p a :=
  ⟨by rintro ⟨_, ⟨⟩, h⟩; exact h, of_ok⟩

instance [DecidablePred p] : Decidable (Yields x p) :=
  match x with
  | .ok _ => decidable_of_iff' _ ok_iff
  | .error _ => isFalse nofun

theorem mono (h : Yields x p) (hpq : ∀ a, p a → q a) : Yields x q := by
  obtain ⟨a, ha, hp⟩ := h
  exact ⟨a, ha, hpq a hp⟩

theorem bind {f : α → Except Failure β} {r : β → Prop} (h : Yields x p)
    (hf : ∀ a, p a → Yields (f a) r) : Yields (x >>= f) r := by
  obtain ⟨a, rfl, hp⟩ := h
  exact hf a hp

end Yields

/-- All results of an operation have a property, and it has a result if it has to. -/
structure Meets (must : Prop) (x : Except Failure α) (p : α → Prop) : Prop where
  returns : must → ∃ a, x = .ok a
  sound : ∀ a, x = .ok a → p a

namespace Meets

variable {must : Prop} {x : Except Failure α} {p q : α → Prop}

theorem of_ok {a : α} (h : p a) : Meets must (.ok a) p :=
  ⟨fun _ => ⟨a, rfl⟩, by rintro _ ⟨⟩; exact h⟩

theorem of_returns (h : must → ∃ a, x = .ok a) : Meets must x fun a => x = .ok a :=
  ⟨h, fun _ => id⟩

theorem mono (h : Meets must x p) (hpq : ∀ a, p a → q a) : Meets must x q :=
  ⟨h.returns, fun a ha => hpq a (h.sound a ha)⟩

theorem bind {f : α → Except Failure β} {r : β → Prop} (h : Meets must x p)
    (hf : ∀ a, p a → Meets must (f a) r) : Meets must (x >>= f) r := by
  constructor
  · intro hmust
    obtain ⟨a, rfl⟩ := h.returns hmust
    exact (hf a (h.sound a rfl)).returns hmust
  · intro b hb
    obtain ⟨a, rfl, hb⟩ := bind_eq_ok_iff.mp hb
    exact (hf a (h.sound a rfl)).sound b hb

end Meets

/-- An operation fails exactly if there is a cause for it, and then by one of the causes. -/
structure FailsBy (x : Except Failure α) (causes : Failure → Prop) : Prop where
  sound : ∀ f, x = .error f → causes f
  complete : ∀ f, causes f → ∃ g, x = .error g

namespace FailsBy

variable {x : Except Failure α} {p q : Failure → Prop}

theorem of_ok (a : α) : FailsBy (.ok a) fun _ => False :=
  ⟨nofun, nofun⟩

theorem of_iff (h : ∀ f, x = .error f ↔ p f) : FailsBy x p :=
  ⟨fun f => (h f).mp, fun f hf => ⟨f, (h f).mpr hf⟩⟩

theorem congr (h : FailsBy x p) (hpq : ∀ f, p f ↔ q f) : FailsBy x q :=
  ⟨fun f hf => (hpq f).mp (h.sound f hf), fun f hf => h.complete f ((hpq f).mpr hf)⟩

theorem bind {f : α → Except Failure β} (h : FailsBy x p)
    (hf : ∀ a, x = .ok a → FailsBy (f a) q) : FailsBy (x >>= f) fun e => p e ∨ q e := by
  cases x with
  | error g =>
    refine ⟨?_, fun e _ => ⟨g, rfl⟩⟩
    rintro e ⟨⟩
    exact .inl (h.sound g rfl)
  | ok a =>
    have hp : ∀ e, ¬p e := by
      intro e he
      obtain ⟨g, hg⟩ := h.complete e he
      cases hg
    exact (hf a rfl).congr fun e => (or_iff_right (hp e)).symm

theorem bind_ok {f : α → Except Failure β} (h : FailsBy x p)
    (hf : ∀ a, x = .ok a → ∃ b, f a = .ok b) : FailsBy (x >>= f) p := by
  refine (h.bind fun a ha => ?_).congr fun e => iff_of_eq (or_false (p e))
  obtain ⟨b, hb⟩ := hf a ha
  rw [hb]
  exact .of_ok b

theorem combine {γ : Type} {y : Except Failure β} {f : α → β → γ} (hx : FailsBy x p)
    (hy : FailsBy y q) : FailsBy (do return f (← x) (← y)) fun e => p e ∨ q e :=
  hx.bind fun _ _ => hy.bind_ok fun _ _ => ⟨_, rfl⟩

theorem returns_iff (h : FailsBy x p) : (∃ a, x = .ok a) ↔ ∀ f, ¬p f := by
  constructor
  · rintro ⟨a, rfl⟩ f hf
    obtain ⟨g, hg⟩ := h.complete f hf
    cases hg
  · intro hnone
    cases x with
    | error f => exact absurd (h.sound f rfl) (hnone f)
    | ok a => exact ⟨a, rfl⟩

end FailsBy

def holds : Except Failure Bool → Bool
  | .ok b => b
  | .error _ => false

@[simp] theorem holds_iff {x : Except Failure Bool} : holds x = true ↔ x = .ok true := by
  cases x <;> simp [holds]

theorem filterAuxM_eq_ok_iff {test : α → Except Failure Bool} {items found kept : List α} :
    items.filterAuxM test found = .ok kept ↔
      (∀ a ∈ items, ∃ b, test a = .ok b) ∧
        kept = (items.filter fun a => holds (test a)).reverse ++ found := by
  induction items generalizing found with
  | nil => simp [List.filterAuxM, eq_comm]
  | cons a items ih =>
    rw [List.filterAuxM, bind_eq_ok_iff]
    constructor
    · rintro ⟨b, hb, hrest⟩
      obtain ⟨hall, rfl⟩ := ih.mp hrest
      refine ⟨List.forall_mem_cons.mpr ⟨⟨b, hb⟩, hall⟩, ?_⟩
      cases b <;> simp [hb, holds]
    · rintro ⟨hall, rfl⟩
      obtain ⟨⟨b, hb⟩, hall⟩ := List.forall_mem_cons.mp hall
      refine ⟨b, hb, ih.mpr ⟨hall, ?_⟩⟩
      cases b <;> simp [hb, holds]

/-- Filtering by a test gives a result exactly if the test answers for every item, and then keeps
the items for which it says yes. -/
theorem filterM_eq_ok_iff {test : α → Except Failure Bool} {items kept : List α} :
    items.filterM test = .ok kept ↔
      (∀ a ∈ items, ∃ b, test a = .ok b) ∧ kept = items.filter fun a => holds (test a) := by
  rw [List.filterM, bind_eq_ok_iff]
  simp only [filterAuxM_eq_ok_iff, pure_eq_ok, List.append_nil, Except.ok.injEq]
  constructor
  · rintro ⟨_, ⟨hall, rfl⟩, rfl⟩
    exact ⟨hall, List.reverse_reverse _⟩
  · rintro ⟨hall, rfl⟩
    exact ⟨_, ⟨hall, rfl⟩, List.reverse_reverse _⟩

theorem exists_of_filterAuxM_eq_error {test : α → Except Failure Bool} {items found : List α}
    {f : Failure} (h : items.filterAuxM test found = .error f) :
    ∃ a ∈ items, test a = .error f := by
  induction items generalizing found with
  | nil => cases h
  | cons a items ih =>
    rw [List.filterAuxM, bind_eq_error_iff] at h
    rcases h with hfirst | ⟨b, -, hrest⟩
    · exact ⟨a, List.mem_cons_self, hfirst⟩
    · obtain ⟨later, hlater, hfails⟩ := ih hrest
      exact ⟨later, List.mem_cons_of_mem a hlater, hfails⟩

theorem failsBy_filterM (test : α → Except Failure Bool) (items : List α) :
    FailsBy (items.filterM test) fun f => ∃ a ∈ items, test a = .error f := by
  constructor
  · intro f h
    rw [List.filterM, bind_eq_error_iff] at h
    rcases h with hfails | ⟨_, -, hdone⟩
    · exact exists_of_filterAuxM_eq_error hfails
    · cases hdone
  · rintro f ⟨a, ha, hfails⟩
    cases hresult : items.filterM test with
    | error g => exact ⟨g, rfl⟩
    | ok kept =>
      obtain ⟨b, hb⟩ := (filterM_eq_ok_iff.mp hresult).1 a ha
      cases hfails.symm.trans hb

theorem filterM_ok (keep : α → Bool) (items : List α) :
    items.filterM (fun a => (.ok (keep a) : Except Failure Bool)) = .ok (items.filter keep) :=
  filterM_eq_ok_iff.mpr ⟨fun a _ => ⟨keep a, rfl⟩, rfl⟩

end Timeline
