import Timeline.Proofs.Path.Keys

/-! # Joined keys

Keys one below the other are joined by points that are not escaped, so they can be read off their
path again, also where they have brackets. Keys without brackets lead where their path leads.
-/

namespace Timeline.Path

variable {keys others : List String} {v w : Value}

def IsPointed (cs : List Char) : Prop :=
  ∀ c ∈ cs.head?, c = '.'

theorem not_isPointed_escapeChars (c : Char) (cs rest : List Char) :
    ¬IsPointed (escapeChars (c :: cs) ++ rest) := by
  intro h
  unfold escapeChars at h
  split at h
  · exact absurd (h '\\' rfl) (by decide)
  · rename_i hc
    exact hc (.inr (h c rfl))

/-- A written key ends where a point follows that is not escaped. -/
theorem escapeChars_append_inj {cs ds rest tail : List Char} (hrest : IsPointed rest)
    (htail : IsPointed tail) (h : escapeChars cs ++ rest = escapeChars ds ++ tail) :
    cs = ds ∧ rest = tail := by
  induction cs generalizing ds with
  | nil =>
    cases ds with
    | nil => exact ⟨rfl, h⟩
    | cons d ds =>
      have hrest' : IsPointed (escapeChars (d :: ds) ++ tail) := h ▸ hrest
      exact absurd hrest' (not_isPointed_escapeChars d ds tail)
  | cons c cs ih =>
    cases ds with
    | nil =>
      have htail' : IsPointed (escapeChars (c :: cs) ++ rest) := h ▸ htail
      exact absurd htail' (not_isPointed_escapeChars c cs rest)
    | cons d ds =>
      have hfirst : c = d ∧ escapeChars cs ++ rest = escapeChars ds ++ tail := by
        simp only [escapeChars] at h
        split_ifs at h with hc hd hd
        · simpa using h
        · exact absurd (.inl (List.cons.inj h).1.symm) hd
        · exact absurd (.inl (List.cons.inj h).1) hc
        · simpa using h
      obtain ⟨rfl, hsame⟩ := hfirst
      obtain ⟨rfl, rfl⟩ := ih hsame
      exact ⟨rfl, rfl⟩

def pointed (keys : List String) : List Char :=
  keys.flatMap fun k => '.' :: escapeChars k.toList

theorem isPointed_pointed (keys : List String) : IsPointed (pointed keys) := by
  cases keys with
  | nil => exact fun c hc => by cases hc
  | cons k keys => rintro c ⟨⟩; rfl

theorem pointed_injective : Function.Injective pointed := by
  intro keys others h
  induction keys generalizing others with
  | nil =>
    cases others with
    | nil => rfl
    | cons k others => cases h
  | cons k keys ih =>
    cases others with
    | nil => cases h
    | cons j others =>
      obtain ⟨hkey, hkeys⟩ := escapeChars_append_inj (isPointed_pointed keys)
        (isPointed_pointed others) (List.cons.inj h).2
      rw [String.toList_inj.mp hkey, ih hkeys]

theorem foldl_join_eq (path : String) (keys : List String) :
    keys.foldl join path = Address.renderBelow path (Address.ofKeys keys) := by
  induction keys generalizing path with
  | nil => rfl
  | cons k keys ih => exact ih (join path k)

theorem toList_foldl_join {path : String} (h : path ≠ "") (keys : List String) :
    (keys.foldl join path).toList = path.toList ++ pointed keys := by
  rw [foldl_join_eq, Address.toList_renderBelow h, Address.ofKeys, List.flatMap_map, pointed]
  simp only [Step.written, Step.indexChars, List.append_nil]

theorem toList_foldl_join_cons {k : String} (hk : k ≠ "") (rest : List String) :
    ((k :: rest).foldl join "").toList = escapeChars k.toList ++ pointed rest := by
  have hfirst : join "" k ≠ "" := escape_ne_empty hk
  rw [List.foldl_cons, toList_foldl_join hfirst]
  simp [join, escape]

theorem foldl_join_cons_ne_empty {k : String} (hk : k ≠ "") (rest : List String) :
    (k :: rest).foldl join "" ≠ "" := by
  intro hempty
  have hnil := toList_foldl_join_cons hk rest
  rw [hempty] at hnil
  exact escapeChars_ne_nil (mt String.toList_eq_nil_iff.mp hk)
    (List.append_eq_nil_iff.mp hnil.symm).1

theorem foldl_join_inj_of_head (hkeys : ∀ k ∈ keys.head?, k ≠ "")
    (hothers : ∀ k ∈ others.head?, k ≠ "") (h : keys.foldl join "" = others.foldl join "") :
    keys = others := by
  cases keys with
  | nil =>
    cases others with
    | nil => rfl
    | cons j others => exact absurd h.symm (foldl_join_cons_ne_empty (hothers j rfl) others)
  | cons k keys =>
    have hk := hkeys k rfl
    cases others with
    | nil => exact absurd h (foldl_join_cons_ne_empty hk keys)
    | cons j others =>
      have hsame := congrArg String.toList h
      rw [toList_foldl_join_cons hk, toList_foldl_join_cons (hothers j rfl)] at hsame
      obtain ⟨hkey, hrest⟩ := escapeChars_append_inj (isPointed_pointed keys)
        (isPointed_pointed others) hsame
      rw [String.toList_inj.mp hkey, pointed_injective hrest]

theorem foldl_join_inj (hkeys : ∀ k ∈ keys, k ≠ "") (hothers : ∀ k ∈ others, k ≠ "")
    (h : keys.foldl join "" = others.foldl join "") : keys = others :=
  foldl_join_inj_of_head (fun k hk => hkeys k (List.mem_of_head? hk))
    (fun k hk => hothers k (List.mem_of_head? hk)) h

theorem foldl_join_below_inj {path : String} (hkeys : ∀ k ∈ keys, k ≠ "")
    (hothers : ∀ k ∈ others, k ≠ "") (h : keys.foldl join path = others.foldl join path) :
    keys = others := by
  by_cases hpath : path = ""
  · subst hpath
    exact foldl_join_inj hkeys hothers h
  · have hchars := congrArg String.toList h
    rw [toList_foldl_join hpath, toList_foldl_join hpath] at hchars
    exact pointed_injective (List.append_cancel_left hchars)

/-- The keys behind the empty ones at the front, which leave nothing in a path. -/
def dropEmpty (keys : List String) : List String :=
  keys.dropWhile (· = "")

theorem dropEmpty_eq_self (h : "" ∉ keys) : dropEmpty keys = keys := by
  cases keys with
  | nil => rfl
  | cons k keys =>
    have hk : k ≠ "" := fun hk => h (hk ▸ List.mem_cons_self)
    exact List.dropWhile_cons_of_neg (by simpa using hk)

theorem foldl_join_dropEmpty (keys : List String) :
    (dropEmpty keys).foldl join "" = keys.foldl join "" := by
  induction keys with
  | nil => rfl
  | cons k keys ih =>
    by_cases hk : k = ""
    · have hjoin : join "" "" = "" := by decide
      subst hk
      rw [List.foldl_cons, hjoin, ← ih]
      rfl
    · simp [dropEmpty, hk]

theorem ofKeys_eq_iff (hkeys : keys ≠ []) (hothers : others ≠ []) :
    ofKeys keys = ofKeys others ↔ dropEmpty keys = dropEmpty others := by
  have hpath {keys : List String} (hne : keys ≠ []) :
      ofKeys keys = (dropEmpty keys).foldl join "" := by
    rw [ofKeys, if_neg hne, foldl_join_dropEmpty, foldl_join_eq]
    rfl
  have hhead (keys : List String) : ∀ k ∈ (dropEmpty keys).head?, k ≠ "" := by
    intro k hk
    have hfirst := List.head?_dropWhile_not (· = "") keys
    rw [← dropEmpty, Option.mem_def.mp hk] at hfirst
    simpa using hfirst
  rw [hpath hkeys, hpath hothers]
  exact ⟨foldl_join_inj_of_head (hhead keys) (hhead others), congrArg _⟩

/-- The path of keys without brackets leads where the keys lead, also to null. -/
theorem resolve_foldl_join (hkeyed : ∀ k ∈ keys, (Step.mk k none).IsKeyed) (hne : keys ≠ [])
    (hroot : keys.foldl join "" ≠ root) (v : Value) :
    resolve v (keys.foldl join "") = .ok ((Address.ofKeys keys).walk v) := by
  rw [foldl_join_eq] at hroot ⊢
  exact resolve_render v (Address.isWritable_ofKeys hkeyed hne) hroot

end Timeline.Path
