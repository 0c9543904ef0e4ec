import Mathlib.Data.Finset.Image
import Mathlib.Data.List.Perm.Subperm

/-!
# Insertion-ordered dictionaries

A `Dict` is a list of items without repeated keys: overwriting keeps a key's place, a new key goes
to the end. `d == e` is the dictionaries' own comparison, which does not look at the order:
`beq_iff` says it is agreement of all lookups, and `itemSet` is the order-free content that a hash
may depend on.
-/

structure Dict (α β : Type) where
  items : List (α × β)
  nodup : (items.map Prod.fst).Nodup

namespace Dict

variable {α β : Type} [DecidableEq α]

def empty : Dict α β := ⟨[], List.nodup_nil⟩

def keys (d : Dict α β) : List α := d.items.map Prod.fst

/-- `d.get(k)`. -/
def get? (d : Dict α β) (k : α) : Option β := d.items.lookup k

/-- Replace the value of `k` where it stands. -/
def overwrite (k : α) (v : β) (items : List (α × β)) : List (α × β) :=
  items.map fun p => if p.1 = k then (k, v) else p

private theorem map_fst_overwrite (k : α) (v : β) (items : List (α × β)) :
    (overwrite k v items).map Prod.fst = items.map Prod.fst := by
  rw [overwrite, List.map_map]
  apply List.map_congr_left
  intro p _
  by_cases hp : p.1 = k
  · simp [hp]
  · simp [hp]

/-- `d[k] = v`. -/
def set (d : Dict α β) (k : α) (v : β) : Dict α β :=
  if h : k ∈ d.keys then
    ⟨overwrite k v d.items, by rw [map_fst_overwrite]; exact d.nodup⟩
  else
    ⟨d.items ++ [(k, v)], by
      rw [List.map_append, List.nodup_append]
      refine ⟨d.nodup, by simp, ?_⟩
      rintro a ha b hb rfl
      simp only [List.map_cons, List.map_nil, List.mem_singleton] at hb
      exact h (hb ▸ ha)⟩

theorem mem_items_set {d : Dict α β} {k : α} {v : β} {p : α × β} (h : p ∈ (d.set k v).items) :
    p = (k, v) ∨ p ∈ d.items := by
  unfold set at h
  split at h
  next =>
    obtain ⟨q, hq, hp⟩ := List.mem_map.mp h
    split at hp
    next => exact Or.inl hp.symm
    next => exact Or.inr (hp ▸ hq)
  next => exact (List.mem_append.mp h).symm.imp_left List.mem_singleton.mp

theorem mem_keys_set {d : Dict α β} {k k' : α} {v : β} :
    k' ∈ (d.set k v).keys ↔ k' = k ∨ k' ∈ d.keys := by
  unfold set
  split
  next h =>
    rw [keys, map_fst_overwrite]
    exact ⟨Or.inr, fun hk => hk.elim (fun heq => heq ▸ h) id⟩
  next h => simp [keys, or_comm]

/-- `d.pop(k)`, the dictionary that remains. -/
def erase (d : Dict α β) (k : α) : Dict α β :=
  ⟨d.items.filter (fun p => p.1 ≠ k), d.nodup.sublist (List.filter_sublist.map Prod.fst)⟩

/-- `d == e`: as many items, and every item of `d` is one of `e`. -/
def eqItems [DecidableEq β] (d e : Dict α β) : Bool :=
  d.items.length == e.items.length && d.items.all fun p => e.get? p.1 == some p.2

instance [DecidableEq β] : BEq (Dict α β) := ⟨eqItems⟩

/-! ## Lookups

An item is in the dictionary exactly if its key is looked up to its value. -/

omit [DecidableEq α] in
theorem mem_items_inj {d : Dict α β} {k : α} {v w : β} (hv : (k, v) ∈ d.items)
    (hw : (k, w) ∈ d.items) : v = w := by
  have h := List.inj_on_of_nodup_map d.nodup hv hw rfl
  exact (Prod.mk.inj h).2

/-- The items are exactly the successful lookups. -/
theorem mem_items_iff {d : Dict α β} {k : α} {v : β} :
    (k, v) ∈ d.items ↔ d.get? k = some v := by
  constructor
  · intro h
    cases hl : d.get? k with
    | none =>
        have hne := List.lookup_eq_none_iff.mp hl (k, v) h
        simp at hne
    | some w =>
        obtain ⟨l₁, l₂, hsplit, _⟩ := List.lookup_eq_some_iff.mp hl
        have hw : (k, w) ∈ d.items := by rw [hsplit]; simp
        rw [mem_items_inj h hw]
  · intro h
    obtain ⟨l₁, l₂, hsplit, _⟩ := List.lookup_eq_some_iff.mp h
    rw [hsplit]
    simp

theorem get?_eq_none_iff {d : Dict α β} {k : α} : d.get? k = none ↔ k ∉ d.keys := by
  constructor
  · intro h hk
    obtain ⟨⟨k', v⟩, hmem, rfl⟩ := List.mem_map.mp hk
    rw [mem_items_iff.mp hmem] at h
    cases h
  · intro h
    cases hl : d.get? k with
    | none => rfl
    | some v => exact absurd (List.mem_map.mpr ⟨(k, v), mem_items_iff.mpr hl, rfl⟩) h

theorem items_set_of_notMem {d : Dict α β} {k : α} (h : k ∉ d.keys) (v : β) :
    (d.set k v).items = d.items ++ [(k, v)] := by
  unfold set
  rw [dif_neg h]

/-- Setting new, distinct keys appends their items. -/
theorem items_foldl_set_append (l : List (α × β)) (d : Dict α β)
    (h : ((d.items ++ l).map Prod.fst).Nodup) :
    (l.foldl (fun d p => d.set p.1 p.2) d).items = d.items ++ l := by
  induction l generalizing d with
  | nil => simp
  | cons p l ih =>
      have hp : p.1 ∉ d.keys := by
        intro hmem
        rw [List.map_append, List.nodup_append] at h
        exact h.2.2 p.1 hmem p.1 (by simp) rfl
      have hset := items_set_of_notMem hp p.2
      rw [List.foldl_cons, ih (d.set p.1 p.2) (by rw [hset]; simpa using h), hset]
      simp

/-- Filling an empty dictionary from items with distinct keys keeps them as they are. -/
theorem items_foldl_set (l : List (α × β)) (h : (l.map Prod.fst).Nodup) :
    (l.foldl (fun d p => d.set p.1 p.2) (empty : Dict α β)).items = l := by
  simpa [empty] using items_foldl_set_append l empty (by simpa [empty] using h)

/-- Looking up what was filed under distinct keys. -/
theorem get?_foldl_set {γ : Type} (key : γ → α) (val : γ → β) {l : List γ}
    (h : (l.map key).Nodup) {x : γ} (hx : x ∈ l) :
    (l.foldl (fun d x => d.set (key x) (val x)) (empty : Dict α β)).get? (key x) =
      some (val x) := by
  have hitems := items_foldl_set (l.map fun x => (key x, val x))
    (by rw [List.map_map]; exact h)
  rw [List.foldl_map] at hitems
  rw [← mem_items_iff, hitems]
  exact List.mem_map.mpr ⟨x, hx, rfl⟩

/-- A loop of fallible steps that all succeed. -/
theorem mapM_eq_some {γ ω : Type} {f : γ → Option ω} {g : γ → ω} {l : List γ}
    (h : ∀ x ∈ l, f x = some (g x)) : l.mapM f = some (l.map g) := by
  induction l with
  | nil => rfl
  | cons x l ih =>
      rw [List.mapM_cons, h x List.mem_cons_self, ih fun y hy => h y (List.mem_cons_of_mem x hy)]
      rfl

/-- A loop of fallible assignments that all succeed. -/
theorem foldlM_set {γ ω : Type} {g : γ → Option ω} {h : γ → ω} (key : γ → α) (u : ω → β)
    (l : List γ) (hg : ∀ x ∈ l, g x = some (h x)) (d : Dict α β) :
    l.foldlM (fun d x => (g x).map fun v => d.set (key x) (u v)) d =
      some ((l.map fun x => (key x, u (h x))).foldl (fun d p => d.set p.1 p.2) d) := by
  induction l generalizing d with
  | nil => rfl
  | cons x l ih =>
      rw [List.foldlM_cons, hg x List.mem_cons_self, List.map_cons, List.foldl_cons]
      exact ih (fun y hy => hg y (List.mem_cons_of_mem x hy)) _

theorem get?_empty (k : α) : (empty : Dict α β).get? k = none := rfl

/-- What an assignment changes. -/
theorem get?_set (d : Dict α β) (k k' : α) (v : β) :
    (d.set k v).get? k' = if k' = k then some v else d.get? k' := by
  have hmem : ∀ w, (k', w) ∈ (d.set k v).items ↔
      (if k' = k then some v else d.get? k') = some w := by
    intro w
    -- a key that is there keeps its place, so the items are the old ones with one value changed
    by_cases hk : k ∈ d.keys
    · have hitems : (d.set k v).items = overwrite k v d.items := by rw [set, dif_pos hk]
      obtain ⟨⟨k, old⟩, hold, rfl⟩ := List.mem_map.mp hk
      rw [hitems, overwrite, List.mem_map]
      by_cases heq : k' = k
      · subst heq
        rw [if_pos rfl]
        grind
      · rw [if_neg heq, ← mem_items_iff]
        grind
    · rw [items_set_of_notMem hk, List.mem_append, List.mem_singleton, Prod.mk.injEq]
      by_cases heq : k' = k
      · subst heq
        have hnone : ∀ w, (k', w) ∉ d.items := fun w hw => hk (List.mem_map.mpr ⟨_, hw, rfl⟩)
        rw [if_pos rfl]
        grind
      · rw [if_neg heq, ← mem_items_iff]
        grind
  apply Option.ext
  intro w
  rw [← mem_items_iff, hmem]

/-- What a `pop` changes. -/
theorem get?_erase (d : Dict α β) (k k' : α) :
    (d.erase k).get? k' = if k' = k then none else d.get? k' := by
  apply Option.ext
  intro w
  rw [← mem_items_iff, erase, List.mem_filter, mem_items_iff, decide_eq_true_iff]
  split
  next heq => simp [heq]
  next hne => simp [hne]

theorem get?_ne_none_iff {d : Dict α β} {k : α} : d.get? k ≠ none ↔ k ∈ d.keys := by
  rw [ne_eq, get?_eq_none_iff, not_not]

theorem mem_keys_erase {d : Dict α β} {k k' : α} :
    k' ∈ (d.erase k).keys ↔ k' ≠ k ∧ k' ∈ d.keys := by
  rw [← get?_ne_none_iff, get?_erase, ← get?_ne_none_iff]
  split
  next heq => simp [heq]
  next hne => simp [hne]

/-! ## Deleting one key after the other

The keys that are gone when a missing one raises stay gone. -/

/-- `del d[k]` for each of the keys: the key that was missing, if one was, and the dictionary as it
is then. -/
def delEach (d : Dict α β) : List α → Except α Unit × Dict α β
  | [] => (.ok (), d)
  | k :: ks => if k ∈ d.keys then (d.erase k).delEach ks else (.error k, d)

/-- All keys have to be there, and none of them twice. -/
theorem delEach_fst_eq_ok_iff (d : Dict α β) (ks : List α) :
    (d.delEach ks).1 = .ok () ↔ ks.Nodup ∧ ∀ k ∈ ks, k ∈ d.keys := by
  induction ks generalizing d with
  | nil => exact ⟨fun _ => ⟨List.nodup_nil, fun _ h => absurd h List.not_mem_nil⟩, fun _ => rfl⟩
  | cons k ks ih =>
      rw [delEach]
      split
      next hk =>
        rw [ih, List.nodup_cons]
        simp only [mem_keys_erase]
        grind
      next hk =>
        constructor
        · intro h
          cases h
        · exact fun h => absurd (h.2 k List.mem_cons_self) hk

/-- What is left if all keys were there. -/
theorem get?_delEach {d : Dict α β} {ks : List α} (h : (d.delEach ks).1 = .ok ()) (k : α) :
    (d.delEach ks).2.get? k = if k ∈ ks then none else d.get? k := by
  induction ks generalizing d with
  | nil => rw [if_neg List.not_mem_nil, delEach]
  | cons k₀ ks ih =>
      have hk₀ := ((delEach_fst_eq_ok_iff d _).mp h).2 k₀ List.mem_cons_self
      rw [delEach, if_pos hk₀] at h ⊢
      rw [ih h, get?_erase]
      grind

theorem keys_delEach_subset (d : Dict α β) (ks : List α) :
    ∀ k ∈ (d.delEach ks).2.keys, k ∈ d.keys := by
  induction ks generalizing d with
  | nil => exact fun _ h => h
  | cons k₀ ks ih =>
      intro k hk
      rw [delEach] at hk
      split at hk
      next => exact (mem_keys_erase.mp (ih _ k hk)).2
      next => exact hk

/-- Nothing is deleted only if the first key is missing. -/
theorem delEach_snd_eq_iff (d : Dict α β) (k : α) (ks : List α) :
    (d.delEach (k :: ks)).2 = d ↔ k ∉ d.keys := by
  rw [delEach]
  split
  next hk =>
    refine iff_of_false (fun h => ?_) (not_not.mpr hk)
    have hmem := keys_delEach_subset (d.erase k) ks k (by rw [h]; exact hk)
    exact (mem_keys_erase.mp hmem).1 rfl
  next hk => exact iff_of_true rfl hk

/-! ## The items of some keys

A dictionary that is kept to some keys looks up these keys as before. -/

section restrict

variable {P : α → Bool} {k : α}

omit [DecidableEq α] in
theorem eq_of_items {d e : Dict α β} (h : d.items = e.items) : d = e := by
  cases d
  cases e
  cases h
  rfl

/-- The items whose keys are in `P`. -/
def restrict (d : Dict α β) (P : α → Bool) : Dict α β :=
  ⟨d.items.filter (fun p => P p.1), d.nodup.sublist (List.filter_sublist.map Prod.fst)⟩

omit [DecidableEq α] in
theorem items_restrict (d : Dict α β) (P : α → Bool) :
    (d.restrict P).items = d.items.filter fun p => P p.1 := rfl

omit [DecidableEq α] in
theorem mem_keys_restrict {d : Dict α β} : k ∈ (d.restrict P).keys ↔ P k = true ∧ k ∈ d.keys := by
  simp only [keys, items_restrict, List.mem_map, List.mem_filter]
  grind

theorem get?_restrict {d : Dict α β} (h : P k = true) : (d.restrict P).get? k = d.get? k := by
  apply Option.ext
  intro v
  rw [← mem_items_iff, ← mem_items_iff, items_restrict, List.mem_filter]
  exact and_iff_left h

theorem items_set_of_mem {d : Dict α β} (h : k ∈ d.keys) (v : β) :
    (d.set k v).items = overwrite k v d.items := by
  rw [set, dif_pos h]

theorem overwrite_eq_self {v : β} {items : List (α × β)}
    (h : ∀ p ∈ items, p.1 = k → p = (k, v)) : overwrite k v items = items := by
  have hid : items.map id = items := List.map_id items
  rw [overwrite]
  refine (List.map_congr_left fun p hp => ?_).trans hid
  split
  next heq => exact (h p hp heq).symm
  next => rfl

theorem filter_overwrite (v : β) (items : List (α × β)) :
    (overwrite k v items).filter (fun p => P p.1) =
      overwrite k v (items.filter fun p => P p.1) := by
  rw [overwrite, overwrite, List.filter_map]
  congr 1
  apply List.filter_congr
  intro p _
  show P (if p.1 = k then (k, v) else p).1 = P p.1
  split
  next heq => rw [heq]
  next => rfl

theorem restrict_set_of_true {d : Dict α β} {v : β} (h : P k = true) :
    (d.set k v).restrict P = (d.restrict P).set k v := by
  apply eq_of_items
  rw [items_restrict]
  by_cases hk : k ∈ d.keys
  · rw [items_set_of_mem hk, items_set_of_mem (mem_keys_restrict.mpr ⟨h, hk⟩), filter_overwrite,
      items_restrict]
  · rw [items_set_of_notMem hk, items_set_of_notMem fun hmem => hk (mem_keys_restrict.mp hmem).2,
      items_restrict, List.filter_append, List.filter_singleton, h]
    rfl

theorem restrict_set_of_false {d : Dict α β} {v : β} (h : P k = false) :
    (d.set k v).restrict P = d.restrict P := by
  apply eq_of_items
  rw [items_restrict, items_restrict]
  by_cases hk : k ∈ d.keys
  · rw [items_set_of_mem hk, filter_overwrite]
    apply overwrite_eq_self
    rintro p hp rfl
    have hP : P p.1 = true := (List.mem_filter.mp hp).2
    rw [h] at hP
    cases hP
  · rw [items_set_of_notMem hk, List.filter_append, List.filter_singleton, h]
    exact List.append_nil _

/-- The same assignment twice. -/
theorem set_set (d : Dict α β) (k : α) (v : β) : (d.set k v).set k v = d.set k v := by
  apply eq_of_items
  have hk : k ∈ (d.set k v).keys := mem_keys_set.mpr (Or.inl rfl)
  have hv : (d.set k v).get? k = some v := by rw [get?_set, if_pos rfl]
  rw [items_set_of_mem hk]
  apply overwrite_eq_self
  rintro ⟨k', w⟩ hp rfl
  rw [mem_items_inj hp (mem_items_iff.mpr hv)]

end restrict

/-! ## Filing

A table that is filled by one assignment after the other, whatever it is made of: `look` is its
lookup, `key` and `val` are what an assignment files. -/

section filing

variable {σ κ ν ξ : Type} [DecidableEq κ] {file : σ → ξ → σ} {look : σ → κ → Option ν}
  {key : ξ → κ} {val : ξ → ν}

/-- What is found was filed, or it was there before. -/
theorem exists_of_look_foldl
    (hfile : ∀ s x k, look (file s x) k = if k = key x then some (val x) else look s k)
    {xs : List ξ} {s : σ} {k : κ} {v : ν} (h : look (xs.foldl file s) k = some v) :
    (∃ x ∈ xs, key x = k ∧ val x = v) ∨ look s k = some v := by
  induction xs generalizing s with
  | nil => exact Or.inr h
  | cons x xs ih =>
      rcases ih h with ⟨y, hy, hkey, hval⟩ | hlook
      · exact Or.inl ⟨y, List.mem_cons_of_mem x hy, hkey, hval⟩
      · rw [hfile] at hlook
        by_cases hk : k = key x
        · rw [if_pos hk] at hlook
          exact Or.inl ⟨x, List.mem_cons_self, hk.symm, Option.some.inj hlook⟩
        · rw [if_neg hk] at hlook
          exact Or.inr hlook

/-- What was filed, or was there before, is found: perhaps overwritten. -/
theorem look_foldl_ne_none
    (hfile : ∀ s x k, look (file s x) k = if k = key x then some (val x) else look s k)
    {xs : List ξ} {s : σ} {k : κ} (h : (∃ x ∈ xs, key x = k) ∨ look s k ≠ none) :
    look (xs.foldl file s) k ≠ none := by
  induction xs generalizing s with
  | nil => simpa using h
  | cons x xs ih =>
      apply ih
      rw [hfile]
      grind

end filing

/-! ## Comparison

`eqItems` looks up every item of the one in the other. With equally many items this is agreement of
all lookups, as no key is repeated. -/

section Beq

variable [DecidableEq β]

private theorem eqItems_of_get? {d e : Dict α β} (h : ∀ k, d.get? k = e.get? k) :
    eqItems d e = true := by
  have hmem : ∀ p : α × β, p ∈ d.items ↔ p ∈ e.items := by
    rintro ⟨k, v⟩
    rw [mem_items_iff, mem_items_iff, h k]
  have hperm : d.items.Perm e.items :=
    (List.perm_ext_iff_of_nodup d.nodup.of_map e.nodup.of_map).mpr hmem
  rw [eqItems, Bool.and_eq_true, beq_iff_eq, List.all_eq_true]
  refine ⟨hperm.length_eq, ?_⟩
  rintro ⟨k, v⟩ hp
  rw [beq_iff_eq, ← mem_items_iff]
  exact (hmem (k, v)).mp hp

private theorem get?_of_eqItems {d e : Dict α β} (h : eqItems d e = true) (k : α) :
    d.get? k = e.get? k := by
  rw [eqItems, Bool.and_eq_true, beq_iff_eq, List.all_eq_true] at h
  obtain ⟨hlen, hall⟩ := h
  have hsub : d.items ⊆ e.items := by
    rintro ⟨a, v⟩ hp
    exact mem_items_iff.mpr (beq_iff_eq.mp (hall (a, v) hp))
  have hperm : d.items.Perm e.items :=
    (List.subperm_of_subset d.nodup.of_map hsub).perm_of_length_le hlen.ge
  apply Option.ext
  intro v
  rw [← mem_items_iff, ← mem_items_iff, hperm.mem_iff]

/-- Dictionaries compare equal exactly when all lookups agree. -/
theorem beq_iff {d e : Dict α β} : (d == e) = true ↔ ∀ k, d.get? k = e.get? k :=
  ⟨get?_of_eqItems, eqItems_of_get?⟩

theorem beq_refl (d : Dict α β) : (d == d) = true := beq_iff.mpr fun _ => rfl

theorem beq_comm (d e : Dict α β) : (d == e) = (e == d) := by
  rw [Bool.eq_iff_iff, beq_iff, beq_iff]
  exact ⟨fun h k => (h k).symm, fun h k => (h k).symm⟩

theorem beq_trans {d e f : Dict α β} (h₁ : (d == e) = true) (h₂ : (e == f) = true) :
    (d == f) = true :=
  beq_iff.mpr fun k => (beq_iff.mp h₁ k).trans (beq_iff.mp h₂ k)

/-- `frozenset(d.items())`. -/
def itemSet (d : Dict α β) : Finset (α × β) := d.items.toFinset

/-- Comparing dictionaries is comparing their sets of items. -/
theorem beq_iff_itemSet {d e : Dict α β} : (d == e) = true ↔ d.itemSet = e.itemSet := by
  rw [beq_iff]
  constructor
  · intro h
    ext ⟨k, v⟩
    simp only [itemSet, List.mem_toFinset, mem_items_iff, h k]
  · intro h k
    apply Option.ext
    intro v
    have hmem := Finset.ext_iff.mp h (k, v)
    simpa only [itemSet, List.mem_toFinset, mem_items_iff] using hmem

end Beq

end Dict
