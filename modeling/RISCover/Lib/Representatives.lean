import Mathlib.Data.List.Induction
import Mathlib.Data.List.Nodup
import Mathlib.Data.List.Perm.Basic
import Mathlib.Tactic.ByContra

/-!
# Filing under representatives

Elements are filed one by one. A special element goes into the special class; any other goes into
the first class, in the order in which the classes came up, whose representative it equals, or into
a new one. The representative of a class is the element it was opened with. The special class is
one of those that are looked through, and a comparison may fail, which ends the loop.

`partitions_iff`: the loop gives the same partition in every order, and nothing but special elements
in the special class, exactly when the comparison is an equivalence on the elements that are not
special and tells each of them from the special ones.
-/

namespace Representatives

variable {α : Type} {special : α → Bool} {same : α → α → Option Bool}

/-! ## The loop

A class is named by a number, in the order in which the classes come up. The special one has a name
of its own, and is in the list only when it has an element. -/

inductive Name where
  | special
  | numbered (n : Nat)
  deriving DecidableEq

structure State (α : Type) where
  /-- The classes with their representatives, the oldest first. -/
  classes : List (Name × α)
  count : Nat
  filed : List (α × Name)

def State.empty : State α := ⟨[], 0, []⟩

/-- The first class whose representative `x` equals. -/
def lookup (same : α → α → Option Bool) (x : α) : List (Name × α) → Option (Option Name)
  | [] => some none
  | (name, representative) :: classes => do
      if ← same x representative then some (some name) else lookup same x classes

/-- The class to use, with the number of classes that then have one. -/
def State.name (s : State α) : Option Name → Name × Nat
  | some name => (name, s.count)
  | none => (.numbered (s.count + 1), s.count + 1)

def choose (special : α → Bool) (same : α → α → Option Bool) (s : State α) (x : α) :
    Option (Name × Nat) :=
  if special x then some (.special, s.count) else (lookup same x s.classes).map s.name

/-- Put `x` into a class, which it opens if need be. -/
def State.file (s : State α) (x : α) (name : Name) (count : Nat) : State α where
  classes := if name ∈ s.classes.map Prod.fst then s.classes else s.classes ++ [(name, x)]
  count := count
  filed := s.filed ++ [(x, name)]

def visit (special : α → Bool) (same : α → α → Option Bool) (s : State α) (x : α) :
    Option (State α) := do
  let (name, count) ← choose special same s x
  some (s.file x name count)

def run (special : α → Bool) (same : α → α → Option Bool) (l : List α) : Option (State α) :=
  l.foldlM (visit special same) State.empty

/-! ## Partitions

What is compared between two orders is who lies with whom, and not the names. -/

/-- Two elements are in one class. -/
def State.Together (s : State α) (x y : α) : Prop :=
  ∃ name, (x, name) ∈ s.filed ∧ (y, name) ∈ s.filed

/-- The classes are the same up to their numbers. -/
structure State.SamePartition (s s' : State α) : Prop where
  together : ∀ x y, s.Together x y ↔ s'.Together x y
  special : ∀ x, (x, Name.special) ∈ s.filed ↔ (x, Name.special) ∈ s'.filed

/-- Every order of the elements gets to its end, in one and the same partition, and puts none but
special elements into the special class. -/
structure Partitions (special : α → Bool) (same : α → α → Option Bool) (l : List α) : Prop where
  ends : ∀ l', l'.Perm l → ∃ s, run special same l' = some s
  unique : ∀ l₁ l₂ s₁ s₂, l₁.Perm l → l₂.Perm l → run special same l₁ = some s₁ →
    run special same l₂ = some s₂ → s₁.SamePartition s₂
  sound : ∀ l' s, l'.Perm l → run special same l' = some s →
    ∀ x, (x, Name.special) ∈ s.filed → special x = true

/-- The comparison is an equivalence on the elements that are not special. -/
structure EquivalenceOn (special : α → Bool) (same : α → α → Option Bool) (l : List α) : Prop where
  defined : ∀ x ∈ l, ∀ y ∈ l, special x = false → special y = false → ∃ b, same x y = some b
  symm : ∀ x ∈ l, ∀ y ∈ l, special x = false → special y = false →
    same x y = some true → same y x = some true
  trans : ∀ x ∈ l, ∀ y ∈ l, ∀ z ∈ l, special x = false → special y = false → special z = false →
    same x y = some true → same y z = some true → same x z = some true

/-- Elements are compared by a key. -/
theorem EquivalenceOn.of_key {κ : Type} [DecidableEq κ] {key : α → κ} {l : List α}
    (h : ∀ x ∈ l, ∀ y ∈ l, same x y = some (decide (key x = key y))) :
    EquivalenceOn special same l := by
  have hkey : ∀ {x y : α}, x ∈ l → y ∈ l → (same x y = some true ↔ key x = key y) := by
    intro x y hx hy
    rw [h x hx y hy, Option.some.injEq, decide_eq_true_iff]
  constructor
  · exact fun x hx y hy _ _ => ⟨_, h x hx y hy⟩
  · intro x hx y hy _ _ hxy
    exact (hkey hy hx).mpr ((hkey hx hy).mp hxy).symm
  · intro x hx y hy z hz _ _ _ hxy hyz
    exact (hkey hx hz).mpr (((hkey hx hy).mp hxy).trans ((hkey hy hz).mp hyz))

/-- The comparison tells an element from the special ones. -/
def Apart (special : α → Bool) (same : α → α → Option Bool) (l : List α) : Prop :=
  ∀ x ∈ l, ∀ f ∈ l, special x = false → special f = true → same x f = some false

/-! ## Single steps

Where an element is put depends on the representatives, in their order. -/

theorem run_concat (l : List α) (x : α) :
    run special same (l ++ [x]) = (run special same l).bind fun s => visit special same s x := by
  simp [run, List.foldlM_append]

theorem visit_eq_some {s s' : State α} {x : α} (h : visit special same s x = some s') :
    ∃ name count, choose special same s x = some (name, count) ∧ s' = s.file x name count := by
  simp only [visit, Option.bind_eq_bind, Option.bind_eq_some_iff] at h
  obtain ⟨⟨name, count⟩, hchoose, hfile⟩ := h
  exact ⟨name, count, hchoose, (Option.some.inj hfile).symm⟩

theorem choose_special {s : State α} {x : α} (h : special x = true) :
    choose special same s x = some (.special, s.count) := if_pos h

theorem choose_of_lookup {s : State α} {x : α} {found : Option Name} (h : special x = false)
    (hlookup : lookup same x s.classes = some found) :
    choose special same s x = some (s.name found) := by
  unfold choose
  rw [if_neg (by simp [h]), hlookup, Option.map_some]

theorem lookup_cons {x r : α} {name : Name} {classes : List (Name × α)} {b : Bool}
    (h : same x r = some b) :
    lookup same x ((name, r) :: classes) =
      if b then some (some name) else lookup same x classes := by
  rw [lookup, h]
  rfl

theorem lookup_cons_none {x r : α} {name : Name} {classes : List (Name × α)}
    (h : same x r = none) : lookup same x ((name, r) :: classes) = none := by
  rw [lookup, h]
  rfl

/-- The outcome of comparing with all representatives, when none of the comparisons fails. -/
theorem exists_lookup {x : α} {classes : List (Name × α)}
    (h : ∀ p ∈ classes, ∃ b, same x p.2 = some b) :
    (∃ p ∈ classes, same x p.2 = some true ∧ lookup same x classes = some (some p.1)) ∨
      (∀ p ∈ classes, same x p.2 = some false) ∧ lookup same x classes = some none := by
  induction classes with
  | nil => exact Or.inr ⟨List.forall_mem_nil _, rfl⟩
  | cons p classes ih =>
      obtain ⟨b, hb⟩ := h p List.mem_cons_self
      have hcons : lookup same x (p :: classes) =
          if b then some (some p.1) else lookup same x classes := lookup_cons hb
      cases b with
      | true => exact Or.inl ⟨p, List.mem_cons_self, hb, hcons⟩
      | false =>
          rcases ih fun q hq => h q (List.mem_cons_of_mem p hq) with ⟨q, hq, htrue, hfound⟩ | hnone
          · exact Or.inl ⟨q, List.mem_cons_of_mem p hq, htrue, hcons.trans hfound⟩
          · refine Or.inr ⟨?_, hcons.trans hnone.2⟩
            intro q hq
            rcases List.mem_cons.mp hq with rfl | hq
            · exact hb
            · exact hnone.1 q hq

/-! ## What stays filed

An element is never moved. -/

theorem foldlM_filed {l : List α} {s s' : State α}
    (h : l.foldlM (visit special same) s = some s') :
    s.filed <+: s'.filed ∧ s'.filed.map Prod.fst = s.filed.map Prod.fst ++ l := by
  induction l generalizing s with
  | nil =>
      obtain rfl := Option.some.inj h
      exact ⟨List.prefix_rfl, (List.append_nil _).symm⟩
  | cons x l ih =>
      simp only [List.foldlM_cons, Option.bind_eq_bind, Option.bind_eq_some_iff] at h
      obtain ⟨s₁, hvisit, hrest⟩ := h
      obtain ⟨name, count, -, rfl⟩ := visit_eq_some hvisit
      obtain ⟨hfront, hmap⟩ := ih hrest
      refine ⟨(List.prefix_append s.filed [(x, name)]).trans hfront, ?_⟩
      rw [hmap]
      simp [State.file]

/-- The elements are filed once each. -/
theorem map_fst_filed {l : List α} {s : State α} (h : run special same l = some s) :
    s.filed.map Prod.fst = l := (foldlM_filed h).2

theorem name_unique {l : List α} (hl : l.Nodup) {s : State α} (h : run special same l = some s)
    {x : α} {n m : Name} (hn : (x, n) ∈ s.filed) (hm : (x, m) ∈ s.filed) : n = m := by
  have hnodup : (s.filed.map Prod.fst).Nodup := by rwa [map_fst_filed h]
  have hinj := List.inj_on_of_nodup_map hnodup hn hm rfl
  exact congrArg Prod.snd hinj

theorem State.Together.mem {seen : List α} {s : State α} {x y : α} (h : s.Together x y)
    (hfiled : s.filed.map Prod.fst = seen) : x ∈ seen ∧ y ∈ seen := by
  obtain ⟨name, hx, hy⟩ := h
  rw [← hfiled]
  exact ⟨List.mem_map_of_mem hx, List.mem_map_of_mem hy⟩

theorem State.Together.symm {s : State α} {x y : α} (h : s.Together x y) : s.Together y x := by
  obtain ⟨name, hx, hy⟩ := h
  exact ⟨name, hy, hx⟩

/-! ## Comparisons that are an equivalence

`Inv` is kept by every step: no two representatives of classes that are not special are equal, and
each element equals the one of its class. -/

/-- What the partition is meant to be. -/
def Alike (special : α → Bool) (same : α → α → Option Bool) (x y : α) : Prop :=
  special x = true ∧ special y = true ∨
    special x = false ∧ special y = false ∧ same x y = some true

/-- The state after `seen`. -/
structure Inv (special : α → Bool) (same : α → α → Option Bool) (seen : List α) (s : State α) :
    Prop where
  names_nodup : (s.classes.map Prod.fst).Nodup
  count_le : ∀ p ∈ s.classes, ∀ n, p.1 = Name.numbered n → n ≤ s.count
  representative_mem : ∀ p ∈ s.classes, p.2 ∈ seen
  special_iff : ∀ p ∈ s.classes, p.1 = Name.special ↔ special p.2 = true
  apart : ∀ p ∈ s.classes, ∀ q ∈ s.classes, special p.2 = false → special q.2 = false →
    same p.2 q.2 = some true → p = q
  filed : ∀ q ∈ s.filed, special q.1 = true ∧ q.2 = Name.special ∨
    special q.1 = false ∧ ∃ r, (q.2, r) ∈ s.classes ∧ special r = false ∧ same q.1 r = some true

theorem Inv.empty : Inv special same [] State.empty where
  names_nodup := List.nodup_nil
  count_le := List.forall_mem_nil _
  representative_mem := List.forall_mem_nil _
  special_iff := List.forall_mem_nil _
  apart := List.forall_mem_nil _
  filed := List.forall_mem_nil _

/-- The special class has the special elements. -/
theorem Inv.mem_special_iff {seen : List α} {s : State α} (h : Inv special same seen s) {x : α} :
    (x, Name.special) ∈ s.filed ↔ x ∈ s.filed.map Prod.fst ∧ special x = true := by
  constructor
  · intro hx
    refine ⟨List.mem_map_of_mem hx, ?_⟩
    rcases h.filed _ hx with ⟨hspecial, -⟩ | ⟨-, r, hr, hsr, -⟩
    · exact hspecial
    · have htrue := (h.special_iff _ hr).mp rfl
      rw [hsr] at htrue
      cases htrue
  · rintro ⟨hx, hspecial⟩
    obtain ⟨⟨x, name⟩, hmem, rfl⟩ := List.mem_map.mp hx
    rcases h.filed _ hmem with ⟨-, rfl⟩ | ⟨hfalse, -⟩
    · exact hmem
    · rw [hspecial] at hfalse
      cases hfalse

/-- Filing into a class that is there. -/
theorem Inv.file_old {seen : List α} {s : State α} (h : Inv special same seen s) {x : α}
    {name : Name} {count : Nat} (hname : name ∈ s.classes.map Prod.fst) (hcount : s.count ≤ count)
    (hx : special x = true ∧ name = Name.special ∨
      special x = false ∧ ∃ r, (name, r) ∈ s.classes ∧ special r = false ∧ same x r = some true) :
    Inv special same (seen ++ [x]) (s.file x name count) := by
  have hclasses : (s.file x name count).classes = s.classes := if_pos hname
  constructor
  · rw [hclasses]
    exact h.names_nodup
  · rw [hclasses]
    exact fun p hp n hn => Nat.le_trans (h.count_le p hp n hn) hcount
  · rw [hclasses]
    exact fun p hp => List.mem_append_left _ (h.representative_mem p hp)
  · rw [hclasses]
    exact h.special_iff
  · rw [hclasses]
    exact h.apart
  · rw [hclasses]
    intro q hq
    rcases List.mem_append.mp hq with hold | hnew
    · exact h.filed q hold
    · obtain rfl := List.mem_singleton.mp hnew
      exact hx

/-- Opening a class. -/
theorem Inv.file_new {seen : List α} {s : State α} (h : Inv special same seen s) {x : α}
    {name : Name} {count : Nat} (hname : name ∉ s.classes.map Prod.fst) (hcount : s.count ≤ count)
    (hle : ∀ n, name = Name.numbered n → n ≤ count)
    (hspecial : name = Name.special ↔ special x = true)
    (hapart : special x = false → ∀ p ∈ s.classes, special p.2 = false →
      same x p.2 ≠ some true ∧ same p.2 x ≠ some true)
    (hrefl : same x x = some true) :
    Inv special same (seen ++ [x]) (s.file x name count) := by
  have hclasses : (s.file x name count).classes = s.classes ++ [(name, x)] := if_neg hname
  constructor
  · rw [hclasses, List.map_append]
    refine List.nodup_append.mpr ⟨h.names_nodup, List.nodup_singleton _, fun n hn m hm heq => ?_⟩
    obtain rfl : m = name := List.mem_singleton.mp hm
    exact hname (heq ▸ hn)
  · rw [hclasses]
    intro p hp n hn
    rcases List.mem_append.mp hp with hold | hnew
    · exact Nat.le_trans (h.count_le p hold n hn) hcount
    · obtain rfl := List.mem_singleton.mp hnew
      exact hle n hn
  · rw [hclasses]
    intro p hp
    rcases List.mem_append.mp hp with hold | hnew
    · exact List.mem_append_left _ (h.representative_mem p hold)
    · obtain rfl := List.mem_singleton.mp hnew
      exact List.mem_append_right _ List.mem_cons_self
  · rw [hclasses]
    intro p hp
    rcases List.mem_append.mp hp with hold | hnew
    · exact h.special_iff p hold
    · obtain rfl := List.mem_singleton.mp hnew
      exact hspecial
  · rw [hclasses]
    intro p hp q hq hsp hsq hpq
    rcases List.mem_append.mp hp with hpold | hpnew
    · rcases List.mem_append.mp hq with hqold | hqnew
      · exact h.apart p hpold q hqold hsp hsq hpq
      · obtain rfl := List.mem_singleton.mp hqnew
        exact absurd hpq (hapart hsq p hpold hsp).2
    · obtain rfl := List.mem_singleton.mp hpnew
      rcases List.mem_append.mp hq with hqold | hqnew
      · -- the new representative equals none of the old ones, or it would have been filed there
        exact absurd hpq (hapart hsp q hqold hsq).1
      · exact (List.mem_singleton.mp hqnew).symm
  · rw [hclasses]
    intro q hq
    rcases List.mem_append.mp hq with hold | hnew
    · rcases h.filed q hold with hspec | ⟨hns, r, hr, hrest⟩
      · exact Or.inl hspec
      · exact Or.inr ⟨hns, r, List.mem_append_left _ hr, hrest⟩
    · obtain rfl := List.mem_singleton.mp hnew
      by_cases hx : special x = true
      · exact Or.inl ⟨hx, hspecial.mpr hx⟩
      · rw [Bool.not_eq_true] at hx
        exact Or.inr ⟨hx, x, List.mem_append_right _ List.mem_cons_self, hx, hrefl⟩

section Equivalence

variable {l : List α} (hrefl : ∀ x, same x x = some true)
  (hequiv : EquivalenceOn special same l) (hapart : Apart special same l)

include hrefl hequiv hapart

/-- One element more. -/
theorem Inv.visit {seen : List α} {s : State α} (h : Inv special same seen s) (hseen : seen ⊆ l)
    {x : α} (hx : x ∈ l) :
    ∃ s', Representatives.visit special same s x = some s' ∧
      Inv special same (seen ++ [x]) s' := by
  have hfile : ∀ {name : Name} {count : Nat}, choose special same s x = some (name, count) →
      Representatives.visit special same s x = some (s.file x name count) := by
    intro name count hchoose
    unfold Representatives.visit
    rw [hchoose]
    rfl
  cases hspecial : special x with
  | true =>
      refine ⟨_, hfile (choose_special hspecial), ?_⟩
      by_cases hname : Name.special ∈ s.classes.map Prod.fst
      · exact h.file_old hname (Nat.le_refl _) (Or.inl ⟨hspecial, rfl⟩)
      · refine h.file_new hname (Nat.le_refl _) (fun n hn => ?_) (by simp [hspecial]) ?_ (hrefl x)
        · cases hn
        · rw [hspecial]
          intro hfalse
          cases hfalse
  | false =>
      -- no comparison with a representative fails
      have hdefined : ∀ p ∈ s.classes, ∃ b, same x p.2 = some b := by
        intro p hp
        have hmem := hseen (h.representative_mem p hp)
        cases hp2 : special p.2 with
        | true => exact ⟨false, hapart x hx p.2 hmem hspecial hp2⟩
        | false => exact hequiv.defined x hx p.2 hmem hspecial hp2
      rcases exists_lookup hdefined with ⟨p, hp, htrue, hfound⟩ | ⟨hnone, hfound⟩
      · have hp2 : special p.2 = false := by
          by_contra hsp
          have hfalse := hapart x hx p.2 (hseen (h.representative_mem p hp)) hspecial
            (by simpa using hsp)
          rw [htrue] at hfalse
          cases hfalse
        refine ⟨_, hfile (choose_of_lookup hspecial hfound), ?_⟩
        exact h.file_old (List.mem_map_of_mem hp) (Nat.le_refl _)
          (Or.inr ⟨hspecial, p.2, hp, hp2, htrue⟩)
      · refine ⟨_, hfile (choose_of_lookup hspecial hfound), ?_⟩
        refine h.file_new ?_ (Nat.le_succ _) (fun n hn => ?_) (by simp [hspecial])
          (fun _ p hp hsp => ?_) (hrefl x)
        · intro hmem
          obtain ⟨p, hp, hpname⟩ := List.mem_map.mp hmem
          exact absurd (h.count_le p hp _ hpname) (Nat.not_succ_le_self _)
        · cases hn
          exact Nat.le_refl _
        · have hne : same x p.2 ≠ some true := by
            rw [hnone p hp]
            nofun
          exact ⟨hne, fun hback => hne
            (hequiv.symm p.2 (hseen (h.representative_mem p hp)) x hx hsp hspecial hback)⟩

theorem exists_run {seen : List α} (hseen : seen ⊆ l) :
    ∃ s, run special same seen = some s ∧ Inv special same seen s := by
  induction seen using List.reverseRecOn with
  | nil => exact ⟨State.empty, rfl, Inv.empty⟩
  | append_singleton seen x ih =>
      have hsub : seen ⊆ l := List.Subset.trans (List.subset_append_left seen [x]) hseen
      have hx : x ∈ l := hseen (List.mem_append_right seen List.mem_cons_self)
      obtain ⟨s, hrun, hinv⟩ := ih hsub
      obtain ⟨s', hvisit, hinv'⟩ := hinv.visit hrefl hequiv hapart hsub hx
      refine ⟨s', ?_, hinv'⟩
      rw [run_concat, hrun]
      exact hvisit

omit hrefl hapart in
/-- The classes are those of the comparison. -/
theorem Inv.together_iff {seen : List α} {s : State α} (h : Inv special same seen s)
    (hseen : seen ⊆ l) (hfiled : s.filed.map Prod.fst = seen) {x y : α} (hx : x ∈ seen)
    (hy : y ∈ seen) : s.Together x y ↔ Alike special same x y := by
  have hname : ∀ z ∈ seen, ∃ name, (z, name) ∈ s.filed := by
    intro z hz
    rw [← hfiled] at hz
    obtain ⟨⟨z, name⟩, hmem, rfl⟩ := List.mem_map.mp hz
    exact ⟨name, hmem⟩
  have hrep : ∀ p ∈ s.classes, p.2 ∈ l := fun p hp => hseen (h.representative_mem p hp)
  constructor
  · rintro ⟨name, hxn, hyn⟩
    rcases h.filed _ hxn with ⟨hsx, rfl⟩ | ⟨hsx, r, hr, hsr, hxr⟩
    · rcases h.filed _ hyn with ⟨hsy, -⟩ | ⟨-, r, hr, hsr, -⟩
      · exact Or.inl ⟨hsx, hsy⟩
      · have htrue := (h.special_iff _ hr).mp rfl
        rw [hsr] at htrue
        cases htrue
    · rcases h.filed _ hyn with ⟨-, rfl⟩ | ⟨hsy, r', hr', hsr', hyr⟩
      · have htrue := (h.special_iff _ hr).mp rfl
        rw [hsr] at htrue
        cases htrue
      · obtain rfl : r = r' :=
          congrArg Prod.snd (List.inj_on_of_nodup_map h.names_nodup hr hr' rfl)
        refine Or.inr ⟨hsx, hsy, ?_⟩
        exact hequiv.trans x (hseen hx) r (hrep _ hr) y (hseen hy) hsx hsr hsy hxr
          (hequiv.symm y (hseen hy) r (hrep _ hr) hsy hsr hyr)
  · obtain ⟨n, hxn⟩ := hname x hx
    obtain ⟨m, hym⟩ := hname y hy
    rintro (⟨hsx, hsy⟩ | ⟨hsx, hsy, hxy⟩)
    · rcases h.filed _ hxn with ⟨-, rfl⟩ | ⟨hfalse, -⟩
      · rcases h.filed _ hym with ⟨-, rfl⟩ | ⟨hfalse, -⟩
        · exact ⟨_, hxn, hym⟩
        · rw [hsy] at hfalse
          cases hfalse
      · rw [hsx] at hfalse
        cases hfalse
    · rcases h.filed _ hxn with ⟨htrue, -⟩ | ⟨-, r, hr, hsr, hxr⟩
      · rw [hsx] at htrue
        cases htrue
      rcases h.filed _ hym with ⟨htrue, -⟩ | ⟨-, r', hr', hsr', hyr⟩
      · rw [hsy] at htrue
        cases htrue
      -- the representatives equal each other, so they are one
      have hry := hequiv.trans r (hrep _ hr) x (hseen hx) y (hseen hy) hsr hsx hsy
        (hequiv.symm x (hseen hx) r (hrep _ hr) hsx hsr hxr) hxy
      have hrr := hequiv.trans r (hrep _ hr) y (hseen hy) r' (hrep _ hr') hsr hsy hsr' hry hyr
      cases h.apart _ hr _ hr' hsr hsr' hrr
      exact ⟨n, hxn, hym⟩

theorem Inv.of_run {seen : List α} (hseen : seen ⊆ l) {s : State α}
    (h : run special same seen = some s) : Inv special same seen s := by
  obtain ⟨s', hrun, hinv⟩ := exists_run hrefl hequiv hapart hseen
  obtain rfl := Option.some.inj (h.symm.trans hrun)
  exact hinv

/-- Every order leads to the partition that is meant. -/
theorem partitions_of_equivalence : Partitions special same l where
  ends := by
    intro l' hperm
    obtain ⟨s, hrun, -⟩ := exists_run hrefl hequiv hapart hperm.subset
    exact ⟨s, hrun⟩
  sound := by
    intro l' s hperm hrun x hx
    exact ((Inv.of_run hrefl hequiv hapart hperm.subset hrun).mem_special_iff.mp hx).2
  unique := by
    intro l₁ l₂ s₁ s₂ hperm₁ hperm₂ hrun₁ hrun₂
    have hinv₁ := Inv.of_run hrefl hequiv hapart hperm₁.subset hrun₁
    have hinv₂ := Inv.of_run hrefl hequiv hapart hperm₂.subset hrun₂
    have hfiled₁ := map_fst_filed hrun₁
    have hfiled₂ := map_fst_filed hrun₂
    -- who lies with whom is told by the comparison, whatever the order
    have hperm : l₁.Perm l₂ := hperm₁.trans hperm₂.symm
    constructor
    · intro x y
      constructor
      · intro htog
        obtain ⟨hx, hy⟩ := htog.mem hfiled₁
        rw [hinv₁.together_iff hequiv hperm₁.subset hfiled₁ hx hy] at htog
        exact (hinv₂.together_iff hequiv hperm₂.subset hfiled₂ (hperm.subset hx)
          (hperm.subset hy)).mpr htog
      · intro htog
        obtain ⟨hx, hy⟩ := htog.mem hfiled₂
        rw [hinv₂.together_iff hequiv hperm₂.subset hfiled₂ hx hy] at htog
        exact (hinv₁.together_iff hequiv hperm₁.subset hfiled₁ (hperm.symm.subset hx)
          (hperm.symm.subset hy)).mpr htog
    · intro x
      rw [hinv₁.mem_special_iff, hinv₂.mem_special_iff, hfiled₁, hfiled₂, hperm.mem_iff]

end Equivalence

/-! ## Orders that show a failure

A failure shows in a list that begins with the two or three elements it is about. Every order begins
with any elements that one likes. -/

/-- The second element is compared with the first one. -/
theorem exists_filed_of_run_cons_cons {x y : α} {rest : List α} {s : State α}
    (h : run special same (x :: y :: rest) = some s) (hy : special y = false) :
    ∃ b name n, same y x = some b ∧ (name = Name.special ↔ special x = true) ∧
      name ≠ Name.numbered n ∧ (x, name) ∈ s.filed ∧
      (y, if b = true then name else Name.numbered n) ∈ s.filed := by
  simp only [run, List.foldlM_cons, Option.bind_eq_bind, Option.bind_eq_some_iff] at h
  obtain ⟨s₁, hvisit₁, s₂, hvisit₂, hrest⟩ := h
  obtain ⟨name, count, hchoose₁, rfl⟩ := visit_eq_some hvisit₁
  obtain ⟨name', count', hchoose₂, rfl⟩ := visit_eq_some hvisit₂
  have hkeep := (foldlM_filed hrest).1.subset
  -- the first element is filed without a comparison
  have hname : (name = Name.special ↔ special x = true) ∧ name ≠ Name.numbered (count + 1) := by
    cases hx : special x with
    | true =>
        rw [choose_special hx] at hchoose₁
        cases hchoose₁
        exact ⟨by simp, by simp⟩
    | false =>
        have hfirst : choose special same State.empty x = some (State.empty.name none) :=
          choose_of_lookup hx rfl
        rw [hfirst] at hchoose₁
        cases hchoose₁
        exact ⟨by simp, by simp [State.empty]⟩
  -- the second one is compared with the first and with nothing else
  cases hsame : same y x with
  | none =>
      rw [choose, if_neg (by simp [hy])] at hchoose₂
      rw [show lookup same y (State.empty.file x name count).classes = none from
        lookup_cons_none hsame] at hchoose₂
      cases hchoose₂
  | some b =>
      have hlookup : lookup same y (State.empty.file x name count).classes =
          some (if b = true then some name else none) := by
        rw [show (State.empty.file x name count).classes = [(name, x)] from rfl, lookup_cons hsame]
        cases b <;> rfl
      rw [choose_of_lookup hy hlookup] at hchoose₂
      refine ⟨b, name, count + 1, rfl, hname.1, hname.2, hkeep ?_, hkeep ?_⟩
      · simp [State.file, State.empty]
      · cases b with
        | true =>
            cases hchoose₂
            simp [State.file, State.empty]
        | false =>
            cases hchoose₂
            simp [State.file, State.empty]

theorem exists_perm_cons_cons {l : List α} {x y : α} (hx : x ∈ l) (hy : y ∈ l) (hne : x ≠ y) :
    ∃ rest, (x :: y :: rest).Perm l := by
  obtain ⟨s, t, rfl⟩ := List.append_of_mem hx
  have hmem : y ∈ s ++ t := by
    rcases List.mem_cons.mp (List.perm_middle.subset hy) with rfl | hmem
    · exact absurd rfl hne
    · exact hmem
  obtain ⟨u, v, huv⟩ := List.append_of_mem hmem
  refine ⟨u ++ v, ?_⟩
  have hcons : (x :: y :: (u ++ v)).Perm (x :: (u ++ y :: v)) := List.perm_middle.symm.cons x
  rw [← huv] at hcons
  exact hcons.trans List.perm_middle.symm

section Failure

variable {l : List α} (h : Partitions special same l)

include h

theorem Partitions.apart : Apart special same l := by
  intro x hx f hf hsx hsf
  have hne : f ≠ x := by
    rintro rfl
    rw [hsx] at hsf
    cases hsf
  obtain ⟨rest, hperm⟩ := exists_perm_cons_cons hf hx hne
  obtain ⟨s, hrun⟩ := h.ends _ hperm
  obtain ⟨b, name, n, hsame, hname, -, -, hfiled⟩ := exists_filed_of_run_cons_cons hrun hsx
  cases b with
  | false => exact hsame
  | true =>
      -- `f` opens the special class and `x` is filed under it
      rw [if_pos rfl, hname.mpr hsf] at hfiled
      have hbad := h.sound _ s hperm hrun x hfiled
      rw [hsx] at hbad
      cases hbad

/-- With the two in front, the comparison decides about them; so it does in every order. -/
theorem Partitions.same_eq_some (hl : l.Nodup) {s : State α} (hrun : run special same l = some s)
    {x y : α} (hx : x ∈ l) (hy : y ∈ l) (hsy : special y = false) (hne : x ≠ y) :
    ∃ b, same y x = some b ∧ (s.Together x y ↔ b = true) := by
  obtain ⟨rest, hperm⟩ := exists_perm_cons_cons hx hy hne
  obtain ⟨s', hrun'⟩ := h.ends _ hperm
  obtain ⟨b, name, n, hsame, -, hnumber, hfx, hfy⟩ := exists_filed_of_run_cons_cons hrun' hsy
  refine ⟨b, hsame, ?_⟩
  rw [(h.unique _ _ _ _ (List.Perm.refl l) hperm hrun hrun').together x y]
  have hnodup := hperm.nodup_iff.mpr hl
  constructor
  · rintro ⟨m, hmx, hmy⟩
    by_contra hb
    rw [if_neg hb] at hfy
    obtain rfl := name_unique hnodup hrun' hfx hmx
    exact hnumber (name_unique hnodup hrun' hmy hfy)
  · intro hb
    rw [if_pos hb] at hfy
    exact ⟨name, hfx, hfy⟩

theorem Partitions.equivalenceOn (hrefl : ∀ x, same x x = some true) (hl : l.Nodup) :
    EquivalenceOn special same l := by
  obtain ⟨s, hrun⟩ := h.ends l (List.Perm.refl l)
  have hiff : ∀ {x y : α}, x ∈ l → y ∈ l → x ≠ y → special y = false →
      (same y x = some true ↔ s.Together x y) := by
    intro x y hx hy hne hsy
    obtain ⟨b, hsame, htog⟩ := h.same_eq_some hl hrun hx hy hsy hne
    rw [htog, hsame, Option.some.injEq]
  constructor
  · intro x hx y hy hsx _
    by_cases hne : y = x
    · exact ⟨true, hne ▸ hrefl y⟩
    · obtain ⟨b, hsame, -⟩ := h.same_eq_some hl hrun hy hx hsx hne
      exact ⟨b, hsame⟩
  · intro x hx y hy hsx hsy hxy
    by_cases hne : x = y
    · rw [hne]
      exact hrefl y
    · rw [hiff hx hy hne hsy]
      exact ((hiff hy hx (Ne.symm hne) hsx).mp hxy).symm
  · intro x hx y hy z hz hsx hsy hsz hxy hyz
    by_cases hxy' : x = y
    · rw [hxy']
      exact hyz
    by_cases hyz' : y = z
    · rw [← hyz']
      exact hxy
    by_cases hxz' : x = z
    · rw [hxz']
      exact hrefl z
    -- all three are in the class of `y`
    obtain ⟨n, hyn, hxn⟩ := (hiff hy hx (Ne.symm hxy') hsx).mp hxy
    obtain ⟨m, hzm, hym⟩ := (hiff hz hy (Ne.symm hyz') hsy).mp hyz
    obtain rfl := name_unique hl hrun hyn hym
    exact (hiff hz hx (Ne.symm hxz') hsx).mpr ⟨n, hzm, hxn⟩

end Failure

/-- When the order does not matter and the special class is pure. -/
theorem partitions_iff (hrefl : ∀ x, same x x = some true) {l : List α} (hl : l.Nodup) :
    Partitions special same l ↔ EquivalenceOn special same l ∧ Apart special same l :=
  ⟨fun h => ⟨h.equivalenceOn hrefl hl, h.apart⟩,
    fun h => partitions_of_equivalence hrefl h.1 h.2⟩

end Representatives
