import RISCover.Input.Sparse
import RISCover.Lib.Together

/-!
# One dictionary for all general purpose registers

What each input should have is its own affair: `OwnRegs` are dictionaries that nobody shares. The
floating point and vector dictionaries of the process are like that, the general purpose ones are
all the one object of the signature. `independent_iff` says for which runs this cannot be noticed.
-/

namespace RISCover

/-! ## What the sources give

The same operations, but every input keeps the values that it was given to itself. -/

/-- The dictionaries of one input. -/
abbrev OwnRegs := RegKind → Option RegDict

namespace OwnRegs

def empty (c : RegConfig) : OwnRegs
  | .gp => some Dict.empty
  | .fp => if c.FLOATS then some Dict.empty else none
  | .vec => if c.VECTOR then some Dict.empty else none

def update (o : OwnRegs) (k : RegKind) (items : List (String × Int)) : Option OwnRegs :=
  (o k).map fun d => Function.update o k (some (d.update items))

def updateFrom (o : OwnRegs) (k : RegKind) : Option RegDict → Option OwnRegs
  | some given => o.update k given.items
  | none => some o

/-- The registers that a dictionary gives. -/
def ofDict (c : RegConfig) (asmOpcodes : String → List UInt32) (d : InputDict) :
    Option OwnRegs := do
  let _ ← (d.sharedParseDict asmOpcodes).toOption
  match d.regs with
  | none => some (empty c)
  | some regs =>
    let o ← (empty c).updateFrom .gp regs.gp
    let o ← o.updateFrom .fp regs.fp
    o.updateFrom .vec regs.vec

/-- The kind of a register by its name. -/
def kindOf (arch : Arch) (name : String) : Option RegKind :=
  if name ∈ RegKind.gp.names arch then some .gp
  else if name ∈ RegKind.fp.names arch then some .fp
  else if name ∈ RegKind.vec.names arch then some .vec
  else none

/-- The registers that the arguments give. -/
def ofArgs (c : RegConfig) (args : List (String × Int)) : Option OwnRegs :=
  args.foldlM (fun o arg => (kindOf c.arch arg.1).bind fun k => o.update k [arg]) (empty c)

end OwnRegs

/-- What an operation means for the registers that each input was given. -/
def InputOp.own (c : RegConfig) (asmOpcodes : String → List UInt32) (owns : List OwnRegs) :
    InputOp → Option (List OwnRegs)
  | .fromDict d => (OwnRegs.ofDict c asmOpcodes d).map fun o => owns ++ [o]
  | .fromArgs args _ => (OwnRegs.ofArgs c args).map fun o => owns ++ [o]
  | .edit i k name value => do
      let o ← owns[i]?
      let o ← o.update k [(name, value)]
      pure (owns.set i o)

/-- The registers that each input was given by its own source and its own edits. -/
def ownRegs (c : RegConfig) (asmOpcodes : String → List UInt32) (ops : List InputOp) :
    Option (List OwnRegs) :=
  ops.foldlM (InputOp.own c asmOpcodes) []

/-- The values of the registers of one kind. -/
def OwnRegs.lookup (o : OwnRegs) (k : RegKind) : Option (String → Option Int) := (o k).map Dict.get?

/-- The values that an input of the process shows. -/
def InputWithSparseValues.lookup (heap : Heap) (inp : InputWithSparseValues) (k : RegKind) :
    Option (String → Option Int) :=
  (inp.regs k).map fun r => (heap.cell r).get?

/-- At every moment every input shows the registers that it was given. -/
def Independent (c : RegConfig) (asmOpcodes : String → List UInt32) (ops : List InputOp) : Prop :=
  ∀ before, before <+: ops → ∀ s, Process.run c asmOpcodes before = .ok s →
    ∃ owns, ownRegs c asmOpcodes before = some owns ∧
      List.Forall₂ (fun inp o => ∀ k, InputWithSparseValues.lookup s.heap inp k = o.lookup k)
        s.inputs owns

/-- At every moment all inputs have been given the same general purpose registers. -/
def SameGp (c : RegConfig) (asmOpcodes : String → List UInt32) (ops : List InputOp) : Prop :=
  ∀ before, before <+: ops → ∀ owns, ownRegs c asmOpcodes before = some owns →
    ∀ o ∈ owns, ∀ o' ∈ owns, o.lookup .gp = o'.lookup .gp

/-! ## The process represents what was given, except for the general purpose registers

Dictionaries of other classes are never shared, so they hold what was given. The reference to the
general registers is the default object for every input. -/

/-- Every input has its own floating point and vector dictionaries. -/
structure Represents (heap : Heap) (inputs : List InputWithSparseValues) (owns : List OwnRegs) :
    Prop where
  length : inputs.length = owns.length
  /-- The general purpose registers are those of the signature. -/
  gp : ∀ inp ∈ inputs, inp.gp = Heap.defaultGp
  given : ∀ o ∈ owns, (o .gp).isSome = true
  regs : ∀ (i : Nat) (inp : InputWithSparseValues) (o : OwnRegs), inputs[i]? = some inp →
    owns[i]? = some o → ∀ k, k ≠ .gp → (inp.regs k).map heap.cell = o k
  separate : ∀ (i j : Nat) (inp inp' : InputWithSparseValues) (k k' : RegKind) (r : Nat),
    inputs[i]? = some inp → inputs[j]? = some inp' → inp.regs k = some r →
    inp'.regs k' = some r → k ≠ .gp → i = j ∧ k = k'
  allocated : ∀ inp ∈ inputs, ∀ k r, inp.regs k = some r →
    r < heap.next ∧ (k ≠ .gp → r ≠ Heap.defaultGp)
  next : Heap.defaultGp < heap.next

namespace Represents

variable {c : RegConfig} {heap heap' : Heap} {inputs : List InputWithSparseValues}
  {owns : List OwnRegs} {i : Nat} {inp : InputWithSparseValues} {o o' : OwnRegs}

theorem nil : Represents Heap.init [] [] :=
  ⟨rfl, by simp, by simp, by simp, by simp, by simp, by decide⟩

theorem getElem?_concat {α : Type} {l : List α} {a x : α} {i : Nat} (h : (l ++ [a])[i]? = some x) :
    l[i]? = some x ∨ (i = l.length ∧ x = a) := by
  rcases Nat.lt_trichotomy i l.length with hlt | rfl | hgt
  · rw [List.getElem?_append_left hlt] at h
    exact Or.inl h
  · rw [List.getElem?_append_right (Nat.le_refl _), Nat.sub_self] at h
    exact Or.inr ⟨rfl, (Option.some.inj h).symm⟩
  · rw [List.getElem?_eq_none (by simp; omega)] at h
    cases h

/-- A new input whose dictionaries are new objects. -/
theorem concat (h : Represents heap inputs owns) (hnext : heap.next ≤ heap'.next)
    (hcells : ∀ r, r < heap.next → heap'.cell r = heap.cell r) (hgp : inp.gp = Heap.defaultGp)
    (hgiven : (o .gp).isSome = true) (hregs : ∀ k, k ≠ .gp → (inp.regs k).map heap'.cell = o k)
    (hnew : ∀ k r, k ≠ .gp → inp.regs k = some r → heap.next ≤ r ∧ r < heap'.next)
    (hsep : ∀ k k' r, inp.regs k = some r → inp.regs k' = some r → k = k') :
    Represents heap' (inputs ++ [inp]) (owns ++ [o]) where
  length := by rw [List.length_append, List.length_append, h.length]; rfl
  gp := by
    intro x hx
    rcases List.mem_append.mp hx with hx | hx
    · exact h.gp x hx
    · rw [List.mem_singleton.mp hx, hgp]
  given := by
    intro x hx
    rcases List.mem_append.mp hx with hx | hx
    · exact h.given x hx
    · rw [List.mem_singleton.mp hx]; exact hgiven
  regs := by
    intro j x y hx hy k hk
    have hlen := h.length
    rcases getElem?_concat hx with hx | ⟨rfl, rfl⟩
    · -- an input that was there before keeps its dictionaries
      have hj : j < inputs.length := (List.getElem?_eq_some_iff.mp hx).1
      rcases getElem?_concat hy with hy | ⟨rfl, rfl⟩
      · rw [← h.regs j x y hx hy k hk]
        cases hr : x.regs k with
        | none => rfl
        | some r =>
            have hlt := (h.allocated x (List.mem_of_getElem? hx) k r hr).1
            rw [Option.map_some, Option.map_some, hcells r hlt]
      · omega
    · rcases getElem?_concat hy with hy | ⟨-, rfl⟩
      · have hj : inputs.length < owns.length := (List.getElem?_eq_some_iff.mp hy).1
        omega
      · exact hregs k hk
  separate := by
    intro j j' x x' k k' r hx hx' hr hr' hk
    rcases getElem?_concat hx with hx | ⟨rfl, rfl⟩
    · have hold := h.allocated x (List.mem_of_getElem? hx) k r hr
      rcases getElem?_concat hx' with hx' | ⟨rfl, rfl⟩
      · exact h.separate j j' x x' k k' r hx hx' hr hr' hk
      · -- an old dictionary is not a new one
        by_cases hk' : k' = .gp
        · subst hk'
          exact absurd ((Option.some.inj hr').symm.trans hgp) (hold.2 hk)
        · have := (hnew k' r hk' hr').1
          omega
    · have hnew' := hnew k r hk hr
      rcases getElem?_concat hx' with hx' | ⟨rfl, rfl⟩
      · have := (h.allocated x' (List.mem_of_getElem? hx') k' r hr').1
        omega
      · exact ⟨rfl, hsep k k' r hr hr'⟩
  allocated := by
    intro x hx k r hr
    rcases List.mem_append.mp hx with hx | hx
    · have hold := h.allocated x hx k r hr
      exact ⟨Nat.lt_of_lt_of_le hold.1 hnext, hold.2⟩
    · obtain rfl := List.mem_singleton.mp hx
      by_cases hk : k = .gp
      · subst hk
        have hzero : r = Heap.defaultGp := (Option.some.inj hr).symm.trans hgp
        exact ⟨hzero ▸ Nat.lt_of_lt_of_le h.next hnext, fun hne => absurd rfl hne⟩
      · have := hnew k r hk hr
        have hpos := h.next
        exact ⟨this.2, fun _ => by omega⟩
  next := Nat.lt_of_lt_of_le h.next hnext

/-- One dictionary of one input is updated: for the other inputs nothing changes, unless it is the
dictionary of the signature. -/
theorem update (h : Represents heap inputs owns) (hi : inputs[i]? = some inp)
    (ho : owns[i]? = some o) (k : RegKind) (items : List (String × Int)) :
    Together (fun heap' o' => Represents heap' inputs (owns.set i o') ∧
        o' .gp = (if k = .gp then (o .gp).map fun d => d.update items else o .gp) ∧
        heap'.cell Heap.defaultGp =
          if k = .gp then (heap.cell Heap.defaultGp).update items
          else heap.cell Heap.defaultGp)
      (inp.update k items heap) (o.update k items) := by
  have hmem := List.mem_of_getElem? hi
  have hsome : (inp.regs k).isSome = (o k).isSome := by
    by_cases hk : k = .gp
    · subst hk
      rw [h.given o (List.mem_of_getElem? ho)]
      rfl
    · rw [← h.regs i inp o hi ho k hk, Option.isSome_map]
  unfold InputWithSparseValues.update OwnRegs.update
  cases hr : inp.regs k with
  | none =>
      rw [hr] at hsome
      have hnone : o k = none := by simpa using hsome.symm
      rw [hnone]
      trivial
  | some r =>
      rw [hr] at hsome
      obtain ⟨d, hd⟩ := Option.isSome_iff_exists.mp hsome.symm
      simp only [hd, Option.map_some]
      refine ⟨{ h with
        length := by rw [List.length_set, h.length]
        given := ?_
        regs := ?_ }, ?_, ?_⟩
      · intro x hx
        rcases List.mem_or_eq_of_mem_set hx with hx | rfl
        · exact h.given x hx
        · by_cases hk : k = .gp
          · subst hk; rw [Function.update_self]; rfl
          · rw [Function.update_of_ne (Ne.symm hk)]
            exact h.given o (List.mem_of_getElem? ho)
      · intro j x y hx hy k' hk'
        -- the input itself is updated at one of its dictionaries
        by_cases hij : i = j
        · subst hij
          obtain rfl : inp = x := Option.some.inj (hi.symm.trans hx)
          rw [List.getElem?_set_self (List.getElem?_eq_some_iff.mp ho).1] at hy
          obtain rfl := Option.some.inj hy
          -- two classes of one input have different dictionaries
          by_cases hkk : k' = k
          · subst hkk
            have hcell := h.regs i inp o hi ho k' hk'
            rw [hr, hd, Option.map_some, Option.some.injEq] at hcell
            rw [Function.update_self, hr, Option.map_some, Store.cell_modify_self, hcell]
          · rw [Function.update_of_ne hkk, ← h.regs i inp o hi ho k' hk']
            cases hr' : inp.regs k' with
            | none => rfl
            | some r' =>
                have hne : r' ≠ r := by
                  rintro rfl
                  exact hkk (h.separate i i inp inp k' k r' hi hi hr' hr hk').2
                rw [Option.map_some, Option.map_some, Store.cell_modify_of_ne hne]
        · rw [List.getElem?_set_ne hij] at hy
          rw [← h.regs j x y hx hy k' hk']
          cases hr' : x.regs k' with
          | none => rfl
          | some r' =>
              have hne : r' ≠ r := by
                rintro rfl
                exact hij (h.separate j i x inp k' k r' hx hi hr' hr hk').1.symm
              rw [Option.map_some, Option.map_some, Store.cell_modify_of_ne hne]
      · by_cases hk : k = .gp
        · subst hk; rw [Function.update_self, if_pos rfl, hd]; rfl
        · rw [Function.update_of_ne (Ne.symm hk), if_neg hk]
      · by_cases hk : k = .gp
        · subst hk
          have hzero : r = Heap.defaultGp := (Option.some.inj hr).symm.trans (h.gp inp hmem)
          rw [if_pos rfl, hzero, Store.cell_modify_self]
        · rw [if_neg hk]
          exact Store.cell_modify_of_ne (Ne.symm ((h.allocated inp hmem k r hr).2 hk)) _

end Represents

/-! ## Loading an input

A new input has new dictionaries, except for the default one. `Building` is the state in the middle
of the constructor. -/

section building

open InputWithSparseValues

variable {c : RegConfig} {heap heap' : Heap} {inputs : List InputWithSparseValues}
  {owns : List OwnRegs} {inp : InputWithSparseValues} {o : OwnRegs} {shared : RegDict}

/-- What the defaults for the flags are. -/
theorem orEmpty_spec (flag : Bool) (heap : Heap) :
    heap.next ≤ (orEmpty flag none heap).2.next ∧
    (∀ r, r < heap.next → (orEmpty flag none heap).2.cell r = heap.cell r) ∧
    (orEmpty flag none heap).1.map (orEmpty flag none heap).2.cell =
      (if flag then some Dict.empty else none) ∧
    ∀ r, (orEmpty flag none heap).1 = some r →
      heap.next ≤ r ∧ r < (orEmpty flag none heap).2.next := by
  cases flag with
  | false => exact ⟨Nat.le_refl _, fun _ _ => rfl, rfl, by simp [orEmpty]⟩
  | true =>
      refine ⟨Nat.le_succ _, fun r hr => Store.cell_alloc_of_lt hr _, ?_, ?_⟩
      · show some ((heap.alloc Dict.empty).2.cell heap.next) = _
        rw [Store.cell_alloc_self, if_pos rfl]
      · intro r hr
        obtain rfl : heap.next = r := Option.some.inj hr
        exact ⟨Nat.le_refl _, Nat.lt_succ_self _⟩

/-- Dictionaries from different ranges of references are different. -/
theorem regs_inj {m : Nat} (hgp : inp.gp < m) (hfp : ∀ r, inp.fp = some r → inp.gp < r ∧ r < m)
    (hvec : ∀ r, inp.vec = some r → m ≤ r) (k k' : RegKind) (r : Nat) (hr : inp.regs k = some r)
    (hr' : inp.regs k' = some r) : k = k' := by
  cases k <;> cases k' <;>
    simp only [InputWithSparseValues.regs, Option.some.injEq] at hr hr' <;> grind

/-- An input under construction, behind the others: `shared` was in the dictionary of the signature
before, and the same values went into it as into the input's own. -/
def Building (inputs : List InputWithSparseValues) (owns : List OwnRegs) (shared : RegDict)
    (inp : InputWithSparseValues) (heap : Heap) (o : OwnRegs) : Prop :=
  Represents heap (inputs ++ [inp]) (owns ++ [o]) ∧
    ∃ given : List (String × Int), o .gp = some (RegDict.update Dict.empty given) ∧
      heap.cell Heap.defaultGp = shared.update given

theorem Represents.init (h : Represents heap inputs owns) (c : RegConfig) (instrSeq : List UInt32)
    (seqLen : Nat) (disCapstone disOpcodes disMra : Option (List String)) {p}
    (hp : InputWithSparseValues.init c instrSeq seqLen Heap.defaultGp none none disCapstone
      disOpcodes disMra heap = p) :
    Building inputs owns (heap.cell Heap.defaultGp) p.1 p.2 (OwnRegs.empty c) := by
  obtain ⟨hnext, hcells, hfp, hnewfp⟩ := orEmpty_spec c.FLOATS heap
  obtain ⟨hnext', hcells', hvec, hnewvec⟩ :=
    orEmpty_spec c.VECTOR (orEmpty c.FLOATS none heap).2
  have hgp := h.next
  subst hp
  refine ⟨h.concat (le_trans hnext hnext') ?_ rfl rfl ?_ ?_ ?_, [], rfl, ?_⟩
  · intro r hr
    exact (hcells' r (Nat.lt_of_lt_of_le hr hnext)).trans (hcells r hr)
  · intro k hk
    cases k with
    | gp => exact absurd rfl hk
    | fp =>
        -- the second allocation leaves the first alone
        show (orEmpty c.FLOATS none heap).1.map
          (orEmpty c.VECTOR none (orEmpty c.FLOATS none heap).2).2.cell = _
        rw [OwnRegs.empty, ← hfp]
        cases hr : (orEmpty c.FLOATS none heap).1 with
        | none => rfl
        | some r => exact congrArg some (hcells' r (hnewfp r hr).2)
    | vec => exact hvec
  · intro k r hk hr
    cases k with
    | gp => exact absurd rfl hk
    | fp => exact ⟨(hnewfp r hr).1, Nat.lt_of_lt_of_le (hnewfp r hr).2 hnext'⟩
    | vec => exact ⟨le_trans hnext (hnewvec r hr).1, (hnewvec r hr).2⟩
  · refine regs_inj (m := (orEmpty c.FLOATS none heap).2.next) (Nat.lt_of_lt_of_le hgp hnext) ?_ ?_
    · exact fun r hr => ⟨Nat.lt_of_lt_of_le hgp (hnewfp r hr).1, (hnewfp r hr).2⟩
    · exact fun r hr => (hnewvec r hr).1
  · exact (hcells' _ (Nat.lt_of_lt_of_le hgp hnext)).trans (hcells _ hgp)

theorem Building.update (h : Building inputs owns shared inp heap o) (k : RegKind)
    (items : List (String × Int)) :
    Together (Building inputs owns shared inp) (inp.update k items heap) (o.update k items) := by
  obtain ⟨hrep, given, hgp, hshared⟩ := h
  have hlen : inputs.length = owns.length := by simpa using hrep.length
  have hi : (inputs ++ [inp])[owns.length]? = some inp := by rw [← hlen]; simp
  have ho : (owns ++ [o])[owns.length]? = some o := by simp
  refine (hrep.update hi ho k items).mono ?_
  rintro heap' o' ⟨hrep', hgp', hcell⟩
  have hset : (owns ++ [o]).set owns.length o' = owns ++ [o'] := by
    rw [List.set_append_right _ _ (Nat.le_refl _), Nat.sub_self, List.set_cons_zero]
  refine ⟨hset ▸ hrep', ?_⟩
  by_cases hk : k = .gp
  · refine ⟨given ++ items, ?_, ?_⟩
    · rw [hgp', if_pos hk, hgp, Option.map_some, RegDict.update_append]
    · rw [hcell, if_pos hk, hshared, RegDict.update_append]
  · exact ⟨given, by rw [hgp', if_neg hk, hgp], by rw [hcell, if_neg hk, hshared]⟩

theorem Building.updateFrom (h : Building inputs owns shared inp heap o) (k : RegKind)
    (entry : Option RegDict) :
    Together (Building inputs owns shared inp) (inp.updateFrom k entry heap)
      (o.updateFrom k entry) := by
  cases entry with
  | none => exact h
  | some given => exact h.update k given.items

theorem Building.setArg (h : Building inputs owns shared inp heap o) (c : RegConfig)
    (arg : String × Int) :
    Together (Building inputs owns shared inp) (setArg c inp heap arg)
      ((OwnRegs.kindOf c.arch arg.1).bind fun k => o.update k [arg]) := by
  have hnone : ∀ k, inp.regs k = none → o.update k [arg] = none := by
    intro k hk
    have hupdate := h.update k [arg]
    rw [InputWithSparseValues.update, hk] at hupdate
    exact hupdate.of_error
  unfold InputWithSparseValues.setArg OwnRegs.kindOf
  -- a name belongs to one class at most, and an input without this class raises
  by_cases hgp : arg.1 ∈ RegKind.gp.names c.arch
  · rw [if_pos hgp, if_pos hgp]
    exact h.update .gp [arg]
  · rw [if_neg hgp, if_neg hgp]
    by_cases hfp : arg.1 ∈ RegKind.fp.names c.arch
    · rw [if_pos hfp, if_pos hfp, Option.bind_some]
      by_cases hflag : inp.fp = none
      · rw [if_pos hflag, hnone .fp hflag]
        trivial
      · rw [if_neg hflag]
        exact h.update .fp [arg]
    · rw [if_neg hfp, if_neg hfp]
      by_cases hvec : arg.1 ∈ RegKind.vec.names c.arch
      · rw [if_pos hvec, if_pos hvec, Option.bind_some]
        by_cases hflag : inp.vec = none
        · rw [if_pos hflag, hnone .vec hflag]
          trivial
        · rw [if_neg hflag]
          exact h.update .vec [arg]
      · rw [if_neg hvec, if_neg hvec]
        trivial

theorem Represents.fromDict (h : Represents heap inputs owns) (c : RegConfig)
    (asmOpcodes : String → List UInt32) (d : InputDict) :
    Together (fun r o => Building inputs owns (heap.cell Heap.defaultGp) r.1 r.2.2 o)
      (InputWithSparseValues.fromDict c asmOpcodes d heap) (OwnRegs.ofDict c asmOpcodes d) := by
  refine (Together.toOption (d.sharedParseDict asmOpcodes)).bind ?_
  rintro instrSeq _ rfl
  have hinit := h.init c instrSeq instrSeq.length d.disCapstone d.disOpcodes d.disMra rfl
  cases d.regs with
  | none => exact hinit
  | some regs =>
      refine (hinit.updateFrom .gp regs.gp).bind fun heap₁ o₁ h₁ => ?_
      refine (h₁.updateFrom .fp regs.fp).bind fun heap₂ o₂ h₂ => ?_
      exact (h₂.updateFrom .vec regs.vec).bind_pure fun heap₃ o₃ h₃ => h₃

theorem Represents.fromArgs (h : Represents heap inputs owns) (c : RegConfig)
    (args : List (String × Int)) (instrSeq : List UInt32) :
    Together (fun r o => Building inputs owns (heap.cell Heap.defaultGp) r.1 r.2 o)
      (InputWithSparseValues.fromArgs c args instrSeq heap) (OwnRegs.ofArgs c args) := by
  have hinit := h.init c instrSeq instrSeq.length none none none rfl
  have hargs := Together.foldlM (fun heap o arg hb => Building.setArg hb c arg) args hinit
  exact hargs.bind_pure fun heap₁ o₁ h₁ => h₁

end building

/-! ## The shared dictionary

Every load and every edit of a general register goes into the one dictionary, so all inputs show all
of them. This cannot be noticed when each was given the same as the others. -/

section shared

variable {c : RegConfig} {asmOpcodes : String → List UInt32} {heap heap' : Heap}
  {owns owns' : List OwnRegs} {shared : RegDict}

/-- What an operation does to the shared dictionary and to what the inputs were given. -/
inductive Grows (shared shared' : RegDict) (owns : List OwnRegs) : List OwnRegs → Prop where
  /-- An input joins. -/
  | load (o : OwnRegs) (given : List (String × Int))
      (hgp : o .gp = some (RegDict.update Dict.empty given))
      (hshared : shared' = shared.update given) : Grows shared shared' owns (owns ++ [o])
  /-- A register of one input is set. -/
  | edit (i : Nat) (o o' : OwnRegs) (given : List (String × Int)) (hi : owns[i]? = some o)
      (hgp : o' .gp = (o .gp).map fun d => d.update given)
      (hshared : shared' = shared.update given) : Grows shared shared' owns (owns.set i o')

/-- Every input was given what the shared dictionary holds. -/
structure Shares (shared : RegDict) (owns : List OwnRegs) : Prop where
  lookup : ∀ o ∈ owns, o.lookup .gp = some shared.get?
  empty : owns = [] → shared = Dict.empty

/-- As long as all inputs are given the same registers, they are given what they share. -/
theorem Grows.shares {shared' : RegDict} (h : Grows shared shared' owns owns')
    (hshares : Shares shared owns)
    (hsame : ∀ o ∈ owns', ∀ o' ∈ owns', o.lookup .gp = o'.lookup .gp) : Shares shared' owns' := by
  cases h with
  | load o given hgp hshared =>
      have hnew : o.lookup .gp = some shared'.get? := by
        rw [OwnRegs.lookup, hgp, Option.map_some, hshared]
        congr 1
        funext name
        rw [RegDict.get?_update shared]
        cases howns : owns with
        | nil => rw [hshares.empty howns, Dict.get?_empty, Option.or_none]
        | cons x rest =>
            -- the inputs there were given the same as the new one
            have hx : x ∈ owns := howns ▸ List.mem_cons_self
            have heq := hsame x (List.mem_append_left _ hx) o (by simp)
            rw [hshares.lookup x hx, OwnRegs.lookup, hgp, Option.map_some, Option.some.injEq] at heq
            rw [congrFun heq name, Option.or_self]
      refine ⟨fun x hx => ?_, by simp⟩
      rw [hsame x hx o (by simp), hnew]
  | edit i o o' given hi hgp hshared =>
      have hlt := (List.getElem?_eq_some_iff.mp hi).1
      have hmem' : o' ∈ owns.set i o' := List.mem_set hlt o'
      have hnew : o'.lookup .gp = some shared'.get? := by
        have hold := hshares.lookup o (List.mem_of_getElem? hi)
        rw [OwnRegs.lookup] at hold ⊢
        cases hd : o .gp with
        | none => rw [hd] at hold; cases hold
        | some d =>
            rw [hd, Option.map_some, Option.some.injEq] at hold
            rw [hgp, hd, Option.map_some, Option.map_some, hshared]
            congr 1
            funext name
            rw [RegDict.get?_update d, RegDict.get?_update shared, hold]
      refine ⟨fun x hx => ?_, ?_⟩
      · rw [hsame x hx o' hmem', hnew]
      · intro hnil
        rw [hnil] at hmem'
        cases hmem'

/-- One operation: it fails on both sides, or the process still represents what was given. -/
theorem Represents.step {s : Process} (h : Represents s.heap s.inputs owns) (op : InputOp) :
    Together (fun s' owns' => Represents s'.heap s'.inputs owns' ∧
        Grows (s.heap.cell Heap.defaultGp) (s'.heap.cell Heap.defaultGp) owns owns')
      (Process.step c asmOpcodes s op) (op.own c asmOpcodes owns) := by
  -- a load and a construction add one input with its own dictionaries
  have hload : ∀ (inp : InputWithSparseValues) (heap : Heap) (o : OwnRegs),
      Building s.inputs owns (s.heap.cell Heap.defaultGp) inp heap o →
      Represents heap (s.inputs ++ [inp]) (owns ++ [o]) ∧
        Grows (s.heap.cell Heap.defaultGp) (heap.cell Heap.defaultGp) owns (owns ++ [o]) := by
    rintro inp heap o ⟨hrep, given, hgp, hshared⟩
    exact ⟨hrep, .load o given hgp hshared⟩
  cases op with
  | fromDict d =>
      have hdict := (h.fromDict c asmOpcodes d).map_right (g := fun o => owns ++ [o])
        (T := fun r owns' => Represents r.2.2 (s.inputs ++ [r.1]) owns' ∧
          Grows (s.heap.cell Heap.defaultGp) (r.2.2.cell Heap.defaultGp) owns owns')
        fun r o hb => hload r.1 r.2.2 o hb
      exact hdict.bind_pure fun r owns' hr => hr
  | fromArgs args instrSeq =>
      have hargs := (h.fromArgs c args instrSeq).map_right (g := fun o => owns ++ [o])
        (T := fun r owns' => Represents r.2 (s.inputs ++ [r.1]) owns' ∧
          Grows (s.heap.cell Heap.defaultGp) (r.2.cell Heap.defaultGp) owns owns')
        fun r o hb => hload r.1 r.2 o hb
      exact hargs.bind_pure fun r owns' hr => hr
  | edit i k name value =>
      have hlen := h.length
      rw [Process.step, InputOp.own]
      cases hi : s.inputs[i]? with
      | none =>
          rw [List.getElem?_eq_none (hlen ▸ List.getElem?_eq_none_iff.mp hi)]
          trivial
      | some inp =>
          have hlt : i < owns.length := hlen ▸ (List.getElem?_eq_some_iff.mp hi).1
          obtain ⟨o, ho⟩ : ∃ o, owns[i]? = some o := ⟨_, List.getElem?_eq_getElem hlt⟩
          rw [ho]
          refine (h.update hi ho k [(name, value)]).bind ?_
          rintro heap o' ⟨hrep, hgp, hcell⟩
          refine ⟨hrep, .edit i o o' (if k = .gp then [(name, value)] else []) ho ?_ ?_⟩
          · rw [hgp]
            split
            next => rfl
            next => cases o .gp <;> rfl
          · rw [hcell]
            split
            next => rfl
            next => rfl

theorem represents_run (ops : List InputOp) :
    Together (fun s owns => Represents s.heap s.inputs owns) (Process.run c asmOpcodes ops)
      (ownRegs c asmOpcodes ops) :=
  Together.foldlM (fun _ _ op h => (h.step op).mono fun _ _ hstep => hstep.1) ops Represents.nil

theorem run_concat (before : List InputOp) (op : InputOp) :
    Process.run c asmOpcodes (before ++ [op]) =
      Process.run c asmOpcodes before >>= fun s => Process.step c asmOpcodes s op := by
  rw [Process.run, List.foldlM_append, ← Process.run]
  simp only [List.foldlM_cons, List.foldlM_nil, bind_pure]

theorem ownRegs_concat (before : List InputOp) (op : InputOp) :
    ownRegs c asmOpcodes (before ++ [op]) =
      ownRegs c asmOpcodes before >>= fun owns => op.own c asmOpcodes owns := by
  rw [ownRegs, List.foldlM_append, ← ownRegs]
  simp only [List.foldlM_cons, List.foldlM_nil, bind_pure]

/-- In a run in which all inputs are always given the same registers, they are given what they
share. -/
theorem shares_run (before : List InputOp) : ∀ s owns, SameGp c asmOpcodes before →
    Process.run c asmOpcodes before = .ok s → ownRegs c asmOpcodes before = some owns →
    Shares (s.heap.cell Heap.defaultGp) owns := by
  induction before using List.reverseRecOn with
  | nil =>
      intro s owns _ hrun hown
      cases hrun
      cases hown
      exact ⟨by simp, fun _ => rfl⟩
  | append_singleton before op ih =>
      intro s' owns' hsame hrun hown
      have hbefore : SameGp c asmOpcodes before := fun p hp =>
        hsame p (hp.trans (List.prefix_append before [op]))
      have howns' := hown
      rw [run_concat] at hrun
      rw [ownRegs_concat] at howns'
      cases hs : Process.run c asmOpcodes before with
      | error e => rw [hs] at hrun; cases hrun
      | ok s =>
          obtain ⟨owns, howns, hrep⟩ := (represents_run before).of_ok hs
          have hshares := ih s owns hbefore hs howns
          rw [hs] at hrun
          rw [howns] at howns'
          -- one more operation: what it adds is in the shared dictionary as well
          obtain ⟨owns'', howns'', -, hgrows⟩ := (hrep.step op).of_ok hrun
          obtain rfl : owns'' = owns' := Option.some.inj (howns''.symm.trans howns')
          exact hgrows.shares hshares (hsame _ (List.prefix_refl _) _ hown)

end shared

/-- Inputs are independent exactly in the runs in which all of them are always given the same
general purpose registers. -/
theorem independent_iff (c : RegConfig) (asmOpcodes : String → List UInt32) (ops : List InputOp) :
    Independent c asmOpcodes ops ↔ SameGp c asmOpcodes ops := by
  constructor
  · intro hind before hbefore owns howns o ho o' ho'
    obtain ⟨s, hs, hrep⟩ := (represents_run before).of_some howns
    obtain ⟨owns', howns', hall⟩ := hind before hbefore s hs
    obtain rfl : owns' = owns := Option.some.inj (howns'.symm.trans howns)
    -- every input shows the one dictionary
    have hshown : ∀ x ∈ owns', x.lookup .gp = some (s.heap.cell Heap.defaultGp).get? := by
      intro x hx
      obtain ⟨⟨i, hi⟩, rfl⟩ := List.mem_iff_get.mp hx
      obtain ⟨hlen, hget⟩ := List.forall₂_iff_get.mp hall
      rw [← hget i (hlen ▸ hi) hi .gp, InputWithSparseValues.lookup, InputWithSparseValues.regs,
        hrep.gp _ (List.get_mem s.inputs ⟨i, hlen ▸ hi⟩), Option.map_some]
    rw [hshown o ho, hshown o' ho']
  · intro hsame before hbefore s hs
    obtain ⟨owns, howns, hrep⟩ := (represents_run before).of_ok hs
    -- as all were given the same, the one dictionary has what each was given
    have hshares := shares_run before s owns (fun p hp => hsame p (hp.trans hbefore)) hs howns
    refine ⟨owns, howns, List.forall₂_iff_get.mpr ⟨hrep.length, ?_⟩⟩
    intro i hi ho k
    have hinp : s.inputs[i]? = some (s.inputs.get ⟨i, hi⟩) := List.getElem?_eq_getElem hi
    have hown : owns[i]? = some (owns.get ⟨i, ho⟩) := List.getElem?_eq_getElem ho
    rw [InputWithSparseValues.lookup]
    by_cases hk : k = .gp
    · subst hk
      rw [hshares.lookup _ (List.get_mem owns ⟨i, ho⟩), InputWithSparseValues.regs,
        hrep.gp _ (List.get_mem s.inputs ⟨i, hi⟩), Option.map_some]
    · rw [OwnRegs.lookup, ← hrep.regs i _ _ hinp hown k hk, Option.map_map]
      rfl

/-- The dictionary of a reproducer that sets one register. -/
def singleReg (name : String) (value : Int) : InputDict where
  instrSeq := some [0x13]
  disOpcodes := none
  disCapstone := none
  disMra := none
  regs := some ⟨some (Dict.empty.set name value), none, none⟩

/-- Two reproducers in one process: the first input now sets the register of the second. -/
theorem singleRegs_not_independent :
    ¬Independent ⟨.riscv64, false, false, rfl⟩ (fun _ => [])
      [.fromDict (singleReg "a0" 1), .fromDict (singleReg "a1" 2)] := by
  intro h
  obtain ⟨owns, howns, hall⟩ := h _ (List.prefix_refl _) _ rfl
  cases howns
  cases hall with
  | cons hfirst _ =>
      have ha1 := congrFun (Option.some.inj (hfirst .gp)) "a1"
      revert ha1
      decide

end RISCover
