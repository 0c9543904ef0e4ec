import Mathlib.Algebra.Order.Ring.Nat
import RISCover.Lib.Runs

/-!
# Random choices

Programs that draw random numbers, run on a stream of choices: every number that a draw may give is
given for some choice. What holds of all runs is said by `Runs.Gives`; `Steady k` says what a run
gives in which every choice is `k`.
-/

open Runs

namespace Choices

variable {ε α β : Type} {E : ε → Prop} {Q : α → Prop} {R : β → Prop}

/-- A computation that draws random numbers. -/
abbrev Rand (ε α : Type) := StateT (Nat → Nat) (Except ε) α

/-- The next choice. -/
def draw : Rand ε Nat := fun s => .ok (s 0, fun i => s (i + 1))

/-- `randint`: a number from `lo` to `hi`, or the error if there is none. -/
def randint (e : ε) (lo hi : Int) : Rand ε Int :=
  if hi < lo then throw e
  else do pure (lo + ((← draw) : Int) % (hi - lo + 1))

/-- `getrandbits`. -/
def getrandbits (n : Nat) : Rand ε Nat := do pure ((← draw) % 2 ^ n)

/-- `choice`: an element of the list, or the error if it is empty. -/
def choice (e : ε) (xs : List α) : Rand ε α := do
  match xs[(← draw) % xs.length]? with
  | some x => pure x
  | none => throw e

/-! ## One run

A draw takes the first choice and leaves the others. -/

/-- The choices after the first. -/
def later (s : Nat → Nat) : Nat → Nat := fun i => s (i + 1)

theorem bind_run {m : Rand ε α} {f : α → Rand ε β} {s s' : Nat → Nat} {a : α}
    (h : m s = .ok (a, s')) : (m >>= f) s = f a s' := by
  show (m s >>= fun p => f p.1 p.2) = _
  rw [h]
  rfl

theorem randint_run {e : ε} {lo hi : Int} (h : lo ≤ hi) (s : Nat → Nat) :
    randint e lo hi s = .ok (lo + (s 0 : Int) % (hi - lo + 1), later s) := by
  rw [randint, if_neg (Int.not_lt.mpr h)]
  rfl

theorem choice_run {e : ε} {xs : List α} {x : α} {s : Nat → Nat}
    (h : xs[s 0 % xs.length]? = some x) : choice e xs s = .ok (x, later s) := by
  have hdraw : (draw : Rand ε Nat) s = .ok (s 0, later s) := rfl
  rw [choice, bind_run hdraw, h]
  rfl

/-! ## All runs

Every number in the range of a draw is given for some stream, so a property of all runs is one of
all numbers. -/

theorem gives_draw : Gives E (fun _ => True) (draw : Rand ε Nat) := fun _ => trivial

theorem gives_randint {e : ε} {lo hi : Int} (h : lo ≤ hi) :
    Gives E (fun v => lo ≤ v ∧ v ≤ hi) (randint e lo hi) := by
  rw [randint, if_neg (Int.not_lt.mpr h)]
  refine gives_draw.bind fun x _ => gives_pure ?_
  have hpos : 0 < hi - lo + 1 := by omega
  have hnonneg := Int.emod_nonneg (x : Int) (Int.ne_of_gt hpos)
  have hlt := Int.emod_lt_of_pos (x : Int) hpos
  omega

theorem gives_getrandbits (n : Nat) : Gives E (fun v => v < 2 ^ n) (getrandbits n : Rand ε Nat) :=
  gives_draw.bind fun _ _ => gives_pure (Nat.mod_lt _ (Nat.two_pow_pos n))

theorem gives_choice {e : ε} {xs : List α} (h : xs ≠ []) :
    Gives E (fun x => x ∈ xs) (choice e xs) := by
  refine gives_draw.bind fun i _ => ?_
  have hlt : i % xs.length < xs.length := Nat.mod_lt _ (List.length_pos_iff.mpr h)
  rw [List.getElem?_eq_getElem hlt]
  exact gives_pure (List.getElem_mem hlt)

theorem exists_randint_run {e : ε} {lo hi : Int} (h : lo ≤ hi) (s : Nat → Nat) :
    ∃ v, randint e lo hi s = .ok (v, later s) ∧ lo ≤ v ∧ v ≤ hi := by
  have hrange : Gives (fun _ => True) (fun v => lo ≤ v ∧ v ≤ hi) (randint e lo hi) :=
    gives_randint h
  exact ⟨_, randint_run h s, hrange.of_ok (randint_run h s)⟩

/-! ## Runs with one choice

With a constant stream the streams need not be told apart, so such runs compose like functions. -/

/-- With `k` for every choice the computation gives a value in `Q`. -/
def Steady (k : Nat) (Q : α → Prop) (m : Rand ε α) : Prop :=
  ∃ a, m (fun _ => k) = .ok (a, fun _ => k) ∧ Q a

variable {k : Nat}

theorem steady_pure {a : α} (h : Q a) : Steady k Q (pure a : Rand ε α) := ⟨a, rfl, h⟩

theorem Steady.bind {m : Rand ε α} {f : α → Rand ε β} (h : Steady k Q m)
    (hf : ∀ a, Q a → Steady k R (f a)) : Steady k R (m >>= f) := by
  obtain ⟨a, hm, ha⟩ := h
  obtain ⟨b, hb, hR⟩ := hf a ha
  refine ⟨b, ?_, hR⟩
  show (m (fun _ => k) >>= fun p => f p.1 p.2) = _
  rw [hm]
  exact hb

theorem Steady.mono {m : Rand ε α} {Q' : α → Prop} (h : Steady k Q m) (hQ : ∀ a, Q a → Q' a) :
    Steady k Q' m := by
  obtain ⟨a, hm, ha⟩ := h
  exact ⟨a, hm, hQ a ha⟩

theorem steady_draw : Steady k (fun x => x = k) (draw : Rand ε Nat) := ⟨k, rfl, rfl⟩

theorem steady_randint {e : ε} {lo hi : Int} (h : lo ≤ hi) :
    Steady k (fun v => v = lo + (k : Int) % (hi - lo + 1)) (randint e lo hi) := by
  rw [randint, if_neg (Int.not_lt.mpr h)]
  exact steady_draw.bind fun x hx => steady_pure (by rw [hx])

theorem steady_getrandbits (n : Nat) :
    Steady k (fun v => v = k % 2 ^ n) (getrandbits n : Rand ε Nat) :=
  steady_draw.bind fun x hx => steady_pure (by rw [hx])

theorem steady_choice {e : ε} {xs : List α} {x : α} (h : xs[k % xs.length]? = some x) :
    Steady k (fun y => y = x) (choice e xs) := by
  refine steady_draw.bind fun i hi => ?_
  rw [hi, h]
  exact steady_pure rfl

end Choices
