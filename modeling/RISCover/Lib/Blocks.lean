import Mathlib.Data.List.Induction

/-!
# Records in blocks

A file lists records in blocks. A block is open from its first record up to the event that closes
it, and a value that is given while it is open goes to every record it has so far.
-/

/-- What a line of such a file does. -/
inductive BlockEvent (α : Type*) where
  | entry (a : α)
  | assign (g : α → α)
  | close

/-- The line brings a new record. -/
def BlockEvent.isEntry {α : Type*} : BlockEvent α → Bool
  | .entry _ => true
  | _ => false

/-- The records of the blocks that are closed, and of the one that is open. -/
structure Blocks (α : Type*) where
  closed : List α
  block : List α

namespace Blocks

variable {α : Type*}

/-- No record has been read. -/
def empty : Blocks α := ⟨[], []⟩

def records (b : Blocks α) : List α := b.closed ++ b.block

def step (b : Blocks α) : BlockEvent α → Blocks α
  | .entry a => ⟨b.closed, b.block ++ [a]⟩
  | .assign g => ⟨b.closed, b.block.map g⟩
  | .close => ⟨b.closed ++ b.block, []⟩

def run (b : Blocks α) (es : List (BlockEvent α)) : Blocks α := es.foldl step b

@[simp] theorem run_cons (b : Blocks α) (e : BlockEvent α) (es : List (BlockEvent α)) :
    b.run (e :: es) = (b.step e).run es := rfl

theorem run_append (b : Blocks α) (es fs : List (BlockEvent α)) :
    b.run (es ++ fs) = (b.run es).run fs := by
  unfold run
  exact List.foldl_append

@[simp] theorem records_step_close (b : Blocks α) : (b.step .close).records = b.records := by
  simp [step, records]

/-! ## Counting the records

Whether an event opens a record depends on what is open, so the count goes with the state. -/

theorem length_records_step (b : Blocks α) (e : BlockEvent α) :
    (b.step e).records.length = b.records.length + [e].countP BlockEvent.isEntry := by
  cases e with
  | entry a =>
      show (b.closed ++ (b.block ++ [a])).length = (b.closed ++ b.block).length + 1
      simp only [List.length_append, List.length_singleton]
      omega
  | assign g =>
      show (b.closed ++ b.block.map g).length = (b.closed ++ b.block).length
      simp only [List.length_append, List.length_map]
  | close =>
      rw [records_step_close]
      rfl

/-- Every entry is one record. -/
theorem length_records_run (b : Blocks α) (es : List (BlockEvent α)) :
    (b.run es).records.length = b.records.length + es.countP BlockEvent.isEntry := by
  induction es generalizing b with
  | nil => rfl
  | cons e es ih =>
      have hcount : (e :: es).countP BlockEvent.isEntry =
          [e].countP BlockEvent.isEntry + es.countP BlockEvent.isEntry := by
        rw [← List.singleton_append, List.countP_append]
      rw [run_cons, ih, length_records_step, hcount]
      omega

/-- When no block is open, only a new record changes anything. -/
theorem records_run_of_closed {b : Blocks α} (hb : b.block = []) {es : List (BlockEvent α)}
    (hes : ∀ e ∈ es, e.isEntry = false) : (b.run es).records = b.records := by
  induction es generalizing b with
  | nil => rfl
  | cons e es ih =>
      rw [List.forall_mem_cons] at hes
      obtain ⟨he, hes⟩ := hes
      rw [run_cons]
      cases e with
      | entry a => exact Bool.noConfusion he
      | assign g =>
          have hblock : (b.step (.assign g)).block = [] := by
            show b.block.map g = []
            rw [hb]
            rfl
          rw [ih hblock hes]
          show b.closed ++ b.block.map g = b.closed ++ b.block
          rw [hb]
          rfl
      | close => rw [ih rfl hes, records_step_close]

/-! ## Records in an array

Where the records stand at the front of an array, a loop over indices changes them. -/

theorem modify_append_cons (xs : List α) (x : α) (ys : List α) (g : α → α) :
    (xs ++ x :: ys).modify xs.length g = xs ++ g x :: ys := by
  induction xs with
  | nil => rfl
  | cons y xs ih =>
      show y :: (xs ++ x :: ys).modify xs.length g = _
      rw [ih]
      rfl

/-- A loop back from the last of `n` elements. -/
theorem foldl_modify_back (g : α → α) (zs : List α) :
    ∀ (ys xs : List α) (n : Nat), n = xs.length + ys.length →
      (List.range ys.length).foldl (fun a l => a.modify (n - (l + 1)) g) (xs ++ ys ++ zs) =
        xs ++ ys.map g ++ zs
  | [], _, _, _ => by rfl
  | y :: ys, xs, n, hn => by
      rw [List.length_cons] at hn
      have hrest := foldl_modify_back g zs ys (xs ++ [y]) n (by
        rw [List.length_append, List.length_singleton]
        omega)
      have hfront : n - (ys.length + 1) = xs.length := by omega
      rw [List.length_cons, List.range_succ, List.foldl_append,
        show xs ++ y :: ys ++ zs = xs ++ [y] ++ ys ++ zs by simp, hrest]
      show (xs ++ [y] ++ ys.map g ++ zs).modify (n - (ys.length + 1)) g = _
      rw [hfront, List.append_assoc, List.append_assoc, List.singleton_append, List.append_assoc]
      exact modify_append_cons xs y _ g

/-- A loop over the first elements. -/
theorem foldl_modify_front (g : α → α) (ys xs : List α) :
    (List.range xs.length).foldl (fun a i => a.modify i g) (xs ++ ys) = xs.map g ++ ys := by
  induction xs using List.reverseRecOn generalizing ys with
  | nil => rfl
  | append_singleton xs x ih =>
      rw [List.length_append, List.length_singleton, List.range_succ, List.foldl_append,
        List.append_assoc, ih, List.map_append, List.append_assoc]
      show (xs.map g ++ x :: ys).modify xs.length g = xs.map g ++ g x :: ys
      rw [← List.length_map g]
      exact modify_append_cons (xs.map g) x ys g

end Blocks
