import RISCover.Lib.Bytes

/-!
# Index-keeping parsers

A hand-written binary parser holds the whole input and an index `r`, reads `data[r:r+k]` and adds
`k`. `Cursor` is that shape as a monad: the input is read-only, the index is the state, and a step
may fail with an error of the program's own type `ε`.

`Decodes p bs a` is the round-trip half of a codec law: wherever `bs` stands in the input, `p`
started at its first byte returns `a` and stops right behind it. It composes along `bind`
(`Decodes.bind`), along a counted loop (`Decodes.foldN`) and through a call on the rest of the
input (`Decodes.sub`), so a round trip is proved field by field.
-/

open Bytes

/-- A parser: input, index ↦ value and the index behind it. -/
abbrev Cursor (ε α : Type) := ReaderT Bytes (StateT Nat (Except ε)) α

namespace Cursor

variable {ε α β σ : Type}

/-- `struct.unpack` of one `k`-byte little-endian field at the index: too few bytes are an error. -/
def unpack (err : ε) (k : Nat) : Cursor ε Nat := fun data r =>
  if (slice data r k).length = k then .ok (ofLeBytes (slice data r k), r + k) else .error err

/-- `int.from_bytes(data[r:r+k], "little")`: too few bytes are not an error here. -/
def fromBytes (k : Nat) : Cursor ε Nat := fun data r =>
  .ok (ofLeBytes (slice data r k), r + k)

/-- `data[r:r+k]` itself. -/
def take (k : Nat) : Cursor ε Bytes := fun data r => .ok (slice data r k, r + k)

/-- `for _ in range(n): s = f(s)`. -/
def foldN (f : σ → Cursor ε σ) : Nat → σ → Cursor ε σ
  | 0, s => pure s
  | n + 1, s => do
      let s ← f s
      foldN f n s

/-- Run `p` on `data[r:]` from index 0 and add what it read to the index. -/
def sub (p : Cursor ε α) : Cursor ε α := fun data r =>
  match p (data.drop r) 0 with
  | .ok (a, read) => .ok (a, r + read)
  | .error e => .error e

/-! ## How the operations run

A run is a function of the data and the index. -/

@[simp] theorem pure_apply (a : α) (data : Bytes) (r : Nat) :
    (pure a : Cursor ε α) data r = .ok (a, r) := rfl

theorem bind_apply (p : Cursor ε α) (f : α → Cursor ε β) (data : Bytes) (r : Nat) :
    (p >>= f) data r = (p data r).bind (fun x => f x.1 data x.2) := rfl

theorem bind_apply_ok {p : Cursor ε α} {data : Bytes} {r r' : Nat} {a : α}
    (h : p data r = .ok (a, r')) (f : α → Cursor ε β) :
    (p >>= f) data r = f a data r' := by
  rw [bind_apply, h]
  rfl

/-! ## Decoding

What stands in front and behind is arbitrary, so the pieces of a format can be put one behind the
other. -/

/-- Wherever `bs` stands in the input, `p` reads exactly it and returns `a`. -/
def Decodes (p : Cursor ε α) (bs : Bytes) (a : α) : Prop :=
  ∀ pre post : Bytes, p (pre ++ bs ++ post) pre.length = .ok (a, (pre ++ bs).length)

theorem Decodes.pure (a : α) : Decodes (pure a : Cursor ε α) [] a := by
  intro pre post
  simp

theorem Decodes.bind {p : Cursor ε α} {f : α → Cursor ε β} {xs ys : Bytes} {a : α} {b : β}
    (hp : Decodes p xs a) (hf : Decodes (f a) ys b) : Decodes (p >>= f) (xs ++ ys) b := by
  intro pre post
  have h₁ := hp pre (ys ++ post)
  have h₂ := hf (pre ++ xs) post
  simp only [List.append_assoc] at h₁ h₂ ⊢
  rw [bind_apply_ok h₁, h₂]

/-- A continuation that reads nothing more. -/
theorem Decodes.map {p : Cursor ε α} {xs : Bytes} {a : α} (hp : Decodes p xs a) (g : α → β) :
    Decodes (p >>= fun x => Pure.pure (g x)) xs (g a) := by
  have h := hp.bind (f := fun x => Pure.pure (g x)) (Decodes.pure (g a))
  rwa [List.append_nil] at h

theorem Decodes.unpack (err : ε) {k : Nat} {bs : Bytes} (hk : bs.length = k) :
    Decodes (Cursor.unpack err k) bs (ofLeBytes bs) := by
  subst hk
  intro pre post
  simp only [Cursor.unpack, slice_mid, if_true, List.length_append]

theorem Decodes.unpack_leBytes (err : ε) (k n : Nat) :
    Decodes (Cursor.unpack err k) (leBytes k n) (n % 256 ^ k) := by
  have h := Decodes.unpack err (length_leBytes k n)
  rwa [ofLeBytes_leBytes] at h

theorem Decodes.fromBytes {k : Nat} {bs : Bytes} (hk : bs.length = k) :
    Decodes (Cursor.fromBytes k : Cursor ε Nat) bs (ofLeBytes bs) := by
  subst hk
  intro pre post
  simp only [Cursor.fromBytes, slice_mid, List.length_append]

theorem Decodes.take {k : Nat} {bs : Bytes} (hk : bs.length = k) :
    Decodes (Cursor.take k : Cursor ε Bytes) bs bs := by
  subst hk
  intro pre post
  simp only [Cursor.take, slice_mid, List.length_append]

/-- A counted loop decodes a sequence of items when its body decodes each of them. -/
theorem Decodes.foldN {f : σ → Cursor ε σ} {enc : β → Bytes} {u : σ → β → σ} {l : List β}
    (hf : ∀ s, ∀ x ∈ l, Decodes (f s) (enc x) (u s x)) (s : σ) :
    Decodes (Cursor.foldN f l.length s) (l.flatMap enc) (l.foldl u s) := by
  induction l generalizing s with
  | nil => exact Decodes.pure s
  | cons x l ih =>
      rw [List.length_cons, List.flatMap_cons, List.foldl_cons]
      exact (hf s x List.mem_cons_self).bind
        (ih (fun s y hy => hf s y (List.mem_cons_of_mem _ hy)) (u s x))

/-- The counted loop that collects its results in a list. -/
theorem Decodes.collect {p : Cursor ε α} {enc : β → Bytes} {val : β → α} {l : List β}
    (hp : ∀ x ∈ l, Decodes p (enc x) (val x)) :
    Decodes (Cursor.foldN (fun acc => p >>= fun x => Pure.pure (acc ++ [x])) l.length [])
      (l.flatMap enc) (l.map val) := by
  have h := Decodes.foldN (u := fun acc x => acc ++ [val x])
    (fun acc x hx => (hp x hx).map (fun v => acc ++ [v])) []
  have hfold : ∀ (l : List β) (acc : List α),
      l.foldl (fun acc x => acc ++ [val x]) acc = acc ++ l.map val := by
    intro l
    induction l with
    | nil => simp
    | cons x l ih => intro acc; simp [ih]
  rwa [hfold, List.nil_append] at h

theorem Decodes.sub {p : Cursor ε α} {xs : Bytes} {a : α} (hp : Decodes p xs a) :
    Decodes (Cursor.sub p) xs a := by
  intro pre post
  have hdrop : (pre ++ xs ++ post).drop pre.length = xs ++ post := by
    rw [List.append_assoc, List.drop_left]
  have h := hp [] post
  simp only [List.nil_append, List.length_nil] at h
  simp only [Cursor.sub, hdrop, h, List.length_append]

/-! ## Errors and progress

`Never` speaks of one error, and `Advances` of how far a run has come when it succeeds. Both go
through the operations like `Decodes`. -/

/-- `p` never fails with `e`. -/
def Never (e : ε) (p : Cursor ε α) : Prop := ∀ data r, p data r ≠ .error e

theorem Never.pure (e : ε) (a : α) : Never e (pure a : Cursor ε α) := by
  intro data r h
  cases h

theorem Never.bind {e : ε} {p : Cursor ε α} {f : α → Cursor ε β} (hp : Never e p)
    (hf : ∀ a, Never e (f a)) : Never e (p >>= f) := by
  intro data r
  rw [bind_apply]
  cases h : p data r with
  | error e' =>
      intro he
      have hee : e' = e := by injection he
      exact hp data r (hee ▸ h)
  | ok x => exact hf x.1 data x.2

theorem Never.unpack {e err : ε} (h : err ≠ e) (k : Nat) : Never e (Cursor.unpack err k) := by
  intro data r
  unfold Cursor.unpack
  split
  · simp
  · simpa using h

theorem Never.fromBytes (e : ε) (k : Nat) : Never e (Cursor.fromBytes k) := by
  intro data r h
  cases h

theorem Never.foldN {e : ε} {f : σ → Cursor ε σ} (hf : ∀ s, Never e (f s)) (n : Nat) (s : σ) :
    Never e (Cursor.foldN f n s) := by
  induction n generalizing s with
  | zero => exact Never.pure e s
  | succ n ih => exact (hf s).bind ih

theorem Never.sub {e : ε} {p : Cursor ε α} (hp : Never e p) : Never e (Cursor.sub p) := by
  intro data r
  unfold Cursor.sub
  cases h : p (data.drop r) 0 with
  | error e' =>
      intro he
      have hee : e' = e := by injection he
      exact hp _ _ (hee ▸ h)
  | ok x => simp

/-- When `p` succeeds it has moved at least `n` bytes on. -/
def Advances (n : Nat) (p : Cursor ε α) : Prop :=
  ∀ data r a r', p data r = .ok (a, r') → r + n ≤ r'

theorem Advances.bind {m n : Nat} {p : Cursor ε α} {f : α → Cursor ε β} (hp : Advances m p)
    (hf : ∀ a, Advances n (f a)) : Advances (m + n) (p >>= f) := by
  intro data r b r' h
  rw [bind_apply] at h
  cases hx : p data r with
  | error e =>
      rw [hx] at h
      cases h
  | ok x =>
      rw [hx] at h
      have h₁ := hp data r x.1 x.2 hx
      have h₂ := hf x.1 data x.2 b r' h
      omega

theorem Advances.unpack (err : ε) (k : Nat) : Advances k (Cursor.unpack err k) := by
  intro data r a r' h
  unfold Cursor.unpack at h
  split at h
  · simp only [Except.ok.injEq, Prod.mk.injEq] at h
    omega
  · cases h

theorem Advances.sub (p : Cursor ε α) : Advances 0 (Cursor.sub p) := by
  intro data r a r' h
  unfold Cursor.sub at h
  split at h
  · simp only [Except.ok.injEq, Prod.mk.injEq] at h
    omega
  · cases h

theorem Advances.pure (a : α) : Advances 0 (pure a : Cursor ε α) := by
  intro data r b r' h
  simp only [pure_apply, Except.ok.injEq, Prod.mk.injEq] at h
  omega

/-! ## What is returned

A property of the result whatever the input is. -/

/-- Whatever the input, when `p` succeeds its value satisfies `q`. -/
def Returns (p : Cursor ε α) (q : α → Prop) : Prop :=
  ∀ data r a r', p data r = .ok (a, r') → q a

theorem Returns.true (p : Cursor ε α) : Returns p fun _ => True := fun _ _ _ _ _ => trivial

theorem Returns.pure {q : α → Prop} {a : α} (h : q a) : Returns (pure a : Cursor ε α) q := by
  intro data r b r' hb
  cases hb
  exact h

theorem Returns.bind {p : Cursor ε α} {f : α → Cursor ε β} {q : α → Prop} {q' : β → Prop}
    (hp : Returns p q) (hf : ∀ a, q a → Returns (f a) q') : Returns (p >>= f) q' := by
  intro data r b r' h
  rw [bind_apply] at h
  cases hx : p data r with
  | error e =>
      rw [hx] at h
      cases h
  | ok x =>
      rw [hx] at h
      exact hf x.1 (hp data r x.1 x.2 hx) data x.2 b r' h

/-- A counted loop keeps what its body keeps. -/
theorem Returns.foldN {f : σ → Cursor ε σ} {q : σ → Prop} (hf : ∀ s, q s → Returns (f s) q)
    (n : Nat) {s : σ} (hs : q s) : Returns (Cursor.foldN f n s) q := by
  induction n generalizing s with
  | zero => exact Returns.pure hs
  | succ n ih => exact (hf s hs).bind fun s' hs' => ih hs'

theorem Returns.sub {p : Cursor ε α} {q : α → Prop} (hp : Returns p q) :
    Returns (Cursor.sub p) q := by
  intro data r a r' h
  unfold Cursor.sub at h
  split at h
  next x read heq =>
    cases h
    exact hp _ _ _ _ heq
  next => cases h

end Cursor
