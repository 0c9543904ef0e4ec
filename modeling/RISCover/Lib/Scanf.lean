import RISCover.Lib.Text

/-!
# Lines and integers in C

`fgetsLines` is a file as a loop of `fgets` sees it. The integer conversions `%d` and `%i` of
`sscanf` read a sign, a prefix that fixes the base, and digits; what they read of a number that was
written in base ten or sixteen is `scanI_dec` and `scanI_0x`.
-/

namespace Text

/-! ## `fgets`

A line that does not fit the buffer comes in several pieces, of which only the last one ends in a
newline. -/

/-- What is left of a file, with `cur` already in the buffer and `room + 1` characters of room. -/
def fgetsFrom (size : Nat) : Nat → Text → Text → List Text
  | _, cur, [] => if cur = [] then [] else [cur]
  | room, cur, c :: cs =>
    if c = '\n' ∨ room = 0 then (cur ++ [c]) :: fgetsFrom size (size - 2) [] cs
    else fgetsFrom size (room - 1) (cur ++ [c]) cs

/-- What `fgets` with a buffer of `size` characters gives, call by call. -/
def fgetsLines (size : Nat) (t : Text) : List Text := fgetsFrom size (size - 2) [] t

/-- A line that ends with a newline: where it fills the buffer, the newline comes in a call of its
own. -/
def fgetsLine (size : Nat) (l : Text) : List Text :=
  if l.length + 2 ≤ size then [l ++ ['\n']] else [l, ['\n']]

variable {size : Nat}

theorem fgetsFrom_append {room : Nat} {cur l : Text} (hl : '\n' ∉ l) (hroom : l.length ≤ room)
    (rest : Text) :
    fgetsFrom size room cur (l ++ '\n' :: rest) =
      (cur ++ l ++ ['\n']) :: fgetsLines size rest := by
  induction l generalizing room cur with
  | nil =>
      rw [List.nil_append, List.append_nil, fgetsFrom, if_pos (Or.inl rfl)]
      rfl
  | cons c l ih =>
      rw [List.mem_cons, not_or] at hl
      rw [List.length_cons] at hroom
      have hgo : ¬(c = '\n' ∨ room = 0) := by
        rintro (rfl | h)
        · exact hl.1 rfl
        · omega
      rw [List.cons_append, fgetsFrom, if_neg hgo, ih hl.2 (by omega)]
      simp

theorem fgetsFrom_last {room : Nat} {cur l : Text} (hl : '\n' ∉ l) (hroom : l.length ≤ room + 1) :
    fgetsFrom size room cur l = if cur ++ l = [] then [] else [cur ++ l] := by
  induction l generalizing room cur with
  | nil => rw [fgetsFrom, List.append_nil]
  | cons c l ih =>
      rw [List.mem_cons, not_or] at hl
      rw [List.length_cons] at hroom
      have hc : c ≠ '\n' := Ne.symm hl.1
      by_cases hzero : room = 0
      · obtain rfl : l = [] := List.eq_nil_of_length_eq_zero (by omega)
        rw [fgetsFrom, if_pos (Or.inr hzero)]
        simp [fgetsFrom]
      · rw [fgetsFrom, if_neg (not_or.mpr ⟨hc, hzero⟩), ih hl.2 (by omega)]
        simp

theorem fgetsFrom_full {room : Nat} {cur l : Text} (hl : '\n' ∉ l) (hroom : l.length = room + 1)
    (rest : Text) :
    fgetsFrom size room cur (l ++ rest) = (cur ++ l) :: fgetsLines size rest := by
  induction l generalizing room cur with
  | nil => exact absurd hroom (Nat.succ_ne_zero room).symm
  | cons c l ih =>
      rw [List.mem_cons, not_or] at hl
      rw [List.length_cons] at hroom
      by_cases hzero : room = 0
      · obtain rfl : l = [] := List.eq_nil_of_length_eq_zero (by omega)
        rw [List.singleton_append, fgetsFrom, if_pos (Or.inr hzero)]
        rfl
      · have hgo : ¬(c = '\n' ∨ room = 0) := not_or.mpr ⟨Ne.symm hl.1, hzero⟩
        rw [List.cons_append, fgetsFrom, if_neg hgo, ih hl.2 (by omega)]
        simp

/-- A line that fits the buffer is read by itself. -/
theorem fgetsLines_append {l : Text} (hl : '\n' ∉ l) (hlen : l.length < size) (hsize : 2 ≤ size)
    (rest : Text) :
    fgetsLines size (l ++ '\n' :: rest) = fgetsLine size l ++ fgetsLines size rest := by
  by_cases hfit : l.length + 2 ≤ size
  · rw [fgetsLine, if_pos hfit, fgetsLines, fgetsFrom_append hl (by omega)]
    rfl
  · rw [fgetsLine, if_neg hfit, fgetsLines, fgetsFrom_full hl (by omega), fgetsLines, fgetsFrom,
      if_pos (Or.inl rfl)]
    rfl

theorem fgetsLines_last {l : Text} (hl : '\n' ∉ l) (hlen : l.length < size) (hsize : 2 ≤ size) :
    fgetsLines size l = if l = [] then [] else [l] := by
  rw [fgetsLines, fgetsFrom_last hl (by omega)]
  rfl

/-! ## Ordinary characters and sets in a format

White space in a format skips any white space, also none; any other character has to be there. -/

/-- An ordinary character in a format. -/
def scanChar (f : Char) : Text → Option Text
  | [] => none
  | c :: t => if c = f then some t else none

/-- Ordinary characters in a format; white space among them stands for any amount of it. -/
def scanFormat : Text → Text → Option Text
  | [], t => some t
  | f :: fs, t =>
    if isSpace f then scanFormat fs (lstrip t) else (scanChar f t).bind (scanFormat fs)

theorem scanFormat_cons_space {f : Char} (hf : isSpace f = true) (fs t : Text) :
    scanFormat (f :: fs) t = scanFormat fs (lstrip t) := by
  rw [scanFormat.eq_def]
  exact if_pos hf

theorem scanFormat_cons {f : Char} (hf : isSpace f = false) (fs t : Text) :
    scanFormat (f :: fs) t = (scanChar f t).bind (scanFormat fs) := by
  rw [scanFormat.eq_def]
  exact if_neg (by rw [hf]; exact Bool.false_ne_true)

theorem scanFormat_of_space {f : Char} (hf : isSpace f = false) (fs : Text) {t : Text}
    (ht : ∀ c ∈ t, isSpace c = true) : scanFormat (f :: fs) t = none := by
  rw [scanFormat_cons hf]
  cases t with
  | nil => rfl
  | cons c t =>
      have hc : c ≠ f := by
        rintro rfl
        rw [ht c List.mem_cons_self] at hf
        exact Bool.noConfusion hf
      rw [scanChar, if_neg hc]
      rfl

/-- Where a format does not match, white space behind the text does not help. -/
theorem scanFormat_append_space {fs t ws : Text} (ht : scanFormat fs t = none)
    (hws : ∀ c ∈ ws, isSpace c = true) : scanFormat fs (t ++ ws) = none := by
  induction fs generalizing t with
  | nil => exact absurd ht (Option.some_ne_none t)
  | cons f fs ih =>
      -- white space in the format goes over the white space at the end as well
      by_cases hf : isSpace f = true
      · rw [scanFormat_cons_space hf] at ht ⊢
        by_cases hnil : lstrip t = []
        · have hall : ∀ c ∈ t ++ ws, isSpace c = true := fun c hc =>
            (List.mem_append.mp hc).elim (List.dropWhile_eq_nil_iff.mp hnil c) (hws c)
          have hstrip : lstrip (t ++ ws) = [] := List.dropWhile_eq_nil_iff.mpr hall
          rw [hstrip, ← hnil]
          exact ht
        · rw [lstrip_append hnil]
          exact ih ht
      · rw [Bool.not_eq_true] at hf
        rw [scanFormat_cons hf] at ht ⊢
        -- a format that is not through wants a character where white space stands
        cases t with
        | nil =>
            rw [← scanFormat_cons hf]
            exact scanFormat_of_space hf fs hws
        | cons c t =>
            rw [List.cons_append, scanChar]
            rw [scanChar] at ht
            split
            next hc =>
              rw [if_pos hc] at ht
              exact ih ht
            next => rfl

/-- `%*[set]`: at least one character of the set. -/
def scanSet (set : Char → Bool) (t : Text) : Option Text :=
  if t.takeWhile set = [] then none else some (t.dropWhile set)

theorem scanSet_append {set : Char → Bool} {p : Text} (hp : ∀ c ∈ p, set c = true) (hne : p ≠ [])
    {c : Char} (hc : set c = false) (t : Text) : scanSet set (p ++ c :: t) = some (c :: t) := by
  have htake : (p ++ c :: t).takeWhile set = p := by
    rw [List.takeWhile_append_of_pos hp]
    simp [hc]
  have hdrop : (p ++ c :: t).dropWhile set = c :: t := by
    rw [List.dropWhile_append_of_pos hp]
    simp [hc]
  rw [scanSet, htake, hdrop, if_neg hne]

/-- Where a character outside the set comes first, the set stops there. -/
theorem scanSet_of_dropWhile {set : Char → Bool} {p : Text} {c : Char} {cs : Text}
    (h : p.dropWhile set = c :: cs) (t : Text) :
    scanSet set (p ++ t) = none ∨ scanSet set (p ++ t) = some (c :: (cs ++ t)) := by
  have hdrop : (p ++ t).dropWhile set = c :: (cs ++ t) := by
    rw [List.dropWhile_append, h]
    rfl
  rw [scanSet, hdrop]
  split
  next => exact Or.inl rfl
  next => exact Or.inr rfl

theorem not_isDigit_of_isSpace {c : Char} (h : isSpace c = true) : c.isDigit = false := by
  simp only [isSpace, Bool.or_eq_true, beq_iff_eq] at h
  obtain ((((rfl | rfl) | rfl) | rfl) | rfl) | rfl := h <;> rfl

/-! ## Digits of a base

The digits that are written in a base are digits of the base, and read back to the number. -/

/-- A digit of the base. -/
def isBase (b : Nat) (c : Char) : Bool := (hexNibble c).any (· < b)

/-- The number that the digits of a base spell, most significant digit first. -/
def ofBase (b : Nat) (t : Text) : Nat := t.foldl (fun n c => b * n + (hexNibble c).getD 0) 0

theorem isBase_toDigits {b : Nat} (hb : 1 < b) (hb' : b ≤ 16) (n : Nat) :
    ∀ c ∈ Nat.toDigits b n, isBase b c = true := by
  have hdigit : ∀ d < b, isBase b d.digitChar = true := fun d hd => by
    rw [isBase, hexNibble_digitChar (Nat.lt_of_lt_of_le hd hb')]
    exact decide_eq_true hd
  induction n using Nat.strongRecOn with
  | ind n ih =>
      intro c hc
      rw [Nat.toDigits_eq_if hb] at hc
      split at hc
      next hlt =>
        rw [List.mem_singleton.mp hc]
        exact hdigit n hlt
      next hge =>
        rcases List.mem_append.mp hc with hc | hc
        · exact ih (n / b) (Nat.div_lt_self (by omega) hb) c hc
        · rw [List.mem_singleton.mp hc]
          exact hdigit _ (Nat.mod_lt _ (by omega))

theorem ofBase_toDigits {b : Nat} (hb : 1 < b) (hb' : b ≤ 16) (n : Nat) :
    ofBase b (Nat.toDigits b n) = n := by
  induction n using Nat.strongRecOn with
  | ind n ih =>
      rw [Nat.toDigits_eq_if hb]
      split
      next hlt => simp [ofBase, hexNibble_digitChar (Nat.lt_of_lt_of_le hlt hb')]
      next hge =>
        have hmod : n % b < b := Nat.mod_lt _ (by omega)
        have hconcat : ∀ (t : Text) (c : Char),
            ofBase b (t ++ [c]) = b * ofBase b t + (hexNibble c).getD 0 := by
          simp [ofBase]
        rw [hconcat, ih (n / b) (Nat.div_lt_self (by omega) hb),
          hexNibble_digitChar (Nat.lt_of_lt_of_le hmod hb'), Option.getD_some]
        exact Nat.div_add_mod n b

theorem isBase_dec (n : Nat) : ∀ c ∈ dec n, isBase 10 c = true :=
  isBase_toDigits (by decide) (by decide) n

theorem ofBase_dec (n : Nat) : ofBase 10 (dec n) = n := ofBase_toDigits (by decide) (by decide) n

/-- In base ten, with leading zeros up to `w` digits. -/
def decPad (w n : Nat) : Text := (dec n).leftpad w '0'

theorem isBase_decPad (w n : Nat) : ∀ c ∈ decPad w n, isBase 10 c = true := by
  intro c hc
  rw [decPad, List.leftpad, List.mem_append] at hc
  rcases hc with hc | hc
  · rw [List.eq_of_mem_replicate hc]
    rfl
  · exact isBase_dec n c hc

theorem ofBase_decPad (w n : Nat) : ofBase 10 (decPad w n) = n := by
  have hzeros : ∀ k : Nat, (List.replicate k '0').foldl
      (fun n c => 10 * n + (hexNibble c).getD 0) 0 = 0 := by
    intro k
    induction k with
    | zero => rfl
    | succ k ih =>
        rw [List.replicate_succ, List.foldl_cons]
        exact ih
  have happend : ofBase 10 (decPad w n) = ofBase 10 (dec n) := by
    rw [decPad, List.leftpad, ofBase, List.foldl_append, hzeros, ofBase]
  rw [happend, ofBase_dec]

theorem isHex_of_isBase {b : Nat} {c : Char} (h : isBase b c = true) : isHex c = true := by
  rw [isBase] at h
  rw [isHex]
  cases hc : hexNibble c with
  | none =>
      rw [hc] at h
      exact Bool.noConfusion h
  | some d => rfl

theorem dec_ne_nil (n : Nat) : dec n ≠ [] := Nat.toDigits_ne_nil

/-- A number other than zero is written without a zero in front. -/
theorem head?_dec {n : Nat} (hn : 0 < n) : (dec n).head? ≠ some '0' := by
  induction n using Nat.strongRecOn with
  | ind n ih =>
      rw [dec, Nat.toDigits_eq_if (by decide)]
      split
      next hlt => interval_cases n <;> decide
      next hge =>
        have hdiv := ih (n / 10) (by omega) (by omega)
        obtain ⟨c, cs, heq⟩ := List.exists_cons_of_ne_nil (dec_ne_nil (n / 10))
        rw [heq] at hdiv
        rw [dec] at heq
        rw [heq]
        exact hdiv

/-! ## `%d` and `%i`

`%i` takes the base from the prefix, so a number in decimal is read in decimal if it does not begin
with a zero. -/

/-- The digits of an integer conversion behind its prefix. Without a length modifier the number is
cut to an `int` where it is stored. -/
def scanDigits (b : Nat) (neg : Bool) (t : Text) : Option (Nat × Text) :=
  if t.takeWhile (isBase b) = [] then none
  else some (toUlong neg (ofBase b (t.takeWhile (isBase b))), t.dropWhile (isBase b))

/-- `%d`. -/
def scanD (t : Text) : Option (Nat × Text) :=
  let (neg, t) := scanSign (lstrip t)
  scanDigits 10 neg t

/-- The base that a prefix stands for, and the text behind the prefix. -/
def scanBase : Text → Nat × Text
  | '0' :: 'x' :: t => (16, t)
  | '0' :: 'X' :: t => (16, t)
  | '0' :: t => (8, '0' :: t)
  | t => (10, t)

/-- `%i`. -/
def scanI (t : Text) : Option (Nat × Text) :=
  let (neg, t) := scanSign (lstrip t)
  let (b, t) := scanBase t
  scanDigits b neg t

theorem scanDigits_append {b : Nat} {ds t : Text} (hds : ∀ c ∈ ds, isBase b c = true)
    (hne : ds ≠ []) (ht : ∀ c ∈ t.head?, isBase b c = false) (neg : Bool) :
    scanDigits b neg (ds ++ t) = some (toUlong neg (ofBase b ds), t) := by
  have hstop : t.takeWhile (isBase b) = [] ∧ t.dropWhile (isBase b) = t := by
    cases t with
    | nil => exact ⟨rfl, rfl⟩
    | cons c t => simp [ht c rfl]
  have htake : (ds ++ t).takeWhile (isBase b) = ds := by
    rw [List.takeWhile_append_of_pos hds, hstop.1, List.append_nil]
  have hdrop : (ds ++ t).dropWhile (isBase b) = t := by
    rw [List.dropWhile_append_of_pos hds, hstop.2]
  rw [scanDigits, htake, hdrop, if_neg hne]

theorem scanSign_digit {c : Char} (hc : isHex c = true) (t : Text) :
    scanSign (lstrip (c :: t)) = (false, c :: t) := by
  rw [lstrip_cons_of_not_space t (not_isSpace_of_isHex hc)]
  unfold scanSign
  split
  next heq =>
    obtain ⟨rfl, -⟩ := List.cons.inj heq
    exact absurd hc (by decide)
  next heq =>
    obtain ⟨rfl, -⟩ := List.cons.inj heq
    exact absurd hc (by decide)
  next => rfl

theorem scanSign_dec (n : Nat) (t : Text) :
    scanSign (lstrip (dec n ++ t)) = (false, dec n ++ t) := by
  have hall := isBase_dec n
  obtain ⟨c, cs, heq⟩ := List.exists_cons_of_ne_nil (dec_ne_nil n)
  rw [heq] at hall
  rw [heq]
  exact scanSign_digit (isHex_of_isBase (hall c List.mem_cons_self)) (cs ++ t)

/-- The text goes on with neither a digit of any base nor the letter of a prefix. -/
def Ends (t : Text) : Prop := ∀ c ∈ t.head?, isHex c = false ∧ c ≠ 'x' ∧ c ≠ 'X'

theorem Ends.not_isBase {t : Text} (ht : Ends t) (b : Nat) : ∀ c ∈ t.head?, isBase b c = false := by
  intro c hc
  by_contra hbase
  rw [Bool.not_eq_false] at hbase
  have hhex := isHex_of_isBase hbase
  rw [(ht c hc).1] at hhex
  exact Bool.noConfusion hhex

theorem scanDigits_dec (n : Nat) {t : Text} (ht : Ends t) :
    scanDigits 10 false (dec n ++ t) = some (toUlong false n, t) := by
  rw [scanDigits_append (isBase_dec n) (dec_ne_nil n) (ht.not_isBase 10), ofBase_dec]

/-- `%d` reads what `%lu` writes. -/
theorem scanD_dec (n : Nat) {t : Text} (ht : Ends t) :
    scanD (dec n ++ t) = some (toUlong false n, t) := by
  rw [scanD, scanSign_dec]
  exact scanDigits_dec n ht

/-- `%d` stops behind the zero of a prefix. -/
theorem scanD_0x {x : Char} (hx : x = 'x' ∨ x = 'X') (t : Text) :
    scanD ('0' :: x :: t) = some (0, x :: t) := by
  have hstop : ∀ c ∈ (x :: t).head?, isBase 10 c = false := by
    rintro c ⟨rfl⟩
    rcases hx with rfl | rfl <;> rfl
  have hzero : ∀ c ∈ ['0'], isBase 10 c = true := List.forall_mem_singleton.mpr rfl
  rw [scanD, scanSign_digit (by decide)]
  exact scanDigits_append hzero (List.cons_ne_nil _ _) hstop false

/-- `%i` reads what `%lu` writes. -/
theorem scanI_dec (n : Nat) {t : Text} (ht : Ends t) :
    scanI (dec n ++ t) = some (toUlong false n, t) := by
  rw [scanI, scanSign_dec]
  rcases Nat.eq_zero_or_pos n with rfl | hn
  · -- a zero alone is an octal number
    have hbase : scanBase (dec 0 ++ t) = (8, ['0'] ++ t) := by
      show scanBase ('0' :: t) = (8, '0' :: t)
      unfold scanBase
      split
      next heq =>
        obtain ⟨-, rfl⟩ := List.cons.inj heq
        exact absurd rfl (ht 'x' rfl).2.1
      next heq =>
        obtain ⟨-, rfl⟩ := List.cons.inj heq
        exact absurd rfl (ht 'X' rfl).2.2
      next heq =>
        obtain ⟨-, rfl⟩ := List.cons.inj heq
        rfl
      next hno => exact absurd rfl (hno t)
    show (let (b, t) := scanBase (dec 0 ++ t); scanDigits b false t) = _
    rw [hbase]
    have hzero : ∀ c ∈ ['0'], isBase 8 c = true := List.forall_mem_singleton.mpr rfl
    exact scanDigits_append hzero (List.cons_ne_nil _ _) (ht.not_isBase 8) false
  · have hbase : scanBase (dec n ++ t) = (10, dec n ++ t) := by
      have hhead := head?_dec hn
      obtain ⟨c, cs, heq⟩ := List.exists_cons_of_ne_nil (dec_ne_nil n)
      rw [heq] at hhead ⊢
      have hc : c ≠ '0' := fun h => hhead (congrArg some h)
      simp [scanBase, hc]
    show (let (b, t) := scanBase (dec n ++ t); scanDigits b false t) = _
    rw [hbase]
    exact scanDigits_dec n ht

/-- `%i` reads hexadecimal digits behind their prefix. -/
theorem scanI_0x {x : Char} (hx : x = 'x' ∨ x = 'X') {ds t : Text}
    (hds : ∀ c ∈ ds, isBase 16 c = true) (hne : ds ≠ []) (ht : Ends t) :
    scanI ('0' :: x :: ds ++ t) = some (toUlong false (ofBase 16 ds), t) := by
  have hbase : scanBase ('0' :: x :: (ds ++ t)) = (16, ds ++ t) := by
    rcases hx with rfl | rfl <;> rfl
  rw [List.cons_append, List.cons_append, scanI, scanSign_digit (by decide)]
  show (let (b, t) := scanBase ('0' :: x :: (ds ++ t)); scanDigits b false t) = _
  rw [hbase]
  exact scanDigits_append hds hne (ht.not_isBase 16) false

/-! ## `%lx`

The prefix is optional, and the number ends with the first character that is no digit. -/

theorem scan0x_of_ends {ds t : Text} (hds : ∀ c ∈ ds, isHex c = true) (ht : Ends t) :
    scan0x (ds ++ t) = ds ++ t := by
  apply scan0x_digits hds
  cases t with
  | nil => decide
  | cons c t =>
      obtain ⟨hhex, hx, hX⟩ := ht c rfl
      have hzero : c ≠ '0' := by
        rintro rfl
        exact absurd hhex (by decide)
      simp [hx, hX, hzero]

theorem hexPad_ne_nil (w n : Nat) : hexPad w n ≠ [] :=
  List.append_ne_nil_of_right_ne_nil _ (hex_ne_nil n)

/-- `%lx` reads what `%0*lx` has written. -/
theorem scanHex_hexPad_append {w n : Nat} (hn : n < 2 ^ 64) {t : Text} (ht : Ends t) :
    scanHex (hexPad w n ++ t) = some (n, t) := by
  have hds := isHex_hexPad w n
  have hne := hexPad_ne_nil w n
  have hstop : ∀ c ∈ t.head?, isHex c = false := fun c hc => (ht c hc).1
  have hsign : scanSign (lstrip (hexPad w n ++ t)) = (false, hexPad w n ++ t) := by
    obtain ⟨c, cs, heq⟩ := List.exists_cons_of_ne_nil hne
    rw [heq] at hds ⊢
    exact scanSign_digit (hds c List.mem_cons_self) (cs ++ t)
  have hstop' : t.takeWhile isHex = [] ∧ t.dropWhile isHex = t := by
    cases t with
    | nil => exact ⟨rfl, rfl⟩
    | cons c t => simp [hstop c rfl]
  have htake : (hexPad w n ++ t).takeWhile isHex = hexPad w n := by
    rw [List.takeWhile_append_of_pos hds, hstop'.1, List.append_nil]
  have hdrop : (hexPad w n ++ t).dropWhile isHex = t := by
    rw [List.dropWhile_append_of_pos hds, hstop'.2]
  unfold scanHex
  rw [hsign]
  dsimp only
  rw [scan0x_of_ends hds ht, htake, hdrop, if_neg hne, ofHex_hexPad, toUlong,
    if_neg (Nat.not_le.mpr hn), if_neg Bool.false_ne_true]

end Text
