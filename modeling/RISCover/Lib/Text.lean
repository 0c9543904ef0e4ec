import Mathlib.Data.List.TakeWhile
import Mathlib.Tactic.IntervalCases
import Mathlib.Tactic.Ring

/-!
# Texts, lines and numbers

A text is a list of characters. `lines` cuts it at the newlines the way a tokenizer does, so empty
lines vanish, and `unlines` writes lines out; `lines_unlines` is their round trip. Numbers are
written in base sixteen and ten by `hex`, `hexPad` and `dec`, and `ofHex` reads what the first two
write. `scanHex` is the conversion `%lx`: what it reads is fixed by `scanHex_hex`.
-/

/-- A text without its terminating zero. -/
abbrev Text := List Char

namespace Text

/-! ## Lines

An empty line is no token, so texts without empty lines are read back. -/

/-- The tokens between newlines, with `cur` already read of the first one. -/
def linesFrom (cur : Text) : Text → List Text
  | [] => if cur = [] then [] else [cur]
  | c :: cs =>
    if c = '\n' then (if cur = [] then [] else [cur]) ++ linesFrom [] cs
    else linesFrom (cur ++ [c]) cs

/-- The non-empty lines of a text. -/
def lines (t : Text) : List Text := linesFrom [] t

/-- Every line with a newline behind it. -/
def unlines (ls : List Text) : Text := ls.flatMap (· ++ ['\n'])

/-- A line as a tokenizer can hand it out. -/
def IsLine (l : Text) : Prop := l ≠ [] ∧ '\n' ∉ l

theorem linesFrom_append {cur l : Text} (rest : Text) (hl : '\n' ∉ l) (hne : cur ++ l ≠ []) :
    linesFrom cur (l ++ '\n' :: rest) = (cur ++ l) :: lines rest := by
  induction l generalizing cur with
  | nil =>
      rw [List.append_nil] at hne
      simp [linesFrom, lines, hne]
  | cons c l ih =>
      rw [List.mem_cons, not_or] at hl
      rw [List.cons_append, linesFrom, if_neg (Ne.symm hl.1), ih hl.2 (by simp)]
      simp

/-- What is written line by line is read line by line. -/
theorem lines_unlines {ls : List Text} (h : ∀ l ∈ ls, IsLine l) : lines (unlines ls) = ls := by
  induction ls with
  | nil => rfl
  | cons l ls ih =>
      rw [List.forall_mem_cons] at h
      obtain ⟨⟨hne, hnl⟩, hls⟩ := h
      have hcons : unlines (l :: ls) = l ++ '\n' :: unlines ls := by simp [unlines]
      rw [hcons, lines, linesFrom_append _ hnl (by rwa [List.nil_append]), ih hls]
      rfl

theorem isLine_append {p t : Text} (hne : p ≠ []) (hp : '\n' ∉ p) (ht : '\n' ∉ t) :
    IsLine (p ++ t) :=
  ⟨fun h => hne (List.append_eq_nil_iff.mp h).1, by simp [hp, ht]⟩

/-! ## White space and searching

`strstr` finds the first occurrence; a text in which it starts is found at once. -/

/-- `isspace`. -/
def isSpace (c : Char) : Bool :=
  c == ' ' || c == '\t' || c == '\n' || c == '\x0b' || c == '\x0c' || c == '\r'

/-- The text behind its leading white space. -/
def lstrip (t : Text) : Text := t.dropWhile isSpace

@[simp] theorem lstrip_cons_of_not_space {c : Char} (t : Text) (h : isSpace c = false) :
    lstrip (c :: t) = c :: t := by
  simp [lstrip, List.dropWhile, h]

@[simp] theorem lstrip_space (t : Text) : lstrip (' ' :: t) = lstrip t := rfl

theorem lstrip_append {p : Text} (h : lstrip p ≠ []) (t : Text) :
    lstrip (p ++ t) = lstrip p ++ t := by
  have hne : (List.dropWhile isSpace p).isEmpty = false := by
    rwa [List.isEmpty_eq_false_iff]
  rw [lstrip, List.dropWhile_append, hne]
  rfl

/-- The text starts with the given characters. -/
def startsWith (t : Text) (pre : String) : Bool := pre.toList.isPrefixOf t

/-- Neither text is a prefix of the other. -/
def apart (p q : Text) : Bool := !(p.isPrefixOf q || q.isPrefixOf p)

/-- A text cannot start in two different ways. -/
theorem startsWith_append_eq_false {p : Text} {other : String} (h : apart p other.toList = true)
    (t : Text) : startsWith (p ++ t) other = false := by
  rw [apart, Bool.not_eq_true', Bool.or_eq_false_iff] at h
  by_contra hother
  rw [Bool.not_eq_false] at hother
  rcases List.prefix_or_prefix_of_prefix (List.prefix_append p t)
    (List.isPrefixOf_iff_prefix.mp hother) with hle | hle
  · rw [List.isPrefixOf_iff_prefix.mpr hle] at h
    exact absurd h.1 (by decide)
  · rw [List.isPrefixOf_iff_prefix.mpr hle] at h
    exact absurd h.2 (by decide)

theorem startsWith_append (pre : String) (t : Text) : startsWith (pre.toList ++ t) pre = true :=
  List.isPrefixOf_iff_prefix.mpr (List.prefix_append _ t)

/-- The rest of the text from the first occurrence of the given characters on. -/
def strstr : Text → String → Option Text
  | [], needle => if startsWith [] needle then some [] else none
  | c :: cs, needle => if startsWith (c :: cs) needle then some (c :: cs) else strstr cs needle

theorem strstr_of_startsWith {t : Text} {needle : String} (h : startsWith t needle = true) :
    strstr t needle = some t := by
  cases t with
  | nil => rw [strstr, if_pos h]
  | cons c cs => rw [strstr, if_pos h]

/-- The first `0x` stands behind everything that has no `x`. -/
theorem strstr_0x {p : Text} (h : 'x' ∉ p) (t : Text) :
    strstr (p ++ '0' :: 'x' :: t) "0x" = some ('0' :: 'x' :: t) := by
  induction p with
  | nil => exact strstr_of_startsWith (startsWith_append "0x" t)
  | cons c p ih =>
      rw [List.mem_cons, not_or] at h
      have hno : startsWith (c :: (p ++ '0' :: 'x' :: t)) "0x" = false := by
        cases p with
        | nil => simp [startsWith, List.isPrefixOf]
        | cons d p =>
            rw [List.mem_cons, not_or] at h
            simp [startsWith, List.isPrefixOf, h.2.1]
      rw [List.cons_append, strstr, hno, if_neg Bool.false_ne_true]
      exact ih h.2

/-! ## Hexadecimal digits

`hexDigit n i` is the digit in place `i`, counted from the right, whether it is written or not. -/

/-- The value of a hexadecimal digit. -/
def hexNibble (c : Char) : Option Nat :=
  if '0' ≤ c ∧ c ≤ '9' then some (c.toNat - '0'.toNat)
  else if 'a' ≤ c ∧ c ≤ 'f' then some (10 + (c.toNat - 'a'.toNat))
  else if 'A' ≤ c ∧ c ≤ 'F' then some (10 + (c.toNat - 'A'.toNat))
  else none

/-- `isxdigit`. -/
def isHex (c : Char) : Bool := (hexNibble c).isSome

/-- The number that hexadecimal digits spell, most significant digit first. -/
def ofHex (t : Text) : Nat := t.foldl (fun n c => 16 * n + (hexNibble c).getD 0) 0

/-- `%lx`: without leading zeros. -/
def hex (n : Nat) : Text := Nat.toDigits 16 n

/-- `%0wlx`: with leading zeros up to `w` digits. -/
def hexPad (w n : Nat) : Text := (hex n).leftpad w '0'

/-- `%lu`. -/
def dec (n : Nat) : Text := Nat.toDigits 10 n

theorem hexNibble_digitChar {d : Nat} (h : d < 16) : hexNibble d.digitChar = some d := by
  interval_cases d <;> rfl

theorem ofHex_concat (t : Text) (c : Char) :
    ofHex (t ++ [c]) = 16 * ofHex t + (hexNibble c).getD 0 := by
  simp [ofHex]

theorem hexNibble_lt {c : Char} {d : Nat} (h : hexNibble c = some d) : d < 16 := by
  simp only [hexNibble, Char.le_def, UInt32.le_iff_toNat_le] at h
  split_ifs at h with h₁ h₂ h₃
  all_goals
    obtain rfl := Option.some.inj h
    simp only [Char.toNat] at *
    simp at *
    omega

theorem foldl_hex (t : Text) (n : Nat) :
    t.foldl (fun n c => 16 * n + (hexNibble c).getD 0) n = 16 ^ t.length * n + ofHex t := by
  induction t generalizing n with
  | nil => simp [ofHex]
  | cons c t ih =>
      have hcons : ofHex (c :: t) = 16 ^ t.length * (hexNibble c).getD 0 + ofHex t := by
        rw [ofHex, List.foldl_cons, ih, Nat.mul_zero, Nat.zero_add]
      rw [List.foldl_cons, ih, hcons, List.length_cons, pow_succ]
      ring

/-- The digits in front weigh more. -/
theorem ofHex_append (s t : Text) : ofHex (s ++ t) = 16 ^ t.length * ofHex s + ofHex t := by
  rw [ofHex, List.foldl_append, foldl_hex]
  rfl

theorem isHex_hex (n : Nat) : ∀ c ∈ hex n, isHex c = true := by
  induction n using Nat.strongRecOn with
  | ind n ih =>
      intro c hc
      rw [hex, Nat.toDigits_eq_if (by decide)] at hc
      split at hc
      next hlt =>
        rw [List.mem_singleton.mp hc, isHex, hexNibble_digitChar hlt]
        rfl
      next hge =>
        rcases List.mem_append.mp hc with hc | hc
        · exact ih (n / 16) (by omega) c hc
        · rw [List.mem_singleton.mp hc, isHex, hexNibble_digitChar (Nat.mod_lt _ (by decide))]
          rfl

theorem ofHex_hex (n : Nat) : ofHex (hex n) = n := by
  induction n using Nat.strongRecOn with
  | ind n ih =>
      rw [hex, Nat.toDigits_eq_if (by decide)]
      split
      next hlt => simp [ofHex, hexNibble_digitChar hlt]
      next hge =>
        have hdiv := ih (n / 16) (by omega)
        rw [hex] at hdiv
        rw [ofHex_concat, hexNibble_digitChar (Nat.mod_lt _ (by decide)), hdiv, Option.getD_some]
        omega

theorem ofHex_replicate_append (k : Nat) (t : Text) :
    ofHex (List.replicate k '0' ++ t) = ofHex t := by
  have hzero : (List.replicate k '0').foldl (fun n c => 16 * n + (hexNibble c).getD 0) 0 = 0 := by
    induction k with
    | zero => rfl
    | succ k ih => rw [List.replicate_succ, List.foldl_cons]; exact ih
  rw [ofHex, List.foldl_append, hzero, ofHex]

theorem ofHex_hexPad (w n : Nat) : ofHex (hexPad w n) = n := by
  rw [hexPad, List.leftpad, ofHex_replicate_append, ofHex_hex]

theorem isHex_hexPad (w n : Nat) : ∀ c ∈ hexPad w n, isHex c = true := by
  intro c hc
  rw [hexPad, List.leftpad, List.mem_append] at hc
  rcases hc with hc | hc
  · rw [List.eq_of_mem_replicate hc]
    rfl
  · exact isHex_hex n c hc

theorem hex_ne_nil (n : Nat) : hex n ≠ [] := Nat.toDigits_ne_nil

theorem length_hex_le {n k : Nat} (hk : 0 < k) (h : n < 16 ^ k) : (hex n).length ≤ k :=
  (Nat.length_toDigits_le_iff (by decide) hk).mpr h

theorem length_hexPad {w n : Nat} (hw : 0 < w) (h : n < 16 ^ w) : (hexPad w n).length = w := by
  have hle := length_hex_le hw h
  rw [hexPad, List.leftpad, List.length_append, List.length_replicate]
  omega

/-- The digit of weight `16 ^ k`. -/
def hexDigit (n k : Nat) : Nat := n / 16 ^ k % 16

theorem hexDigit_lt (n k : Nat) : hexDigit n k < 16 := Nat.mod_lt _ (Nat.succ_pos 15)

theorem hexDigit_zero_right (n : Nat) : hexDigit n 0 = n % 16 := by
  rw [hexDigit, Nat.pow_zero, Nat.div_one]

theorem hexDigit_div (n d k : Nat) : hexDigit (n / 16 ^ d) k = hexDigit n (k + d) := by
  rw [hexDigit, hexDigit, Nat.div_div_eq_div_mul, ← Nat.pow_add, Nat.add_comm]

theorem hexDigit_mul_add (n d k : Nat) : hexDigit (n * 16 ^ d) (k + d) = hexDigit n k := by
  rw [← hexDigit_div, Nat.mul_div_cancel n (Nat.pow_pos (Nat.succ_pos 15))]

theorem hexDigit_mul_of_lt (n : Nat) {d k : Nat} (h : k < d) : hexDigit (n * 16 ^ d) k = 0 := by
  have hd : n * 16 ^ d = n * 16 ^ (d - 1 - k) * 16 * 16 ^ k := by
    rw [Nat.mul_assoc, Nat.mul_assoc, ← Nat.pow_succ', ← Nat.pow_add]
    congr 2
    omega
  rw [hexDigit, hd, Nat.mul_div_cancel _ (Nat.pow_pos (Nat.succ_pos 15)), Nat.mul_mod_left]

/-- The missing leading digits. -/
theorem hexDigit_of_length_le {n k : Nat} (h : (hex n).length ≤ k) : hexDigit n k = 0 := by
  have hpos : 0 < (hex n).length := Nat.length_toDigits_pos
  have hlt : n < 16 ^ (hex n).length :=
    (Nat.length_toDigits_le_iff (by decide) hpos).mp (Nat.le_refl _)
  have hle : 16 ^ (hex n).length ≤ 16 ^ k := Nat.pow_le_pow_right (Nat.succ_pos 15) h
  rw [hexDigit, Nat.div_eq_of_lt (Nat.lt_of_lt_of_le hlt hle), Nat.zero_mod]

theorem getElem?_hex (n i : Nat) (h : i < (hex n).length) :
    (hex n)[i]? = some (hexDigit n ((hex n).length - 1 - i)).digitChar := by
  induction n using Nat.strongRecOn generalizing i with
  | ind n ih =>
      by_cases hlt : n < 16
      · have hhex : hex n = [n.digitChar] := Nat.toDigits_of_lt_base hlt
        rw [hhex] at h ⊢
        obtain rfl : i = 0 := by simpa using h
        show some n.digitChar = some (hexDigit n 0).digitChar
        rw [hexDigit_zero_right, Nat.mod_eq_of_lt hlt]
      · have hhex : hex n = hex (n / 16) ++ [(n % 16).digitChar] :=
          Nat.toDigits_of_base_le (by decide) (Nat.not_lt.mp hlt)
        have hlen : (hex n).length = (hex (n / 16)).length + 1 := by
          rw [hhex, List.length_append, List.length_singleton]
        -- the last digit, or one of those in front of it
        by_cases hi : i < (hex (n / 16)).length
        · have hdigit := hexDigit_div n 1 ((hex (n / 16)).length - 1 - i)
          have hk : (hex n).length - 1 - i = (hex (n / 16)).length - 1 - i + 1 := by omega
          rw [hk, ← hdigit, Nat.pow_one, ← ih (n / 16) (by omega) i hi, hhex,
            List.getElem?_append_left hi]
        · obtain rfl : i = (hex (n / 16)).length := by omega
          have hk : (hex n).length - 1 - (hex (n / 16)).length = 0 := by omega
          rw [hk, hexDigit_zero_right, hhex, List.getElem?_append_right (Nat.le_refl _),
            Nat.sub_self]
          rfl

theorem digitChar_inj {d e : Nat} (hd : d < 16) (he : e < 16) :
    d.digitChar = e.digitChar ↔ d = e := by
  refine ⟨fun h => ?_, fun h => congrArg Nat.digitChar h⟩
  have hnibble := congrArg hexNibble h
  rw [hexNibble_digitChar hd, hexNibble_digitChar he] at hnibble
  exact Option.some.inj hnibble

theorem not_isSpace_of_isHex {c : Char} (h : isHex c = true) : isSpace c = false := by
  by_contra hs
  simp only [isSpace, Bool.not_eq_false, Bool.or_eq_true, beq_iff_eq] at hs
  obtain ((((rfl | rfl) | rfl) | rfl) | rfl) | rfl := hs <;> exact absurd h (by decide)

@[simp] theorem newline_notMem_hex (n : Nat) : '\n' ∉ hex n := fun h =>
  absurd (isHex_hex n _ h) (by decide)

@[simp] theorem newline_notMem_hexPad (w n : Nat) : '\n' ∉ hexPad w n := fun h =>
  absurd (isHex_hexPad w n _ h) (by decide)

@[simp] theorem newline_notMem_dec (n : Nat) : '\n' ∉ dec n := fun h =>
  absurd (Nat.isDigit_of_mem_toDigits (by decide) (by decide) h) (by decide)

/-! ## Conversions of `sscanf`

Each takes the text that is left and gives what is left behind it. -/

/-- White space in a format: any amount of it. -/
def scanSpace (t : Text) : Text := lstrip t

/-- Ordinary characters in a format. -/
def scanLit (lit : String) (t : Text) : Option Text :=
  if startsWith t lit then some (t.drop lit.toList.length) else none

/-- `%*[^:]`. -/
def scanNotColon (t : Text) : Option Text :=
  if (t.takeWhile (· ≠ ':')) = [] then none else some (t.dropWhile (· ≠ ':'))

/-- `%ws`: at most `w` characters that are no white space. -/
def scanWord (w : Nat) (t : Text) : Option (Text × Text) :=
  let word := ((lstrip t).takeWhile (!isSpace ·)).take w
  if word = [] then none else some (word, (lstrip t).drop word.length)

theorem scanNotColon_append {p : Text} (hne : p ≠ []) (hp : ':' ∉ p) (t : Text) :
    scanNotColon (p ++ ':' :: t) = some (':' :: t) := by
  have hall : ∀ c ∈ p, decide (c ≠ ':') = true := fun c hc =>
    decide_eq_true fun h => hp (h ▸ hc)
  have htake : (p ++ ':' :: t).takeWhile (· ≠ ':') = p := by
    rw [List.takeWhile_append_of_pos hall]
    simp
  have hdrop : (p ++ ':' :: t).dropWhile (· ≠ ':') = ':' :: t := by
    rw [List.dropWhile_append_of_pos hall]
    simp
  rw [scanNotColon, htake, hdrop, if_neg hne]

/-- The sign in front of a number. -/
def scanSign : Text → Bool × Text
  | '-' :: t => (true, t)
  | '+' :: t => (false, t)
  | t => (false, t)

/-- The prefix that base sixteen allows. -/
def scan0x : Text → Text
  | '0' :: 'x' :: t => t
  | '0' :: 'X' :: t => t
  | t => t

/-- Digits alone have no prefix. -/
theorem scan0x_digits {ds t : Text} (hds : ∀ c ∈ ds, isHex c = true)
    (ht : t.head? ∉ [some 'x', some 'X', some '0']) : scan0x (ds ++ t) = ds ++ t := by
  have hx : ∀ c ∈ ds, c ≠ 'x' ∧ c ≠ 'X' := fun c hc =>
    ⟨fun h => absurd (hds c hc) (by rw [h]; decide), fun h => absurd (hds c hc) (by rw [h]; decide)⟩
  simp only [List.mem_cons, List.not_mem_nil, or_false, not_or] at ht
  -- the text has no second character `x`
  have hsecond : ∀ u, ds ++ t ≠ '0' :: 'x' :: u ∧ ds ++ t ≠ '0' :: 'X' :: u := by
    intro u
    rcases ds with _ | ⟨c, _ | ⟨d, ds⟩⟩
    · rw [List.nil_append]
      constructor <;> rintro rfl <;> exact ht.2.2 rfl
    · rw [List.singleton_append, Ne, List.cons.injEq, Ne, List.cons.injEq]
      constructor
      · rintro ⟨-, rfl⟩
        exact ht.1 rfl
      · rintro ⟨-, rfl⟩
        exact ht.2.1 rfl
    · have hd := hx d (by simp)
      simp [hd.1, hd.2]
  unfold scan0x
  split
  next u heq => exact absurd heq (hsecond u).1
  next u heq => exact absurd heq (hsecond u).2
  next => rfl

/-- `strtoul` on a sign and a number: a number that does not fit gives the largest one. -/
def toUlong (neg : Bool) (n : Nat) : Nat :=
  if 2 ^ 64 ≤ n then 2 ^ 64 - 1 else if neg then (2 ^ 64 - n) % 2 ^ 64 else n

/-- `%lx`. -/
def scanHex (t : Text) : Option (Nat × Text) :=
  let (neg, t) := scanSign (lstrip t)
  let t := scan0x t
  let digits := t.takeWhile isHex
  if digits = [] then none else some (toUlong neg (ofHex digits), t.dropWhile isHex)

theorem scanHex_0x {ds : Text} (hne : ds ≠ []) (hds : ∀ c ∈ ds, isHex c = true) :
    scanHex ('0' :: 'x' :: ds) = some (toUlong false (ofHex ds), []) := by
  have htake : ds.takeWhile isHex = ds := List.takeWhile_eq_self_iff.mpr hds
  have hdrop : ds.dropWhile isHex = [] := List.dropWhile_eq_nil_iff.mpr hds
  have hsign : scanSign (lstrip ('0' :: 'x' :: ds)) = (false, '0' :: 'x' :: ds) := rfl
  have hdigits : scan0x ('0' :: 'x' :: ds) = ds := rfl
  rw [scanHex, hsign]
  simp only [hdigits, htake, hdrop, if_neg hne]

theorem toUlong_of_lt {n : Nat} (h : n < 2 ^ 64) : toUlong false n = n := by
  rw [toUlong, if_neg (Nat.not_le.mpr h), if_neg Bool.false_ne_true]

theorem scanHex_digits {ds : Text} (hne : ds ≠ []) (hds : ∀ c ∈ ds, isHex c = true)
    (hlt : ofHex ds < 2 ^ 64) : scanHex ('0' :: 'x' :: ds) = some (ofHex ds, []) := by
  rw [scanHex_0x hne hds, toUlong_of_lt hlt]

/-- `%lx` reads what `0x%lx` writes. -/
theorem scanHex_hex {n : Nat} (h : n < 2 ^ 64) : scanHex ('0' :: 'x' :: hex n) = some (n, []) := by
  have hdigits := scanHex_digits (hex_ne_nil n) (isHex_hex n) (by rwa [ofHex_hex])
  rwa [ofHex_hex] at hdigits

/-- `%lx` reads what `0x%0wlx` writes. -/
theorem scanHex_hexPad {w n : Nat} (h : n < 2 ^ 64) :
    scanHex ('0' :: 'x' :: hexPad w n) = some (n, []) := by
  have hne : hexPad w n ≠ [] := fun hnil =>
    hex_ne_nil n (List.append_eq_nil_iff.mp hnil).2
  have hdigits := scanHex_digits hne (isHex_hexPad w n) (by rwa [ofHex_hexPad])
  rwa [ofHex_hexPad] at hdigits

/-! ## Decimal arguments

`atoi` reads a sign and digits and computes in `int`, which goes round. -/

/-- The loop of `atoi`: an `int` that is kept negative and wraps. -/
def atoiDigits (n : Int32) (ds : Text) : Int32 :=
  ds.foldl (fun n c => 10 * n - Int32.ofNat (c.toNat - '0'.toNat)) n

/-- `atoi` of musl. -/
def atoi (t : Text) : Int32 :=
  let (neg, t) := scanSign (lstrip t)
  let n := atoiDigits 0 (t.takeWhile Char.isDigit)
  if neg then n else -n

theorem isDigit_dec (n : Nat) : ∀ c ∈ dec n, c.isDigit = true := fun _ hc =>
  Nat.isDigit_of_mem_toDigits (by decide) (by decide) hc

/-- Digits start neither with white space nor with a sign. -/
theorem scanSign_digits {t : Text} (h : ∀ c ∈ t, c.isDigit = true) :
    scanSign (lstrip t) = (false, t) := by
  cases t with
  | nil => rfl
  | cons c t =>
      have hc := h c List.mem_cons_self
      have hspace : isSpace c = false := by
        by_contra hspace
        simp only [isSpace, Bool.not_eq_false, Bool.or_eq_true, beq_iff_eq] at hspace
        rcases hspace with ((((rfl | rfl) | rfl) | rfl) | rfl) | rfl <;> exact absurd hc (by decide)
      rw [lstrip_cons_of_not_space t hspace]
      unfold scanSign
      split
      next heq =>
        obtain ⟨rfl, -⟩ := List.cons.inj heq
        exact absurd hc (by decide)
      next heq =>
        obtain ⟨rfl, -⟩ := List.cons.inj heq
        exact absurd hc (by decide)
      next => rfl

theorem atoiDigits_eq (ds : Text) (n : Nat) :
    atoiDigits (-Int32.ofNat n) ds = -Int32.ofNat (Nat.ofDigitChars 10 ds n) := by
  induction ds generalizing n with
  | nil => rfl
  | cons c ds ih =>
      have hstep : 10 * -Int32.ofNat n - Int32.ofNat (c.toNat - '0'.toNat) =
          -Int32.ofNat (10 * n + (c.toNat - '0'.toNat)) := by
        rw [Int32.ofNat_add, Int32.ofNat_mul]
        show 10 * -Int32.ofNat n - _ = -(10 * Int32.ofNat n + _)
        grind
      rw [atoiDigits, List.foldl_cons, hstep, ← atoiDigits, ih]
      rfl

/-- `atoi` reads what `%lu` writes, modulo `2 ^ 32`. -/
theorem atoi_dec (n : Nat) : atoi (dec n) = Int32.ofNat n := by
  have htake : (dec n).takeWhile Char.isDigit = dec n :=
    List.takeWhile_eq_self_iff.mpr (isDigit_dec n)
  have hdigits : atoiDigits 0 (dec n) = -Int32.ofNat n := by
    rw [show (0 : Int32) = -Int32.ofNat 0 from rfl, atoiDigits_eq, dec,
      Nat.ofDigitChars_ten_toDigits]
  rw [atoi, scanSign_digits (isDigit_dec n)]
  show (if false = true then _ else _) = _
  rw [if_neg Bool.false_ne_true, htake, hdigits, Int32.neg_neg]

end Text
