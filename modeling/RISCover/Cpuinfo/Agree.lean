import RISCover.Cpuinfo.Client
import RISCover.Cpuinfo.Server

/-!
# Client and server on the same `/proc/cpuinfo`

Both build the main id register of every processor from the fields that the text gives it. The
client holds it in 32 bits, takes a field that is missing for zero and does not see every line; the
server has integers of any size and no register where a field is missing.
-/

open Text

namespace RISCover

/-! ## Registers

The server adds the shifted fields, the client puts them together in 32 bits. For fields that fit
their places this is one number. -/

/-- The register of the values that were given. -/
def Given.packed (g : Given) : Nat := RISCover.packed fun f => (g.value f).getD 0

/-- The register in 32 bits, of values as `sscanf` gives them. -/
def Given.register (g : Given) : Nat :=
  RISCover.packed (fun f => toUlong false ((g.value f).getD 0)) % 2 ^ 32

theorem le_packed (value : CpuField → Nat) (f : CpuField) : value f ≤ packed value := by
  have hshift : value f ≤ value f <<< f.shift := by
    rw [Nat.shiftLeft_eq]
    exact Nat.le_mul_of_pos_right _ (Nat.two_pow_pos _)
  have hfold : ∀ (fs : List CpuField) (midr : Nat),
      midr ≤ fs.foldl (fun midr f => midr ||| value f <<< f.shift) midr ∧
        ∀ f ∈ fs, value f <<< f.shift ≤
          fs.foldl (fun midr f => midr ||| value f <<< f.shift) midr := by
    intro fs
    induction fs with
    | nil => exact fun midr => ⟨Nat.le_refl _, fun f hf => absurd hf List.not_mem_nil⟩
    | cons g fs ih =>
        intro midr
        obtain ⟨hle, hmem⟩ := ih (midr ||| value g <<< g.shift)
        refine ⟨Nat.le_trans Nat.left_le_or hle, fun f hf => ?_⟩
        rcases List.mem_cons.mp hf with rfl | hf
        · exact Nat.le_trans Nat.right_le_or hle
        · exact hmem f hf
  exact Nat.le_trans hshift ((hfold CpuField.all 0).2 f f.mem_all)

/-- A register that fits 32 bits is held as it is. -/
theorem Given.register_of_lt {g : Given} (h : g.packed < 2 ^ 32) : g.register = g.packed := by
  have hvalue : (fun f => toUlong false ((g.value f).getD 0)) = fun f => (g.value f).getD 0 := by
    funext f
    have hle := le_packed (fun f => (g.value f).getD 0) f
    rw [Given.packed] at h
    exact toUlong_of_lt (by omega)
  rw [Given.register, hvalue]
  exact Nat.mod_eq_of_lt h

theorem Given.register_lt (g : Given) : g.register < 2 ^ 32 := Nat.mod_lt _ (by decide)

theorem toNat_word (n : Nat) : (ClientCpuinfo.word n).toNat = toUlong false n % 2 ^ 32 := by
  rw [ClientCpuinfo.word, UInt32.toNat_ofNat']

theorem toNat_shiftLeft_word (v : Option Nat) {k : UInt32} (hk : k.toNat < 32) :
    (((v.map ClientCpuinfo.word).getD 0) <<< k).toNat =
      toUlong false (v.getD 0) <<< k.toNat % 2 ^ 32 := by
  have hword : ((v.map ClientCpuinfo.word).getD 0).toNat =
      toUlong false (v.getD 0) % 2 ^ 32 := by
    cases v with
    | none => rfl
    | some n => exact toNat_word n
  rw [UInt32.toNat_shiftLeft, hword, Nat.mod_eq_of_lt hk, Nat.shiftLeft_eq, Nat.shiftLeft_eq,
    Nat.mod_mul_mod]

/-- The client holds the register of the values it has read. -/
theorem toNat_buildMidr_stored (g : Given) :
    (ClientCpuinfo.buildMidr (ClientCpuinfo.stored g)).toNat = g.register := by
  have hshift : ∀ (v : Option Nat) (k : UInt32), k.toNat < 32 → _ := fun v k hk =>
    toNat_shiftLeft_word v (k := k) hk
  simp only [ClientCpuinfo.buildMidr, ClientCpuinfo.stored, UInt32.toNat_or, UInt32.toNat_zero]
  rw [hshift _ 24 (by decide), hshift _ 16 (by decide), hshift _ 20 (by decide),
    hshift _ 4 (by decide), hshift _ 0 (by decide)]
  simp only [Given.register, packed, CpuField.all, List.foldl_cons, List.foldl_nil,
    Nat.or_mod_two_pow]
  rfl

/-- The server has the register of a processor with all its fields. -/
theorem midr_toPy (g : Given) (h : ∀ f, g.value f ≠ none) :
    (ServerCpuinfo.toPy g).midr = some (↑g.packed : Int) := by
  obtain ⟨implementer, hi⟩ := Option.ne_none_iff_exists'.mp (h .implementer)
  obtain ⟨architecture, ha⟩ := Option.ne_none_iff_exists'.mp (h .architecture)
  obtain ⟨variant, hv⟩ := Option.ne_none_iff_exists'.mp (h .variant)
  obtain ⟨part, hp⟩ := Option.ne_none_iff_exists'.mp (h .part)
  obtain ⟨revision, hr⟩ := Option.ne_none_iff_exists'.mp (h .revision)
  simp only [ServerCpuinfo.CPUInfo.midr, ServerCpuinfo.toPy, Given.packed, packed, CpuField.all,
    List.foldl_cons, List.foldl_nil, hi, ha, hv, hp, hr, Option.map_some, Option.getD_some]
  rfl

theorem midr_toPy_eq_none (g : Given) {f : CpuField} (h : g.value f = none) :
    (ServerCpuinfo.toPy g).midr = none := by
  unfold ServerCpuinfo.CPUInfo.midr ServerCpuinfo.toPy
  cases f <;> simp [h]

/-! ## Agreement

Both lists have a register for each processor, so they agree if they do so one by one. -/

/-- Both compute a list of registers, and the lists are the same. -/
def SameMidrs (hostname : Option Text) (sysPossible file : Text) : Prop :=
  ∃ midrs, ClientCpuinfo.midrs false hostname file = some midrs ∧
    ServerCpuinfo.midrs file sysPossible = some (midrs.map fun midr => (↑midr.toNat : Int))

/-- A processor with the values that all lines give it, and with those of the lines that the client
sees. -/
structure SameRegister (g g' : Given) : Prop where
  complete : ∀ f, g.value f ≠ none
  fits : g.packed < 2 ^ 32
  unmissed : g'.register = g.register

theorem sameRegister_iff (g g' : Given) :
    (ServerCpuinfo.toPy g).midr = some (↑g'.register : Int) ↔ SameRegister g g' := by
  constructor
  · intro h
    have hcomplete : ∀ f, g.value f ≠ none := by
      intro f hf
      rw [midr_toPy_eq_none g hf] at h
      cases h
    rw [midr_toPy g hcomplete] at h
    have heq : g.packed = g'.register := Int.ofNat.inj (Option.some.inj h)
    have hfits : g.packed < 2 ^ 32 := heq ▸ g'.register_lt
    exact ⟨hcomplete, hfits, heq.symm.trans (Given.register_of_lt hfits).symm⟩
  · rintro ⟨hcomplete, hfits, hsame⟩
    rw [midr_toPy g hcomplete, hsame, Given.register_of_lt hfits]

theorem mapM_midr_iff (gs gs' : List Given) :
    (gs.map ServerCpuinfo.toPy).mapM ServerCpuinfo.CPUInfo.midr =
        some (gs'.map fun g => (↑g.register : Int)) ↔ List.Forall₂ SameRegister gs gs' := by
  -- the lists are compared from the front, and a missing register makes the whole list missing
  induction gs generalizing gs' with
  | nil =>
      rw [List.forall₂_nil_left_iff]
      cases gs' with
      | nil => exact ⟨fun _ => rfl, fun _ => rfl⟩
      | cons g' gs' =>
          exact ⟨fun h => absurd (Option.some.inj h) (List.cons_ne_nil _ _).symm,
            fun h => absurd h (List.cons_ne_nil _ _)⟩
  | cons g gs ih =>
      rw [List.map_cons, List.mapM_cons]
      cases gs' with
      | nil =>
          refine ⟨fun h => ?_, fun h => nomatch h⟩
          cases hmidr : (ServerCpuinfo.toPy g).midr with
          | none =>
              rw [hmidr] at h
              cases h
          | some midr =>
              rw [hmidr] at h
              cases hmidrs : (gs.map ServerCpuinfo.toPy).mapM ServerCpuinfo.CPUInfo.midr with
              | none =>
                  rw [hmidrs] at h
                  cases h
              | some midrs =>
                  rw [hmidrs] at h
                  cases h
      | cons g' gs' =>
          rw [List.forall₂_cons, ← ih, ← sameRegister_iff]
          cases hmidr : (ServerCpuinfo.toPy g).midr with
          | none => exact ⟨fun h => (nomatch h), fun h => (nomatch h.1)⟩
          | some midr =>
              cases hmidrs : (gs.map ServerCpuinfo.toPy).mapM ServerCpuinfo.CPUInfo.midr with
              | none => exact ⟨fun h => (nomatch h), fun h => (nomatch h.2)⟩
              | some midrs =>
                  show some (midr :: midrs) = some (_ :: _) ↔ _
                  simp only [Option.some.injEq, List.cons.injEq]

/-- On a text of known lines client and server agree if and only if it has a processor, gives every
processor all its fields with a register of at most 32 bits, and the lines that the client passes
over make no difference to a register. -/
theorem sameMidrs_iff (ls : List CpuinfoLine) (hlen : ∀ l ∈ ls, l.text.length < 256)
    (hcount : ls.countP CpuinfoLine.isProcessor ≤ MAX_CPUS) (hostname : Option Text)
    (hhost : hostname ≠ some "lab71".toList) (sysPossible : Text)
    (hpossible : ServerCpuinfo.parseCpuPossible sysPossible =
      some ↑(ls.countP CpuinfoLine.isProcessor)) :
    SameMidrs hostname sysPossible (cpuinfoText ls) ↔
      given ls ≠ [] ∧
        List.Forall₂ SameRegister (given ls) (given (ls.flatMap CpuinfoLine.asRead)) := by
  -- both sides are told by the blocks of the text: the server by all lines, the client by those
  -- that it takes
  have hserver : ServerCpuinfo.midrs (cpuinfoText ls) sysPossible =
      ((given ls).map ServerCpuinfo.toPy).mapM ServerCpuinfo.CPUInfo.midr := by
    rw [ServerCpuinfo.midrs, ServerCpuinfo.parseCpuinfo_text ls hpossible]
    rfl
  have hclient := ClientCpuinfo.midrs_text hlen hcount hhost
  rw [SameMidrs, hserver, hclient, ← mapM_midr_iff]
  by_cases hnil : given ls = []
  · rw [if_pos hnil]
    exact ⟨fun ⟨_, h, _⟩ => (nomatch h), fun h => absurd hnil h.1⟩
  · rw [if_neg hnil]
    have hregisters : ((given (ls.flatMap CpuinfoLine.asRead)).map fun g =>
        ClientCpuinfo.buildMidr (ClientCpuinfo.stored g)).map (fun midr => (↑midr.toNat : Int)) =
          (given (ls.flatMap CpuinfoLine.asRead)).map fun g => (↑g.register : Int) := by
      rw [List.map_map]
      exact List.map_congr_left fun g _ => congrArg Nat.cast (toNat_buildMidr_stored g)
    constructor
    · rintro ⟨midrs, hmidrs, hsame⟩
      obtain rfl := Option.some.inj hmidrs
      exact ⟨hnil, hregisters ▸ hsame⟩
    · rintro ⟨-, hsame⟩
      exact ⟨_, rfl, hregisters ▸ hsame⟩

/-- The lines that a kernel prints for one processor. -/
def kernelLines : List CpuinfoLine :=
  let tab : Blanks := ⟨['\t'], List.forall_mem_singleton.mpr ⟨rfl, by decide⟩⟩
  let space : Blanks := ⟨[' '], List.forall_mem_singleton.mpr ⟨rfl, by decide⟩⟩
  let nothing : Blanks := ⟨[], fun _ h => absurd h List.not_mem_nil⟩
  [.processor tab space (.decimal 0),
    .field .implementer tab space
      (.hexadecimal false ⟨['4', '1'], List.cons_ne_nil _ _, List.all_eq_true.mp rfl⟩),
    .field .architecture nothing space (.decimal 8),
    .field .variant tab space
      (.hexadecimal false ⟨['1'], List.cons_ne_nil _ _, List.all_eq_true.mp rfl⟩),
    .field .part tab space
      (.hexadecimal false ⟨['d', '0', 'c'], List.cons_ne_nil _ _, List.all_eq_true.mp rfl⟩),
    .field .revision tab space (.decimal 1),
    .blank nothing]

theorem sameMidrs_iff_kernelLines : SameMidrs none ['0'] (cpuinfoText kernelLines) := by
  apply (sameMidrs_iff kernelLines (by decide) (by decide) none (by decide) ['0'] (by decide)).mpr
  refine ⟨List.cons_ne_nil _ _, List.Forall₂.cons ⟨?_, by decide, by decide⟩ .nil⟩
  intro f
  cases f <;> exact Option.some_ne_none _

/-- A text with no white space in front of one colon. -/
def unspacedText : Text :=
  ("processor\t: 0\nCPU implementer: 0x41\nCPU architecture: 8\nCPU variant\t: 0x1\n" ++
    "CPU part\t: 0xd0c\nCPU revision\t: 1\n").toList

/-- The client misses the implementer. -/
theorem unspacedText_not_sameMidrs : ¬SameMidrs none ['0'] unspacedText := by
  have hclient : ClientCpuinfo.midrs false none unspacedText = some [0x0018d0c1] := by
    decide +kernel
  have hserver : ServerCpuinfo.midrs unspacedText ['0'] = some [0x4118d0c1] := by decide +kernel
  rintro ⟨midrs, hmidrs, hsame⟩
  rw [hclient] at hmidrs
  rw [hserver, ← Option.some.inj hmidrs] at hsame
  exact absurd hsame (by decide)

end RISCover
