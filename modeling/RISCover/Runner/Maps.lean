import Mathlib.Data.List.Nodup
import RISCover.Lib.Scanf

/-!
# Mappings that are not wanted

Before the client fuzzes it removes those mappings of its process that are not the same on every
kernel. It knows them by what stands in their lines of `/proc/self/maps` and removes one at a time:
behind every `munmap` it reads the file anew, until no line has the name of the section any more.
`cleanMemoryMappings_eq` says that the loops end, and that they remove all of these mappings and no
other.
-/

open Text

namespace RISCover

/-! ## The mappings of a process

The kernel removes the mapping that begins at the address, or refuses. -/

/-- A mapping; `text` is what its line has behind the addresses. -/
structure Vma where
  start : Nat
  stop : Nat
  text : Text
  start_lt : start < stop
  stop_lt : stop < 2 ^ 64
  newline_notMem : '\n' ∉ text
  deriving DecidableEq

/-- The line of a mapping, without its newline. -/
def Vma.line (m : Vma) : Text :=
  hexPad 8 m.start ++ '-' :: (hexPad 8 m.stop ++ ' ' :: m.text)

/-- The mappings in the order of their addresses. -/
@[ext]
structure AddressSpace where
  vmas : List Vma
  sorted : vmas.Pairwise fun m n => m.stop ≤ n.start

namespace AddressSpace

/-- `/proc/self/maps`. -/
def procSelfMaps (s : AddressSpace) : Text := unlines (s.vmas.map Vma.line)

def filter (p : Vma → Bool) (s : AddressSpace) : AddressSpace :=
  ⟨s.vmas.filter p, s.sorted.sublist List.filter_sublist⟩

def remove (m : Vma) (s : AddressSpace) : AddressSpace :=
  ⟨s.vmas.erase m, s.sorted.sublist List.erase_sublist⟩

end AddressSpace

/-- What the kernel makes of `munmap`; `none` is an error. It removes a whole mapping unless it
guards it. -/
structure Munmap where
  munmap : AddressSpace → (addr len : Nat) → Option AddressSpace
  granted : Vma → Bool
  munmap_whole : ∀ (s : AddressSpace) (m : Vma), m ∈ s.vmas →
    munmap s m.start (m.stop - m.start) = if granted m then some (s.remove m) else none

/-! ## `unmap_section`

The file is read anew for every mapping that is removed, so the loop ends when no line has the name.
-/

/-- `sscanf(line, "%lx-%lx", start, end)`; `none` where it leaves one of them as it was. -/
def scanRange (line : Text) : Option (Nat × Nat) := do
  let (start, t) ← scanHex line
  let t ← scanFormat ['-'] t
  let (stop, _) ← scanHex t
  pure (start, stop)

/-- `get_addr`: `none` where no line has `id`. -/
def getAddr (id : String) (mapsFile : Text) : Option (Option (Nat × Nat)) :=
  ((fgetsLines 256 mapsFile).find? fun line => (strstr line id).isSome).map scanRange

/-- Why `unmap_section` does not return: it exits, it uses a variable without a value, or it has not
come to its end. -/
inductive UnmapError where
  | exit
  | undefined
  | running
  deriving DecidableEq

/-- `unmap_section`, at most `fuel` times around its loop. -/
def unmapSection (k : Munmap) (id : String) : (fuel : Nat) → AddressSpace →
    Except UnmapError AddressSpace
  | 0, _ => throw .running
  | fuel + 1, s =>
    match getAddr id s.procSelfMaps with
    | none => pure s
    | some none => throw .undefined
    | some (some (start, stop)) =>
      match k.munmap s start ((2 ^ 64 + stop - start) % 2 ^ 64) with
      | none => throw .exit
      | some s => unmapSection k id fuel s

/-- `clean_memory_mappings`. -/
def cleanMemoryMappings (k : Munmap) (fuel : Nat) (s : AddressSpace) :
    Except UnmapError AddressSpace := do
  -- reading from there shows which kernel it is
  let s ← unmapSection k "[vdso]" fuel s
  let s ← unmapSection k "[vvar]" fuel s
  let s ← unmapSection k "[vdso_data]" fuel s
  -- a section of qemu
  unmapSection k "---p" fuel s

/-! ## Reading the file

A line has the range in front, and the name behind it. -/

/-- The mapping has the name in its line. -/
def Vma.named (id : String) (m : Vma) : Bool := (strstr (m.line ++ ['\n']) id).isSome

/-- One of the sections. -/
def Vma.namedAny (ids : List String) (m : Vma) : Bool := ids.any fun id => m.named id

theorem Vma.namedAny_cons (id : String) (ids : List String) (m : Vma) :
    m.namedAny (id :: ids) = (m.named id || m.namedAny ids) := List.any_cons

/-- Every line fits the buffer. -/
def AddressSpace.Readable (s : AddressSpace) : Prop := ∀ m ∈ s.vmas, m.line.length + 2 ≤ 256

theorem Vma.newline_notMem_line (m : Vma) : '\n' ∉ m.line := by
  have hhex : ∀ n, '\n' ∉ hexPad 8 n := by
    intro n hmem
    exact absurd (isHex_hexPad 8 n '\n' hmem) (by decide)
  unfold line
  simp only [List.mem_append, List.mem_cons, not_or]
  exact ⟨hhex _, by decide, hhex _, by decide, m.newline_notMem⟩

theorem scanRange_line (m : Vma) (t : Text) : scanRange (m.line ++ t) = some (m.start, m.stop) := by
  have hminus : Ends ('-' :: (hexPad 8 m.stop ++ ' ' :: (m.text ++ t))) := by
    intro c hc
    cases hc
    decide
  have hblank : Ends (' ' :: (m.text ++ t)) := by
    intro c hc
    cases hc
    decide
  have hline : m.line ++ t =
      hexPad 8 m.start ++ '-' :: (hexPad 8 m.stop ++ ' ' :: (m.text ++ t)) := by
    simp [Vma.line]
  rw [hline]
  unfold scanRange
  rw [scanHex_hexPad_append (m.start_lt.trans m.stop_lt) hminus]
  show (scanHex (hexPad 8 m.stop ++ ' ' :: (m.text ++ t))).bind (fun x => some (m.start, x.1)) = _
  rw [scanHex_hexPad_append m.stop_lt hblank]
  rfl

theorem fgetsLines_unlines {ls : List Text} (h : ∀ l ∈ ls, '\n' ∉ l ∧ l.length + 2 ≤ 256) :
    fgetsLines 256 (unlines ls) = ls.map (· ++ ['\n']) := by
  induction ls with
  | nil => rfl
  | cons l ls ih =>
      obtain ⟨⟨hl, hlen⟩, hrest⟩ := List.forall_mem_cons.mp h
      have htext : unlines (l :: ls) = l ++ '\n' :: unlines ls := by
        simp [unlines]
      rw [htext, fgetsLines_append hl (by omega) (by decide), fgetsLine, if_pos hlen, ih hrest]
      rfl

theorem getAddr_procSelfMaps (id : String) {s : AddressSpace} (hread : s.Readable) :
    getAddr id s.procSelfMaps =
      (s.vmas.find? (Vma.named id)).map fun m => some (m.start, m.stop) := by
  have hlines : ∀ l ∈ s.vmas.map Vma.line, '\n' ∉ l ∧ l.length + 2 ≤ 256 := by
    intro l hl
    obtain ⟨m, hm, rfl⟩ := List.mem_map.mp hl
    exact ⟨m.newline_notMem_line, hread m hm⟩
  unfold getAddr AddressSpace.procSelfMaps
  rw [fgetsLines_unlines hlines, List.map_map, List.find?_map, Option.map_map]
  refine congrArg (Option.map · _) (funext fun m => ?_)
  exact scanRange_line m ['\n']

/-! ## The loop

What is left is what does not have the name, if the kernel agrees to all of it. -/

theorem AddressSpace.Readable.sublist {s s' : AddressSpace} (hread : s.Readable)
    (hsub : s'.vmas ⊆ s.vmas) : s'.Readable := fun m hm => hread m (hsub hm)

theorem filter_erase_of_false {α : Type} [DecidableEq α] {p : α → Bool} {a : α} (ha : p a = false)
    (l : List α) : (l.erase a).filter p = l.filter p := by
  rw [← List.erase_filter, List.erase_of_not_mem]
  intro hmem
  rw [(List.mem_filter.mp hmem).2] at ha
  cases ha

theorem length_of_stop_sub_start (m : Vma) :
    (2 ^ 64 + m.stop - m.start) % 2 ^ 64 = m.stop - m.start := by
  have hlt := m.start_lt
  have hle := m.stop_lt
  omega

section

variable {k : Munmap} {fuel : Nat} {s : AddressSpace}

/-- The kernel guards none of the mappings of the section. -/
def Grants (k : Munmap) (p : Vma → Bool) (s : AddressSpace) : Prop :=
  ∀ m ∈ s.vmas, p m = true → k.granted m = true

instance (p : Vma → Bool) : Decidable (Grants k p s) :=
  List.decidableBAll (fun m => p m = true → k.granted m = true) s.vmas

theorem unmapSection_eq (id : String) (hread : s.Readable) (hfuel : s.vmas.length < fuel) :
    unmapSection k id fuel s =
      if Grants k (Vma.named id) s then .ok (s.filter fun m => !m.named id)
      else .error .exit := by
  induction fuel generalizing s with
  | zero => exact absurd hfuel (Nat.not_lt_zero _)
  | succ fuel ih =>
      rw [unmapSection, getAddr_procSelfMaps id hread]
      cases hfind : s.vmas.find? (Vma.named id) with
      | none =>
          have hnone : ∀ m ∈ s.vmas, ¬m.named id = true := List.find?_eq_none.mp hfind
          have hkeep : s.filter (fun m => !m.named id) = s :=
            AddressSpace.ext (List.filter_eq_self.mpr fun m hm => by simp [hnone m hm])
          have hgrants : Grants k (Vma.named id) s := fun m hm hnamed => absurd hnamed (hnone m hm)
          rw [if_pos hgrants, hkeep]
          rfl
      | some m =>
          have hm : m ∈ s.vmas := List.mem_of_find?_eq_some hfind
          have hnamed : m.named id = true := List.find?_some hfind
          rw [Option.map_some]
          dsimp only
          rw [length_of_stop_sub_start, k.munmap_whole s m hm]
          by_cases hgranted : k.granted m = true
          · have hread' : (s.remove m).Readable := fun n hn => hread n (List.mem_of_mem_erase hn)
            have hlen : (s.remove m).vmas.length < fuel := by
              have hpos := List.length_pos_of_mem hm
              have herase := List.length_erase_of_mem hm
              show (s.vmas.erase m).length < fuel
              omega
            -- the kernel agrees to the others whether this one is removed first or not
            have hgrants : Grants k (Vma.named id) (s.remove m) ↔ Grants k (Vma.named id) s := by
              constructor
              · intro h n hn hid
                by_cases heq : n = m
                · rw [heq]
                  exact hgranted
                · exact h n ((List.mem_erase_of_ne heq).mpr hn) hid
              · exact fun h n hn => h n (List.mem_of_mem_erase hn)
            -- the mapping that was removed would have been left out anyway
            have hfilter : (s.remove m).filter (fun n => !n.named id) =
                s.filter (fun n => !n.named id) :=
              AddressSpace.ext (filter_erase_of_false (by rw [hnamed]; rfl) s.vmas)
            rw [if_pos hgranted]
            dsimp only
            rw [ih hread' hlen, hfilter]
            exact if_congr hgrants rfl rfl
          · rw [if_neg hgranted, if_neg fun h => hgranted (h m hm hnamed)]
            rfl

/-- The names of the sections in the order in which they are removed. -/
def unwantedSections : List String := ["[vdso]", "[vvar]", "[vdso_data]", "---p"]

/-- One section after the other. -/
theorem foldlM_unmapSection (ids : List String) (hread : s.Readable)
    (hfuel : s.vmas.length < fuel) :
    ids.foldlM (fun s id => unmapSection k id fuel s) s =
      if Grants k (Vma.namedAny ids) s then
        .ok (s.filter fun m => !m.namedAny ids)
      else .error .exit := by
  induction ids generalizing s with
  | nil =>
      have hkeep : s.filter (fun _ => !false) = s :=
        AddressSpace.ext (List.filter_eq_self.mpr fun _ _ => rfl)
      have hgrants : Grants k (Vma.namedAny []) s := by
        intro m _ h
        cases h
      rw [if_pos hgrants]
      exact congrArg Except.ok hkeep.symm
  | cons id ids ih =>
      rw [List.foldlM_cons, unmapSection_eq id hread hfuel]
      by_cases hfirst : Grants k (Vma.named id) s
      · have hsub : (s.filter fun m => !m.named id).vmas ⊆ s.vmas := List.filter_subset_self _
        have hlen : (s.filter fun m => !m.named id).vmas.length < fuel :=
          (List.length_filter_le _ _).trans_lt hfuel
        -- a mapping with the first name is gone before the others are looked for
        have hgrants : Grants k (Vma.namedAny ids)
            (s.filter fun m => !m.named id) ↔
            Grants k (Vma.namedAny (id :: ids)) s := by
          constructor
          · intro h m hm hany
            by_cases hid : m.named id = true
            · exact hfirst m hm hid
            · rw [Vma.namedAny_cons, Bool.or_eq_true] at hany
              exact h m (List.mem_filter.mpr ⟨hm, by simp [hid]⟩) (hany.resolve_left hid)
          · intro h m hm hany
            refine h m (hsub hm) ?_
            rw [Vma.namedAny_cons, hany, Bool.or_true]
        have hfilter : (s.filter fun m => !m.named id).filter
            (fun m => !m.namedAny ids) =
            s.filter fun m => !m.namedAny (id :: ids) := by
          refine AddressSpace.ext ?_
          show (s.vmas.filter _).filter _ = s.vmas.filter _
          rw [List.filter_filter]
          refine List.filter_congr fun m _ => ?_
          rw [Vma.namedAny_cons, Bool.not_or, Bool.and_comm]
        rw [if_pos hfirst]
        show ids.foldlM _ (s.filter fun m => !m.named id) = _
        rw [ih (hread.sublist hsub) hlen, hfilter]
        exact if_congr hgrants rfl rfl
      · rw [if_neg hfirst, if_neg]
        · rfl
        · intro h
          refine hfirst fun m hm hid => h m hm ?_
          rw [Vma.namedAny_cons, hid, Bool.true_or]

/-- The loops end. Either all mappings of these sections are gone and the others are as they were,
or the kernel guards one of them and the client exits. -/
theorem cleanMemoryMappings_eq (hread : s.Readable) (hfuel : s.vmas.length < fuel) :
    cleanMemoryMappings k fuel s =
      if Grants k (Vma.namedAny unwantedSections) s then
        .ok (s.filter fun m => !m.namedAny unwantedSections)
      else .error .exit := by
  rw [← foldlM_unmapSection unwantedSections hread hfuel]
  simp only [unwantedSections, List.foldlM_cons, List.foldlM_nil, bind_pure]
  rfl

end

theorem AddressSpace.start_inj {s : AddressSpace} {m n : Vma} (hm : m ∈ s.vmas) (hn : n ∈ s.vmas)
    (h : m.start = n.start) : m = n := by
  have hnodup : (s.vmas.map Vma.start).Nodup := by
    rw [List.Nodup, List.pairwise_map]
    refine s.sorted.imp fun {a b} hle heq => ?_
    have hlt := a.start_lt
    omega
  exact List.inj_on_of_nodup_map hnodup hm hn h

/-- A kernel that guards nothing; it refuses what is not a whole mapping. -/
def plainMunmap : Munmap where
  munmap s addr len :=
    (s.vmas.find? fun m => m.start == addr && m.stop - m.start == len).map fun m => s.remove m
  granted _ := true
  munmap_whole s m hm := by
    rw [if_pos rfl]
    cases hfind : s.vmas.find? fun n =>
        n.start == m.start && n.stop - n.start == m.stop - m.start with
    | none =>
        have hno := List.find?_eq_none.mp hfind m hm
        simp at hno
    | some n =>
        have hsame := List.find?_some hfind
        rw [Bool.and_eq_true, beq_iff_eq] at hsame
        rw [AddressSpace.start_inj (List.mem_of_find?_eq_some hfind) hm hsame.1]
        rfl

theorem newline_notMem_code : '\n' ∉ "r-xp 00000000 08:01 131 /data/diffuzz-client".toList := by
  decide

theorem newline_notMem_vdso : '\n' ∉ "r-xp 00000000 00:00 0 [vdso]".toList := by decide

theorem code_lt : 0x400000 < 0x500000 ∧ 0x500000 < 2 ^ 64 := by omega

theorem vdso_lt : 0x3ffffff000 < 0x4000000000 ∧ 0x4000000000 < 2 ^ 64 := by omega

def codeVma : Vma := ⟨0x400000, 0x500000, _, code_lt.1, code_lt.2, newline_notMem_code⟩

def vdsoVma : Vma := ⟨0x3ffffff000, 0x4000000000, _, vdso_lt.1, vdso_lt.2, newline_notMem_vdso⟩

theorem codeVma_vdsoVma_sorted : [codeVma, vdsoVma].Pairwise fun m n => m.stop ≤ n.start := by
  decide

/-- The code of the client and the vdso. -/
def startedSpace : AddressSpace := ⟨[codeVma, vdsoVma], codeVma_vdsoVma_sorted⟩

theorem cleanMemoryMappings_started : cleanMemoryMappings plainMunmap 3 startedSpace =
    if Grants plainMunmap (Vma.namedAny unwantedSections) startedSpace then
      .ok (startedSpace.filter fun m => !m.namedAny unwantedSections)
    else .error .exit := by
  have hread : startedSpace.Readable := by
    refine List.forall_mem_cons.mpr ⟨?_, List.forall_mem_singleton.mpr ?_⟩
    · decide
    · decide
  exact cleanMemoryMappings_eq hread (by decide)

example : (startedSpace.filter fun m => !m.namedAny unwantedSections).vmas = [codeVma] := by
  decide

end RISCover
