import X86System.PageMapping

/-!
# The walk on machine words

Memory is the 32-bit word at each physical address, and the processor's walk is computed
on words with whatever bits the entries hold. `pte_ptr` and `pde_ptr` are the sums of the
source, modulo `2 ^ 32`. Tables have 4 KiB pages only, and there is no TLB.
-/
namespace X86System.Memory.Words
open Paging

/-- The word at each physical address. -/
abbrev PhysMem : Type := UInt32 → UInt32

variable {mem : PhysMem} {cr3 v : UInt32}

/-- The ten bits of an address that index the directory, and those that index a table. -/
def dirBits (v : UInt32) : UInt32 := v >>> 22
def tableBits (v : UInt32) : UInt32 := (v >>> 12) &&& 0x3ff

/-- The physical address of the directory entry of `v`. -/
def pdeAddr (cr3 v : UInt32) : UInt32 := (cr3 &&& 0xfffff000) + dirBits v * 4

/-- The physical address of the table entry of `v`. -/
def pteAddr (mem : PhysMem) (cr3 v : UInt32) : UInt32 :=
  (mem (pdeAddr cr3 v) &&& 0xfffff000) + tableBits v * 4

/-- The physical address that the walk ends at, if both entries are present. -/
def translate (mem : PhysMem) (cr3 v : UInt32) : Option UInt32 :=
  if mem (pdeAddr cr3 v) &&& 1 ≠ 0 ∧ mem (pteAddr mem cr3 v) &&& 1 ≠ 0 then
    some ((mem (pteAddr mem cr3 v) &&& 0xfffff000) + (v &&& 0xfff))
  else none

/-- Read the word at a virtual address. -/
def load (mem : PhysMem) (cr3 v : UInt32) : Option UInt32 := (translate mem cr3 v).map mem

/-- `PDE_IDX`. -/
def pdeIdx (addr : UInt32) : UInt32 := (addr &&& 0xffc00000) >>> 22

/-- `PTE_IDX`. -/
def pteIdx (addr : UInt32) : UInt32 := (addr &&& 0x003ff000) >>> 12

/-- `pte_ptr`. -/
def ptePtr (vaddr : UInt32) : UInt32 :=
  let table : UInt32 := (vaddr &&& 0xffc00000) >>> 10
  0xffc00000 + table + pteIdx vaddr * 4

/-- `pde_ptr`. -/
def pdePtr (vaddr : UInt32) : UInt32 := 0xfffff000 + pdeIdx vaddr * 4

/-- `addr_v2p`, which reads through the pointer. -/
def addrV2p (mem : PhysMem) (cr3 vaddr : UInt32) : Option UInt32 :=
  (load mem cr3 (ptePtr vaddr)).map fun pte => (pte &&& 0xfffff000) + (vaddr &&& 0x00000fff)

/-- Entry 1023 of the directory maps the directory. -/
def SelfMapped (mem : PhysMem) (cr3 : UInt32) : Prop :=
  mem ((cr3 &&& 0xfffff000) + 1023 * 4) &&& 1 ≠ 0 ∧
    mem ((cr3 &&& 0xfffff000) + 1023 * 4) &&& 0xfffff000 = cr3 &&& 0xfffff000

section Indices

/-- The pointers are those of the model whose addresses are numbers. -/
theorem toNat_ptePtr (v : UInt32) : (ptePtr v).toNat = Memory.ptePtr v.toNat := by
  have hv := v.toNat_lt
  have heq := ptePtr_eq hv
  have hd := dirIndex_lt hv
  have ht := tableIndex_lt v.toNat
  unfold Memory.ptePtr Memory.pteIdx at heq ⊢
  unfold ptePtr pteIdx
  simp only [UInt32.toNat_add, UInt32.toNat_mul, UInt32.toNat_and, UInt32.toNat_shiftRight,
    UInt32.toNat_ofNat, Nat.reduceMod, Nat.reducePow] at heq ⊢
  omega

theorem toNat_pdePtr (v : UInt32) : (pdePtr v).toNat = Memory.pdePtr v.toNat := by
  have hv := v.toNat_lt
  have heq := pdePtr_eq hv
  have hd := dirIndex_lt hv
  unfold Memory.pdePtr Memory.pdeIdx at heq ⊢
  unfold pdePtr pdeIdx
  simp only [UInt32.toNat_add, UInt32.toNat_mul, UInt32.toNat_and, UInt32.toNat_shiftRight,
    UInt32.toNat_ofNat, Nat.reduceMod, Nat.reducePow] at heq ⊢
  omega

theorem toNat_dirBits (v : UInt32) : (dirBits v).toNat = dirIndex v.toNat := by
  unfold dirBits dirIndex
  simp [Nat.shiftRight_eq_div_pow]

theorem toNat_tableBits (v : UInt32) : (tableBits v).toNat = tableIndex v.toNat := by
  unfold tableBits tableIndex
  rw [UInt32.toNat_and, UInt32.toNat_shiftRight, Nat.shiftRight_eq_div_pow]
  exact Nat.and_two_pow_sub_one_eq_mod _ 10

theorem toNat_offset (v : UInt32) : (v &&& 0xfff).toNat = v.toNat % 4096 := by
  rw [UInt32.toNat_and]
  exact Nat.and_two_pow_sub_one_eq_mod _ 12

/-- The page of the window and the word in it that `pte_ptr` points to. -/
theorem ptePtr_bits (v : UInt32) : dirBits (ptePtr v) = 1023 ∧ tableBits (ptePtr v) = dirBits v ∧
    ptePtr v &&& 0xfff = tableBits v * 4 := by
  have hv := v.toNat_lt
  have hd := dirIndex_lt hv
  have ht := tableIndex_lt v.toNat
  have heq := (toNat_ptePtr v).trans (ptePtr_eq hv)
  refine ⟨?_, ?_, ?_⟩
  · apply UInt32.toNat_inj.mp
    rw [toNat_dirBits, heq, dirIndex]
    show _ = 1023
    omega
  · apply UInt32.toNat_inj.mp
    rw [toNat_tableBits, toNat_dirBits, heq, tableIndex]
    omega
  · apply UInt32.toNat_inj.mp
    rw [toNat_offset, UInt32.toNat_mul, toNat_tableBits, heq]
    show _ = _ * 4 % 4294967296
    omega

/-- `pde_ptr` points to the last page. -/
theorem pdePtr_bits (v : UInt32) : dirBits (pdePtr v) = 1023 ∧ tableBits (pdePtr v) = 1023 ∧
    pdePtr v &&& 0xfff = dirBits v * 4 := by
  have hv := v.toNat_lt
  have hd := dirIndex_lt hv
  have heq := (toNat_pdePtr v).trans (pdePtr_eq hv)
  refine ⟨?_, ?_, ?_⟩
  · apply UInt32.toNat_inj.mp
    rw [toNat_dirBits, heq, dirIndex]
    show _ = 1023
    omega
  · apply UInt32.toNat_inj.mp
    rw [toNat_tableBits, heq, tableIndex]
    show _ = 1023
    omega
  · apply UInt32.toNat_inj.mp
    rw [toNat_offset, UInt32.toNat_mul, toNat_dirBits, heq]
    show _ = _ * 4 % 4294967296
    omega

end Indices

section Walks

/-- A walk through the window reads the entry of the directory as that of a table. -/
theorem SelfMapped.translate_window (hself : SelfMapped mem cr3) (hdir : dirBits v = 1023) :
    translate mem cr3 v =
      if mem ((cr3 &&& 0xfffff000) + tableBits v * 4) &&& 1 ≠ 0 then
        some ((mem ((cr3 &&& 0xfffff000) + tableBits v * 4) &&& 0xfffff000) + (v &&& 0xfff))
      else none := by
  obtain ⟨hpresent, hframe⟩ := hself
  have hpde : pdeAddr cr3 v = (cr3 &&& 0xfffff000) + 1023 * 4 := by rw [pdeAddr, hdir]
  have hpte : pteAddr mem cr3 v = (cr3 &&& 0xfffff000) + tableBits v * 4 := by
    rw [pteAddr, hpde, hframe]
  unfold translate
  rw [hpde, hpte]
  by_cases h : mem ((cr3 &&& 0xfffff000) + tableBits v * 4) &&& 1 ≠ 0
  · rw [if_pos ⟨hpresent, h⟩, if_pos h]
  · rw [if_neg fun hboth => h hboth.2, if_neg h]

theorem SelfMapped.translate_ptePtr (hself : SelfMapped mem cr3)
    (hpde : mem (pdeAddr cr3 v) &&& 1 ≠ 0) :
    translate mem cr3 (ptePtr v) = some (pteAddr mem cr3 v) := by
  obtain ⟨hdir, htable, hoffset⟩ := ptePtr_bits v
  rw [hself.translate_window hdir, htable, hoffset]
  exact if_pos hpde

theorem SelfMapped.translate_pdePtr (hself : SelfMapped mem cr3) :
    translate mem cr3 (pdePtr v) = some (pdeAddr cr3 v) := by
  obtain ⟨hdir, htable, hoffset⟩ := pdePtr_bits v
  rw [hself.translate_window hdir, htable, hoffset, if_pos hself.1, hself.2]
  rfl

/-- A present page has both entries. -/
theorem of_translate {a : UInt32} (h : translate mem cr3 v = some a) :
    mem (pdeAddr cr3 v) &&& 1 ≠ 0 ∧
      a = (mem (pteAddr mem cr3 v) &&& 0xfffff000) + (v &&& 0xfff) := by
  unfold translate at h
  split_ifs at h with hp
  exact ⟨hp.1, (Option.some.inj h).symm⟩

end Walks

section Frames

/-- The words of memory as those of frames. -/
def PhysMem.frames (mem : PhysMem) : Ram := fun f i => (mem (UInt32.ofNat (f * 4096 + i * 4))).toNat

theorem toNat_page (w : UInt32) : (w &&& 0xfffff000).toNat = w.toNat / 4096 * 4096 := by
  have hw := w.toNat_lt
  rw [UInt32.toNat_and]
  show w.toNat &&& (2 ^ 20 - 1) <<< 12 = _
  rw [and_high_bits]
  omega

theorem present_toNat (w : UInt32) : present w.toNat ↔ w &&& 1 ≠ 0 := by
  rw [Ne, ← UInt32.toNat_inj, UInt32.toNat_and]
  show _ ↔ ¬ w.toNat &&& (2 ^ 1 - 1) = 0
  rw [Nat.and_two_pow_sub_one_eq_mod, present]
  omega

/-- An entry of the table that a word points to. -/
theorem frames_entry (mem : PhysMem) (w k : UInt32) :
    mem.frames (frame w.toNat) k.toNat = (mem ((w &&& 0xfffff000) + k * 4)).toNat := by
  have hw := w.toNat_lt
  have haddr : UInt32.ofNat (frame w.toNat * 4096 + k.toNat * 4) = (w &&& 0xfffff000) + k * 4 := by
    apply UInt32.toNat_inj.mp
    rw [UInt32.toNat_add, UInt32.toNat_mul, toNat_page, UInt32.toNat_ofNat', frame]
    show _ = (_ + k.toNat * 4 % 4294967296) % 4294967296
    omega
  unfold PhysMem.frames
  rw [haddr]

/-- The walk on words is the walk on frames, which ends at a word of a frame. -/
theorem walk_frames (mem : PhysMem) (cr3 v : UInt32) :
    walk mem.frames (frame cr3.toNat) v.toNat =
      (translate mem cr3 v).map fun a => (frame a.toNat, wordIndex a.toNat) := by
  have hpde : mem.frames (frame cr3.toNat) (dirIndex v.toNat) = (mem (pdeAddr cr3 v)).toNat := by
    rw [← toNat_dirBits]
    exact frames_entry mem cr3 _
  have hpte : mem.frames (frame (mem (pdeAddr cr3 v)).toNat) (tableIndex v.toNat) =
      (mem (pteAddr mem cr3 v)).toNat := by
    rw [← toNat_tableBits]
    exact frames_entry mem _ _
  have hend : ∀ w : UInt32, frame ((w &&& 0xfffff000) + (v &&& 0xfff)).toNat = frame w.toNat ∧
      wordIndex ((w &&& 0xfffff000) + (v &&& 0xfff)).toNat = wordIndex v.toNat := by
    intro w
    have hw := w.toNat_lt
    have hsum : ((w &&& 0xfffff000) + (v &&& 0xfff)).toNat =
        w.toNat / 4096 * 4096 + v.toNat % 4096 := by
      rw [UInt32.toNat_add, toNat_page, toNat_offset]
      omega
    rw [hsum]
    unfold frame wordIndex
    omega
  unfold walk translate
  dsimp only
  rw [hpde, hpte]
  simp only [present_toNat]
  split_ifs
  · rw [Option.map_some, (hend _).1, (hend _).2]
  · rfl

end Frames

/-- The pointers lead to the entries of an address, and `addr_v2p` is the walk. -/
theorem recursive_entries (mem : PhysMem) (cr3 vaddr : UInt32) (hself : SelfMapped mem cr3)
    (hpde : mem (pdeAddr cr3 vaddr) &&& 1 ≠ 0) :
    translate mem cr3 (ptePtr vaddr) = some (pteAddr mem cr3 vaddr) ∧
      translate mem cr3 (pdePtr vaddr) = some (pdeAddr cr3 vaddr) ∧
      ∀ a, translate mem cr3 vaddr = some a → addrV2p mem cr3 vaddr = some a := by
  have hpte := hself.translate_ptePtr hpde
  refine ⟨hpte, hself.translate_pdePtr, fun a ha => ?_⟩
  obtain ⟨-, rfl⟩ := of_translate ha
  unfold addrV2p load
  rw [hpte]
  rfl

/-- A directory at `0x1000` whose first entry has a table at `0x2000`. -/
def sampleMem : PhysMem := fun a =>
  if a = 0x1ffc then 0x1067 else if a = 0x1000 then 0x2007 else if a = 0x2004 then 0x5003 else 0

theorem recursive_entries_sample : translate sampleMem 0x1000 (ptePtr 0x1234) = some 0x2004 ∧
    addrV2p sampleMem 0x1000 0x1234 = some 0x5234 := by
  obtain ⟨hpte, -, hwalk⟩ := recursive_entries sampleMem 0x1000 0x1234
    ⟨by decide, by decide⟩ (by decide)
  exact ⟨hpte, hwalk 0x5234 (by decide)⟩

end X86System.Memory.Words
