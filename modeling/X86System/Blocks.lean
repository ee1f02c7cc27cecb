import X86System.InodeTable

/-!
# Data blocks

Blocks of files and directories lie from `data_start_lba` on, one sector each,
and the block bitmap has a bit for each. Taking a block sets its bit and writes
the bitmap back, which touches no data block. What a routine leaves alone is
stated as the set of data blocks it may have written.
-/
namespace X86System.FileSystem
open Bytes Exec

/-- `i_sectors[k]`. -/
def Inode.sector (x : Inode) (k : ℕ) : UInt32 := x.iSectors.getD k 0

def Inode.setSector (x : Inode) (k : ℕ) (w : UInt32) : Inode :=
  { x with iSectors := x.iSectors.setIfInBounds k w }

/-- Block `k` of a file or directory: a direct block, or an entry of the indirect table. -/
def Inode.blockLba (x : Inode) (disk : Image) (k : ℕ) : UInt32 :=
  if k < 12 then x.sector k
  else if k < 140 ∧ x.sector 12 ≠ 0 then
    wordAt disk (512 * (x.sector 12).toNat + 4 * (k - 12))
  else 0

@[simp] theorem Inode.sector_setSector (x : Inode) (k j : ℕ) (w : UInt32) (hk : k < 13) :
    (x.setSector k w).sector j = if j = k then w else x.sector j := by
  unfold Inode.setSector Inode.sector
  by_cases hj : j < 13
  · by_cases h : j = k
    · subst h
      simp [Vector.getD, hk]
    · simp [Vector.getD, hj, h, Ne.symm h]
  · have h : j ≠ k := by omega
    simp [Vector.getD, hj, h]

/-- What mounting establishes: the bitmaps fill their sectors and the blocks they
offer are on the disk. -/
structure Mounted (s : State) : Prop where
  blockLen : s.blockBitmap.btmpBytesLen = 512 * s.part.blockBitmapSects
  inodeLen : s.inodeBitmap.btmpBytesLen = 512 * s.part.inodeBitmapSects
  free_le : ∀ i ∈ s.blockBitmap.free, s.part.dataStartLba + i ≤ maxLba

/-- A data block whose bit is set. -/
structure UsedBlock (s : State) (b : UInt32) : Prop where
  start_le : s.part.dataStartLba ≤ b.toNat
  le_max : b.toNat ≤ maxLba
  used : bitmapScanTest s.blockBitmap (b.toNat - s.part.dataStartLba) = true

/-- From sector `start` on, only sectors of `B` may differ. -/
def SectorsKept (start : ℕ) (B : Finset ℕ) (d d' : Image) : Prop :=
  ∀ b, start ≤ b → b ∉ B → ∀ i < 512, d' (512 * b + i) = d (512 * b + i)

section Kept

variable {start : ℕ} {B C : Finset ℕ} {d d' d'' : Image}

theorem SectorsKept.refl (start : ℕ) (B : Finset ℕ) (d : Image) : SectorsKept start B d d :=
  fun _ _ _ _ _ => rfl

theorem SectorsKept.mono (h : SectorsKept start B d d') (hBC : B ⊆ C) :
    SectorsKept start C d d' :=
  fun b hb hC i hi => h b hb (fun hB => hC (hBC hB)) i hi

theorem SectorsKept.trans (h : SectorsKept start B d d') (h' : SectorsKept start B d' d'') :
    SectorsKept start B d d'' :=
  fun b hb hB i hi => (h' b hb hB i hi).trans (h b hb hB i hi)

/-- Writing inside one sector of `B`. -/
theorem sectorsKept_patch {l o n : ℕ} {src : Image} (hn : o + n ≤ 512) (hl : l ∈ B) :
    SectorsKept start B d (overlay d (512 * l + o) n src) := by
  intro b _ hB i hi
  apply overlay_outside
  have hne : b ≠ l := fun h => hB (h ▸ hl)
  omega

/-- Writing one sector of `B`. -/
theorem sectorsKept_write {l : ℕ} {src : Image} (hl : l ∈ B) :
    SectorsKept start B d (overlay d (512 * l) 512 src) :=
  sectorsKept_patch (o := 0) (by omega) hl

/-- Writing below the data blocks. -/
theorem sectorsKept_below {a n : ℕ} {src : Image} (h : a + n ≤ 512 * start) :
    SectorsKept start B d (overlay d a n src) := by
  intro b hb _ i _
  apply overlay_outside
  omega

theorem SectorsKept.word (h : SectorsKept start B d d') {b k : ℕ} (hb : start ≤ b) (hB : b ∉ B)
    (hk : k < 128) : wordAt d' (512 * b + 4 * k) = wordAt d (512 * b + 4 * k) := by
  apply wordAt_congr
  intro i hi
  rw [Nat.add_assoc]
  exact h b hb hB _ (by omega)

/-- The blocks of an inode do not depend on the sectors outside its indirect table. -/
theorem SectorsKept.blockLba (h : SectorsKept start B d d') {x : Inode}
    (htable : x.sector 12 ≠ 0 → start ≤ (x.sector 12).toNat ∧ (x.sector 12).toNat ∉ B) (k : ℕ) :
    x.blockLba d' k = x.blockLba d k := by
  unfold Inode.blockLba
  split_ifs with hdirect hind
  · rfl
  · obtain ⟨hle, hB⟩ := htable hind.2
    exact h.word hle hB (by omega)
  · rfl

end Kept

section Allocation

variable {s : State}

/-- The state after the bitmap gave out block `lba`. -/
def State.takeBlock (s : State) (i : ℕ) : State :=
  { s with blockBitmap := bitmapSet s.blockBitmap i true }

theorem blockBitmapAlloc_of_free (h : s.blockBitmap.free.Nonempty) :
    ∃ i ∈ s.blockBitmap.free,
      blockBitmapAlloc s = .ok (some (s.part.dataStartLba + i), s.takeBlock i) := by
  obtain ⟨i, hscan, hi⟩ := bitmapScan_one_of_free h
  refine ⟨i, hi, ?_⟩
  rw [blockBitmapAlloc, hscan]
  rfl

/-- Without a free block the scan stops the kernel; it never returns -1. -/
theorem blockBitmapAlloc_of_full (h : s.blockBitmap.free = ∅) :
    blockBitmapAlloc s = .error .assert := by
  rw [blockBitmapAlloc, bitmapScan_one_of_full h]
  rfl

theorem Mounted.takeBlock (h : Mounted s) (i : ℕ) : Mounted (s.takeBlock i) where
  blockLen := h.blockLen
  inodeLen := h.inodeLen
  free_le := by
    intro j hj
    have hfree : j ∈ s.blockBitmap.free := by
      rw [State.takeBlock, free_set_true] at hj
      exact Finset.mem_of_mem_erase hj
    exact h.free_le j hfree

/-- A change of the disk leaves the mount alone. -/
theorem Mounted.of_disk (h : Mounted s) (d : Image) : Mounted (s.setDisk d) :=
  ⟨h.blockLen, h.inodeLen, h.free_le⟩

/-- Writing the block bitmap back touches no data block. -/
theorem bitmapSync_block (hm : Mounted s) {i : ℕ} (hi : i < 8 * s.blockBitmap.btmpBytesLen) :
    ∃ d, bitmapSync s i .blockBitmap = .ok (s.setDisk d) ∧
      SectorsKept s.part.dataStartLba ∅ s.disk d := by
  have hlen := hm.blockLen
  have h1 := s.part.inodeBitmapLba_eq
  have h2 := s.part.inodeTableLba_eq
  have h3 := s.part.dataStartLba_eq
  have h4 := s.part.dataStartLba_le
  have h5 := s.part.end_le
  refine ⟨_, ideWrite_of_le (by omega) (by omega) (by dsimp only; omega), ?_⟩
  exact sectorsKept_below (by omega)

/-- A block that was free is none of the used ones. -/
theorem UsedBlock.ne_of_free {b : UInt32} (h : UsedBlock s b) {i : ℕ}
    (hi : i ∈ s.blockBitmap.free) : b.toNat ≠ s.part.dataStartLba + i := by
  intro heq
  have hused := h.used
  rw [heq, Nat.add_sub_cancel_left, ((Bitmap.mem_free _ _).mp hi).2] at hused
  cases hused

end Allocation

end X86System.FileSystem
