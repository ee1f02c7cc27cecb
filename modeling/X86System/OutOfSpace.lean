import X86System.FileLimits

/-!
# Writing without space

`file_write` means to return -1 when `block_bitmap_alloc` does, but the scan of a full
bitmap stops in its own assertion: where the free blocks do not suffice, no call returns.
What is left is memory. The first `sys_malloc` that fails ends the call with nothing
changed; the second one leaves the first buffer behind.
-/
namespace X86System.FileSystem
open Bytes Exec

variable {s s₀ : State} {a : InodePtr} {n g : ℕ} {x : Inode} {f : ℕ → ℕ} {own : Finset ℕ} {fd : File}

/-- `file_write`, with the number of blocks of heap memory that it took and did not free. -/
def fileWriteHeld (s : State) (g : ℕ) (src : Image) (count : UInt32) :
    Except Fault (Option UInt32 × ℕ × State) := do
  let a ← fileInode s g
  let x ← deref (s.inodes a)
  if 512 * 140 < (x.iSize + count).toNat then .ok (none, 0, s)
  else
    let (ioBuf, s) := sysMalloc s 512
    match ioBuf with
    | none => .ok (none, 0, s)
    | some ioBuf =>
      let (allBlocks, s) := sysMalloc s (512 + 48)
      match allBlocks with
      | none => .ok (none, 1, s)
      | some allBlocks =>
        match ← firstFileBlock s a with
        | (false, s) => .ok (none, 2, s)
        | (true, s) =>
          let used := x.iSize.toNat / 512 + 1
          let willUse := (x.iSize + count).toNat / 512 + 1
          ensure Fault.assert (willUse ≤ 140)
          match ← collectWriteBlocks s a used willUse allBlocks with
          | (none, s) => .ok (none, 2, s)
          | (some allBlocks, s) =>
            -- both buffers are freed at the end
            let (written, s) ← writeData s g a src count allBlocks ioBuf
            .ok (written, 0, s)

/-- Without the number it is `file_write`. -/
theorem fileWriteHeld_fst (s : State) (g : ℕ) (src : Image) (count : UInt32) :
    (fileWriteHeld s g src count).map (fun v => (v.1, v.2.2)) = fileWrite s g src count := by
  unfold fileWriteHeld fileWrite
  rcases fileInode s g with e | a
  · rfl
  rw [ok_bind, ok_bind]
  rcases deref (s.inodes a) with e | x
  · rfl
  rw [ok_bind, ok_bind]
  split_ifs with hbig
  · rfl
  dsimp only
  rcases (sysMalloc s 512).1 with _ | ioBuf
  · rfl
  dsimp only
  rcases (sysMalloc (sysMalloc s 512).2 (512 + 48)).1 with _ | allBlocks
  · rfl
  dsimp only
  rcases firstFileBlock (sysMalloc (sysMalloc s 512).2 (512 + 48)).2 a with e | ⟨_ | _, t⟩
  · rfl
  · rfl
  rw [ok_bind, ok_bind]
  dsimp only
  by_cases hwill : (x.iSize + count).toNat / 512 + 1 ≤ 140
  · rw [ensure_of hwill, ok_bind, ok_bind]
    rcases collectWriteBlocks t a (x.iSize.toNat / 512 + 1) ((x.iSize + count).toNat / 512 + 1)
      allBlocks with e | ⟨_ | b, u⟩
    · rfl
    · rfl
    · rw [ok_bind, ok_bind]
      dsimp only
      rcases writeData u g a src count b ioBuf with e | ⟨m, v⟩
      · rfl
      · rfl
  · rw [ensure_of_not hwill]
    rfl

section Stopping

/-- The allocation loops stop in the assertion when the free blocks do not suffice. -/
theorem allocFileBlocks_full (will fuel : ℕ) : ∀ {k : ℕ} {s : State} {x : Inode} {c : Buffer},
    Mounted s → s.inodes a = some x → c.size = 560 → will ≤ 140 → will ≤ k + fuel →
    (∀ j < 12, k ≤ j → x.sector j = 0) → s.blockBitmap.free.card < will - k →
    allocFileBlocks a will fuel k c s = .error .assert := by
  induction fuel with
  | zero => exact fun _ _ _ _ hfuel _ hfree => absurd hfree (by omega)
  | succ fuel ih =>
    intro k s x c hm hx hc hwill hfuel hzero hfree
    have hk : k < will := by omega
    rcases Finset.eq_empty_or_nonempty s.blockBitmap.free with hempty | hsome
    · rw [allocFileBlocks, if_pos hk, blockBitmapAlloc_of_full hempty, error_bind]
    · obtain ⟨i, d, hi, hstep, htake, -⟩ := allocFileBlocks_step 0 fuel hm hx hc hwill hk
        (fun hk => hzero k hk le_rfl) hsome
      set b := UInt32.ofNat (s.part.dataStartLba + i) with hb
      have hcard := Finset.card_sdiff_add_card_inter s.blockBitmap.free {i}
      rw [← htake.free, Finset.inter_singleton_of_mem hi, Finset.card_singleton] at hcard
      rw [hstep]
      refine ih htake.mounted (setInode_inodes_self ..) (by rw [Buffer.put_size, hc]) hwill (by omega)
        (fun j hj hkj => ?_) (by omega)
      rw [link_sector, if_neg (by omega)]
      exact hzero j hj (by omega)

/-- So do the three situations in which blocks are added. -/
theorem collectWriteBlocks_full {used will : ℕ} (h₀ : Takes a n s₀ s own) (hm₀ : Mounted s₀)
    (hx : s.inodes a = some x) (hl : Layout s x used f own) (hpos : 0 < used) (hwill : will ≤ 140)
    (hfree : sectorsFor used + s.blockBitmap.free.card < sectorsFor will) :
    collectWriteBlocks s a used will { size := 560, bytes := zeros } = .error .assert := by
  unfold sectorsFor at hfree
  have hlt : used < will := by
    split_ifs at hfree <;> omega
  have hm := h₀.mounted
  have hunused : ∀ j < 12, used ≤ j → x.sector j = 0 := hl.unused
  unfold collectWriteBlocks addFileBlocks
  rw [if_neg hlt.ne']
  by_cases hdirect : will ≤ 12
  · rw [if_neg (by omega), if_neg (by omega)] at hfree
    have hlast : used - 1 < 13 := by omega
    have hne := hl.sector_ne (k := used - 1) (by omega) (by omega)
    rw [if_pos hdirect, hx, deref_some, ok_bind, Inode.sectorAt, ensure_of hlast, ok_bind, ok_bind,
      ensure_of hne, ok_bind, Buffer.setWord_of_le (by dsimp only; omega), ok_bind]
    exact allocFileBlocks_full will will hm hx rfl hwill (by omega) hunused (by omega)
  rw [if_neg hdirect]
  rw [if_pos (by omega : 12 < will)] at hfree
  by_cases hused : used ≤ 12
  · -- the indirect table takes one block more
    rw [if_neg (by omega)] at hfree
    rw [if_pos hused]
    unfold addFileTable
    rw [hx, deref_some, ok_bind, Buffer.setWord_of_le (by dsimp only; omega), ok_bind]
    rcases Finset.eq_empty_or_nonempty s.blockBitmap.free with hempty | hsome
    · rw [blockBitmapAlloc_of_full hempty, error_bind]
    · obtain ⟨i, hi, halloc⟩ := blockBitmapAlloc_of_free hsome
      set b := UInt32.ofNat (s.part.dataStartLba + i) with hb
      have htake : Takes a n s ((s.takeBlock i).setInode a (x.setSector 12 b)) {i} :=
        takes_unsynced hm hi _
      have hcard := Finset.card_sdiff_add_card_inter s.blockBitmap.free {i}
      rw [← htake.free, Finset.inter_singleton_of_mem hi, Finset.card_singleton] at hcard
      have hzero : ∀ j < 12, used ≤ j → (x.setSector 12 b).sector j = 0 := by
        intro j hj huj
        rw [Inode.sector_setSector x 12 j b (by omega), if_neg (by omega)]
        exact hunused j hj huj
      rw [halloc, ok_bind]
      dsimp only
      rw [ensure_of (hl.noTable hused), ok_bind, allocFileBlocks_full will will htake.mounted
        (setInode_inodes_self ..) rfl hwill (by omega) hzero (by omega), error_bind]
  · rw [if_pos (by omega)] at hfree
    have hTmax : (x.sector 12).toNat ≤ maxLba := by
      rw [hl.table (by omega), h₀.part]
      exact h₀.lba_le hm₀ (hl.mem_own (mem_slots.mpr (Or.inr ⟨by omega, rfl⟩)))
    rw [if_neg hused]
    unfold extendFileTable
    rw [hx, deref_some, ok_bind, ensure_of (hl.table_ne (by omega)), ok_bind,
      ideRead_of_le hTmax (by omega) (by dsimp only; omega), ok_bind,
      allocFileBlocks_full will will hm hx rfl hwill (by omega) hunused (by omega), error_bind]

/-- Without space for its bytes `file_write` stops in an assertion. -/
theorem RegularFile.fileWrite_stops (h : RegularFile s g fd a x) (hm : Mounted s)
    (hroot : 0 ∉ s.blockBitmap.free) (hfirst : s.heap 0 = true) (hsecond : s.heap 1 = true)
    (src : Image) (count : UInt32) (hsize : x.iSize.toNat + count.toNat ≤ 140 * 512)
    (hfull : sectorsFor x.blockCount + s.blockBitmap.free.card <
      sectorsFor ((x.iSize.toNat + count.toNat) / 512 + 1)) :
    fileWriteHeld s g src count = .error .assert := by
  obtain ⟨s₀, f, own, hholds, hm₀, hsame, hcard⟩ := h.holds hm
  have hsum : (x.iSize + count).toNat = x.iSize.toNat + count.toNat := by
    rw [UInt32.toNat_add, Nat.mod_eq_of_lt (by omega)]
  unfold fileWriteHeld
  rw [h.fileInode, ok_bind, h.inode, deref_some, ok_bind, hsum, if_neg (by omega),
    sysMalloc_of_heap hfirst]
  dsimp only
  rw [sysMalloc_of_heap hsecond]
  dsimp only
  by_cases hlt : x.iSize.toNat < 140 * 512
  case neg =>
    -- a file of the largest size would get block 141
    have hblock : x.sector 0 ≠ 0 := by
      intro hzero
      rw [h.empty hzero] at hlt
      exact hlt (by decide)
    have hrun : firstFileBlock s.popHeap.popHeap a = .ok (true, s.popHeap.popHeap) := by
      unfold firstFileBlock
      rw [show s.popHeap.popHeap.inodes a = some x from h.inode, deref_some, ok_bind, if_neg hblock]
    rw [hrun, ok_bind]
    dsimp only
    rw [ensure_of_not (by omega), error_bind]
  rcases Nat.eq_zero_or_pos s₀.blockBitmap.free.card with hnone | hsome
  · -- there is not even a first block
    have hzero : x.sector 0 = 0 := by
      by_contra hne
      have hpos : 0 < sectorsFor x.blockCount := by
        rw [Inode.blockCount, if_neg hne]
        unfold sectorsFor
        split_ifs <;> omega
      omega
    have hempty : s.blockBitmap.free = ∅ := Finset.card_eq_zero.mp (by omega)
    have hstop : firstFileBlock s.popHeap.popHeap a = .error .assert := by
      unfold firstFileBlock
      rw [show s.popHeap.popHeap.inodes a = some x from h.inode, deref_some, ok_bind, if_pos hzero,
        blockBitmapAlloc_of_full (s := s.popHeap.popHeap) hempty, error_bind]
    rw [hstop, error_bind]
  · obtain ⟨t, y, f', own', hrun, ht⟩ := firstFileBlock_holds hholds.malloc.malloc
      (h.filled hlt) (fun hnil => by rw [hsame hnil]; exact hroot) hsome
    have htcard := ht.takes.card
    rw [ht.layout.card, length_contents] at htcard
    have hlayout := ht.layout
    rw [length_contents] at hlayout
    rw [hrun, ok_bind]
    dsimp only
    by_cases hwill : (x.iSize.toNat + count.toNat) / 512 + 1 ≤ 140
    · rw [ensure_of hwill, ok_bind, collectWriteBlocks_full ht.takes hm₀ ht.inode hlayout
        (by omega) hwill (by omega), error_bind]
    · rw [ensure_of_not hwill, error_bind]

end Stopping

section Undoing

/-- The write fails without a trace: -1, no memory kept and nothing else changed, so that a
smaller write on the file succeeds as soon as there are blocks and memory for it (and its record
lies in one sector). -/
structure WriteUndone (s : State) (g : ℕ) (x : Inode) (src : Image) (count : UInt32) : Prop where
  result : ∃ t, fileWriteHeld s g src count = .ok (none, 0, t) ∧ t = { s with heap := t.heap }
  later : ∀ t, fileWrite s g src count = .ok (none, t) → (∀ k, t.heap k = true) →
    ∀ (src' : Image) (count' : UInt32), x.iSize.toNat + count'.toNat < 140 * 512 →
      sectorsFor ((x.iSize.toNat + count'.toNat) / 512 + 1) ≤
        sectorsFor x.blockCount + s.blockBitmap.free.card →
      sectorsOf (x.iNo.toNat % 256) = 1 → ∃ u, fileWrite t g src' count' = .ok (some count', u)

end Undoing

section Sample

/-- The disk of `freshFile` with no free block. -/
def fullDisk (heap : ℕ → Bool) : State :=
  { freshFile 1 with
    blockBitmap := ⟨512, fun _ => 0xff⟩
    heap := heap }

theorem fullDisk_free (heap : ℕ → Bool) : (fullDisk heap).blockBitmap.free = ∅ := by
  refine Finset.eq_empty_of_forall_notMem fun i hi => ?_
  have hclear : bitmapScanTest ⟨512, fun _ => 0xff⟩ i = false := ((Bitmap.mem_free _ _).mp hi).2
  have hset : ∀ k < 8, ((0xff : UInt8) &&& bitmapMask k ≠ 0) = true := by decide
  rw [bitmapScanTest] at hclear
  simp [hset (i % 8) (Nat.mod_lt _ (by norm_num))] at hclear

theorem fullDisk_mounted (heap : ℕ → Bool) : Mounted (fullDisk heap) := by
  refine ⟨rfl, rfl, fun i hi => ?_⟩
  rw [fullDisk_free] at hi
  exact absurd hi (Finset.notMem_empty i)

theorem fullDisk_regular (heap : ℕ → Bool) :
    RegularFile (fullDisk heap) 3 ⟨0, 2, some 0⟩ 0 { inodeInit 1 with iOpenCnts := 1 } where
  slot := rfl
  pointer := rfl
  inode := rfl
  size_le := Nat.zero_le _
  empty _ := rfl
  blocks := by
    obtain ⟨f, own, hlayout, -⟩ := (freshFile_regular 1).blocks
    have hnone : own = ∅ := by
      rw [← Finset.card_eq_zero, hlayout.card]
      rfl
    exact ⟨f, own, hlayout.transfer rfl (fun _ => rfl) fun _ _ _ => rfl, by simp [hnone]⟩

end Sample

end X86System.FileSystem
