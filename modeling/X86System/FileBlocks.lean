import X86System.FileData
import X86System.DirEntries
import X86System.InodeRecords

/-!
# The blocks that a write takes

While a file grows, blocks are taken out of the free ones: the data blocks, one more
than the full sectors, and the indirect table from the thirteenth block on. Nothing but
these blocks, the block bitmap and the record of the file is written, which is stated
once and composed over all steps of a write.
-/
namespace X86System.FileSystem
open Bytes Exec

variable {s t u : State} {a b : InodePtr} {n i k : ℕ} {x y : Inode} {c : Buffer}
  {new own : Finset ℕ}

/-- From `s` to `t` the free blocks `new` were taken; only they, the block bitmap, record `n`
and the inode at `a` were written. -/
structure Takes (a : InodePtr) (n : ℕ) (s t : State) (new : Finset ℕ) : Prop where
  part : t.part = s.part
  mounted : Mounted t
  fresh : new ⊆ s.blockBitmap.free
  free : t.blockBitmap.free = s.blockBitmap.free \ new
  kept : SectorsKept s.part.dataStartLba (new.image (s.part.dataStartLba + ·)) s.disk t.disk
  records : ∀ m < 4096, m ≠ n → ∀ i < inodeSize, diskRecord t m i = diskRecord s m i
  inodes : ∀ b, b ≠ a → t.inodes b = s.inodes b
  memory : (∀ k, s.heap k = true) → ∀ k, t.heap k = true

section Taking

theorem Takes.refl (hm : Mounted s) : Takes a n s s ∅ :=
  ⟨rfl, hm, Finset.empty_subset _, by simp, SectorsKept.refl _ _ _, fun _ _ _ _ _ => rfl,
    fun _ _ => rfl, id⟩

theorem Takes.trans {more : Finset ℕ} (h : Takes a n s t new) (h' : Takes a n t u more) :
    Takes a n s u (new ∪ more) where
  part := h'.part.trans h.part
  mounted := h'.mounted
  fresh := by
    refine Finset.union_subset h.fresh fun i hi => ?_
    have hfree := h'.fresh hi
    rw [h.free] at hfree
    exact (Finset.mem_sdiff.mp hfree).1
  free := by rw [h'.free, h.free, Finset.sdiff_union_distrib, ← Finset.sdiff_sdiff_left']
  kept := by
    have hkept := h'.kept
    rw [h.part] at hkept
    rw [Finset.image_union]
    exact (h.kept.mono Finset.subset_union_left).trans (hkept.mono Finset.subset_union_right)
  records m hm hne i hi := (h'.records m hm hne i hi).trans (h.records m hm hne i hi)
  inodes b hb := (h'.inodes b hb).trans (h.inodes b hb)
  memory hs := h'.memory (h.memory hs)

/-- Blocks that were taken before may be written. -/
theorem Takes.write {M : Finset ℕ} (h : Takes a n s t new) (hsub : M ⊆ new)
    (hpart : u.part = t.part) (hbitmap : u.blockBitmap = t.blockBitmap)
    (hlen : u.inodeBitmap = t.inodeBitmap)
    (hkept : SectorsKept t.part.dataStartLba (M.image (t.part.dataStartLba + ·)) t.disk u.disk)
    (hrecords : ∀ m < 4096, m ≠ n → ∀ i < inodeSize, diskRecord u m i = diskRecord t m i)
    (hinodes : ∀ b, b ≠ a → u.inodes b = t.inodes b)
    (hheap : (∀ k, t.heap k = true) → ∀ k, u.heap k = true) : Takes a n s u new where
  part := hpart.trans h.part
  mounted := by
    have hm := h.mounted
    exact ⟨by rw [hbitmap, hpart, hm.blockLen], by rw [hlen, hpart, hm.inodeLen],
      by rw [hbitmap, hpart]; exact hm.free_le⟩
  fresh := h.fresh
  free := by rw [hbitmap, h.free]
  kept := by
    rw [h.part] at hkept
    exact h.kept.trans (hkept.mono (Finset.image_subset_image hsub))
  records m hm hne i hi := (hrecords m hm hne i hi).trans (h.records m hm hne i hi)
  inodes b hb := (hinodes b hb).trans (h.inodes b hb)
  memory hs := hheap (h.memory hs)

/-- One sector among those that were taken is written. -/
theorem Takes.writeSector (h : Takes a n s t new) (hi : i ∈ new) (src : Image) :
    Takes a n s (t.setDisk (overlay t.disk (512 * (t.part.dataStartLba + i)) 512 src)) new := by
  refine h.write (M := {i}) (Finset.singleton_subset_iff.mpr hi) rfl rfl rfl ?_
    (fun m hm _ j hj => ?_) (fun _ _ => rfl) id
  · rw [Finset.image_singleton]
    exact sectorsKept_write (Finset.mem_singleton_self _)
  · have h1 := t.part.dataStartLba_eq
    have h2 := t.part.inodeTableSects_eq
    have hend : 512 * t.part.inodeTableLba + m * inodeSize + j < 512 * t.part.dataStartLba := by
      unfold inodeSize at *
      omega
    exact overlay_outside (Or.inl (by rw [setDisk_part]; omega))

/-- The inode of the file is changed in memory. -/
theorem Takes.setInode (h : Takes a n s t new) (x : Inode) : Takes a n s (t.setInode a x) new :=
  h.write (M := ∅) (Finset.empty_subset _) rfl rfl rfl (SectorsKept.refl _ _ _)
    (fun _ _ _ _ _ => rfl) (fun _ hb => setInode_inodes_of_ne _ _ _ hb) id

/-- `bitmap_sync` writes one sector of the block bitmap. -/
theorem bitmapSync_eq (hm : Mounted s) (hi : i < 8 * s.blockBitmap.btmpBytesLen) :
    bitmapSync s i .blockBitmap = .ok (s.setDisk (overlay s.disk
      (512 * (s.part.blockBitmapLba + i / 4096)) 512
        (slice s.blockBitmap.bits (512 * (i / 4096))))) := by
  have hlen := hm.blockLen
  have h1 := s.part.inodeBitmapLba_eq
  have h2 := s.part.inodeTableLba_eq
  have h3 := s.part.dataStartLba_eq
  have h4 := s.part.dataStartLba_le
  have h5 := s.part.end_le
  have hwrite : ideWrite s (s.part.blockBitmapLba + i / 4096)
      { size := s.blockBitmap.btmpBytesLen, bytes := s.blockBitmap.bits } (i / 4096 * 512) 1 = _ :=
    ideWrite_of_le (by omega) Nat.one_pos (by dsimp only; omega)
  rw [Nat.mul_comm (i / 4096) 512] at hwrite
  unfold bitmapSync
  dsimp only
  rw [Nat.mul_comm (i / 4096) 512, hwrite]

/-- A free block is taken and the inode changed. -/
theorem takes_unsynced (hm : Mounted s) (hi : i ∈ s.blockBitmap.free) (x : Inode) :
    Takes a n s ((s.takeBlock i).setInode a x) {i} where
  part := rfl
  mounted := ⟨(hm.takeBlock i).blockLen, (hm.takeBlock i).inodeLen, (hm.takeBlock i).free_le⟩
  fresh := Finset.singleton_subset_iff.mpr hi
  free := by
    rw [setInode_blockBitmap, State.takeBlock, free_set_true, Finset.sdiff_singleton_eq_erase]
  kept := SectorsKept.refl _ _ _
  records _ _ _ _ _ := rfl
  inodes _ hb := setInode_inodes_of_ne _ _ _ hb
  memory := id

/-- A free block is taken, the inode changed and the bitmap written back. -/
theorem takes_one (hm : Mounted s) (hi : i ∈ s.blockBitmap.free) (x : Inode) :
    ∃ d, bitmapSync ((s.takeBlock i).setInode a x) i .blockBitmap =
        .ok (((s.takeBlock i).setInode a x).setDisk d) ∧
      Takes a n s (((s.takeBlock i).setInode a x).setDisk d) {i} ∧
      SectorsKept s.part.dataStartLba ∅ s.disk d := by
  have hlt := ((Bitmap.mem_free _ _).mp hi).1
  have htake : Takes a n s ((s.takeBlock i).setInode a x) {i} := takes_unsynced hm hi x
  have hsync := bitmapSync_eq (i := i) htake.mounted hlt
  have hlen := hm.blockLen
  have h1 := s.part.inodeBitmapLba_eq
  have h2 := s.part.inodeTableLba_eq
  have h3 := s.part.dataStartLba_eq
  have hkept : ∀ e, 512 * s.part.inodeTableLba ≤ e →
      overlay s.disk (512 * (s.part.blockBitmapLba + i / 4096)) 512
        (slice (s.takeBlock i).blockBitmap.bits (512 * (i / 4096))) e = s.disk e :=
    fun e he => overlay_outside (by omega)
  have hsectors : SectorsKept s.part.dataStartLba ∅ s.disk
      (overlay s.disk (512 * (s.part.blockBitmapLba + i / 4096)) 512
        (slice (s.takeBlock i).blockBitmap.bits (512 * (i / 4096)))) := by
    intro b hb _ j _
    exact hkept _ (by omega)
  have hwritten : Takes a n s (((s.takeBlock i).setInode a x).setDisk
      (overlay s.disk (512 * (s.part.blockBitmapLba + i / 4096)) 512
        (slice (s.takeBlock i).blockBitmap.bits (512 * (i / 4096))))) {i} :=
    htake.write (M := ∅) (Finset.empty_subset _) rfl rfl rfl
      (hsectors.mono (Finset.empty_subset _))
      (fun m _ _ j _ => hkept (512 * s.part.inodeTableLba + m * inodeSize + j) (by omega))
      (fun _ _ => rfl) id
  exact ⟨_, hsync, hwritten, hsectors⟩

/-- Nothing that was in use is written. -/
theorem Takes.used_kept (h : Takes a n s t new) {b : UInt32} (hb : UsedBlock s b) :
    ∀ i < 512, t.disk (512 * b.toNat + i) = s.disk (512 * b.toNat + i) := by
  refine h.kept b.toNat hb.start_le fun hmem => ?_
  obtain ⟨i, hi, heq⟩ := Finset.mem_image.mp hmem
  exact hb.ne_of_free (h.fresh hi) heq.symm

end Taking

section Allocating

/-- The blocks `k`, ..., `will - 1` were entered in `all_blocks`, the direct ones in the inode
as well. -/
structure Linked (x y : Inode) (c c' : Buffer) (k will : ℕ) (lba : ℕ → UInt32) : Prop where
  size : c'.size = c.size
  iNo : y.iNo = x.iNo
  iSize : y.iSize = x.iSize
  sector : ∀ j, y.sector j = if k ≤ j ∧ j < will ∧ j < 12 then lba j else x.sector j
  word : ∀ j, wordAt c'.bytes (4 * j) =
    if k ≤ j ∧ j < will then lba j else wordAt c.bytes (4 * j)

theorem setInode_self (hx : s.inodes a = some x) : s.setInode a x = s := by
  have hsame : Function.update s.inodes a (some x) = s.inodes := by
    rw [← hx, Function.update_eq_self]
  unfold State.setInode
  rw [hsame]

/-- The inode after block `k` was linked. -/
def Inode.link (x : Inode) (k : ℕ) (b : UInt32) : Inode := if k < 12 then x.setSector k b else x

theorem link_sector (x : Inode) (k j : ℕ) (b : UInt32) :
    (x.link k b).sector j = if j = k ∧ k < 12 then b else x.sector j := by
  unfold Inode.link
  split_ifs with hk hj hj
  · rw [Inode.sector_setSector x k j b (by omega), if_pos hj.1]
  · rw [Inode.sector_setSector x k j b (by omega), if_neg fun h => hj ⟨h, hk⟩]
  · exact absurd hj.2 hk
  · rfl

theorem linkFileBlock_eq {b : UInt32} (hx : s.inodes a = some x) (hc : 4 * k + 4 ≤ c.size)
    (hzero : k < 12 → x.sector k = 0) : linkFileBlock s a k b c =
      .ok (c.put (4 * k) 4 (wordByte b), s.setInode a (x.link k b)) := by
  unfold linkFileBlock Inode.link
  split_ifs with hk
  · rw [hx, deref_some, ok_bind, ensure_of (hzero hk), ok_bind, Buffer.setWord_of_le hc, ok_bind]
  · rw [Buffer.setWord_of_le hc, ok_bind, setInode_self hx]

/-- Linking block `k` before the others. -/
theorem Linked.step {will : ℕ} {b : UInt32} {c' : Buffer} {lba lba' : ℕ → UInt32}
    (h : Linked (x.link k b) y (c.put (4 * k) 4 (wordByte b)) c' (k + 1) will lba)
    (hk : k < will) (hself : lba' k = b) (hother : ∀ j, j ≠ k → lba' j = lba j) :
    Linked x y c c' k will lba' where
  size := h.size
  iNo := by
    rw [h.iNo, Inode.link]
    split_ifs <;> rfl
  iSize := by
    rw [h.iSize, Inode.link]
    split_ifs <;> rfl
  sector j := by
    rw [h.sector, link_sector]
    by_cases hj : j = k
    · subst hj
      rw [if_neg (by omega), hself]
      by_cases hdirect : j < 12
      · rw [if_pos ⟨rfl, hdirect⟩, if_pos ⟨le_rfl, hk, hdirect⟩]
      · rw [if_neg (by omega), if_neg (by omega)]
    · have hne : ¬ (j = k ∧ k < 12) := fun h => hj h.1
      rw [if_neg hne, hother j hj]
      exact if_congr (by omega) rfl rfl
  word j := by
    rw [h.word, Buffer.put_bytes, wordAt_overlay_word]
    by_cases hj : j = k
    · subst hj
      rw [if_neg (by omega), if_pos rfl, if_pos ⟨le_rfl, hk⟩, hself]
    · rw [if_neg hj, hother j hj]
      exact if_congr (by omega) rfl rfl

/-- The indices of the blocks with one more in front. -/
theorem image_update {will : ℕ} (idx : ℕ → ℕ) (hk : k < will) :
    (Finset.Ico k will).image (Function.update idx k i) =
      {i} ∪ (Finset.Ico (k + 1) will).image idx := by
  have hrest : (Finset.Ico (k + 1) will).image (Function.update idx k i) =
      (Finset.Ico (k + 1) will).image idx := by
    refine Finset.image_congr fun j hj => ?_
    have hj := Finset.mem_Ico.mp (Finset.mem_coe.mp hj)
    exact Function.update_of_ne (by omega) ..
  have hself : Function.update idx k i k = i := Function.update_self ..
  rw [← Finset.insert_Ico_succ_left_eq_Ico hk, Order.succ_eq_add_one, Finset.image_insert, hrest,
    hself, Finset.insert_eq]

theorem injOn_update {will : ℕ} {idx : ℕ → ℕ} (hinj : Set.InjOn idx (Set.Ico (k + 1) will))
    (hfresh : ∀ j, k < j → j < will → idx j ≠ i) :
    Set.InjOn (Function.update idx k i) (Set.Ico k will) := by
  have hother : ∀ j, j ≠ k → Function.update idx k i j = idx j := fun j hj =>
    Function.update_of_ne hj ..
  have hself : Function.update idx k i k = i := Function.update_self ..
  rintro j ⟨hj, hj'⟩ m ⟨hm, hm'⟩ heq
  by_cases hjk : j = k <;> by_cases hmk : m = k
  · rw [hjk, hmk]
  · rw [hjk, hself, hother m hmk] at heq
    exact absurd heq.symm (hfresh m (by omega) hm')
  · rw [hmk, hself, hother j hjk] at heq
    exact absurd heq (hfresh j (by omega) hj')
  · rw [hother j hjk, hother m hmk] at heq
    exact hinj ⟨by omega, hj'⟩ ⟨by omega, hm'⟩ heq

/-- A round of the allocation loops takes a free block for the next index. -/
theorem allocFileBlocks_step (n fuel : ℕ) {will : ℕ} (hm : Mounted s) (hx : s.inodes a = some x)
    (hc : c.size = 560) (hwill : will ≤ 140) (hk : k < will) (hzero : k < 12 → x.sector k = 0)
    (hfree : s.blockBitmap.free.Nonempty) :
    ∃ i d, i ∈ s.blockBitmap.free ∧
      allocFileBlocks a will (fuel + 1) k c s =
        allocFileBlocks a will fuel (k + 1)
          (c.put (4 * k) 4 (wordByte (UInt32.ofNat (s.part.dataStartLba + i))))
          (((s.takeBlock i).setInode a
            (x.link k (UInt32.ofNat (s.part.dataStartLba + i)))).setDisk d) ∧
      Takes a n s (((s.takeBlock i).setInode a
        (x.link k (UInt32.ofNat (s.part.dataStartLba + i)))).setDisk d) {i} ∧
      SectorsKept s.part.dataStartLba ∅ s.disk d := by
  obtain ⟨i, hi, halloc⟩ := blockBitmapAlloc_of_free hfree
  set b := UInt32.ofNat (s.part.dataStartLba + i) with hb
  obtain ⟨d, hsync, htake, hkept⟩ := takes_one (a := a) (n := n) hm hi (x.link k b)
  have hlink : linkFileBlock (s.takeBlock i) a k b c =
      .ok (c.put (4 * k) 4 (wordByte b), (s.takeBlock i).setInode a (x.link k b)) :=
    linkFileBlock_eq hx (by omega) hzero
  refine ⟨i, d, hi, ?_, htake, hkept⟩
  rw [allocFileBlocks, if_pos hk, halloc, ok_bind]
  dsimp only
  rw [hlink, ok_bind]
  dsimp only
  rw [show ((s.takeBlock i).setInode a (x.link k b)).part = s.part from rfl,
    Nat.add_sub_cancel_left, hsync, ok_bind]

/-- The allocation loops take one free block for each index. -/
theorem allocFileBlocks_spec (will n : ℕ) (fuel : ℕ) : ∀ {k : ℕ} {s : State} {x : Inode}
    {c : Buffer}, Mounted s → s.inodes a = some x → c.size = 560 → will ≤ 140 → k ≤ will →
    will ≤ k + fuel → (∀ j < 12, k ≤ j → x.sector j = 0) → will - k ≤ s.blockBitmap.free.card →
    ∃ (c' : Buffer) (t : State) (y : Inode) (idx : ℕ → ℕ),
      allocFileBlocks a will fuel k c s = .ok (some c', t) ∧
      Takes a n s t ((Finset.Ico k will).image idx) ∧ Set.InjOn idx (Set.Ico k will) ∧
      SectorsKept s.part.dataStartLba ∅ s.disk t.disk ∧ t.inodes a = some y ∧
      Linked x y c c' k will fun j => UInt32.ofNat (s.part.dataStartLba + idx j) := by
  induction fuel with
  | zero =>
    intro k s x c hm hx _ _ hk hfuel _ _
    obtain rfl : k = will := by omega
    refine ⟨c, s, x, id, ?_, by simpa using Takes.refl hm, by simp, SectorsKept.refl _ _ _, hx,
      rfl, rfl, rfl, fun j => ?_, fun j => ?_⟩
    · rw [allocFileBlocks, if_neg (lt_irrefl k)]
    · rw [if_neg (by omega)]
    · rw [if_neg (by omega)]
  | succ fuel ih =>
    intro k s x c hm hx hc hwill hk hfuel hzero hfree
    by_cases hdone : k < will
    · have hpos : 0 < s.blockBitmap.free.card := by omega
      obtain ⟨i, d, hi, hstep, htake, hkept⟩ := allocFileBlocks_step n fuel hm hx hc hwill
        hdone (fun hk => hzero k hk le_rfl) (Finset.card_pos.mp hpos)
      set b := UInt32.ofNat (s.part.dataStartLba + i) with hb
      have hcard := Finset.card_sdiff_add_card_inter s.blockBitmap.free {i}
      rw [← htake.free, Finset.inter_singleton_of_mem hi, Finset.card_singleton] at hcard
      have hzero' : ∀ j < 12, k + 1 ≤ j → (x.link k b).sector j = 0 := by
        intro j hj hkj
        rw [link_sector, if_neg (by omega)]
        exact hzero j hj (by omega)
      obtain ⟨c', t, y, idx, hrun, htakes, hinj, hsectors, hy, hlinked⟩ :=
        ih (k := k + 1) (c := c.put (4 * k) 4 (wordByte b)) htake.mounted
          (setInode_inodes_self ..) (by rw [Buffer.put_size, hc]) hwill (by omega) (by omega) hzero'
          (by omega)
      have hfresh : ∀ j, k < j → j < will → idx j ≠ i := by
        intro j hkj hj heq
        have hmem := htakes.fresh (Finset.mem_image_of_mem idx (Finset.mem_Ico.mpr ⟨hkj, hj⟩))
        rw [htake.free, heq] at hmem
        exact (Finset.mem_sdiff.mp hmem).2 (Finset.mem_singleton_self i)
      refine ⟨c', t, y, Function.update idx k i, hstep.trans hrun, ?_, injOn_update hinj hfresh,
        hkept.trans hsectors, hy, hlinked.step hdone ?_ fun j hj => ?_⟩
      · rw [image_update idx hdone]
        exact htake.trans htakes
      · rw [Function.update_self]
      · rw [Function.update_of_ne hj]
        rfl
    · obtain rfl : k = will := by omega
      refine ⟨c, s, x, id, ?_, by simpa using Takes.refl hm, by simp, SectorsKept.refl _ _ _, hx,
        rfl, rfl, rfl, fun j => ?_, fun j => ?_⟩
      · rw [allocFileBlocks, if_neg hdone]
      · rw [if_neg (by omega)]
      · rw [if_neg (by omega)]

end Allocating

section Layouts

/-- The indices of `nb` blocks, and 140 for the indirect table if there is one. -/
def slots (nb : ℕ) : Finset ℕ := Finset.range nb ∪ if 12 < nb then {140} else ∅

theorem mem_slots {nb : ℕ} : k ∈ slots nb ↔ k < nb ∨ 12 < nb ∧ k = 140 := by
  unfold slots
  split_ifs with h <;> simp [h, or_comm]

/-- How many sectors `nb` blocks take. -/
def sectorsFor (nb : ℕ) : ℕ := if 12 < nb then nb + 1 else nb

theorem card_slots {nb : ℕ} (h : nb ≤ 140) : (slots nb).card = sectorsFor nb := by
  unfold slots sectorsFor
  split_ifs with htable
  · rw [Finset.card_union_of_disjoint (by simp; omega), Finset.card_range, Finset.card_singleton]
  · simp

/-- The inode has `nb` blocks: block `k` is data block `f k` of the partition, the indirect table
is `f 140`, and `own` is the set of them. -/
structure Layout (s : State) (x : Inode) (nb : ℕ) (f : ℕ → ℕ) (own : Finset ℕ) : Prop where
  le : nb ≤ 140
  unused : ∀ k < 12, nb ≤ k → x.sector k = 0
  noTable : nb ≤ 12 → x.sector 12 = 0
  block : ∀ k < nb, (x.blockLba s.disk k).toNat = s.part.dataStartLba + f k
  table : 12 < nb → (x.sector 12).toNat = s.part.dataStartLba + f 140
  inj : Set.InjOn f (slots nb)
  own_eq : own = (slots nb).image f

variable {f f' : ℕ → ℕ} {used will nb : ℕ} {s₀ : State}

theorem Layout.card (h : Layout s x nb f own) : own.card = sectorsFor nb := by
  rw [h.own_eq, Finset.card_image_of_injOn h.inj, card_slots h.le]

theorem Layout.mem_own (h : Layout s x nb f own) (hk : k ∈ slots nb) : f k ∈ own := by
  rw [h.own_eq]
  exact Finset.mem_image_of_mem f hk

/-- The slots that are new when the number of blocks grows. -/
def added (used will : ℕ) : Finset ℕ :=
  Finset.Ico used will ∪ if used ≤ 12 ∧ 12 < will then {140} else ∅

theorem mem_added : k ∈ added used will ↔
    used ≤ k ∧ k < will ∨ (used ≤ 12 ∧ 12 < will) ∧ k = 140 := by
  unfold added
  split_ifs with h <;> simp [h, or_comm]

/-- Blocks that were free are different from those that the file has. -/
theorem Layout.grow (h : Layout s x used f own) (hle : used ≤ will) (hwill : will ≤ 140)
    (hown : Disjoint own s.blockBitmap.free) (hsame : ∀ k ∈ slots used, f' k = f k)
    (hinj : Set.InjOn f' (added used will))
    (hfree : (added used will).image f' ⊆ s.blockBitmap.free) :
    Set.InjOn f' (slots will) ∧ own ∪ (added used will).image f' = (slots will).image f' := by
  have hslots : slots will = slots used ∪ added used will := by
    ext k
    rw [Finset.mem_union, mem_slots, mem_slots, mem_added]
    omega
  have hdisjoint : Disjoint (slots used) (added used will) := by
    rw [Finset.disjoint_left]
    intro k hk hk'
    rw [mem_slots] at hk
    rw [mem_added] at hk'
    omega
  have himage : (slots used).image f' = own := by
    rw [h.own_eq]
    exact Finset.image_congr fun k hk => hsame k hk
  constructor
  · rw [hslots, Finset.coe_union, Set.injOn_union (Finset.disjoint_coe.mpr hdisjoint)]
    refine ⟨fun j hj k hk heq => h.inj hj hk ?_, hinj, fun j hj k hk heq => ?_⟩
    · rw [← hsame j hj, ← hsame k hk, heq]
    · have hmem := himage ▸ Finset.mem_image_of_mem f' hj
      exact Finset.disjoint_left.mp hown hmem (heq ▸ hfree (Finset.mem_image_of_mem f' hk))
  · rw [hslots, Finset.image_union, himage]

end Layouts

section Situations

variable {s₀ : State} {f f' : ℕ → ℕ} {used will : ℕ}

/-- What collecting the blocks for a write achieves: the file has `will` blocks, those it had
before among them with their data, and `all_blocks` has the address of each block from the last
old one on. -/
structure Collected (a : InodePtr) (n : ℕ) (s₀ s t : State) (x y : Inode) (c : Buffer)
    (f f' : ℕ → ℕ) (used will : ℕ) (own : Finset ℕ) : Prop where
  takes : Takes a n s₀ t own
  inode : t.inodes a = some y
  iNo : y.iNo = x.iNo
  iSize : y.iSize = x.iSize
  layout : Layout t y will f' own
  same : ∀ k ∈ slots used, f' k = f k
  data : ∀ k < used, ∀ i < 512, t.disk (512 * (s.part.dataStartLba + f k) + i) =
    s.disk (512 * (s.part.dataStartLba + f k) + i)
  size : c.size = 560
  words : ∀ k, used ≤ k + 1 → k < will → wordAt c.bytes (4 * k) = y.blockLba t.disk k

theorem ne_zero_of_toNat {b : UInt32} (s : State) (hb : b.toNat = s.part.dataStartLba + i) :
    b ≠ 0 := by
  rintro rfl
  have h3 := s.part.dataStartLba_eq
  have h4 := s.part.inodeTableSects_eq
  have hzero : (0 : UInt32).toNat = 0 := rfl
  omega

theorem Layout.sector_ne (h : Layout s x used f own) (hk : k < used) (hdirect : k < 12) :
    x.sector k ≠ 0 := by
  have hblock := h.block k hk
  rw [blockLba_direct hdirect] at hblock
  exact ne_zero_of_toNat s hblock

theorem Layout.table_ne (h : Layout s x used f own) (hused : 12 < used) : x.sector 12 ≠ 0 :=
  ne_zero_of_toNat s (h.table hused)

/-- What was free is none of the blocks that the file has. -/
theorem Takes.disjoint (h : Takes a n s₀ s own) : Disjoint own s.blockBitmap.free := by
  rw [h.free]
  exact Finset.disjoint_sdiff

theorem Takes.lba_le (h : Takes a n s₀ s own) (hm : Mounted s₀) (hi : i ∈ own) :
    s₀.part.dataStartLba + i ≤ maxLba := hm.free_le i (h.fresh hi)

theorem toNat_lba (s : State) (hi : s.part.dataStartLba + i ≤ maxLba) :
    (UInt32.ofNat (s.part.dataStartLba + i)).toNat = s.part.dataStartLba + i := by
  have hmax : maxLba < 2 ^ 32 := by decide
  rw [UInt32.toNat_ofNat', Nat.mod_eq_of_lt (by omega)]

/-- The entries of an indirect table that was written from `all_blocks`. -/
theorem blockLba_written (htable : y.sector 12 ≠ 0) (hk : 12 ≤ k) (hlt : k < 140) (d : Image) :
    y.blockLba (overlay d (512 * (y.sector 12).toNat) 512 (slice c.bytes 48)) k =
      wordAt c.bytes (4 * k) := by
  have haddr : 48 + 4 * (k - 12) = 4 * k := by omega
  rw [Inode.blockLba, if_neg (by omega), if_pos ⟨hlt, htable⟩, wordAt_overlay_slice (by omega),
    haddr]

theorem added_eq_Ico (h : will ≤ 12 ∨ 12 < used) : added used will = Finset.Ico used will := by
  unfold added
  rw [if_neg (by omega), Finset.union_empty]

/-- Situation 1: the direct blocks are enough. -/
theorem addDirect_collected (h₀ : Takes a n s₀ s own) (hx : s.inodes a = some x)
    (hl : Layout s x used f own) (hpos : 0 < used) (hle : used < will)
    (hwill : will ≤ 12) (hfree : will - used ≤ s.blockBitmap.free.card) :
    ∃ c t y f' own', addFileBlocks s a used will { size := 560, bytes := zeros } =
      .ok (some c, t) ∧ Collected a n s₀ s t x y c f f' used will own' := by
  have hlast : used - 1 < 13 := by omega
  have hne := hl.sector_ne (k := used - 1) (by omega) (by omega)
  obtain ⟨c, t, y, idx, hrun, htakes, hinj, hkept, hy, hlinked⟩ :=
    allocFileBlocks_spec (a := a) will n will (k := used) (s := s) (x := x)
      (c := Buffer.put { size := 560, bytes := zeros } (4 * (used - 1)) 4
        (wordByte (x.sector (used - 1)))) h₀.mounted hx rfl (by omega) hle.le (by omega)
      (fun j hj hkj => hl.unused j hj hkj) hfree
  have hadd : addFileBlocks s a used will { size := 560, bytes := zeros } = .ok (some c, t) := by
    unfold addFileBlocks
    rw [if_pos hwill, hx, deref_some, ok_bind, Inode.sectorAt, ensure_of hlast, ok_bind, ok_bind,
      ensure_of hne, ok_bind, Buffer.setWord_of_le (by dsimp only; omega), ok_bind, hrun]
  have hnew : ∀ k, used ≤ k → k < will → idx k ∈ s.blockBitmap.free := fun k hk hk' =>
    htakes.fresh (Finset.mem_image_of_mem idx (Finset.mem_Ico.mpr ⟨hk, hk'⟩))
  have himage : (added used will).image (fun k => if used ≤ k ∧ k < will then idx k else f k) =
      (Finset.Ico used will).image idx := by
    rw [added_eq_Ico (Or.inl hwill)]
    refine Finset.image_congr fun k hk => if_pos ?_
    exact Finset.mem_Ico.mp hk
  have hsame : ∀ k ∈ slots used, (if used ≤ k ∧ k < will then idx k else f k) = f k :=
    fun k hk => if_neg (by rw [mem_slots] at hk; omega)
  obtain ⟨hinj', hown⟩ := hl.grow hle.le (by omega) h₀.disjoint hsame (by
      rw [added_eq_Ico (Or.inl hwill), Finset.coe_Ico]
      exact hinj.congr fun k hk => (if_pos hk).symm) (by
      rw [himage]
      exact htakes.fresh)
  have htakes' := h₀.trans htakes
  rw [← himage, hown] at htakes'
  have hpart : t.part = s.part := htakes.part
  have hlba : ∀ k, used ≤ k → k < will →
      (UInt32.ofNat (s.part.dataStartLba + idx k)).toNat = s.part.dataStartLba + idx k :=
    fun k hk hk' => toNat_lba s (h₀.mounted.free_le _ (hnew k hk hk'))
  refine ⟨c, t, y, _, _, hadd, htakes', hy, hlinked.iNo, hlinked.iSize,
    ⟨by omega, fun k hk hk' => ?_, fun _ => ?_, fun k hk => ?_, fun h => by omega, hinj', rfl⟩,
    fun k hk => if_neg (by rw [mem_slots] at hk; omega), fun k _ i hi => ?_,
    hlinked.size, fun k hk hk' => ?_⟩
  · rw [hlinked.sector, if_neg (by omega)]
    exact hl.unused k hk (by omega)
  · rw [hlinked.sector, if_neg (by omega)]
    exact hl.noTable (by omega)
  · rw [blockLba_direct (by omega), hlinked.sector, hpart]
    by_cases hku : used ≤ k
    · rw [if_pos (by omega), if_pos (by omega), hlba k hku hk]
    · have hblock := hl.block k (by omega)
      rw [blockLba_direct (by omega)] at hblock
      rw [if_neg (by omega), if_neg (by omega), hblock]
  · exact hkept _ (Nat.le_add_right _ _) (Finset.notMem_empty _) i hi
  · rw [blockLba_direct (by omega), hlinked.sector, hlinked.word]
    by_cases hku : used ≤ k
    · rw [if_pos (by omega), if_pos (by omega)]
    · have hkl : k = used - 1 := by omega
      rw [if_neg (by omega), if_neg (by omega), Buffer.put_bytes, wordAt_overlay_word, if_pos hkl,
        hkl]

/-- The end of situations 2 and 3: the table is written from `all_blocks`. -/
theorem collected_table {x₁ : Inode} {b : Buffer} {idx : ℕ → ℕ} {own' : Finset ℕ}
    (hl : Layout s x used f own) (hle : used < will) (hwill : will ≤ 140) (htable : 12 < will)
    (htakes : Takes a n s₀ t own') (hpart : t.part = s.part) (hy : t.inodes a = some y)
    (hkept : SectorsKept s.part.dataStartLba ∅ s.disk t.disk) (hc : b.size = 560)
    (hlinked : Linked x₁ y b c used will fun j => UInt32.ofNat (s.part.dataStartLba + idx j))
    (hiNo : x₁.iNo = x.iNo) (hiSize : x₁.iSize = x.iSize)
    (hsector : ∀ j < 12, x₁.sector j = x.sector j)
    (hT : (x₁.sector 12).toNat = s.part.dataStartLba + f' 140)
    (hinj : Set.InjOn f' (slots will)) (hown : own' = (slots will).image f')
    (hsame : ∀ k ∈ slots used, f' k = f k)
    (hnew : ∀ k, used ≤ k → k < will →
      f' k = idx k ∧ s.part.dataStartLba + idx k ≤ maxLba)
    (hold : ∀ k, 12 ≤ k → k < used → wordAt b.bytes (4 * k) = x.blockLba s.disk k)
    (hlast : used ≤ 12 → 0 < used ∧ wordAt b.bytes (4 * (used - 1)) = x.sector (used - 1)) :
    Collected a n s₀ s (t.setDisk (overlay t.disk (512 * (s.part.dataStartLba + f' 140)) 512
      (slice c.bytes 48))) x y c f f' used will own' := by
  have hyT : y.sector 12 = x₁.sector 12 := by
    rw [hlinked.sector, if_neg (by omega)]
  have hne : y.sector 12 ≠ 0 := ne_zero_of_toNat s (hyT ▸ hT)
  have hslot : 140 ∈ slots will := mem_slots.mpr (Or.inr ⟨htable, rfl⟩)
  -- the address of each block in the state after the write
  have haddr : ∀ k < will, y.blockLba (overlay t.disk (512 * (s.part.dataStartLba + f' 140)) 512
      (slice c.bytes 48)) k = if used ≤ k then UInt32.ofNat (s.part.dataStartLba + idx k)
        else x.blockLba s.disk k := by
    intro k hk
    by_cases hdirect : k < 12
    · rw [blockLba_direct hdirect, hlinked.sector]
      by_cases hku : used ≤ k
      · rw [if_pos (by omega), if_pos hku]
      · rw [if_neg (by omega), if_neg hku, hsector k hdirect, blockLba_direct hdirect]
    · rw [← hT, ← hyT, blockLba_written hne (by omega) (by omega), hlinked.word]
      by_cases hku : used ≤ k
      · rw [if_pos (by omega), if_pos hku]
      · rw [if_neg (by omega), if_neg hku, hold k (by omega) (by omega)]
  refine ⟨?_, hy, hlinked.iNo.trans hiNo, hlinked.iSize.trans hiSize,
    ⟨hwill, fun k hk hk' => by omega, fun h => by omega, fun k hk => ?_, fun _ => ?_, hinj, hown⟩,
    hsame, fun k hk i hi => ?_, hlinked.size.trans hc, fun k hk hk' => ?_⟩
  · have hmem : f' 140 ∈ own' := hown ▸ Finset.mem_image_of_mem f' hslot
    have hwrite := htakes.writeSector hmem (slice c.bytes 48)
    rw [hpart] at hwrite
    exact hwrite
  · rw [setDisk_disk, setDisk_part, hpart, haddr k hk]
    by_cases hku : used ≤ k
    · obtain ⟨hf, hmax⟩ := hnew k hku hk
      rw [if_pos hku, toNat_lba s hmax, hf]
    · rw [if_neg hku, hl.block k (by omega), hsame k (mem_slots.mpr (Or.inl (by omega)))]
  · rw [setDisk_part, hpart, hyT, hT]
  · have hk140 : f k ≠ f' 140 := by
      rw [← hsame k (mem_slots.mpr (Or.inl hk))]
      intro heq
      have := hinj (mem_slots.mpr (Or.inl (by omega))) hslot heq
      omega
    rw [setDisk_disk, overlay_outside (by omega)]
    exact hkept _ (Nat.le_add_right _ _) (Finset.notMem_empty _) i hi
  · rw [setDisk_disk, haddr k hk', hlinked.word]
    by_cases hku : used ≤ k
    · rw [if_pos ⟨hku, hk'⟩, if_pos hku]
    · have hkl : k = used - 1 := by omega
      rw [if_neg (by omega), if_neg hku]
      by_cases hdirect : used ≤ 12
      · rw [hkl, (hlast hdirect).2, blockLba_direct (by omega)]
      · exact hold k (by omega) (by omega)

/-- Situation 2: the indirect table is new. -/
theorem addTable_collected (h₀ : Takes a n s₀ s own) (hx : s.inodes a = some x)
    (hl : Layout s x used f own) (hpos : 0 < used) (hused : used ≤ 12) (htable : 12 < will)
    (hwill : will ≤ 140) (hfree : will - used + 1 ≤ s.blockBitmap.free.card) :
    ∃ c t y f' own', addFileTable s a used will { size := 560, bytes := zeros } =
      .ok (some c, t) ∧ Collected a n s₀ s t x y c f f' used will own' := by
  have hm := h₀.mounted
  have hsome : 0 < s.blockBitmap.free.card := by omega
  obtain ⟨i, hi, halloc⟩ := blockBitmapAlloc_of_free (Finset.card_pos.mp hsome)
  have himax := hm.free_le i hi
  set b := UInt32.ofNat (s.part.dataStartLba + i) with hb
  have hbNat : b.toNat = s.part.dataStartLba + i := toNat_lba s himax
  set x₁ := x.setSector 12 b with hx₁
  have hsector : ∀ j, x₁.sector j = if j = 12 then b else x.sector j := fun j =>
    Inode.sector_setSector x 12 j b (by omega)
  have hfirst : Takes a n s ((s.takeBlock i).setInode a x₁) {i} := takes_unsynced hm hi x₁
  have hcard := Finset.card_sdiff_add_card_inter s.blockBitmap.free {i}
  rw [← hfirst.free, Finset.inter_singleton_of_mem hi, Finset.card_singleton] at hcard
  obtain ⟨c, t, y, idx, hrun, htakes, hinj, hkept, hy, hlinked⟩ :=
    allocFileBlocks_spec (a := a) will n will (k := used) (x := x₁)
      (c := Buffer.put { size := 560, bytes := zeros } (4 * (used - 1)) 4
        (wordByte (x.sector (used - 1)))) hfirst.mounted (setInode_inodes_self ..) rfl hwill
      (by omega) (by omega) (fun j hj hkj => by
        rw [hsector, if_neg (by omega)]
        exact hl.unused j hj hkj) (by omega)
  have hadd : addFileTable s a used will { size := 560, bytes := zeros } =
      .ok (some c, t.setDisk (overlay t.disk (512 * (s.part.dataStartLba + i)) 512
        (slice c.bytes 48))) := by
    unfold addFileTable
    rw [hx, deref_some, ok_bind, Buffer.setWord_of_le (by dsimp only; omega), ok_bind, halloc,
      ok_bind]
    dsimp only
    rw [ensure_of (hl.noTable hused), ok_bind, hrun, ok_bind]
    dsimp only
    rw [ideWrite_of_le himax (by omega) (by rw [hlinked.size]; dsimp only [Buffer.put_size]; omega),
      ok_bind]
  have hnew : ∀ k, used ≤ k → k < will → idx k ∈ s.blockBitmap.free ∧ idx k ≠ i := by
    intro k hk hk'
    have hmem := htakes.fresh (Finset.mem_image_of_mem idx (Finset.mem_Ico.mpr ⟨hk, hk'⟩))
    rw [hfirst.free, Finset.mem_sdiff, Finset.mem_singleton] at hmem
    exact hmem
  set f' : ℕ → ℕ := fun k => if k = 140 then i else if used ≤ k ∧ k < will then idx k else f k
    with hf'
  have hf'new : ∀ k, used ≤ k → k < will → f' k = idx k := fun k hk hk' => by
    rw [hf']
    dsimp only
    rw [if_neg (by omega), if_pos ⟨hk, hk'⟩]
  have hf'table : f' 140 = i := if_pos rfl
  have hadded : added used will = Finset.Ico used will ∪ {140} := by
    unfold added
    rw [if_pos ⟨hused, htable⟩]
  have himage : (added used will).image f' = {i} ∪ (Finset.Ico used will).image idx := by
    rw [hadded, Finset.image_union, Finset.image_singleton, hf'table, Finset.union_comm]
    congr 1
    refine Finset.image_congr fun k hk => ?_
    exact hf'new k (Finset.mem_Ico.mp hk).1 (Finset.mem_Ico.mp hk).2
  have hinj' : Set.InjOn f' (added used will) := by
    intro j hj k hk heq
    have hj := mem_added.mp (Finset.mem_coe.mp hj)
    have hk := mem_added.mp (Finset.mem_coe.mp hk)
    obtain ⟨hj, hj'⟩ | ⟨-, rfl⟩ := hj <;> obtain ⟨hk, hk'⟩ | ⟨-, rfl⟩ := hk
    · rw [hf'new j hj hj', hf'new k hk hk'] at heq
      exact hinj ⟨hj, hj'⟩ ⟨hk, hk'⟩ heq
    · rw [hf'new j hj hj', hf'table] at heq
      exact absurd heq (hnew j hj hj').2
    · rw [hf'new k hk hk', hf'table] at heq
      exact absurd heq.symm (hnew k hk hk').2
    · rfl
  have hsame : ∀ k ∈ slots used, f' k = f k := fun k hk => by
    rw [mem_slots] at hk
    rw [hf']
    dsimp only
    rw [if_neg (by omega), if_neg (by omega)]
  have htakes' := hfirst.trans htakes
  rw [← himage] at htakes'
  obtain ⟨hinjAll, hown⟩ := hl.grow (by omega) hwill h₀.disjoint hsame hinj' htakes'.fresh
  have hall := h₀.trans htakes'
  rw [hown] at hall
  have hcollected := collected_table hl (by omega) hwill htable hall htakes'.part hy hkept
    (b := Buffer.put { size := 560, bytes := zeros } (4 * (used - 1)) 4
      (wordByte (x.sector (used - 1)))) rfl hlinked rfl rfl
    (fun j hj => by rw [hsector, if_neg (by omega)])
    (by rw [hsector, if_pos rfl, hbNat, hf'table]) hinjAll rfl hsame
    (fun k hk hk' => ⟨hf'new k hk hk', hm.free_le _ (hnew k hk hk').1⟩)
    (fun k hk hk' => by omega)
    (fun _ => ⟨hpos, by rw [Buffer.put_bytes, wordAt_overlay_word, if_pos rfl]⟩)
  rw [hf'table] at hcollected
  exact ⟨c, _, y, f', _, hadd, hcollected⟩

/-- The table in `all_blocks` has the entries of the blocks from the thirteenth on. -/
theorem wordAt_table (htable : x.sector 12 ≠ 0) (hk : 12 ≤ k) (hlt : k < 140) (m d : Image) :
    wordAt (overlay m 48 512 (slice d (512 * (x.sector 12).toNat))) (4 * k) = x.blockLba d k := by
  have haddr : 4 * k = 48 + 4 * (k - 12) := by omega
  rw [haddr, wordAt_overlay_slice (by omega), Inode.blockLba, if_neg (by omega),
    if_pos ⟨hlt, htable⟩]

/-- Situation 3: the indirect table gets more entries. -/
theorem extendTable_collected (h₀ : Takes a n s₀ s own) (hm₀ : Mounted s₀)
    (hx : s.inodes a = some x) (hl : Layout s x used f own) (hused : 12 < used)
    (hle : used < will) (hwill : will ≤ 140) (hfree : will - used ≤ s.blockBitmap.free.card) :
    ∃ c t y f' own', extendFileTable s a used will { size := 560, bytes := zeros } =
      .ok (some c, t) ∧ Collected a n s₀ s t x y c f f' used will own' := by
  have hm := h₀.mounted
  have hT := hl.table hused
  have hne := hl.table_ne hused
  have hTmax : (x.sector 12).toNat ≤ maxLba := by
    rw [hT, h₀.part]
    exact h₀.lba_le hm₀ (hl.mem_own (mem_slots.mpr (Or.inr ⟨hused, rfl⟩)))
  obtain ⟨c, t, y, idx, hrun, htakes, hinj, hkept, hy, hlinked⟩ :=
    allocFileBlocks_spec (a := a) will n will (k := used) (s := s) (x := x)
      (c := Buffer.put { size := 560, bytes := zeros } 48 512
        (slice s.disk (512 * (x.sector 12).toNat))) hm hx rfl hwill hle.le (by omega)
      (fun j hj hkj => by omega) hfree
  have hadd : extendFileTable s a used will { size := 560, bytes := zeros } =
      .ok (some c, t.setDisk (overlay t.disk (512 * (x.sector 12).toNat) 512
        (slice c.bytes 48))) := by
    unfold extendFileTable
    rw [hx, deref_some, ok_bind, ensure_of hne, ok_bind,
      ideRead_of_le hTmax (by omega) (by dsimp only; omega), ok_bind, hrun, ok_bind]
    dsimp only
    rw [ideWrite_of_le hTmax (by omega) (by rw [hlinked.size]; dsimp only [Buffer.put_size]; omega),
      ok_bind]
  have hnew : ∀ k, used ≤ k → k < will → idx k ∈ s.blockBitmap.free := fun k hk hk' =>
    htakes.fresh (Finset.mem_image_of_mem idx (Finset.mem_Ico.mpr ⟨hk, hk'⟩))
  set f' : ℕ → ℕ := fun k => if used ≤ k ∧ k < will then idx k else f k with hf'
  have hf'new : ∀ k, used ≤ k → k < will → f' k = idx k := fun k hk hk' => if_pos ⟨hk, hk'⟩
  have hf'table : f' 140 = f 140 := if_neg (by omega)
  have himage : (added used will).image f' = (Finset.Ico used will).image idx := by
    rw [added_eq_Ico (Or.inr hused)]
    refine Finset.image_congr fun k hk => if_pos ?_
    exact Finset.mem_Ico.mp hk
  have hsame : ∀ k ∈ slots used, f' k = f k := fun k hk =>
    if_neg (by rw [mem_slots] at hk; omega)
  obtain ⟨hinjAll, hown⟩ := hl.grow hle.le hwill h₀.disjoint hsame (by
      rw [added_eq_Ico (Or.inr hused), Finset.coe_Ico]
      exact hinj.congr fun k hk => (if_pos hk).symm) (by
      rw [himage]
      exact htakes.fresh)
  have hall := h₀.trans htakes
  rw [← himage, hown] at hall
  have hcollected := collected_table hl hle hwill (by omega) hall htakes.part hy hkept
    (b := Buffer.put { size := 560, bytes := zeros } 48 512
      (slice s.disk (512 * (x.sector 12).toNat))) rfl hlinked rfl rfl (fun _ _ => rfl)
    (by rw [hT, hf'table]) hinjAll rfl hsame
    (fun k hk hk' => ⟨hf'new k hk hk', hm.free_le _ (hnew k hk hk')⟩)
    (fun k hk hk' => wordAt_table hne hk (by omega) _ _) (fun h => by omega)
  rw [hf'table, ← hT] at hcollected
  exact ⟨c, _, y, f', _, hadd, hcollected⟩

/-- No new block is needed. -/
theorem lastBlock_collected (h₀ : Takes a n s₀ s own) (hm₀ : Mounted s₀)
    (hx : s.inodes a = some x) (hl : Layout s x used f own) (hpos : 0 < used) :
    ∃ c, lastFileBlock s a used { size := 560, bytes := zeros } = .ok c ∧
      Collected a n s₀ s s x x c f f used used own := by
  have hle := hl.le
  have hcollected : ∀ c : Buffer, c.size = 560 →
      (∀ k, used ≤ k + 1 → k < used → wordAt c.bytes (4 * k) = x.blockLba s.disk k) →
      Collected a n s₀ s s x x c f f used used own := fun c hc hwords =>
    ⟨h₀, hx, rfl, rfl, hl, fun _ _ => rfl, fun _ _ _ _ => rfl, hc, hwords⟩
  unfold lastFileBlock
  rw [hx, deref_some, ok_bind]
  by_cases hused : used ≤ 12
  · rw [if_pos hused, Buffer.setWord_of_le (by dsimp only; omega)]
    refine ⟨_, rfl, hcollected _ rfl fun k hk hk' => ?_⟩
    have hkl : k = used - 1 := by omega
    rw [Buffer.put_bytes, wordAt_overlay_word, if_pos hkl, blockLba_direct (by omega), hkl]
  · have htable := hl.table_ne (by omega)
    have hTmax : (x.sector 12).toNat ≤ maxLba := by
      rw [hl.table (by omega), h₀.part]
      exact h₀.lba_le hm₀ (hl.mem_own (mem_slots.mpr (Or.inr ⟨by omega, rfl⟩)))
    rw [if_neg hused, ensure_of htable, ok_bind,
      ideRead_of_le hTmax (by omega) (by dsimp only; omega)]
    exact ⟨_, rfl, hcollected _ rfl fun k hk hk' => wordAt_table htable (by omega) (by omega) _ _⟩

/-- The blocks for a write are there as soon as enough of them are free. -/
theorem collectWriteBlocks_collected (h₀ : Takes a n s₀ s own) (hm₀ : Mounted s₀)
    (hx : s.inodes a = some x) (hl : Layout s x used f own) (hpos : 0 < used)
    (hle : used ≤ will) (hwill : will ≤ 140)
    (hfree : sectorsFor will ≤ sectorsFor used + s.blockBitmap.free.card) :
    ∃ c t y f' own', collectWriteBlocks s a used will { size := 560, bytes := zeros } =
      .ok (some c, t) ∧ Collected a n s₀ s t x y c f f' used will own' := by
  unfold sectorsFor at hfree
  unfold collectWriteBlocks
  by_cases hsame : will = used
  · obtain ⟨c, hrun, hcollected⟩ := lastBlock_collected (n := n) h₀ hm₀ hx hl hpos
    subst hsame
    rw [if_pos rfl, hrun, ok_bind]
    exact ⟨c, s, x, f, own, rfl, hcollected⟩
  rw [if_neg hsame]
  by_cases hdirect : will ≤ 12
  · rw [if_neg (by omega), if_neg (by omega)] at hfree
    exact addDirect_collected h₀ hx hl hpos (by omega) hdirect (by omega)
  unfold addFileBlocks
  rw [if_neg hdirect]
  rw [if_pos (by omega)] at hfree
  by_cases hused : used ≤ 12
  · rw [if_pos hused]
    rw [if_neg (by omega)] at hfree
    exact addTable_collected h₀ hx hl hpos hused (by omega) hwill (by omega)
  · rw [if_neg hused]
    rw [if_pos (by omega)] at hfree
    exact extendTable_collected h₀ hm₀ hx hl (by omega) (by omega) hwill (by omega)

end Situations

end X86System.FileSystem
