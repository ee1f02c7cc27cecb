import X86System.Format
import X86System.Sessions
import X86System.DirReads
import X86System.InodeReleases

/-!
# Mounting a partition

`filesys_init` formats a partition without a super block, reads the super block and the bitmaps
into memory and opens the root directory. What it finds on a partition that it has formatted is an
empty file system.
-/
namespace X86System.FileSystem
open Bytes Exec

section Source

/-- The loop of `ide_read`: one command for at most 256 sectors. -/
def ideReadLoop (s : State) (lba secCnt : ℕ) : ℕ → ℕ → Buffer → Except Fault Buffer
  | 0, secsDone, buf => if secsDone < secCnt then .error .diverge else .ok buf
  | fuel + 1, secsDone, buf =>
    if secsDone < secCnt then do
      let secsOp := if secsDone + 256 ≤ secCnt then 256 else secCnt - secsDone
      ensure Fault.assert (lba + secsDone ≤ maxLba)
      let buf ← buf.copy (512 * secsDone) (512 * secsOp) (slice s.disk (512 * (lba + secsDone)))
      ideReadLoop s lba secCnt fuel (secsDone + secsOp) buf
    else .ok buf

/-- `ide_read` of any number of sectors to the start of a buffer. -/
def ideReadAll (s : State) (lba : UInt32) (buf : Buffer) (secCnt : UInt32) :
    Except Fault Buffer := do
  ensure Fault.assert (lba.toNat ≤ maxLba)
  ensure Fault.assert (0 < secCnt.toNat)
  ideReadLoop s lba.toNat secCnt.toNat secCnt.toNat 0 buf

/-- The partition of a super block that has the layout of `partition_format`. -/
def Partition.ofSuperBlock (startLba secCnt : UInt32) (sb : SuperBlock) : Option Partition :=
  if h : sb.blockBitmapLba.toNat = startLba.toNat + 2 ∧
      sb.inodeBitmapLba.toNat = sb.blockBitmapLba.toNat + sb.blockBitmapSects.toNat ∧
      sb.inodeBitmapSects.toNat = 1 ∧
      sb.inodeTableLba.toNat = sb.inodeBitmapLba.toNat + sb.inodeBitmapSects.toNat ∧
      sb.inodeTableSects.toNat = 608 ∧
      sb.dataStartLba.toNat = sb.inodeTableLba.toNat + sb.inodeTableSects.toNat ∧
      sb.rootInodeNo = 0 ∧ sb.dirEntrySize.toNat = 24 ∧
      sb.dataStartLba.toNat ≤ startLba.toNat + secCnt.toNat ∧
      startLba.toNat + secCnt.toNat ≤ maxLba + 1 then
    some
      { startLba := startLba.toNat
        secCnt := secCnt.toNat
        blockBitmapLba := sb.blockBitmapLba.toNat
        blockBitmapSects := sb.blockBitmapSects.toNat
        inodeBitmapLba := sb.inodeBitmapLba.toNat
        inodeBitmapSects := sb.inodeBitmapSects.toNat
        inodeTableLba := sb.inodeTableLba.toNat
        inodeTableSects := sb.inodeTableSects.toNat
        dataStartLba := sb.dataStartLba.toNat
        rootInodeNo := sb.rootInodeNo
        dirEntrySize := sb.dirEntrySize.toNat
        blockBitmapLba_eq := h.1
        inodeBitmapLba_eq := h.2.1
        inodeBitmapSects_eq := h.2.2.1
        inodeTableLba_eq := h.2.2.2.1
        inodeTableSects_eq := h.2.2.2.2.1
        dataStartLba_eq := h.2.2.2.2.2.1
        rootInodeNo_eq := h.2.2.2.2.2.2.1
        dirEntrySize_eq := h.2.2.2.2.2.2.2.1
        dataStartLba_le := h.2.2.2.2.2.2.2.2.1
        end_le := h.2.2.2.2.2.2.2.2.2 }
  else none

/-- A bitmap that `mount_partition` reads. -/
def mountBitmap (s : State) (lba sects : UInt32) : Except Fault (Bitmap × State) := do
  let (bits, s) := sysMalloc s (sects * 512).toNat
  ensure Fault.assert bits.isSome
  let bits ← deref bits
  let bits ← ideReadAll s lba bits sects
  .ok (⟨(sects * 512).toNat, bits.bytes⟩, s)

/-- `mount_partition` for the partition that it looks for. -/
def mountPartition (s : State) (startLba secCnt : UInt32) : Except Fault State := do
  let (sbBuf, s) := sysMalloc s 512
  let (sb, s) := sysMalloc s 512
  ensure Fault.assert sb.isSome
  let sbBuf ← deref sbBuf
  let sbBuf ← ideReadAll s (startLba + 1) sbBuf 1
  let sb := SuperBlock.ofBytes sbBuf.bytes
  let (blockBitmap, s) ← mountBitmap s sb.blockBitmapLba sb.blockBitmapSects
  let (inodeBitmap, s) ← mountBitmap s sb.inodeBitmapLba sb.inodeBitmapSects
  let part ← deref (Partition.ofSuperBlock startLba secCnt sb)
  .ok { s with
    part := part
    blockBitmap := blockBitmap
    inodeBitmap := inodeBitmap
    openInodes := [] }

def openRootDir (s : State) : Except Fault State := do
  let (a, s) ← inodeOpen s s.part.rootInodeNo
  .ok { s with rootDir := a }

/-- `filesys_init` for the partition that it mounts. -/
def filesysInit (s : State) (startLba secCnt : UInt32) (pad : Vector UInt8 460) :
    Except Fault State := do
  let (sbBuf, s) := sysMalloc s 512
  ensure Fault.assert sbBuf.isSome
  let sbBuf ← deref sbBuf
  let sbBuf ← ideReadAll s (startLba + 1) sbBuf 1
  let s ← if (SuperBlock.ofBytes sbBuf.bytes).magic = 0x19590318 then .ok s
    else partitionFormat s startLba secCnt pad
  let s ← mountPartition s startLba secCnt
  let s ← openRootDir s
  .ok { s with fileTable := s.fileTable.map fun f => { f with fdInode := none } }

end Source

section Reading

variable {b : Buffer}

/-- Each command reads the sectors behind those already read. -/
theorem ideReadLoop_eq (s : State) (lba cnt fuel : ℕ) (hmax : lba + cnt ≤ maxLba + 1)
    (hsize : 512 * cnt ≤ b.size) : ∀ done ≤ cnt, cnt ≤ done + fuel →
    ideReadLoop s lba cnt fuel done (b.put 0 (512 * done) (slice s.disk (512 * lba))) =
      .ok (b.put 0 (512 * cnt) (slice s.disk (512 * lba))) := by
  induction fuel with
  | zero =>
    intro done hle hfuel
    obtain rfl : done = cnt := by omega
    simp [ideReadLoop]
  | succ fuel ih =>
    intro done hle hfuel
    unfold ideReadLoop
    by_cases hlt : done < cnt
    · rw [if_pos hlt]
      dsimp only
      obtain ⟨secsOp, hop⟩ : ∃ secsOp, secsOp = if done + 256 ≤ cnt then 256 else cnt - done :=
        ⟨_, rfl⟩
      have hpos : 0 < secsOp ∧ done + secsOp ≤ cnt := by
        rw [hop]
        split_ifs <;> omega
      rw [← hop, ensure_of (show lba + done ≤ maxLba by omega), ok_bind,
        Buffer.copy_of_le (by rw [Buffer.put_size]; omega), ok_bind]
      have hnext := ih (done + secsOp) hpos.2 (by omega)
      rw [← hnext]
      congr 1
      simp only [Buffer.put, Buffer.mk.injEq, true_and]
      have happend :=
        overlay_append b.bytes (slice s.disk (512 * lba)) 0 (512 * done) (512 * secsOp)
      rw [slice_slice, Nat.zero_add, ← Nat.mul_add, ← Nat.mul_add] at happend
      exact happend
    · rw [if_neg hlt, show done = cnt by omega]

theorem ideReadAll_eq (s : State) {lba cnt : UInt32} (hpos : 0 < cnt.toNat)
    (hmax : lba.toNat + cnt.toNat ≤ maxLba + 1) (hsize : 512 * cnt.toNat ≤ b.size) :
    ideReadAll s lba b cnt = .ok (b.put 0 (512 * cnt.toNat) (slice s.disk (512 * lba.toNat))) := by
  have hloop := ideReadLoop_eq s lba.toNat cnt.toNat cnt.toNat hmax hsize 0 (Nat.zero_le _)
    (by omega)
  rw [Nat.mul_zero, Buffer.put, overlay_zero] at hloop
  rw [ideReadAll, ensure_of (show lba.toNat ≤ maxLba by omega), ok_bind, ensure_of hpos, ok_bind]
  exact hloop

end Reading

section Root

variable {b : Buffer} {sb : SuperBlock} {m m' : Image} {n : ℕ}

/-- The record of the root directory on a new partition. -/
def rootInode (dataStartLba : UInt32) : Inode :=
  { (inodeInit 0).setSector 0 dataStartLba with iSize := 48 }

/-- What `partition_format` stores into a buffer for the inode table. -/
def storeRoot (sb : SuperBlock) (m : Image) : Image :=
  overlay (overlay (overlay m (4 * 1) 4 (wordByte (sb.dirEntrySize * 2))) (4 * 0) 4 (wordByte 0))
    (4 * 4) 4 (wordByte sb.dataStartLba)

/-- What it stores into a buffer for the block of the root directory. -/
def storeDots (m : Image) : Image :=
  overlay (overlay (overlay (overlay (overlay (overlay m 0 1 fun _ => 0x2e)
    (4 * 4) 4 (wordByte 0)) (4 * 5) 4 (wordByte ftDirectory)) 24 2 fun _ => 0x2e)
      (4 * 10) 4 (wordByte 0)) (4 * 11) 4 (wordByte ftDirectory)

/-- `.` and `..`, which both name the root directory. -/
def dotEntry : DirEntry :=
  ⟨⟨#[0x2e, 0, 0, 0, 0, 0, 0, 0, 0, 0, 0, 0, 0, 0, 0, 0], rfl⟩, 0, ftDirectory⟩

def dotsEntry : DirEntry :=
  ⟨⟨#[0x2e, 0x2e, 0, 0, 0, 0, 0, 0, 0, 0, 0, 0, 0, 0, 0, 0], rfl⟩, 0, ftDirectory⟩

theorem overlay_agree {a len : ℕ} {src : Image} (h : ∀ i < n, m i = m' i) :
    ∀ i < n, overlay m a len src i = overlay m' a len src i := by
  intro i hi
  unfold overlay
  rw [h i hi]

theorem storeDots_agree (h : ∀ i < n, m i = m' i) : ∀ i < n, storeDots m i = storeDots m' i :=
  overlay_agree (overlay_agree (overlay_agree (overlay_agree (overlay_agree (overlay_agree h)))))

theorem wordAt_storeRoot (sb : SuperBlock) (m : Image) (k : ℕ) : wordAt (storeRoot sb m) (4 * k) =
    if k = 4 then sb.dataStartLba else if k = 0 then 0
    else if k = 1 then sb.dirEntrySize * 2 else wordAt m (4 * k) := by
  simp only [storeRoot, wordAt_overlay_word]

/-- The stores make the record of the root directory. -/
theorem storeRoot_record (hsize : sb.dirEntrySize = 24) (hzero : ∀ i < 76, m i = 0) :
    ∀ i < 76, storeRoot sb m i = (rootInode sb.dataStartLba).bytes i := by
  refine eq_of_words (n := 19) fun k hk => ?_
  have hword : wordAt m (4 * k) = 0 := by
    rw [← wordAt_zeros (4 * k)]
    exact wordAt_congr fun i hi => hzero _ (by omega)
  rw [wordAt_storeRoot, Inode.bytes, wordAt_ofWords, hword, hsize]
  have hcases : ∀ j < 19, (if j = 4 then sb.dataStartLba else if j = 0 then 0
      else if j = 1 then 24 * 2 else 0 : UInt32) = (rootInode sb.dataStartLba).word j := by
    intro j hj
    interval_cases j <;> rfl
  exact hcases k hk

theorem storeDots_entry {j : ℕ} (hj : j < 21) :
    DirEntry.ofBytes (slice (storeDots zeros) (direntSize * j)) =
      if j = 0 then dotEntry else if j = 1 then dotsEntry else DirEntry.ofBytes zeros := by
  revert j
  decide

/-- The disk has an inode bitmap in which only inode 0 is taken, the record of an empty root
directory, and its block. -/
structure RootOnDisk (d : Image) (sb : SuperBlock) : Prop where
  inodeBit : ∀ i < 512, d (512 * sb.inodeBitmapLba.toNat + i) = if i = 0 then 1 else 0
  record : ∀ i < 76, d (512 * sb.inodeTableLba.toNat + i) = (rootInode sb.dataStartLba).bytes i
  entries : ∀ i < 512, d (512 * sb.dataStartLba.toNat + i) = storeDots zeros i

theorem formatInodes_root (s : State) (hentry : sb.dirEntrySize = 24)
    (hone : sb.inodeBitmapSects.toNat = 1) (htable : sb.inodeTableSects.toNat = 608)
    (hnext : sb.inodeBitmapLba.toNat + 1 ≤ sb.inodeTableLba.toNat)
    (hdata : sb.inodeTableLba.toNat + 608 ≤ sb.dataStartLba.toNat) :
    Outcome (formatInodes s sb b) (fun t => RootOnDisk t.disk sb ∧ ∃ d, t = s.setDisk d)
      (fun _ => True) := by
  have hlarge : 512 * 608 ≤ formatBufSize sb := by
    rw [formatBufSize, htable]
    omega
  unfold formatInodes
  refine outcome_copy (fun _ => trivial) fun _ => ?_
  refine outcome_copy (fun _ => trivial) fun _ => ?_
  refine Outcome.bind ((ideWriteAll_outcome ..).mono (fun _ ht => ht.2) fun _ _ => trivial) ?_
  rintro t₁ rfl
  refine outcome_copy (fun _ => trivial) fun _ => ?_
  refine outcome_setWord (fun _ => trivial) fun _ => ?_
  refine outcome_setWord (fun _ => trivial) fun _ => ?_
  refine outcome_setWord (fun _ => trivial) fun _ => ?_
  refine Outcome.bind ((ideWriteAll_outcome ..).mono (fun _ ht => ht.2) fun _ _ => trivial) ?_
  rintro t₂ rfl
  refine outcome_copy (fun _ => trivial) fun _ => ?_
  refine outcome_copy (fun _ => trivial) fun _ => ?_
  refine outcome_setWord (fun _ => trivial) fun _ => ?_
  refine outcome_setWord (fun _ => trivial) fun _ => ?_
  refine outcome_copy (fun _ => trivial) fun _ => ?_
  refine outcome_setWord (fun _ => trivial) fun _ => ?_
  refine outcome_setWord (fun _ => trivial) fun _ => ?_
  refine (ideWriteAll_outcome ..).mono (fun t ht => ?_) fun _ _ => trivial
  obtain ⟨-, rfl⟩ := ht
  have hzero (m : Image) : ∀ i < 512 * 608, overlay m 0 (formatBufSize sb) zeros i = 0 := by
    intro i hi
    rw [overlay_inside (by omega) (by omega), zeros_apply]
  refine ⟨⟨fun i hi => ?_, fun i hi => ?_, fun i hi => ?_⟩, _, rfl⟩
  · rw [setDisk_disk, overlay_outside (by omega), setDisk_disk, overlay_outside (by omega),
      setDisk_disk, overlay_at (by omega)]
    simp only [Buffer.put_bytes]
    by_cases hi0 : i = 0
    · subst hi0
      rw [overlay_inside (by omega) (by omega), hzero _ 0 (by omega)]
      rfl
    · rw [overlay_outside (by omega), hzero _ i (by omega), if_neg hi0]
  · rw [setDisk_disk, overlay_outside (by omega), setDisk_disk, overlay_at (by omega)]
    exact storeRoot_record hentry (fun j hj => hzero _ j (by omega)) i hi
  · rw [setDisk_disk, UInt32.toNat_one, overlay_at (by omega)]
    exact storeDots_agree (n := 512) (fun j hj => hzero _ j (by omega)) i hi

theorem partitionFormat_root {startLba secCnt : UInt32} {pad : Vector UInt8 460} (s : State)
    (hsizes : LayoutSizes startLba secCnt (superBlock startLba secCnt pad)) :
    Outcome (partitionFormat s startLba secCnt pad)
      (fun t => RootOnDisk t.disk (superBlock startLba secCnt pad) ∧
        ∃ d, t = { s with disk := d, heap := fun k => s.heap (k + 1) })
      (fun _ => True) := by
  unfold partitionFormat
  dsimp only
  refine Outcome.bind ((ideWriteAll_outcome ..).mono (fun _ ht => ht.2) fun _ _ => trivial) ?_
  rintro t₁ rfl
  cases hheap : s.heap 0 with
  | false =>
    simp only [sysMalloc, State.setDisk, hheap]
    simp
  | true =>
    simp only [sysMalloc, State.setDisk, hheap, if_true, deref_some, ok_bind]
    refine Outcome.bind ((fillBlockBitmap_outcome rfl _).mono (fun _ hb => hb)
      fun _ _ => trivial) ?_
    rintro buf -
    refine Outcome.bind ((ideWriteAll_outcome ..).mono (fun _ ht => ht.2) fun _ _ => trivial) ?_
    rintro t₂ rfl
    refine (formatInodes_root _ rfl hsizes.inodeBitmapSects hsizes.inodeTableSects ?_ ?_).mono ?_
      fun _ _ => trivial
    · rw [hsizes.inodeBitmapLba, hsizes.inodeTableLba]
      omega
    · rw [hsizes.inodeTableLba, hsizes.dataStartLba]
      omega
    · rintro t ⟨hroot, d, rfl⟩
      exact ⟨hroot, d, rfl⟩

end Root

section EmptyRoot

variable {d : Image} {w : UInt32}

theorem rootInode_blockLba (w : UInt32) (d : Image) (k : ℕ) :
    (rootInode w).blockLba d k = if k = 0 then w else 0 := by
  have htable : (rootInode w).sector 12 = 0 := rfl
  have hsector : ∀ j < 12, (rootInode w).sector j = if j = 0 then w else 0 := by
    intro j hj
    interval_cases j <;> rfl
  unfold Inode.blockLba
  by_cases hk : k < 12
  · rw [if_pos hk, hsector k hk]
  · rw [if_neg hk, htable, if_neg (by simp), if_neg (by omega)]

theorem rootInode_dirEntries (hw : w ≠ 0)
    (hentries : ∀ i < 512, d (512 * w.toNat + i) = storeDots zeros i) :
    dirEntries d (rootInode w) = (List.range 21).map fun j =>
      if j = 0 then dotEntry else if j = 1 then dotsEntry else DirEntry.ofBytes zeros := by
  have hblock : (List.range 21).map (dirEntryAt d w) = (List.range 21).map fun j =>
      if j = 0 then dotEntry else if j = 1 then dotsEntry else DirEntry.ofBytes zeros := by
    refine List.map_congr_left fun j hj => ?_
    have hj : j < 21 := List.mem_range.mp hj
    rw [← storeDots_entry hj, dirEntryAt]
    refine DirEntry.ofBytes_congr fun i hi => ?_
    have hi : i < 24 := hi
    have hbyte := hentries (direntSize * j + i) (by unfold direntSize; omega)
    rwa [← Nat.add_assoc] at hbyte
  unfold dirEntries
  simp only [rootInode_blockLba]
  rw [← hblock, show 140 = 1 + 139 from rfl, List.range_add, List.flatMap_append]
  simp [hw]

end EmptyRoot

section Mounted

variable {startLba secCnt : UInt32} {pad : Vector UInt8 460} {s : State}

/-- The partition has the places that the super block names. -/
structure Partition.Describes (part : Partition) (startLba secCnt : UInt32) (sb : SuperBlock) :
    Prop where
  startLba : part.startLba = startLba.toNat
  secCnt : part.secCnt = secCnt.toNat
  blockBitmapLba : part.blockBitmapLba = sb.blockBitmapLba.toNat
  blockBitmapSects : part.blockBitmapSects = sb.blockBitmapSects.toNat
  inodeBitmapLba : part.inodeBitmapLba = sb.inodeBitmapLba.toNat
  inodeBitmapSects : part.inodeBitmapSects = sb.inodeBitmapSects.toNat
  inodeTableLba : part.inodeTableLba = sb.inodeTableLba.toNat
  dataStartLba : part.dataStartLba = sb.dataStartLba.toNat

theorem Partition.ofSuperBlock_describes {sb : SuperBlock} {part : Partition}
    (h : Partition.ofSuperBlock startLba secCnt sb = some part) :
    part.Describes startLba secCnt sb := by
  unfold Partition.ofSuperBlock at h
  split_ifs at h
  obtain rfl := Option.some.inj h
  exact ⟨rfl, rfl, rfl, rfl, rfl, rfl, rfl, rfl⟩

theorem LayoutSizes.partition (h : LayoutSizes startLba secCnt (superBlock startLba secCnt pad))
    (hsec : 620 ≤ secCnt.toNat) (hend : startLba.toNat + secCnt.toNat ≤ maxLba) :
    ∃ part : Partition,
      Partition.ofSuperBlock startLba secCnt (superBlock startLba secCnt pad) = some part := by
  have hbits := h.bitLen
  have hsects := h.blockBitmapSects
  have hlba := h.blockBitmapLba
  have hinode := h.inodeBitmapLba
  have hone := h.inodeBitmapSects
  have htable := h.inodeTableLba
  have hrecords := h.inodeTableSects
  have hdata := h.dataStartLba
  unfold Partition.ofSuperBlock
  rw [dif_pos ⟨hlba, by omega, hone, by omega, hrecords, by omega, rfl, rfl, by omega, by omega⟩]
  exact ⟨_, rfl⟩

/-- A bitmap is read as it is on the disk. -/
theorem mountBitmap_eq {lba sects : UInt32} (hheap : s.heap 0 = true) (hpos : 0 < sects.toNat)
    (hmax : lba.toNat + sects.toNat ≤ maxLba + 1) :
    ∃ btmp : Bitmap, btmp.btmpBytesLen = 512 * sects.toNat ∧
      (∀ i < 512 * sects.toNat, btmp.bits i = s.disk (512 * lba.toNat + i)) ∧
      mountBitmap s lba sects = .ok (btmp, { s with heap := fun k => s.heap (k + 1) }) := by
  have hsize : (sects * 512).toNat = 512 * sects.toNat := by
    have hmax : lba.toNat + sects.toNat ≤ 163840 := hmax
    rw [UInt32.toNat_mul]
    show sects.toNat * 512 % 4294967296 = _
    omega
  refine ⟨⟨512 * sects.toNat, overlay zeros 0 (512 * sects.toNat) (slice s.disk (512 * lba.toNat))⟩,
    rfl, fun i hi => ?_, ?_⟩
  · dsimp only
    rw [overlay_inside (Nat.zero_le i) (by omega), Nat.sub_zero, slice_apply]
  · unfold mountBitmap
    simp only [sysMalloc, hheap, if_true, Option.isSome_some, deref_some, ok_bind, hsize]
    rw [ensure_of trivial, ok_bind, ideReadAll_eq _ hpos hmax le_rfl]
    rfl

/-- The super block is read from the sector behind the boot sector. -/
theorem readSuperBlock (s : State) (hend : startLba.toNat + 1 ≤ maxLba) :
    ∃ b, ideReadAll s (startLba + 1) ⟨512, zeros⟩ 1 = .ok b ∧
      SuperBlock.ofBytes b.bytes = mountSuperBlock s.disk startLba := by
  have hmax : maxLba = 163839 := rfl
  have hstart : (startLba + 1).toNat = startLba.toNat + 1 := by
    rw [UInt32.toNat_add, UInt32.toNat_one]
    omega
  refine ⟨_, ideReadAll_eq s (by decide) (by rw [UInt32.toNat_one]; omega)
    (by rw [UInt32.toNat_one]), ?_⟩
  refine SuperBlock.ofBytes_congr fun i hi => ?_
  rw [Buffer.put_bytes, hstart, UInt32.toNat_one,
    overlay_inside (Nat.zero_le i) (by omega), Nat.sub_zero]

/-- The super block and the bitmaps of the partition are read into memory. -/
theorem mountPartition_eq {part : Partition} (hheap : ∀ k, s.heap k = true)
    (hpart : Partition.ofSuperBlock startLba secCnt (mountSuperBlock s.disk startLba) = some part)
    (hpos : 0 < part.blockBitmapSects) :
    ∃ blockBitmap inodeBitmap : Bitmap,
      blockBitmap.btmpBytesLen = 512 * part.blockBitmapSects ∧
      (∀ i < 512 * part.blockBitmapSects,
        blockBitmap.bits i = s.disk (512 * part.blockBitmapLba + i)) ∧
      inodeBitmap.btmpBytesLen = 512 * part.inodeBitmapSects ∧
      (∀ i < 512 * part.inodeBitmapSects,
        inodeBitmap.bits i = s.disk (512 * part.inodeBitmapLba + i)) ∧
      mountPartition s startLba secCnt = .ok { s with
        part := part
        blockBitmap := blockBitmap
        inodeBitmap := inodeBitmap
        openInodes := []
        heap := fun k => s.heap (k + 4) } := by
  have hdesc := Partition.ofSuperBlock_describes hpart
  have hlba := part.blockBitmapLba_eq
  have hinode := part.inodeBitmapLba_eq
  have hone := part.inodeBitmapSects_eq
  have htable := part.inodeTableLba_eq
  have hrecords := part.inodeTableSects_eq
  have hdata := part.dataStartLba_eq
  have hle := part.dataStartLba_le
  have hend := part.end_le
  rw [hdesc.startLba, hdesc.secCnt] at hend
  have hsecs := hdesc.secCnt
  have hstart := hdesc.startLba
  obtain ⟨b, hread, hb⟩ := readSuperBlock { s with heap := fun k => s.heap (k + 1 + 1) }
    (show startLba.toNat + 1 ≤ maxLba by omega)
  unfold mountPartition
  simp only [sysMalloc, hheap 0, hheap (0 + 1), if_true, Option.isSome_some, deref_some, ok_bind]
  rw [ensure_of trivial, ok_bind, hread, ok_bind, hb]
  dsimp only
  obtain ⟨blockBitmap, hlen, hbits, hblock⟩ :=
    @mountBitmap_eq { s with heap := fun k => s.heap (k + 2) } _ _ (hheap 2)
      (hdesc.blockBitmapSects ▸ hpos)
      (show (mountSuperBlock s.disk startLba).blockBitmapLba.toNat + _ ≤ maxLba + 1 by
        rw [← hdesc.blockBitmapLba, ← hdesc.blockBitmapSects]
        omega)
  obtain ⟨inodeBitmap, hlen', hbits', hinode⟩ :=
    @mountBitmap_eq { s with heap := fun k => s.heap (k + 3) } _ _ (hheap 3)
      (show 0 < (mountSuperBlock s.disk startLba).inodeBitmapSects.toNat by
        rw [← hdesc.inodeBitmapSects]
        omega)
      (show (mountSuperBlock s.disk startLba).inodeBitmapLba.toNat + _ ≤ maxLba + 1 by
        rw [← hdesc.inodeBitmapLba, ← hdesc.inodeBitmapSects]
        omega)
  refine ⟨blockBitmap, inodeBitmap, ?_, ?_, ?_, ?_, ?_⟩
  · rw [hlen, hdesc.blockBitmapSects]
  · rw [hdesc.blockBitmapLba, hdesc.blockBitmapSects]
    exact hbits
  · rw [hlen', hdesc.inodeBitmapSects]
  · rw [hdesc.inodeBitmapLba, hdesc.inodeBitmapSects]
    exact hbits'
  · rw [hblock, ok_bind]
    dsimp only
    rw [hinode, ok_bind]
    dsimp only
    rw [hpart, deref_some, ok_bind]

/-- What `filesys_init` leaves of a disk with a file system: the bitmaps as they are on the disk
and one open inode, that of the root directory. -/
structure RootOpened (s t : State) (p : Partition) : Prop where
  disk : t.disk = s.disk
  part : t.part = p
  blockLen : t.blockBitmap.btmpBytesLen = 512 * p.blockBitmapSects
  blockBits : ∀ i < 512 * p.blockBitmapSects,
    t.blockBitmap.bits i = s.disk (512 * p.blockBitmapLba + i)
  inodeLen : t.inodeBitmap.btmpBytesLen = 512 * p.inodeBitmapSects
  inodeBits : ∀ i < 512 * p.inodeBitmapSects,
    t.inodeBitmap.bits i = s.disk (512 * p.inodeBitmapLba + i)
  openInodes : t.openInodes = [t.rootDir]
  root : t.inodes t.rootDir = some { Inode.ofBytes (diskRecord t 0) with iOpenCnts := 1 }
  inodes : ∀ a x, t.inodes a = some x → a = t.rootDir ∨ s.inodes a = some x
  rootDir : t.rootDir = s.nextInode
  nextInode : t.nextInode = s.nextInode + 1
  fileTable : t.fileTable = s.fileTable.map fun f => { f with fdInode := none }
  tasks : t.tasks = s.tasks
  heap : ∀ k, t.heap k = true

/-- Mounting, opening the root directory and clearing the file table. -/
theorem mountRoot_opened {p : Partition} (hheap : ∀ k, s.heap k = true)
    (hpart : Partition.ofSuperBlock startLba secCnt (mountSuperBlock s.disk startLba) = some p)
    (hpos : 0 < p.blockBitmapSects) :
    ∃ t, (do
      let s ← mountPartition s startLba secCnt
      let s ← openRootDir s
      .ok { s with fileTable := s.fileTable.map fun f => { f with fdInode := none } } :
        Except Fault State) = .ok t ∧
      RootOpened s t p := by
  obtain ⟨blockBitmap, inodeBitmap, hlen, hbits, hlen', hbits', hmount⟩ :=
    mountPartition_eq hheap hpart hpos
  have hroot := p.rootInodeNo_eq
  rw [hmount, ok_bind, openRootDir, inodeOpen]
  dsimp only
  rw [hroot, findOpen, ok_bind]
  dsimp only
  rw [inodeLoad_fresh (by decide) (hheap 4) (hheap 5), ok_bind, ok_bind]
  refine ⟨_, rfl, ?_⟩
  exact
    { disk := rfl
      part := rfl
      blockLen := hlen
      blockBits := hbits
      inodeLen := hlen'
      inodeBits := hbits'
      openInodes := rfl
      root := by
        dsimp only
        rw [Function.update_self]
        rfl
      inodes := by
        intro a x hx
        dsimp only at hx ⊢
        by_cases ha : a = s.nextInode
        · exact Or.inl ha
        · right
          rwa [Function.update_of_ne ha] at hx
      rootDir := rfl
      nextInode := rfl
      fileTable := rfl
      tasks := rfl
      heap := fun k => hheap _ }

/-- The sector behind the boot sector is read first. -/
theorem filesysInit_eq (hheap : ∀ k, s.heap k = true) (hend : startLba.toNat + 1 ≤ maxLba) :
    filesysInit s startLba secCnt pad = (do
      let s ← if (mountSuperBlock s.disk startLba).magic = 0x19590318 then .ok s.popHeap
        else partitionFormat s.popHeap startLba secCnt pad
      let s ← mountPartition s startLba secCnt
      let s ← openRootDir s
      .ok { s with fileTable := s.fileTable.map fun f => { f with fdInode := none } }) := by
  obtain ⟨b, hread, hb⟩ := readSuperBlock s.popHeap hend
  unfold filesysInit
  rw [sysMalloc_of_heap (hheap 0)]
  dsimp only
  rw [Option.isSome_some, ensure_of rfl, ok_bind, deref_some, ok_bind, hread, ok_bind, hb]
  rfl

/-- A disk with a file system is only mounted. -/
theorem filesysInit_mounts {p : Partition} (hheap : ∀ k, s.heap k = true)
    (hmagic : (mountSuperBlock s.disk startLba).magic = 0x19590318)
    (hpart : Partition.ofSuperBlock startLba secCnt (mountSuperBlock s.disk startLba) = some p)
    (hpos : 0 < p.blockBitmapSects) :
    ∃ t, filesysInit s startLba secCnt pad = .ok t ∧ RootOpened s t p := by
  have hdesc := Partition.ofSuperBlock_describes hpart
  have hle := p.dataStartLba_le
  have hend := p.end_le
  have hdata := p.dataStartLba_eq
  have htable := p.inodeTableLba_eq
  have hinode := p.inodeBitmapLba_eq
  have hblock := p.blockBitmapLba_eq
  have hstart := hdesc.startLba
  obtain ⟨t, ht, hopened⟩ := @mountRoot_opened _ _ s.popHeap p (fun k => hheap (k + 1)) hpart hpos
  refine ⟨t, ?_, ?_⟩
  · rw [filesysInit_eq hheap (by omega), if_pos hmagic, ok_bind]
    exact ht
  · exact { hopened with }

end Mounted

section Fresh

variable {startLba secCnt : UInt32} {pad : Vector UInt8 460} {p : Partition}

/-- The kernel before `filesys_init`: no file is open, the processes have the standard streams and
there is memory. -/
structure Starting (s : Session) : Prop where
  noPipes : ∀ f ∈ s.fs.fileTable.toList, f.fdFlag ≠ pipeFlag
  used : ∀ a x, s.fs.inodes a = some x → a < s.fs.nextInode
  std : ∀ p t, s.fs.tasks p = some t → p < 1024 ∧ t = stdTask
  cwd : ∀ p, s.cwdInodeNr p = 0
  noPages : s.ringPages = ∅
  noHandles : s.handles = 0
  heap : ∀ k, s.fs.heap k = true

theorem RootOpened.session {s : Session} {t : State} (h : Starting s) (ho : RootOpened s.fs t p) :
    SessionStart { s with fs := t } where
  noSlots f hf := by
    have hf : f ∈ t.fileTable := Vector.mem_toList_iff.mp hf
    rw [ho.fileTable, Vector.mem_map] at hf
    obtain ⟨g, hg, rfl⟩ := hf
    exact ⟨rfl, h.noPipes g (Vector.mem_toList_iff.mpr hg)⟩
  openInodes := ho.openInodes
  rootOpen := ⟨_, ho.root, Nat.one_pos⟩
  used a x hx := by
    rw [ho.nextInode]
    rcases ho.inodes a x hx with ha | hx
    · rw [ha, ho.rootDir]
      exact Nat.lt_succ_self _
    · exact Nat.lt_succ_of_lt (h.used a x hx)
  std p' t' ht' := h.std p' t' (ho.tasks ▸ ht')
  cwd := h.cwd
  noPages := h.noPages
  noHandles := h.noHandles

/-- An empty file system is mounted. -/
structure EmptyRoot (t : State) (secCnt : UInt32) : Prop where
  mounted : Mounted t
  root : ∃ x, t.inodes t.rootDir = some x ∧ x.iNo = 0 ∧ WellFormedDir t x ∧ ListedDir t x ∧
    listing t.disk x = [dotEntry, dotsEntry]
  inodes : t.inodeBitmap.free = (Finset.range 4096).erase 0
  blocks : ∀ i < (blockBitmapBitLen secCnt).toNat, i ∈ t.blockBitmap.free ↔ i ≠ 0

variable {s t : State}

/-- The record of the root directory is read as it was written. -/
theorem RootOnDisk.opened (h : RootOnDisk s.disk (superBlock startLba secCnt pad))
    (hdesc : p.Describes startLba secCnt (superBlock startLba secCnt pad)) (ho : RootOpened s t p) :
    t.inodes t.rootDir = some { rootInode (superBlock startLba secCnt pad).dataStartLba with
      iOpenCnts := 1 } := by
  have hrecord : Inode.ofBytes (diskRecord t 0) =
      Inode.ofBytes (rootInode (superBlock startLba secCnt pad).dataStartLba).bytes := by
    refine Inode.ofBytes_congr fun i hi => ?_
    rw [← h.record i hi, ← hdesc.inodeTableLba, ← ho.disk, ← ho.part]
    rfl
  rw [ho.root, hrecord, Inode.ofBytes_bytes]

theorem RootOpened.inodes_free (h : RootOnDisk s.disk (superBlock startLba secCnt pad))
    (hdesc : p.Describes startLba secCnt (superBlock startLba secCnt pad)) (ho : RootOpened s t p) :
    t.inodeBitmap.free = (Finset.range 4096).erase 0 := by
  have hone := p.inodeBitmapSects_eq
  have hlen := ho.inodeLen
  rw [hone, Nat.mul_one] at hlen
  ext i
  rw [Bitmap.mem_free, hlen, Finset.mem_erase, Finset.mem_range, and_comm]
  refine and_congr_left fun hi => ?_
  rw [bitmapScanTest_eq, ho.inodeBits _ (by omega), hdesc.inodeBitmapLba,
    h.inodeBit _ (by omega)]
  by_cases hbyte : i / 8 = 0
  · have hlt : i < 8 := by omega
    interval_cases i <;> decide
  · rw [if_neg hbyte]
    simp
    omega

theorem RootOpened.emptyRoot (hform : Formatted s.disk startLba secCnt pad)
    (h : RootOnDisk s.disk (superBlock startLba secCnt pad))
    (hdesc : p.Describes startLba secCnt (superBlock startLba secCnt pad)) (ho : RootOpened s t p)
    (hsec : 620 ≤ secCnt.toNat) (hend : startLba.toNat + secCnt.toNat ≤ maxLba) :
    EmptyRoot t secCnt := by
  obtain ⟨hz, -, hbit⟩ := hform
  have hbits := hz.bitLen
  have hsects := hz.blockBitmapSects
  have hdata := hz.dataStartLba
  have hinodes := ho.inodes_free h hdesc
  have hopened := h.opened hdesc ho
  have hentries := h.entries
  set sb := superBlock startLba secCnt pad with hsb
  have hlen : t.blockBitmap.btmpBytesLen = 512 * sb.blockBitmapSects.toNat := by
    rw [ho.blockLen, hdesc.blockBitmapSects]
  have hscan : ∀ i < 4096 * sb.blockBitmapSects.toNat, (bitmapScanTest t.blockBitmap i = true ↔
      i = 0 ∨ (blockBitmapBitLen secCnt).toNat < i) := by
    intro i hi
    have hbyte : t.blockBitmap.bits (i / 8) = (mountBlockBitmap s.disk sb).bits (i / 8) := by
      rw [ho.blockBits _ (by rw [hdesc.blockBitmapSects]; omega), hdesc.blockBitmapLba]
      rfl
    have hsame : bitmapScanTest t.blockBitmap i =
        bitmapScanTest (mountBlockBitmap s.disk sb) i := by
      rw [bitmapScanTest, bitmapScanTest, hbyte]
    rw [hsame, hbit i hi]
    omega
  have hmem : ∀ i, i ∈ t.blockBitmap.free ↔ i < 4096 * sb.blockBitmapSects.toNat ∧ i ≠ 0 ∧
      i ≤ (blockBitmapBitLen secCnt).toNat := by
    intro i
    rw [Bitmap.mem_free, hlen, ← Bool.not_eq_true]
    constructor
    · rintro ⟨hi, hclear⟩
      rw [hscan i (by omega)] at hclear
      omega
    · rintro ⟨hi, hclear⟩
      refine ⟨by omega, ?_⟩
      rw [hscan i hi]
      omega
  have hstart : t.part.dataStartLba = sb.dataStartLba.toNat := by
    rw [ho.part, hdesc.dataStartLba]
  have hused : UsedBlock t sb.dataStartLba := by
    refine ⟨hstart.le, by omega, ?_⟩
    rw [hstart, Nat.sub_self]
    exact (hscan 0 (by omega)).mpr (Or.inl rfl)
  have hzero : sb.dataStartLba ≠ 0 := by
    intro hz
    rw [hz, UInt32.toNat_zero] at hdata
    omega
  have hblock : ∀ k, ({ rootInode sb.dataStartLba with iOpenCnts := 1 } : Inode).blockLba t.disk k =
      if k = 0 then sb.dataStartLba else 0 := rootInode_blockLba _ _
  have hdir : dirEntries t.disk { rootInode sb.dataStartLba with iOpenCnts := 1 } = _ :=
    rootInode_dirEntries hzero (ho.disk ▸ hentries)
  have hlist : listing t.disk { rootInode sb.dataStartLba with iOpenCnts := 1 } =
      [dotEntry, dotsEntry] := by
    rw [listing, hdir]
    rfl
  have hsize : (48 : UInt32).toNat % direntSize = 0 := rfl
  have hsize' : (48 : UInt32).toNat ≤ 140 * 512 := by decide
  refine ⟨⟨?_, ?_, ?_⟩, ⟨_, hopened, rfl, ⟨hsize, hsize', ?_, ?_, ?_⟩, ⟨?_, ?_, ?_, ?_, ?_⟩, hlist⟩,
    hinodes, ?_⟩
  · rw [hlen, ho.part, hdesc.blockBitmapSects]
  · rw [ho.inodeLen, ho.part]
  · intro i hi
    have hi := (hmem i).mp hi
    omega
  · intro htable
    exact absurd rfl htable
  · intro k hk
    rw [hblock] at hk ⊢
    split_ifs at hk ⊢
    · exact hused
    · exact absurd rfl hk
  · intro k hk
    rw [hblock] at hk ⊢
    exact hk
  · exact Nat.zero_le _
  · intro k _
    rw [hblock]
    split_ifs
    · exact hused.le_max
    · exact Nat.zero_le _
  · rw [hlist]
    rfl
  · rw [hdir]
    decide
  · rw [hlist]
    decide
  · intro i hi
    rw [hmem]
    omega

/-- The layout that `partition_format` computes is the one that mounting expects. -/
theorem Formatted.partition {d : Image} (h : Formatted d startLba secCnt pad)
    (hsec : 620 ≤ secCnt.toNat) (hend : startLba.toNat + secCnt.toNat ≤ maxLba) :
    ∃ p, Partition.ofSuperBlock startLba secCnt (mountSuperBlock d startLba) = some p ∧
      p.Describes startLba secCnt (superBlock startLba secCnt pad) ∧ 0 < p.blockBitmapSects := by
  obtain ⟨p, hp⟩ := h.sizes.partition hsec hend
  have hdesc := Partition.ofSuperBlock_describes hp
  refine ⟨p, by rw [h.super, hp], hdesc, ?_⟩
  rw [hdesc.blockBitmapSects]
  exact blockBitmapSects_pos (by omega) (by omega)

/-- A disk without a file system gets one. -/
theorem filesysInit_formats (hheap : ∀ k, s.heap k = true) (hsec : 620 ≤ secCnt.toNat)
    (hend : startLba.toNat + secCnt.toNat ≤ maxLba)
    (hmagic : (mountSuperBlock s.disk startLba).magic ≠ 0x19590318) :
    ∃ t d p, filesysInit s startLba secCnt pad = .ok t ∧ Formatted d startLba secCnt pad ∧
      RootOnDisk d (superBlock startLba secCnt pad) ∧
      Partition.ofSuperBlock startLba secCnt (mountSuperBlock d startLba) = some p ∧
      p.Describes startLba secCnt (superBlock startLba secCnt pad) ∧ 0 < p.blockBitmapSects ∧
      RootOpened { s with disk := d } t p := by
  have hpop : ∀ k, s.popHeap.heap k = true := fun k => hheap (k + 1)
  obtain ⟨r, hr, hform⟩ := @partitionFormat_returns startLba secCnt pad s.popHeap (hpop 0)
    (by omega) (by omega)
  obtain ⟨hroot, d, hd⟩ := (partitionFormat_root s.popHeap hform.sizes).of_ok hr
  obtain ⟨p, hp, hdesc, hpos⟩ := hform.partition hsec hend
  have hrheap : ∀ k, r.heap k = true := by
    rw [hd]
    exact fun k => hpop (k + 1)
  obtain ⟨t, ht, ho⟩ := mountRoot_opened hrheap hp hpos
  subst hd
  refine ⟨t, d, p, ?_, hform, hroot, hp, hdesc, hpos, { ho with }⟩
  rw [filesysInit_eq hheap (by omega), if_neg hmagic, hr, ok_bind]
  exact ht

/-- The first boot formats the disk and mounts an empty file system, and each later boot mounts
it again and leaves the disk as it is. -/
theorem fresh_partition_mounts {s : Session} (h : Starting s) (hsec : 620 ≤ secCnt.toNat)
    (hend : startLba.toNat + secCnt.toNat ≤ maxLba)
    (hmagic : (mountSuperBlock s.fs.disk startLba).magic ≠ 0x19590318) :
    ∃ t, filesysInit s.fs startLba secCnt pad = .ok t ∧ SessionStart { s with fs := t } ∧
      EmptyRoot t secCnt ∧
      ∀ (u : Session) (pad' : Vector UInt8 460), Starting u → u.fs.disk = t.disk →
        ∃ v, filesysInit u.fs startLba secCnt pad' = .ok v ∧ SessionStart { u with fs := v } ∧
          v.disk = t.disk ∧ EmptyRoot v secCnt := by
  obtain ⟨t, d, p, ht, hform, hroot, hp, hdesc, hpos, ho⟩ :=
    @filesysInit_formats startLba secCnt pad s.fs h.heap hsec hend hmagic
  have hdisk : t.disk = d := ho.disk
  refine ⟨t, ht, ?_, ho.emptyRoot hform hroot hdesc hsec hend, fun u pad' hu hsame => ?_⟩
  · exact RootOpened.session (s := { s with fs := { s.fs with disk := d } }) { h with } ho
  · rw [hdisk] at hsame
    obtain ⟨v, hv, hov⟩ := @filesysInit_mounts startLba secCnt pad' u.fs p hu.heap
      (by rw [hsame, hform.super]; rfl) (by rw [hsame, hp]) hpos
    exact ⟨v, hv, hov.session hu, by rw [hov.disk, hsame, hdisk],
      hov.emptyRoot (hsame ▸ hform) (hsame ▸ hroot) hdesc hsec hend⟩

/-- A kernel that starts with an empty disk. -/
def startingSession : Session := ⟨blankState, ∅, fun _ => 0, 0⟩

theorem startingSession_starting : Starting startingSession where
  noPipes f hf := by
    obtain rfl : f = ⟨0, 0, none⟩ := List.eq_of_mem_replicate (n := 32) hf
    decide
  used _ _ hx := by cases hx
  std _ _ ht := by cases ht
  cwd _ := rfl
  noPages := rfl
  noHandles := rfl
  heap _ := rfl

/-- A partition of 4708 sectors on an empty disk. -/
theorem fresh_partition_mounts_4708 :
    ∃ t, filesysInit startingSession.fs 0 4708 (Vector.replicate 460 0) = .ok t ∧
      SessionStart { startingSession with fs := t } ∧ EmptyRoot t 4708 := by
  obtain ⟨t, ht, hstart, hempty, -⟩ := @fresh_partition_mounts 0 4708 (Vector.replicate 460 0) _
    startingSession_starting (by decide) (by decide) (by decide)
  exact ⟨t, ht, hstart, hempty⟩

end Fresh

end X86System.FileSystem
