import X86System.Directory

/-!
# Formatting a partition

`partition_format` writes a super block, the two bitmaps, the inode table and the
root directory. The length of the block bitmap comes from two round-ups, the first
of which counts the sectors of a bitmap that is a little too long. Whether the bits
past the last block are set is then a question of how the partition's size lies
modulo the 4096 bits of a sector.
-/
namespace X86System.FileSystem
open Bytes Exec

/-- `DIV_ROUND_UP`. -/
def divRoundUp (x step : UInt32) : UInt32 := (x + step - 1) / step

/-- `MAX_FILES_PER_PART` and `BITS_PER_SECTOR`. -/
def maxFilesPerPart : UInt32 := 4096
def bitsPerSector : UInt32 := 4096

/-- `struct super_block`, one sector long. -/
structure SuperBlock where
  magic : UInt32
  secCnt : UInt32
  inodeCnt : UInt32
  partLbaBase : UInt32
  blockBitmapLba : UInt32
  blockBitmapSects : UInt32
  inodeBitmapLba : UInt32
  inodeBitmapSects : UInt32
  inodeTableLba : UInt32
  inodeTableSects : UInt32
  dataStartLba : UInt32
  rootInodeNo : UInt32
  dirEntrySize : UInt32
  pad : Vector UInt8 460

def SuperBlock.words (sb : SuperBlock) : List UInt32 :=
  [sb.magic, sb.secCnt, sb.inodeCnt, sb.partLbaBase, sb.blockBitmapLba, sb.blockBitmapSects,
    sb.inodeBitmapLba, sb.inodeBitmapSects, sb.inodeTableLba, sb.inodeTableSects,
    sb.dataStartLba, sb.rootInodeNo, sb.dirEntrySize]

def SuperBlock.bytes (sb : SuperBlock) : Image := fun i =>
  if i < 52 then ofWords (fun k => sb.words.getD k 0) i
  else if h : i - 52 < 460 then sb.pad[i - 52]
  else 0

/-- The super block that `mount_partition` copies from the sector it reads. -/
def SuperBlock.ofBytes (r : Image) : SuperBlock where
  magic := wordAt r (4 * 0)
  secCnt := wordAt r (4 * 1)
  inodeCnt := wordAt r (4 * 2)
  partLbaBase := wordAt r (4 * 3)
  blockBitmapLba := wordAt r (4 * 4)
  blockBitmapSects := wordAt r (4 * 5)
  inodeBitmapLba := wordAt r (4 * 6)
  inodeBitmapSects := wordAt r (4 * 7)
  inodeTableLba := wordAt r (4 * 8)
  inodeTableSects := wordAt r (4 * 9)
  dataStartLba := wordAt r (4 * 10)
  rootInodeNo := wordAt r (4 * 11)
  dirEntrySize := wordAt r (4 * 12)
  pad := Vector.ofFn fun k => r (52 + k)

/-- The sectors that are neither metadata of a fixed size nor used by the boot block. -/
def freeSects (secCnt : UInt32) : UInt32 :=
  secCnt - (1 + 1 + divRoundUp maxFilesPerPart bitsPerSector +
    divRoundUp (UInt32.ofNat inodeSize * maxFilesPerPart) 512)

/-- `block_bitmap_bit_len`, less the sectors of a bitmap for all free sectors. -/
def blockBitmapBitLen (secCnt : UInt32) : UInt32 :=
  freeSects secCnt - divRoundUp (freeSects secCnt) bitsPerSector

/-- The layout that `partition_format` computes. `pad` is what the stack held. -/
def superBlock (startLba secCnt : UInt32) (pad : Vector UInt8 460) : SuperBlock :=
  let inodeBitmapSects := divRoundUp maxFilesPerPart bitsPerSector
  let inodeTableSects := divRoundUp (UInt32.ofNat inodeSize * maxFilesPerPart) 512
  let blockBitmapSects := divRoundUp (blockBitmapBitLen secCnt) bitsPerSector
  let blockBitmapLba := startLba + 2
  let inodeBitmapLba := blockBitmapLba + blockBitmapSects
  let inodeTableLba := inodeBitmapLba + inodeBitmapSects
  { magic := 0x19590318
    secCnt := secCnt
    inodeCnt := maxFilesPerPart
    partLbaBase := startLba
    blockBitmapLba := blockBitmapLba
    blockBitmapSects := blockBitmapSects
    inodeBitmapLba := inodeBitmapLba
    inodeBitmapSects := inodeBitmapSects
    inodeTableLba := inodeTableLba
    inodeTableSects := inodeTableSects
    dataStartLba := inodeTableLba + inodeTableSects
    rootInodeNo := 0
    dirEntrySize := UInt32.ofNat direntSize
    pad := pad }

/-- The loop of `ide_write`: one command for at most 256 sectors. -/
def ideWriteLoop (lba secCnt : ℕ) (buf : Buffer) : ℕ → ℕ → State → Except Fault State
  | 0, secsDone, s => if secsDone < secCnt then .error .diverge else .ok s
  | fuel + 1, secsDone, s =>
    if secsDone < secCnt then do
      let secsOp := if secsDone + 256 ≤ secCnt then 256 else secCnt - secsDone
      ensure Fault.assert (lba + secsDone ≤ maxLba)
      ensure Fault.overrun (512 * (secsDone + secsOp) ≤ buf.size)
      ideWriteLoop lba secCnt buf fuel (secsDone + secsOp)
        (s.setDisk (overlay s.disk (512 * (lba + secsDone)) (512 * secsOp)
          (slice buf.bytes (512 * secsDone))))
    else .ok s

/-- `ide_write` of any number of sectors from the start of a buffer. -/
def ideWriteAll (s : State) (lba : UInt32) (buf : Buffer) (secCnt : UInt32) :
    Except Fault State := do
  ensure Fault.assert (lba.toNat ≤ maxLba)
  ensure Fault.assert (0 < secCnt.toNat)
  ideWriteLoop lba.toNat secCnt.toNat buf secCnt.toNat 0 s

/-- `while (bit_idx < n) byte &= ~(1 << bit_idx++)` -/
def clearBits (byte : UInt8) : ℕ → UInt8
  | 0 => byte
  | n + 1 => clearBits byte n &&& ~~~ bitmapMask n

/-- The block bitmap in the buffer: block 0 is taken, and so are the bits that stand for
no block. -/
def fillBlockBitmap (buf : Buffer) (bitLen : ℕ) : Except Fault Buffer := do
  let buf ← buf.copy 0 1 (fun _ => buf.bytes 0 ||| 0x01)
  let blockBitmapLastByte := bitLen / 8
  let blockBitmapLastBit := bitLen % 8
  let lastSize := 512 - blockBitmapLastByte % 512
  let buf ← buf.copy blockBitmapLastByte lastSize (fun _ => 0xff)
  -- the loop's condition is `bit_idx <= block_bitmap_last_bit`
  buf.copy blockBitmapLastByte 1
    (fun _ => clearBits (buf.bytes blockBitmapLastByte) (blockBitmapLastBit + 1))

/-- The largest of the three areas, in bytes. -/
def formatBufSize (sb : SuperBlock) : ℕ :=
  max (max sb.blockBitmapSects.toNat sb.inodeBitmapSects.toNat) sb.inodeTableSects.toNat * 512

/-- What `partition_format` writes after the block bitmap. -/
def formatInodes (s : State) (sb : SuperBlock) (buf : Buffer) : Except Fault State := do
  let buf ← buf.copy 0 (formatBufSize sb) zeros
  let buf ← buf.copy 0 1 (fun _ => buf.bytes 0 ||| 0x1)
  let s ← ideWriteAll s sb.inodeBitmapLba buf sb.inodeBitmapSects
  let buf ← buf.copy 0 (formatBufSize sb) zeros
  let buf ← buf.setWord 1 (sb.dirEntrySize * 2)
  let buf ← buf.setWord 0 0
  let buf ← buf.setWord 4 sb.dataStartLba
  let s ← ideWriteAll s sb.inodeTableLba buf sb.inodeTableSects
  let buf ← buf.copy 0 (formatBufSize sb) zeros
  let buf ← buf.copy 0 1 (fun _ => 0x2e)
  let buf ← buf.setWord 4 0
  let buf ← buf.setWord 5 ftDirectory
  let buf ← buf.copy 24 2 (fun _ => 0x2e)
  let buf ← buf.setWord 10 0
  let buf ← buf.setWord 11 ftDirectory
  ideWriteAll s sb.dataStartLba buf 1

def partitionFormat (s : State) (startLba secCnt : UInt32) (pad : Vector UInt8 460) :
    Except Fault State := do
  let sb := superBlock startLba secCnt pad
  let s ← ideWriteAll s (startLba + 1) { size := 512, bytes := sb.bytes } 1
  let (buf, s) := sysMalloc s (formatBufSize sb)
  let buf ← deref buf
  let buf ← fillBlockBitmap buf (blockBitmapBitLen secCnt).toNat
  let s ← ideWriteAll s sb.blockBitmapLba buf sb.blockBitmapSects
  formatInodes s sb buf

/-- What `mount_partition` reads back. -/
def mountSuperBlock (d : Image) (startLba : UInt32) : SuperBlock :=
  SuperBlock.ofBytes (slice d (512 * (startLba.toNat + 1)))

def mountBlockBitmap (d : Image) (sb : SuperBlock) : Bitmap where
  btmpBytesLen := sb.blockBitmapSects.toNat * 512
  bits := slice d (512 * sb.blockBitmapLba.toNat)

/-- Every block that the mounted bitmap offers lies in the partition, and the bitmap
offers all blocks but that of the root directory. -/
structure BlocksInside (d : Image) (startLba secCnt : UInt32) : Prop where
  root : bitmapScanTest (mountBlockBitmap d (mountSuperBlock d startLba)) 0 = true
  free : ∀ i, 1 ≤ i → i < (blockBitmapBitLen secCnt).toNat →
    bitmapScanTest (mountBlockBitmap d (mountSuperBlock d startLba)) i = false
  inside : ∀ i < 8 * (mountBlockBitmap d (mountSuperBlock d startLba)).btmpBytesLen,
    bitmapScanTest (mountBlockBitmap d (mountSuperBlock d startLba)) i = false →
      1 ≤ i ∧ (mountSuperBlock d startLba).dataStartLba.toNat + i <
        startLba.toNat + secCnt.toNat

section SuperBlocks

variable {r r' : Image}

theorem SuperBlock.ofBytes_congr (h : ∀ i < 512, r i = r' i) :
    SuperBlock.ofBytes r = SuperBlock.ofBytes r' := by
  have hword (k : ℕ) (hk : k < 13) : wordAt r (4 * k) = wordAt r' (4 * k) :=
    wordAt_congr fun i hi => h _ (by omega)
  have hpad (k : Fin 460) : r (52 + k) = r' (52 + k) := h _ (by omega)
  simp only [SuperBlock.ofBytes, SuperBlock.mk.injEq]
  exact ⟨hword 0 (by omega), hword 1 (by omega), hword 2 (by omega), hword 3 (by omega),
    hword 4 (by omega), hword 5 (by omega), hword 6 (by omega), hword 7 (by omega),
    hword 8 (by omega), hword 9 (by omega), hword 10 (by omega), hword 11 (by omega),
    hword 12 (by omega), congrArg Vector.ofFn (funext hpad)⟩

/-- A super block is read back as it was written. -/
theorem SuperBlock.ofBytes_bytes (sb : SuperBlock) : SuperBlock.ofBytes sb.bytes = sb := by
  have hword (k : ℕ) (hk : k < 13) : wordAt sb.bytes (4 * k) = sb.words.getD k 0 := by
    rw [← wordAt_ofWords (fun k => sb.words.getD k 0) k]
    exact wordAt_congr fun i hi => if_pos (by omega)
  have hpad : Vector.ofFn (fun k : Fin 460 => sb.bytes (52 + k)) = sb.pad := by
    ext k hk
    simp [SuperBlock.bytes]
  simp only [SuperBlock.ofBytes, hpad, hword _ (show 0 < 13 by omega),
    hword _ (show 1 < 13 by omega), hword _ (show 2 < 13 by omega),
    hword _ (show 3 < 13 by omega), hword _ (show 4 < 13 by omega),
    hword _ (show 5 < 13 by omega), hword _ (show 6 < 13 by omega),
    hword _ (show 7 < 13 by omega), hword _ (show 8 < 13 by omega),
    hword _ (show 9 < 13 by omega), hword _ (show 10 < 13 by omega),
    hword _ (show 11 < 13 by omega), hword _ (show 12 < 13 by omega)]
  rfl

end SuperBlocks

section Layout

variable {startLba secCnt : UInt32} {pad : Vector UInt8 460}

theorem divRoundUp_toNat (x : UInt32) :
    (divRoundUp x bitsPerSector).toNat = (x.toNat + 4095) % 4294967296 / 4096 := by
  have hx := x.toNat_lt
  have hone : (1 : UInt32).toNat = 1 := rfl
  have hstep : bitsPerSector.toNat = 4096 := rfl
  rw [divRoundUp, UInt32.toNat_div, UInt32.toNat_sub, UInt32.toNat_add, hone, hstep]
  omega

theorem freeSects_toNat (h : 613 ≤ secCnt.toNat) :
    (freeSects secCnt).toNat = secCnt.toNat - 611 := by
  have husedSects : 1 + 1 + divRoundUp maxFilesPerPart bitsPerSector +
      divRoundUp (UInt32.ofNat inodeSize * maxFilesPerPart) 512 = 611 := by decide
  have hnum : (611 : UInt32).toNat = 611 := rfl
  rw [freeSects, husedSects, UInt32.toNat_sub, hnum]
  have := secCnt.toNat_lt
  omega

theorem blockBitmapBitLen_toNat (h : (freeSects secCnt).toNat + 4095 < 4294967296) :
    (blockBitmapBitLen secCnt).toNat =
      (freeSects secCnt).toNat - ((freeSects secCnt).toNat + 4095) / 4096 := by
  have hfirst := divRoundUp_toNat (freeSects secCnt)
  rw [Nat.mod_eq_of_lt h] at hfirst
  rw [blockBitmapBitLen, UInt32.toNat_sub, hfirst]
  omega

theorem blockBitmapSects_toNat : (superBlock startLba secCnt pad).blockBitmapSects.toNat =
    ((blockBitmapBitLen secCnt).toNat + 4095) % 4294967296 / 4096 := divRoundUp_toNat _

/-- The layout in numbers, where the sums do not overflow. The condition on the bitmap
excludes a first round-up that wraps around. -/
structure LayoutSizes (startLba secCnt : UInt32) (sb : SuperBlock) : Prop where
  bitLen : (blockBitmapBitLen secCnt).toNat =
    secCnt.toNat - 611 - (secCnt.toNat - 611 + 4095) / 4096
  blockBitmapSects : sb.blockBitmapSects.toNat =
    ((blockBitmapBitLen secCnt).toNat + 4095) / 4096
  blockBitmapLba : sb.blockBitmapLba.toNat = startLba.toNat + 2
  inodeBitmapLba : sb.inodeBitmapLba.toNat = startLba.toNat + 2 + sb.blockBitmapSects.toNat
  inodeBitmapSects : sb.inodeBitmapSects.toNat = 1
  inodeTableLba : sb.inodeTableLba.toNat = startLba.toNat + 3 + sb.blockBitmapSects.toNat
  inodeTableSects : sb.inodeTableSects.toNat = 608
  dataStartLba : sb.dataStartLba.toNat = startLba.toNat + 611 + sb.blockBitmapSects.toNat

theorem superBlock_sizes (hsec : 613 ≤ secCnt.toNat)
    (hend : startLba.toNat + secCnt.toNat ≤ 4294967296)
    (hsects : 0 < (superBlock startLba secCnt pad).blockBitmapSects.toNat) :
    LayoutSizes startLba secCnt (superBlock startLba secCnt pad) := by
  have hfree := freeSects_toNat hsec
  have hlast : (superBlock startLba secCnt pad).blockBitmapSects.toNat = _ :=
    blockBitmapSects_toNat
  have hone : (superBlock startLba secCnt pad).inodeBitmapSects.toNat = 1 := rfl
  have htable : (superBlock startLba secCnt pad).inodeTableSects.toNat = 608 := rfl
  have hlba : (superBlock startLba secCnt pad).blockBitmapLba.toNat =
      (startLba.toNat + 2) % 4294967296 := UInt32.toNat_add ..
  have hinode : (superBlock startLba secCnt pad).inodeBitmapLba.toNat =
      ((superBlock startLba secCnt pad).blockBitmapLba.toNat +
        (superBlock startLba secCnt pad).blockBitmapSects.toNat) % 4294967296 :=
    UInt32.toNat_add ..
  have htab : (superBlock startLba secCnt pad).inodeTableLba.toNat =
      ((superBlock startLba secCnt pad).inodeBitmapLba.toNat + 1) % 4294967296 :=
    UInt32.toNat_add ..
  have hdata : (superBlock startLba secCnt pad).dataStartLba.toNat =
      ((superBlock startLba secCnt pad).inodeTableLba.toNat + 608) % 4294967296 :=
    UInt32.toNat_add ..
  -- a first round-up that wraps around leaves an empty bitmap
  have hfit : (freeSects secCnt).toNat + 4095 < 4294967296 := by
    by_contra hwrap
    have hfirst := divRoundUp_toNat (freeSects secCnt)
    have hzero : divRoundUp (freeSects secCnt) bitsPerSector = 0 :=
      UInt32.toNat_inj.mp (by rw [hfirst, UInt32.toNat_zero]; omega)
    rw [blockBitmapBitLen, hzero, UInt32.sub_zero] at hlast
    omega
  have hlen := blockBitmapBitLen_toNat hfit
  rw [hfree] at hlen
  have hcnt : (superBlock startLba secCnt pad).blockBitmapSects.toNat =
      ((blockBitmapBitLen secCnt).toNat + 4095) / 4096 := by omega
  have hdisk : startLba.toNat + 611 +
      (superBlock startLba secCnt pad).blockBitmapSects.toNat < 4294967296 := by
    clear hlast hlba hinode htab hdata
    omega
  refine ⟨hlen, hcnt, ?_, ?_, hone, ?_, htable, ?_⟩ <;> omega

end Layout

section Writing

variable {α : Type} {Q : α → Prop} {E : Fault → Prop} {b : Buffer} {off n : ℕ} {src : Image}

theorem outcome_copy {f : Buffer → Except Fault α} (hE : b.size < off + n → E .overrun)
    (h : off + n ≤ b.size → Outcome (f (b.put off n src)) Q E) :
    Outcome (b.copy off n src >>= f) Q E := by
  by_cases hle : off + n ≤ b.size
  · rw [Buffer.copy_of_le hle]
    exact h hle
  · rw [Buffer.copy_of_lt (by omega)]
    exact hE (by omega)

theorem outcome_setWord {f : Buffer → Except Fault α} {k : ℕ} {w : UInt32}
    (hE : b.size < 4 * k + 4 → E .overrun)
    (h : 4 * k + 4 ≤ b.size → Outcome (f (b.put (4 * k) 4 (wordByte w))) Q E) :
    Outcome (b.setWord k w >>= f) Q E := outcome_copy hE h

/-- Each command writes the sectors behind those already written. -/
theorem ideWriteLoop_outcome (s : State) (lba cnt fuel done : ℕ) (hle : done ≤ cnt)
    (hfuel : cnt ≤ done + fuel) :
    Outcome (ideWriteLoop lba cnt b fuel done
        (s.setDisk (overlay s.disk (512 * lba) (512 * done) b.bytes)))
      (fun t => t = s.setDisk (overlay s.disk (512 * lba) (512 * cnt) b.bytes))
      (fun _ => ¬ (lba + cnt ≤ maxLba + 1 ∧ 512 * cnt ≤ b.size)) := by
  induction fuel generalizing done with
  | zero =>
    have he : done = cnt := by omega
    simp [ideWriteLoop, he]
  | succ fuel ih =>
    unfold ideWriteLoop
    refine outcome_ite (fun hlt => ?_) (fun hge => ?_)
    · set secsOp := if done + 256 ≤ cnt then 256 else cnt - done with hop
      have hpos : 0 < secsOp ∧ done + secsOp ≤ cnt := by
        rw [hop]
        split_ifs <;> omega
      refine outcome_ensure (fun h => by omega) fun _ => ?_
      refine outcome_ensure (fun h => by omega) fun _ => ?_
      have hnext := ih (done + secsOp) hpos.2 (by omega)
      rwa [Nat.mul_add, ← overlay_append, ← Nat.mul_add] at hnext
    · rw [outcome_ok, show done = cnt by omega]

theorem ideWriteAll_outcome (s : State) (lba : UInt32) (b : Buffer) (cnt : UInt32) :
    Outcome (ideWriteAll s lba b cnt)
      (fun t => 0 < cnt.toNat ∧
        t = s.setDisk (overlay s.disk (512 * lba.toNat) (512 * cnt.toNat) b.bytes))
      (fun _ => ¬ (0 < cnt.toNat ∧ lba.toNat + cnt.toNat ≤ maxLba + 1 ∧
        512 * cnt.toNat ≤ b.size)) := by
  refine outcome_ensure (fun h => by omega) fun _ => ?_
  refine outcome_ensure (fun h => by omega) fun hpos => ?_
  have hloop := ideWriteLoop_outcome (b := b) s lba.toNat cnt.toNat cnt.toNat 0
    (Nat.zero_le _) (by omega)
  rw [Nat.mul_zero, overlay_zero] at hloop
  exact hloop.mono (fun _ ht => ⟨hpos, ht⟩) fun _ hn hfit => hn hfit.2

theorem clearBits_mask : ∀ n ≤ 8, ∀ k < 8, clearBits 0xff n &&& bitmapMask k ≠ 0 ↔ n ≤ k := by
  decide

theorem fillBlockBitmap_outcome (hzero : b.bytes = zeros) (bitLen : ℕ) :
    Outcome (fillBlockBitmap b bitLen)
      (fun b' => b'.size = b.size ∧ ∀ len, ∀ i < 4096 * ((bitLen + 4095) / 4096),
        (bitmapScanTest ⟨len, b'.bytes⟩ i = true ↔ i = 0 ∧ 8 ≤ bitLen ∨ bitLen < i))
      (fun _ => b.size < 512 * (bitLen / 4096 + 1)) := by
  unfold fillBlockBitmap
  refine outcome_copy (fun h => by omega) fun _ => ?_
  refine outcome_copy (fun h => by rw [Buffer.put_size] at h; omega) fun hle => ?_
  rw [Buffer.put_size] at hle
  have hlt : bitLen / 8 + 1 ≤ b.size := by omega
  rw [Buffer.copy_of_le (by simpa using hlt)]
  refine ⟨by simp, fun len i hi => ?_⟩
  simp only [Buffer.put_bytes, hzero, bitmapScanTest, decide_eq_true_eq]
  by_cases hbyte : i / 8 = bitLen / 8
  · rw [overlay_inside (by omega) (by omega), overlay_inside (by omega) (by omega),
      clearBits_mask _ (by omega) _ (by omega)]
    omega
  rw [overlay_outside (by omega)]
  by_cases htail : bitLen / 8 ≤ i / 8
  · rw [overlay_inside htail (by omega)]
    have hmask := clearBits_mask 0 (by omega) (i % 8) (by omega)
    rw [clearBits] at hmask
    rw [hmask]
    omega
  rw [overlay_outside (by omega)]
  by_cases hfirst : i / 8 = 0
  · rw [hfirst, overlay_inside (by omega) (by omega)]
    have hbit : ∀ k < 8, ((0 : UInt8) ||| 0x01) &&& bitmapMask k ≠ 0 ↔ k = 0 := by decide
    rw [zeros_apply, hbit _ (by omega)]
    omega
  · rw [overlay_outside (by omega), zeros_apply]
    simp only [UInt8.zero_and, ne_eq, not_true_eq_false, false_iff]
    omega

/-- Below the inode bitmap the rest of the formatting leaves the disk alone. -/
theorem formatInodes_outcome {sb : SuperBlock} (s : State) (hsize : b.size = formatBufSize sb)
    (hone : sb.inodeBitmapSects.toNat = 1) (htable : sb.inodeTableSects.toNat = 608)
    {a : ℕ} (hbitmap : a ≤ sb.inodeBitmapLba.toNat) (hinodes : a ≤ sb.inodeTableLba.toNat)
    (hdata : a ≤ sb.dataStartLba.toNat) :
    Outcome (formatInodes s sb b) (fun t => ∀ i < 512 * a, t.disk i = s.disk i)
      (fun _ => ¬ (sb.inodeBitmapLba.toNat + 1 ≤ maxLba + 1 ∧
        sb.inodeTableLba.toNat + 608 ≤ maxLba + 1 ∧ sb.dataStartLba.toNat + 1 ≤ maxLba + 1)) := by
  have hlarge : 512 * 608 ≤ formatBufSize sb := by
    rw [formatBufSize, htable]
    omega
  have hwrite {s t : State} {lba cnt : UInt32} {c : Buffer} (hlba : a ≤ lba.toNat)
      (ht : 0 < cnt.toNat ∧
        t = s.setDisk (overlay s.disk (512 * lba.toNat) (512 * cnt.toNat) c.bytes)) :
      ∀ i < 512 * a, t.disk i = s.disk i := by
    intro i hi
    rw [ht.2, setDisk_disk, overlay_outside (by omega)]
  unfold formatInodes
  refine outcome_copy (fun h => by omega) fun _ => ?_
  refine outcome_copy (fun h => by simp at h; omega) fun _ => ?_
  refine Outcome.bind ((ideWriteAll_outcome ..).mono (fun _ ht => hwrite hbitmap ht) ?_) ?_
  · intro _ hn hfit
    simp only [Buffer.put_size] at hn
    omega
  intro t₁ h₁
  refine outcome_copy (fun h => by simp at h; omega) fun _ => ?_
  refine outcome_setWord (fun h => by simp at h; omega) fun _ => ?_
  refine outcome_setWord (fun h => by simp at h; omega) fun _ => ?_
  refine outcome_setWord (fun h => by simp at h; omega) fun _ => ?_
  refine Outcome.bind ((ideWriteAll_outcome ..).mono (fun _ ht => hwrite hinodes ht) ?_) ?_
  · intro _ hn hfit
    simp only [Buffer.put_size] at hn
    omega
  intro t₂ h₂
  refine outcome_copy (fun h => by simp at h; omega) fun _ => ?_
  refine outcome_copy (fun h => by simp at h; omega) fun _ => ?_
  refine outcome_setWord (fun h => by simp at h; omega) fun _ => ?_
  refine outcome_setWord (fun h => by simp at h; omega) fun _ => ?_
  refine outcome_copy (fun h => by simp at h; omega) fun _ => ?_
  refine outcome_setWord (fun h => by simp at h; omega) fun _ => ?_
  refine outcome_setWord (fun h => by simp at h; omega) fun _ => ?_
  refine (ideWriteAll_outcome ..).mono (fun t ht i hi => ?_) ?_
  · rw [hwrite hdata ht i hi, h₂ i hi, h₁ i hi]
  · intro _ hn hfit
    simp only [Buffer.put_size, UInt32.toNat_one] at hn
    omega

end Writing

section Formatted

variable {startLba secCnt : UInt32} {pad : Vector UInt8 460}

theorem blockBitmapSects_pos (hsec : 613 ≤ secCnt.toNat) (hsmall : secCnt.toNat ≤ maxLba + 1) :
    0 < (superBlock startLba secCnt pad).blockBitmapSects.toNat := by
  have hmax : maxLba = 163839 := rfl
  have hfree := freeSects_toNat hsec
  have hlen := blockBitmapBitLen_toNat (show (freeSects secCnt).toNat + 4095 < 4294967296 by omega)
  have hbits : 1 ≤ (blockBitmapBitLen secCnt).toNat ∧
      (blockBitmapBitLen secCnt).toNat < 163840 := by omega
  rw [blockBitmapSects_toNat, Nat.mod_eq_of_lt (by omega)]
  omega

/-- What is on the disk after formatting, as `mount_partition` reads it. -/
structure Formatted (d : Image) (startLba secCnt : UInt32) (pad : Vector UInt8 460) : Prop where
  sizes : LayoutSizes startLba secCnt (superBlock startLba secCnt pad)
  super : mountSuperBlock d startLba = superBlock startLba secCnt pad
  bit : ∀ i < 4096 * (superBlock startLba secCnt pad).blockBitmapSects.toNat,
    (bitmapScanTest (mountBlockBitmap d (superBlock startLba secCnt pad)) i = true ↔
      i = 0 ∧ 8 ≤ (blockBitmapBitLen secCnt).toNat ∨ (blockBitmapBitLen secCnt).toNat < i)

/-- Formatting leaves the disk formatted, and on a partition that lies on the disk it
does not stop for any reason but a lack of memory. -/
theorem partitionFormat_outcome (s : State) (hsec : 613 ≤ secCnt.toNat)
    (hend : startLba.toNat + secCnt.toNat ≤ 4294967296) :
    Outcome (partitionFormat s startLba secCnt pad)
      (fun t => Formatted t.disk startLba secCnt pad)
      (fun _ => ¬ (s.heap 0 = true ∧ startLba.toNat + secCnt.toNat ≤ maxLba + 1)) := by
  have hsizes : 0 < (superBlock startLba secCnt pad).blockBitmapSects.toNat →
      LayoutSizes startLba secCnt (superBlock startLba secCnt pad) := superBlock_sizes hsec hend
  have hfits (h : startLba.toNat + secCnt.toNat ≤ maxLba + 1) :
      LayoutSizes startLba secCnt (superBlock startLba secCnt pad) :=
    hsizes (blockBitmapSects_pos hsec (by omega))
  unfold partitionFormat
  dsimp only
  generalize hsb : superBlock startLba secCnt pad = sb at hsizes hfits ⊢
  have hmax : maxLba = 163839 := rfl
  have hstart : (startLba + 1).toNat = startLba.toNat + 1 := by
    rw [UInt32.toNat_add, UInt32.toNat_one]
    omega
  refine Outcome.bind ((ideWriteAll_outcome ..).mono (fun _ ht => ht.2) ?_) ?_
  · intro _ hn hfit
    simp only [UInt32.toNat_one] at hn
    omega
  rintro t₁ rfl
  cases hheap : s.heap 0 with
  | false =>
    simp only [sysMalloc, State.setDisk, hheap]
    simp
  | true =>
  simp only [sysMalloc, State.setDisk, hheap, if_true, deref_some, ok_bind]
  refine Outcome.bind ((fillBlockBitmap_outcome (b := { size := _, bytes := zeros }) rfl _).mono
    (fun _ hb => hb) ?_) ?_
  · rintro _ hn ⟨-, hfit⟩
    have hz := hfits hfit
    have hbuf : 608 * 512 ≤ formatBufSize sb := by
      rw [formatBufSize, hz.inodeTableSects]
      omega
    have := hz.bitLen
    dsimp only at hn
    omega
  rintro buf ⟨hsize, hbits⟩
  have hsize : buf.size = formatBufSize sb := hsize
  have hlarge : 512 * sb.blockBitmapSects.toNat ≤ buf.size := by
    rw [hsize, formatBufSize]
    omega
  refine Outcome.bind ((ideWriteAll_outcome ..).mono (fun _ ht => ht) ?_) ?_
  · rintro _ hn ⟨-, hfit⟩
    have hz := hfits hfit
    have := hz.blockBitmapLba
    have := hz.blockBitmapSects
    have := hz.bitLen
    omega
  rintro t₂ ⟨hpos, rfl⟩
  have hz := hsizes hpos
  refine (formatInodes_outcome (a := sb.inodeBitmapLba.toNat) _ hsize hz.inodeBitmapSects
    hz.inodeTableSects le_rfl ?_ ?_).mono (fun t ht => ?_) ?_
  · rw [hz.inodeTableLba, hz.inodeBitmapLba]
    omega
  · rw [hz.dataStartLba, hz.inodeBitmapLba]
    omega
  · have hlba := hz.blockBitmapLba
    have hnext := hz.inodeBitmapLba
    subst hsb
    refine ⟨hz, ?_, fun i hi => ?_⟩
    · rw [mountSuperBlock, ← SuperBlock.ofBytes_bytes (superBlock startLba secCnt pad)]
      refine SuperBlock.ofBytes_congr fun i hi => ?_
      rw [slice_apply, ht _ (by omega), setDisk_disk, overlay_outside (by omega), hstart]
      exact overlay_at (by simpa using hi)
    · rw [← hbits 0 i (by rw [← hz.blockBitmapSects]; exact hi)]
      have hbyte : t.disk (512 * (superBlock startLba secCnt pad).blockBitmapLba.toNat + i / 8) = buf.bytes (i / 8) := by
        rw [ht _ (by omega), setDisk_disk, overlay_at (by omega)]
      simp only [bitmapScanTest, mountBlockBitmap, slice_apply, hbyte]
  · rintro _ hn ⟨-, hfit⟩
    have := hz.inodeBitmapLba
    have := hz.inodeTableLba
    have := hz.dataStartLba
    have := hz.bitLen
    have := hz.blockBitmapSects
    omega

theorem partitionFormat_returns {s : State} (hheap : s.heap 0 = true) (hsec : 613 ≤ secCnt.toNat)
    (hdisk : startLba.toNat + secCnt.toNat ≤ maxLba + 1) :
    ∃ t, partitionFormat s startLba secCnt pad = .ok t ∧
      Formatted t.disk startLba secCnt pad :=
  (partitionFormat_outcome s hsec (hdisk.trans (by decide))).exists_ok
    fun _ hn => hn ⟨hheap, hdisk⟩

/-- The last bit of the bitmap against its last block, for `f` free sectors. -/
theorem bitLen_against_blocks {f bitLen sects : ℕ} (hf : 2 ≤ f)
    (hlen : bitLen = f - (f + 4095) / 4096) (hsects : sects = (bitLen + 4095) / 4096) :
    bitLen ≤ 4096 * sects ∧
    ((f - 1) % 4096 ≤ (f - 1) / 4096 → 8 ≤ bitLen ∧
      ∀ i < 4096 * sects, i ≤ bitLen → sects + i < f) ∧
    ((f - 1) / 4096 < (f - 1) % 4096 → bitLen < 4096 * sects ∧ sects + bitLen = f) := by
  obtain ⟨q, r, hq, hr, hlt⟩ : ∃ q r, (f - 1) / 4096 = q ∧ (f - 1) % 4096 = r ∧ r < 4096 :=
    ⟨_, _, rfl, rfl, Nat.mod_lt _ (by omega)⟩
  have hsum : f = 4096 * q + r + 1 := by omega
  have hround : (f + 4095) / 4096 = q + 1 := by omega
  have hbits : bitLen = 4096 * q + r - q := by omega
  rw [hq, hr]
  clear hq hr hlen
  refine ⟨by omega, fun hle => ⟨by omega, fun i hi hib => ?_⟩, fun hgt => ?_⟩
  · have hshort : sects ≤ q := by omega
    omega
  · have hfull : sects = q + 1 := by omega
    omega

/-- A formatted partition offers only its own blocks, and all of them, exactly if its
sectors beyond the first 612 fill whole groups of 4096 up to a remainder that is no
larger than the number of these groups. -/
theorem formatted_blocks_inside (s t : State) (hsec : 613 ≤ secCnt.toNat)
    (hend : startLba.toNat + secCnt.toNat ≤ 4294967296)
    (hformat : partitionFormat s startLba secCnt pad = .ok t) :
    BlocksInside t.disk startLba secCnt ↔
      (secCnt.toNat - 612) % 4096 ≤ (secCnt.toNat - 612) / 4096 := by
  obtain ⟨hz, hsuper, hbit⟩ := (partitionFormat_outcome s hsec hend).of_ok hformat
  obtain ⟨hcover, hgood, hbad⟩ :=
    bitLen_against_blocks (by omega) hz.bitLen hz.blockBitmapSects
  rw [show secCnt.toNat - 611 - 1 = secCnt.toNat - 612 by omega] at hgood hbad
  have hdata := hz.dataStartLba
  set sb := superBlock startLba secCnt pad with hsb
  have hclear (i : ℕ) (hi : i < 4096 * sb.blockBitmapSects.toNat) :
      bitmapScanTest (mountBlockBitmap t.disk sb) i = false ↔
        ¬ (i = 0 ∧ 8 ≤ (blockBitmapBitLen secCnt).toNat ∨
          (blockBitmapBitLen secCnt).toNat < i) := by
    rw [← hbit i hi, Bool.not_eq_true]
  have hbytes : 8 * (mountBlockBitmap t.disk sb).btmpBytesLen =
      4096 * sb.blockBitmapSects.toNat := by
    rw [mountBlockBitmap]
    ring
  constructor
  · rintro ⟨-, -, hinside⟩
    rw [hsuper] at hinside
    rw [hbytes] at hinside
    -- otherwise the bit behind the last block is clear
    by_contra hgt
    obtain ⟨hlast, hend'⟩ := hbad (Nat.lt_of_not_le hgt)
    have hout := hinside _ hlast ((hclear _ hlast).mpr fun h => ?_)
    · omega
    · omega
  · intro hle
    obtain ⟨hlong, hin⟩ := hgood hle
    refine ⟨?_, fun i hi hlt => ?_, fun i hi hfree => ?_⟩
    · rw [hsuper]
      exact (hbit 0 (by omega)).mpr (.inl ⟨rfl, hlong⟩)
    · rw [hsuper]
      exact (hclear i (by omega)).mpr (by omega)
    · rw [hsuper] at hi hfree ⊢
      rw [hbytes] at hi
      have hnot := (hclear i hi).mp hfree
      have := hin i hi (by omega)
      omega

/-- A partition of 4708 sectors offers its blocks and no others. -/
theorem formatted_blocks_inside_4708 : ∃ t,
    partitionFormat blankState 0 4708 (Vector.replicate 460 0) = .ok t ∧
      BlocksInside t.disk 0 4708 := by
  obtain ⟨t, ht, -⟩ := partitionFormat_returns (s := blankState) rfl (by decide : 613 ≤ UInt32.toNat 4708)
    (by decide : UInt32.toNat 0 + UInt32.toNat 4708 ≤ maxLba + 1)
  exact ⟨t, ht, (formatted_blocks_inside _ t (by decide) (by decide) ht).mpr (by decide)⟩

/-- After formatting 4096 sectors, bit 3484 is clear and stands for the sector behind
the partition. -/
theorem format_offers_next_sector : ∃ t,
    partitionFormat blankState 0 4096 (Vector.replicate 460 0) = .ok t ∧
      ¬ BlocksInside t.disk 0 4096 := by
  obtain ⟨t, ht, hz, hsuper, hbit⟩ := partitionFormat_returns (s := blankState) rfl
    (by decide : 613 ≤ UInt32.toNat 4096)
    (by decide : UInt32.toNat 0 + UInt32.toNat 4096 ≤ maxLba + 1)
  refine ⟨t, ht, fun h => ?_⟩
  have hin := h.inside 3484
  rw [hsuper] at hin
  have hbits : (blockBitmapBitLen 4096).toNat = 3484 := by decide
  have hsects : (superBlock 0 4096 (Vector.replicate 460 0)).blockBitmapSects.toNat = 1 := by
    decide
  have hdata := hz.dataStartLba
  have hclear := hbit 3484 (by omega)
  rw [hbits] at hclear
  have hout := hin (by simp [mountBlockBitmap, hsects])
    (by rw [← Bool.not_eq_true, hclear]; omega)
  have hend : (4096 : UInt32).toNat = 4096 := rfl
  omega

end Formatted

end X86System.FileSystem
