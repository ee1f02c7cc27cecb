import X86System.Bitmap
import X86System.Library.Bytes
import X86System.Library.Exec

/-!
# The file system's state and its disk

The disk is addressed by bytes, `512 * lba + i` being byte `i` of a sector. A
partition carries the layout `partition_format` gives it. In-memory inodes are
objects of the kernel heap, named by a handle that is never used twice; whether
the next allocations succeed is a stream the state carries. Buffers know their
size, so that an access outside one is a fault.
-/
namespace X86System.FileSystem
open Bytes Exec

/-- `max_lba`, the last sector of the 80M disk. -/
def maxLba : ℕ := 80 * 1024 * 1024 / 512 - 1

/-- A mounted partition with what its super block says about the layout. -/
structure Partition where
  startLba : ℕ
  secCnt : ℕ
  blockBitmapLba : ℕ
  blockBitmapSects : ℕ
  inodeBitmapLba : ℕ
  inodeBitmapSects : ℕ
  inodeTableLba : ℕ
  inodeTableSects : ℕ
  dataStartLba : ℕ
  rootInodeNo : UInt32
  dirEntrySize : ℕ
  blockBitmapLba_eq : blockBitmapLba = startLba + 2
  inodeBitmapLba_eq : inodeBitmapLba = blockBitmapLba + blockBitmapSects
  inodeBitmapSects_eq : inodeBitmapSects = 1
  inodeTableLba_eq : inodeTableLba = inodeBitmapLba + inodeBitmapSects
  inodeTableSects_eq : inodeTableSects = 608
  dataStartLba_eq : dataStartLba = inodeTableLba + inodeTableSects
  rootInodeNo_eq : rootInodeNo = 0
  dirEntrySize_eq : dirEntrySize = 24
  dataStartLba_le : dataStartLba ≤ startLba + secCnt
  end_le : startLba + secCnt ≤ maxLba + 1

/-- `struct inode` in memory. `inode_tag` is its place in `open_inodes`. -/
structure Inode where
  iNo : UInt32
  iSize : UInt32
  iOpenCnts : ℕ
  writeDeny : UInt32
  /-- Twelve direct blocks and the indirect table. -/
  iSectors : Vector UInt32 13
  deriving DecidableEq

/-- An in-memory inode, by its object in the kernel heap. -/
abbrev InodePtr := ℕ

/-- `struct file`, an entry of `file_table`. -/
structure File where
  fdPos : UInt32
  fdFlag : UInt32
  fdInode : Option InodePtr
  deriving DecidableEq

/-- What the PCB of a process says about files. -/
structure Task where
  fdTable : Vector ℤ 8
  deriving DecidableEq

structure State where
  disk : Image
  part : Partition
  blockBitmap : Bitmap
  inodeBitmap : Bitmap
  inodes : InodePtr → Option Inode
  nextInode : InodePtr
  openInodes : List InodePtr
  /-- `root_dir.inode`. -/
  rootDir : InodePtr
  fileTable : Vector File 32
  tasks : ℕ → Option Task
  /-- The running process. -/
  cur : ℕ
  /-- Whether the next calls of `sys_malloc` find memory. -/
  heap : ℕ → Bool

/-- The disk after a transfer. -/
def State.setDisk (s : State) (d : Image) : State := { s with disk := d }

/-- Store to an in-memory inode. -/
def State.setInode (s : State) (a : InodePtr) (x : Inode) : State :=
  { s with inodes := Function.update s.inodes a (some x) }

section Fields

variable (s : State) (d : Image) (a : InodePtr) (x : Inode)

@[simp] theorem setDisk_disk : (s.setDisk d).disk = d := rfl
@[simp] theorem setDisk_part : (s.setDisk d).part = s.part := rfl
@[simp] theorem setDisk_blockBitmap : (s.setDisk d).blockBitmap = s.blockBitmap := rfl
@[simp] theorem setDisk_inodes : (s.setDisk d).inodes = s.inodes := rfl
@[simp] theorem setInode_disk : (s.setInode a x).disk = s.disk := rfl
@[simp] theorem setInode_part : (s.setInode a x).part = s.part := rfl
@[simp] theorem setInode_blockBitmap : (s.setInode a x).blockBitmap = s.blockBitmap := rfl

@[simp] theorem setInode_inodes_self : (s.setInode a x).inodes a = some x :=
  Function.update_self ..

theorem setInode_inodes_of_ne {b : InodePtr} (h : b ≠ a) : (s.setInode a x).inodes b = s.inodes b :=
  Function.update_of_ne h ..

end Fields

/-- A buffer in memory. -/
structure Buffer where
  size : ℕ
  bytes : Image

/-- Use a pointer that may be NULL or dangling. -/
def deref {α : Type} : Option α → Except Fault α
  | some a => .ok a
  | none => .error .page

@[simp] theorem deref_some {α : Type} (a : α) : deref (some a) = .ok a := rfl

@[simp] theorem deref_none {α : Type} : deref (none : Option α) = .error .page := rfl

theorem deref_ok {α : Type} {o : Option α} {v : α} (h : deref o = .ok v) : o = some v := by
  cases o with
  | none => cases h
  | some w => exact congrArg some (Except.ok.inj h)

/-- The buffer with `len` bytes at offset `off` replaced. -/
def Buffer.put (b : Buffer) (off len : ℕ) (src : Image) : Buffer :=
  { b with bytes := overlay b.bytes off len src }

@[simp] theorem Buffer.put_size (b : Buffer) (off len : ℕ) (src : Image) :
    (b.put off len src).size = b.size := rfl

@[simp] theorem Buffer.put_bytes (b : Buffer) (off len : ℕ) (src : Image) :
    (b.put off len src).bytes = overlay b.bytes off len src := rfl

/-- `memcpy` of `len` bytes to offset `off`; `memset` with a constant source. -/
def Buffer.copy (b : Buffer) (off len : ℕ) (src : Image) : Except Fault Buffer := do
  ensure Fault.overrun (off + len ≤ b.size)
  .ok (b.put off len src)

/-- Element `k` of an array of words. -/
def Buffer.word (b : Buffer) (k : ℕ) : Except Fault UInt32 := do
  ensure Fault.overrun (4 * k + 4 ≤ b.size)
  .ok (wordAt b.bytes (4 * k))

def Buffer.setWord (b : Buffer) (k : ℕ) (w : UInt32) : Except Fault Buffer :=
  b.copy (4 * k) 4 (wordByte w)

/-- `ide_read` of at most 256 sectors to offset `off` of a buffer. -/
def ideRead (s : State) (lba : ℕ) (buf : Buffer) (off secCnt : ℕ) : Except Fault Buffer := do
  ensure Fault.assert (lba ≤ maxLba)
  ensure Fault.assert (0 < secCnt)
  buf.copy off (512 * secCnt) (slice s.disk (512 * lba))

/-- `ide_write` of at most 256 sectors from offset `off` of a buffer. -/
def ideWrite (s : State) (lba : ℕ) (buf : Buffer) (off secCnt : ℕ) : Except Fault State := do
  ensure Fault.assert (lba ≤ maxLba)
  ensure Fault.assert (0 < secCnt)
  ensure Fault.overrun (off + 512 * secCnt ≤ buf.size)
  .ok (s.setDisk (overlay s.disk (512 * lba) (512 * secCnt) (slice buf.bytes off)))

/-- `sys_malloc`, whose memory is zeroed. -/
def sysMalloc (s : State) (size : ℕ) : Option Buffer × State :=
  (if s.heap 0 then some { size := size, bytes := zeros } else none,
    { s with heap := fun k => s.heap (k + 1) })

/-- `sys_malloc(sizeof(struct inode))` from the kernel's heap. -/
def mallocInode (s : State) : Option InodePtr × State :=
  if s.heap 0 then
    (some s.nextInode,
      { s with
        heap := fun k => s.heap (k + 1)
        nextInode := s.nextInode + 1
        inodes := Function.update s.inodes s.nextInode
          (some ⟨0, 0, 0, 0, Vector.replicate 13 0⟩) })
  else (none, { s with heap := fun k => s.heap (k + 1) })

inductive BitmapType
  | inodeBitmap
  | blockBitmap
  deriving DecidableEq

/-- `inode_bitmap_alloc`. -/
def inodeBitmapAlloc (s : State) : Except Fault (Option ℕ × State) := do
  match ← bitmapScan s.inodeBitmap 1 with
  | none => .ok (none, s)
  | some bitIdx => .ok (some bitIdx, { s with inodeBitmap := bitmapSet s.inodeBitmap bitIdx true })

/-- `block_bitmap_alloc`: the LBA of a free block. -/
def blockBitmapAlloc (s : State) : Except Fault (Option ℕ × State) := do
  match ← bitmapScan s.blockBitmap 1 with
  | none => .ok (none, s)
  | some bitIdx =>
    .ok (some (s.part.dataStartLba + bitIdx),
      { s with blockBitmap := bitmapSet s.blockBitmap bitIdx true })

/-- `bitmap_sync`: write back the sector of the bitmap that holds bit `bitIdx`. -/
def bitmapSync (s : State) (bitIdx : ℕ) (btmpType : BitmapType) : Except Fault State :=
  let offSec := bitIdx / 4096
  let offSize := offSec * 512
  match btmpType with
  | .inodeBitmap =>
    ideWrite s (s.part.inodeBitmapLba + offSec)
      { size := s.inodeBitmap.btmpBytesLen, bytes := s.inodeBitmap.bits } offSize 1
  | .blockBitmap =>
    ideWrite s (s.part.blockBitmapLba + offSec)
      { size := s.blockBitmap.btmpBytesLen, bytes := s.blockBitmap.bits } offSize 1

section Buffers

variable {b : Buffer} {s : State} {lba off n : ℕ} {src : Image}

theorem Buffer.copy_of_le (h : off + n ≤ b.size) :
    b.copy off n src = .ok (b.put off n src) := by
  simp [Buffer.copy, h]

theorem Buffer.copy_of_lt (h : b.size < off + n) : b.copy off n src = .error .overrun := by
  simp [Buffer.copy, Nat.not_le.mpr h]

theorem ideRead_of_le (hlba : lba ≤ maxLba) (hn : 0 < n) (hoff : off + 512 * n ≤ b.size) :
    ideRead s lba b off n =
      .ok (b.put off (512 * n) (slice s.disk (512 * lba))) := by
  simp [ideRead, hlba, hn, Buffer.copy_of_le hoff]

theorem ideRead_of_lt (hlba : lba ≤ maxLba) (hn : 0 < n) (hoff : b.size < off + 512 * n) :
    ideRead s lba b off n = .error .overrun := by
  simp [ideRead, hlba, hn, Buffer.copy_of_lt hoff]

theorem ideWrite_of_le (hlba : lba ≤ maxLba) (hn : 0 < n) (hoff : off + 512 * n ≤ b.size) :
    ideWrite s lba b off n =
      .ok (s.setDisk (overlay s.disk (512 * lba) (512 * n) (slice b.bytes off))) := by
  simp [ideWrite, hlba, hn, hoff]

/-- Sectors that were read, changed in one place and written back. -/
theorem ideWrite_patched {k len : ℕ} (hlba : lba ≤ maxLba) (hk : 0 < k)
    (hoff : off + len ≤ 512 * k) (hsize : 512 * k ≤ b.size) :
    ideWrite s lba ((b.put 0 (512 * k) (slice s.disk (512 * lba))).put off len src) 0 k =
      .ok (s.setDisk (overlay s.disk (512 * lba + off) len src)) := by
  have hread : ∀ i < 512 * k,
      slice (overlay (overlay b.bytes 0 (512 * k) (slice s.disk (512 * lba))) off len src) 0 i =
        overlay (slice s.disk (512 * lba)) off len src i := by
    intro i hi
    rw [slice_apply, Nat.zero_add]
    by_cases hin : off ≤ i ∧ i < off + len
    · rw [overlay_inside hin.1 hin.2, overlay_inside hin.1 hin.2]
    · rw [overlay_outside (by omega), overlay_inside (by omega) (by omega),
        overlay_outside (by omega), Nat.sub_zero]
  rw [ideWrite_of_le hlba hk (by simpa using hsize), Buffer.put_bytes, Buffer.put_bytes,
    overlay_congr hread, overlay_overlay_slice hoff]

end Buffers

/-- A partition of 4096 sectors at the start of the disk. -/
def smallPartition : Partition where
  startLba := 0
  secCnt := 4096
  blockBitmapLba := 2
  blockBitmapSects := 1
  inodeBitmapLba := 3
  inodeBitmapSects := 1
  inodeTableLba := 4
  inodeTableSects := 608
  dataStartLba := 612
  rootInodeNo := 0
  dirEntrySize := 24
  blockBitmapLba_eq := rfl
  inodeBitmapLba_eq := rfl
  inodeBitmapSects_eq := rfl
  inodeTableLba_eq := rfl
  inodeTableSects_eq := rfl
  dataStartLba_eq := rfl
  rootInodeNo_eq := rfl
  dirEntrySize_eq := rfl
  dataStartLba_le := by decide
  end_le := by decide

/-- A state whose disk is blank. -/
def blankState : State where
  disk := zeros
  part := smallPartition
  blockBitmap := ⟨512, zeros⟩
  inodeBitmap := ⟨512, zeros⟩
  inodes := fun _ => none
  nextInode := 0
  openInodes := []
  rootDir := 0
  fileTable := Vector.replicate 32 ⟨0, 0, none⟩
  tasks := fun _ => none
  cur := 0
  heap := fun _ => true

end X86System.FileSystem
