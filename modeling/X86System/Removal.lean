import X86System.Paths

/-!
# Removing entries and inodes

`delete_dir_entry` looks for an inode number and not for a name, and gives back the
block of the entry if the entry was alone in it. `inode_release` clears the bits of
an inode's blocks and of its number. A directory is removed with both.
-/
namespace X86System.FileSystem
open Bytes Exec

/-- What one sector of a directory says: whether it holds `"."`, how many entries it has
but for `"."` and `".."`, and which of them names the inode. -/
structure SectorScan where
  isFirst : Bool
  count : ℕ
  found : Option ℕ
  deriving DecidableEq, Repr

/-- The entries of one sector from `idx` on, `fuel` of them. -/
def scanSector (buf : Image) (inodeNo : UInt32) :
    ℕ → ℕ → SectorScan → Except Fault SectorScan
  | 0, _, r => .ok r
  | fuel + 1, idx, r =>
    let p := slice buf (direntSize * idx)
    if wordAt p 20 = ftUnknown then scanSector buf inodeNo fuel (idx + 1) r
    else if strMatches p [dot] then
      scanSector buf inodeNo fuel (idx + 1) { r with isFirst := true }
    else if strMatches p [dot, dot] then scanSector buf inodeNo fuel (idx + 1) r
    else if wordAt p 16 = inodeNo then do
      ensure Fault.assert (r.found = none)
      scanSector buf inodeNo fuel (idx + 1) { r with count := r.count + 1, found := some idx }
    else scanSector buf inodeNo fuel (idx + 1) { r with count := r.count + 1 }

/-- Give back a block: clear its bit and write the bitmap's sector. -/
def freeBlock (s : State) (lba : UInt32) : Except Fault State :=
  let idx := (lba - UInt32.ofNat s.part.dataStartLba).toNat
  bitmapSync { s with blockBitmap := bitmapSet s.blockBitmap idx false } idx .blockBitmap

/-- The block of an entry that was alone in it leaves the directory. For a block of the
indirect table the loop that counts the table's blocks does not advance its index. -/
def dropDirBlock (s : State) (dirInode : InodePtr) (blockIdx : ℕ) (lba : UInt32) :
    Except Fault State := do
  let s ← freeBlock s lba
  if blockIdx < 12 then
    let x ← deref (s.inodes dirInode)
    .ok (s.setInode dirInode (x.setSector blockIdx 0))
  else .error .diverge

/-- The entry is cleared, or its block leaves the directory. -/
def eraseEntry (s : State) (dirInode : InodePtr) (blockIdx idx : ℕ) (lba : UInt32)
    (alone : Bool) (ioBuf : Buffer) : Except Fault State :=
  if alone then dropDirBlock s dirInode blockIdx lba
  else do
    let ioBuf ← ioBuf.copy (direntSize * idx) s.part.dirEntrySize zeros
    ideWrite s lba.toNat ioBuf 0 1

/-- What `delete_dir_entry` does at the entry it found. -/
def removeEntry (s : State) (dirInode : InodePtr) (blockIdx idx : ℕ) (lba : UInt32)
    (alone : Bool) (ioBuf : Buffer) : Except Fault State := do
  let s ← eraseEntry s dirInode blockIdx idx lba alone ioBuf
  let x ← deref (s.inodes dirInode)
  ensure Fault.assert (s.part.dirEntrySize ≤ x.iSize.toNat)
  let y := { x with iSize := x.iSize - UInt32.ofNat s.part.dirEntrySize }
  let s := s.setInode dirInode y
  let ioBuf ← ioBuf.copy 0 1024 zeros
  inodeSync s y ioBuf

/-- The blocks of the directory from `blockIdx` on, `fuel` of them. -/
def deleteLoop (dirInode : InodePtr) (inodeNo : UInt32) (allBlocks : Buffer) :
    ℕ → ℕ → Buffer → State → Except Fault (Bool × State)
  | 0, _, _, s => .ok (false, s)
  | fuel + 1, blockIdx, ioBuf, s => do
    let lba ← allBlocks.word blockIdx
    if lba = 0 then deleteLoop dirInode inodeNo allBlocks fuel (blockIdx + 1) ioBuf s
    else
      let ioBuf ← ioBuf.copy 0 512 zeros
      let ioBuf ← ideRead s lba.toNat ioBuf 0 1
      let r ← scanSector ioBuf.bytes inodeNo (512 / s.part.dirEntrySize) 0 ⟨false, 0, none⟩
      match r.found with
      | none => deleteLoop dirInode inodeNo allBlocks fuel (blockIdx + 1) ioBuf s
      | some idx =>
        let s ← removeEntry s dirInode blockIdx idx lba (r.count = 1 && !r.isFirst) ioBuf
        .ok (true, s)

/-- The block list of an inode: 140 words on the stack. -/
def loadBlocks (s : State) (x : Inode) : Except Fault Buffer := do
  let allBlocks ← copyDirect x { size := 560, bytes := zeros } 12
  loadIndirect s x allBlocks

def deleteDirEntry (s : State) (pdir : Dir) (inodeNo : UInt32) (ioBuf : Buffer) :
    Except Fault (Bool × State) := do
  let x ← deref (s.inodes (pdir.inode s))
  let allBlocks ← loadBlocks s x
  deleteLoop (pdir.inode s) inodeNo allBlocks 140 0 ioBuf s

/-- The loop of `inode_release` over the block list. -/
def releaseBlocks (allBlocks : Buffer) : ℕ → ℕ → State → Except Fault State
  | 0, _, s => .ok s
  | fuel + 1, blockIdx, s => do
    let lba ← allBlocks.word blockIdx
    if lba = 0 then releaseBlocks allBlocks fuel (blockIdx + 1) s
    else
      ensure Fault.assert (lba - UInt32.ofNat s.part.dataStartLba ≠ 0)
      let s ← freeBlock s lba
      releaseBlocks allBlocks fuel (blockIdx + 1) s

/-- The indirect table of an inode is given back before the blocks in it. -/
def releaseTable (s : State) (x : Inode) : Except Fault State :=
  if x.sector 12 ≠ 0 then do
    ensure Fault.assert (x.sector 12 - UInt32.ofNat s.part.dataStartLba ≠ 0)
    freeBlock s (x.sector 12)
  else .ok s

def inodeRelease (s : State) (inodeNo : UInt32) : Except Fault State := do
  let (a, s) ← inodeOpen s inodeNo
  let x ← deref (s.inodes a)
  ensure Fault.assert (x.iNo = inodeNo)
  let allBlocks ← loadBlocks s x
  let s ← releaseTable s x
  let s ← releaseBlocks allBlocks (if x.sector 12 ≠ 0 then 140 else 12) 0 s
  let s := { s with inodeBitmap := bitmapSet s.inodeBitmap inodeNo.toNat false }
  let s ← bitmapSync s inodeNo.toNat .inodeBitmap
  let (ioBuf, s) := sysMalloc s 1024
  let ioBuf ← deref ioBuf
  let s ← inodeDelete s inodeNo ioBuf
  inodeClose s a

/-- `dir_is_empty`: only `"."` and `".."` are left. -/
def dirIsEmpty (s : State) (dir : Dir) : Except Fault Bool := do
  let x ← deref (s.inodes (dir.inode s))
  .ok (x.iSize.toNat = s.part.dirEntrySize * 2)

/-- `dir_remove`; the result of `delete_dir_entry` is not looked at. -/
def dirRemove (s : State) (parentDir childDir : Dir) : Except Fault (Bool × State) := do
  let x ← deref (s.inodes (childDir.inode s))
  ensure Fault.assert (∀ k ∈ List.range 12, x.sector (k + 1) = 0)
  let (ioBuf, s) := sysMalloc s 1024
  match ioBuf with
  | none => .ok (false, s)
  | some ioBuf =>
    let (_, s) ← deleteDirEntry s parentDir x.iNo ioBuf
    let s ← inodeRelease s x.iNo
    .ok (true, s)

/-- Only an empty directory is removed. -/
def removeIfEmpty (s : State) (parentDir dir : Dir) : Except Fault (Bool × State) := do
  let empty ← dirIsEmpty s dir
  if empty then dirRemove s parentDir dir else .ok (false, s)

/-- `sys_rmdir`; `true` stands for 0 and `false` for -1. -/
def sysRmdir (s : State) (pathname : List UInt8) : Except Fault (Bool × State) := do
  let (inodeNo, record, s) ← searchFile s pathname
  ensure Fault.assert (inodeNo ≠ 0)
  if inodeNo = minusOne ∨ record.fileType = ftRegular then
    let s ← dirClose s record.parentDir
    .ok (false, s)
  else
    let (dir, s) ← dirOpen s inodeNo
    let (removed, s) ← removeIfEmpty s record.parentDir dir
    let s ← dirClose s dir
    let s ← dirClose s record.parentDir
    .ok (removed, s)

/-- Whether a slot of `file_table` refers to this inode number. The first word behind
the pointer of a pipe is the holder of its ring's lock, which is NULL between calls. -/
def slotInUse (s : State) (inodeNo : UInt32) (f : File) : Except Fault Bool :=
  match f.fdInode with
  | none => .ok false
  | some a =>
    if f.fdFlag = 0xffff then .ok (inodeNo = 0)
    else do
      let x ← deref (s.inodes a)
      .ok (x.iNo = inodeNo)

/-- The search of `sys_unlink` through `file_table`. -/
def fileInUse (s : State) (inodeNo : UInt32) : List File → Except Fault Bool
  | [] => .ok false
  | f :: l => do
    if ← slotInUse s inodeNo f then .ok true else fileInUse s inodeNo l

/-- `sys_unlink`. -/
def sysUnlink (s : State) (pathname : List UInt8) : Except Fault (Bool × State) := do
  ensure Fault.assert (pathname.length < maxPathLen)
  let (inodeNo, record, s) ← searchFile s pathname
  ensure Fault.assert (inodeNo ≠ 0)
  if inodeNo = minusOne ∨ record.fileType = ftDirectory then
    let s ← dirClose s record.parentDir
    .ok (false, s)
  else
    let inUse ← fileInUse s inodeNo s.fileTable.toList
    if inUse then
      let s ← dirClose s record.parentDir
      .ok (false, s)
    else
      let (ioBuf, s) := sysMalloc s 1024
      match ioBuf with
      | none =>
        let s ← dirClose s record.parentDir
        .ok (false, s)
      | some ioBuf =>
        let (_, s) ← deleteDirEntry s record.parentDir inodeNo ioBuf
        let s ← inodeRelease s inodeNo
        let s ← dirClose s record.parentDir
        .ok (true, s)

end X86System.FileSystem
