import X86System.Paths

/-!
# Reading and writing files

`file_write` appends: it gives the file the blocks that its new size needs, collects
their addresses in `all_blocks`, and then fills sector after sector from the old end
on. A file always has one block more than its full sectors. `file_read` collects the
addresses of the sectors from `fd_pos` on and copies them out.
-/
namespace X86System.FileSystem
open Bytes Exec

/-- An entry of `file_table`. -/
def State.file (s : State) (g : ℕ) : Except Fault File :=
  match s.fileTable[g]? with
  | some f => .ok f
  | none => .error .overrun

def State.setFile (s : State) (g : ℕ) (f : File) : State :=
  { s with fileTable := s.fileTable.setIfInBounds g f }

/-- `file->fd_pos += n`. -/
def advance (s : State) (g : ℕ) (n : UInt32) : Except Fault State := do
  let f ← s.file g
  .ok (s.setFile g { f with fdPos := f.fdPos + n })

/-- The inode an entry refers to. -/
def fileInode (s : State) (g : ℕ) : Except Fault InodePtr := do
  let f ← s.file g
  deref f.fdInode

/-- `i_sectors[k]`, inside the array. -/
def Inode.sectorAt (x : Inode) (k : ℕ) : Except Fault UInt32 := do
  ensure Fault.overrun (k < 13)
  .ok (x.sector k)

/-- Store the address of a new block: a direct one in the inode as well. -/
def linkFileBlock (s : State) (a : InodePtr) (blockIdx : ℕ) (lba : UInt32) (allBlocks : Buffer) :
    Except Fault (Buffer × State) := do
  if blockIdx < 12 then
    let x ← deref (s.inodes a)
    ensure Fault.assert (x.sector blockIdx = 0)
    let allBlocks ← allBlocks.setWord blockIdx lba
    .ok (allBlocks, s.setInode a (x.setSector blockIdx lba))
  else
    let allBlocks ← allBlocks.setWord blockIdx lba
    .ok (allBlocks, s)

/-- The allocation loops of `file_write`: blocks `blockIdx` to `willUse - 1`. -/
def allocFileBlocks (a : InodePtr) (willUse : ℕ) :
    ℕ → ℕ → Buffer → State → Except Fault (Option Buffer × State)
  | 0, blockIdx, allBlocks, s =>
    if blockIdx < willUse then .error .diverge else .ok (some allBlocks, s)
  | fuel + 1, blockIdx, allBlocks, s =>
    if blockIdx < willUse then do
      let (blockLba, s) ← blockBitmapAlloc s
      match blockLba with
      | none => .ok (none, s)
      | some lba =>
        let (allBlocks, s) ← linkFileBlock s a blockIdx (UInt32.ofNat lba) allBlocks
        let s ← bitmapSync s (lba - s.part.dataStartLba) .blockBitmap
        allocFileBlocks a willUse fuel (blockIdx + 1) allBlocks s
    else .ok (some allBlocks, s)

/-- The first write of a file allocates block 0. -/
def firstFileBlock (s : State) (a : InodePtr) : Except Fault (Bool × State) := do
  let x ← deref (s.inodes a)
  if x.sector 0 = 0 then
    let (blockLba, s) ← blockBitmapAlloc s
    match blockLba with
    | none => .ok (false, s)
    | some lba =>
      let s := s.setInode a (x.setSector 0 (UInt32.ofNat lba))
      ensure Fault.assert (lba - s.part.dataStartLba ≠ 0)
      let s ← bitmapSync s (lba - s.part.dataStartLba) .blockBitmap
      .ok (true, s)
  else .ok (true, s)

/-- No new block: the last block of the file is the one to write. -/
def lastFileBlock (s : State) (a : InodePtr) (used : ℕ) (allBlocks : Buffer) :
    Except Fault Buffer := do
  let x ← deref (s.inodes a)
  if used ≤ 12 then allBlocks.setWord (used - 1) (x.sector (used - 1))
  else
    ensure Fault.assert (x.sector 12 ≠ 0)
    ideRead s (x.sector 12).toNat allBlocks 48 1

/-- Situation 2: the indirect table is allocated too, and written at the end. -/
def addFileTable (s : State) (a : InodePtr) (used willUse : ℕ) (allBlocks : Buffer) :
    Except Fault (Option Buffer × State) := do
  let x ← deref (s.inodes a)
  let allBlocks ← allBlocks.setWord (used - 1) (x.sector (used - 1))
  let (blockLba, s) ← blockBitmapAlloc s
  match blockLba with
  | none => .ok (none, s)
  | some table =>
    ensure Fault.assert (x.sector 12 = 0)
    let s := s.setInode a (x.setSector 12 (UInt32.ofNat table))
    match ← allocFileBlocks a willUse willUse used allBlocks s with
    | (none, s) => .ok (none, s)
    | (some allBlocks, s) =>
      let s ← ideWrite s table allBlocks 48 1
      .ok (some allBlocks, s)

/-- Situation 3: the indirect table gets more entries. -/
def extendFileTable (s : State) (a : InodePtr) (used willUse : ℕ) (allBlocks : Buffer) :
    Except Fault (Option Buffer × State) := do
  let x ← deref (s.inodes a)
  ensure Fault.assert (x.sector 12 ≠ 0)
  let allBlocks ← ideRead s (x.sector 12).toNat allBlocks 48 1
  match ← allocFileBlocks a willUse willUse used allBlocks s with
  | (none, s) => .ok (none, s)
  | (some allBlocks, s) =>
    let s ← ideWrite s (x.sector 12).toNat allBlocks 48 1
    .ok (some allBlocks, s)

/-- The three situations in which `file_write` adds blocks. -/
def addFileBlocks (s : State) (a : InodePtr) (used willUse : ℕ) (allBlocks : Buffer) :
    Except Fault (Option Buffer × State) := do
  if willUse ≤ 12 then
    let x ← deref (s.inodes a)
    let lba ← x.sectorAt (used - 1)
    ensure Fault.assert (lba ≠ 0)
    let allBlocks ← allBlocks.setWord (used - 1) lba
    allocFileBlocks a willUse willUse used allBlocks s
  else if used ≤ 12 then addFileTable s a used willUse allBlocks
  else extendFileTable s a used willUse allBlocks

/-- Collect the blocks to write in `all_blocks`, with new ones where they are needed. -/
def collectWriteBlocks (s : State) (a : InodePtr) (used willUse : ℕ) (allBlocks : Buffer) :
    Except Fault (Option Buffer × State) :=
  if willUse = used then do
    let allBlocks ← lastFileBlock s a used allBlocks
    .ok (some allBlocks, s)
  else addFileBlocks s a used willUse allBlocks

/-- The loop that writes the data, for at most `fuel` sectors. `done` bytes are written
and `left` are not. -/
def writeLoop (g : ℕ) (a : InodePtr) (src : Image) (allBlocks : Buffer) :
    ℕ → ℕ → ℕ → Bool → Buffer → State → Except Fault (Buffer × State)
  | 0, _, left, _, ioBuf, s => if left = 0 then .ok (ioBuf, s) else .error .diverge
  | fuel + 1, done, left, first, ioBuf, s =>
    if left = 0 then .ok (ioBuf, s)
    else do
      let ioBuf ← ioBuf.copy 0 512 zeros
      let x ← deref (s.inodes a)
      let lba ← allBlocks.word (x.iSize.toNat / 512)
      let off := x.iSize.toNat % 512
      let chunk := min left (512 - off)
      let ioBuf ← (if first then ideRead s lba.toNat ioBuf 0 1 else .ok ioBuf)
      let ioBuf ← ioBuf.copy off chunk (slice src done)
      let s ← ideWrite s lba.toNat ioBuf 0 1
      let s := s.setInode a { x with iSize := x.iSize + UInt32.ofNat chunk }
      let s ← advance s g (UInt32.ofNat chunk)
      writeLoop g a src allBlocks fuel (done + chunk) (left - chunk) false ioBuf s

/-- The part of `file_write` after the blocks are there. -/
def writeData (s : State) (g : ℕ) (a : InodePtr) (src : Image) (count : UInt32)
    (allBlocks ioBuf : Buffer) : Except Fault (Option UInt32 × State) := do
  let x ← deref (s.inodes a)
  let f ← s.file g
  let s := s.setFile g { f with fdPos := x.iSize - 1 }
  let (ioBuf, s) ← writeLoop g a src allBlocks count.toNat 0 count.toNat true ioBuf s
  let x ← deref (s.inodes a)
  let s ← inodeSync s x ioBuf
  .ok (some count, s)

/-- `file_write` of `count` bytes at `src`; `none` stands for -1. -/
def fileWrite (s : State) (g : ℕ) (src : Image) (count : UInt32) :
    Except Fault (Option UInt32 × State) := do
  let a ← fileInode s g
  let x ← deref (s.inodes a)
  if 512 * 140 < (x.iSize + count).toNat then .ok (none, s)
  else
    let (ioBuf, s) := sysMalloc s 512
    match ioBuf with
    | none => .ok (none, s)
    | some ioBuf =>
      let (allBlocks, s) := sysMalloc s (512 + 48)
      match allBlocks with
      | none => .ok (none, s)
      | some allBlocks =>
        match ← firstFileBlock s a with
        | (false, s) => .ok (none, s)
        | (true, s) =>
          let used := x.iSize.toNat / 512 + 1
          let willUse := (x.iSize + count).toNat / 512 + 1
          ensure Fault.assert (willUse ≤ 140)
          match ← collectWriteBlocks s a used willUse allBlocks with
          | (none, s) => .ok (none, s)
          | (some allBlocks, s) => writeData s g a src count allBlocks ioBuf

/-- Copy the direct blocks `idx`, ..., `idx + n - 1` into `all_blocks`. -/
def copySectors (x : Inode) : ℕ → ℕ → Buffer → Except Fault Buffer
  | 0, _, allBlocks => .ok allBlocks
  | n + 1, idx, allBlocks => do
    let allBlocks ← allBlocks.setWord idx (x.sector idx)
    copySectors x n (idx + 1) allBlocks

/-- The blocks that `file_read` collects, from block `start` to block `last`. -/
def collectReadBlocks (s : State) (x : Inode) (start last : ℕ) (allBlocks : Buffer) :
    Except Fault Buffer := do
  if start = last then
    if last < 12 then allBlocks.setWord last (x.sector last)
    else ideRead s (x.sector 12).toNat allBlocks 48 1
  else if last < 12 then copySectors x (last + 1 - start) start allBlocks
  else
    let allBlocks ← copySectors x (12 - start) start allBlocks
    ensure Fault.assert (x.sector 12 ≠ 0)
    ideRead s (x.sector 12).toNat allBlocks 48 1

/-- The loop of `file_read`; `dst` is the memory at `buf`. -/
def readLoop (g : ℕ) (allBlocks : Buffer) :
    ℕ → ℕ → ℕ → Buffer → Image → State → Except Fault (Image × State)
  | 0, _, left, _, dst, s => if left = 0 then .ok (dst, s) else .error .diverge
  | fuel + 1, done, left, ioBuf, dst, s =>
    if left = 0 then .ok (dst, s)
    else do
      let f ← s.file g
      let lba ← allBlocks.word (f.fdPos.toNat / 512)
      let off := f.fdPos.toNat % 512
      let chunk := min left (512 - off)
      let ioBuf ← ioBuf.copy 0 512 zeros
      let ioBuf ← ideRead s lba.toNat ioBuf 0 1
      let s ← advance s g (UInt32.ofNat chunk)
      readLoop g allBlocks fuel (done + chunk) (left - chunk) ioBuf
        (overlay dst done chunk (slice ioBuf.bytes off)) s

/-- How much `file_read` reads: `count` bytes, or what is left of the file. -/
def readSize (f : File) (x : Inode) (count : UInt32) : UInt32 :=
  if x.iSize < f.fdPos + count then x.iSize - f.fdPos else count

/-- `file_read` of `count` bytes to `dst`; `none` stands for -1. -/
def fileRead (s : State) (g : ℕ) (dst : Image) (count : UInt32) :
    Except Fault (Option UInt32 × Image × State) := do
  let f ← s.file g
  let a ← fileInode s g
  let x ← deref (s.inodes a)
  let size := readSize f x count
  if x.iSize < f.fdPos + count ∧ size = 0 then .ok (none, dst, s)
  else
    let (ioBuf, s) := sysMalloc s 512
    match ioBuf with
    | none => .ok (none, dst, s)
    | some ioBuf =>
      let (allBlocks, s) := sysMalloc s (512 + 48)
      match allBlocks with
      | none => .ok (none, dst, s)
      | some allBlocks =>
        let start := f.fdPos.toNat / 512
        let last := (f.fdPos + size).toNat / 512
        ensure Fault.assert (start < 139 ∧ last < 139)
        let allBlocks ← collectReadBlocks s x start last allBlocks
        let (dst, s) ← readLoop g allBlocks size.toNat 0 size.toNat ioBuf dst s
        .ok (some size, dst, s)

end X86System.FileSystem
