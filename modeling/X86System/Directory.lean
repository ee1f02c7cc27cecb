import X86System.Blocks

/-!
# Directories

A directory's blocks hold 21 entries of 24 bytes each; an entry whose type is
`FT_UNKNOWN` is free. Searching walks all blocks, adding an entry walks the
private block list that `sync_dir_entry` builds from the direct blocks.
-/
namespace X86System.FileSystem
open Bytes Exec

/-- `enum file_types`. -/
def ftUnknown : UInt32 := 0
def ftRegular : UInt32 := 1
def ftDirectory : UInt32 := 2

/-- `MAX_FILE_NAME_LEN`. -/
def maxFileNameLen : ℕ := 16

/-- `struct dir_entry`. -/
structure DirEntry where
  filename : Vector UInt8 16
  iNo : UInt32
  fType : UInt32
  deriving DecidableEq

/-- `sizeof(struct dir_entry)`. -/
def direntSize : ℕ := 24

def DirEntry.bytes (e : DirEntry) : Image := fun i =>
  if h : i < 16 then e.filename[i]
  else if i < 20 then wordByte e.iNo (i - 16)
  else wordByte e.fType (i - 20)

def DirEntry.ofBytes (r : Image) : DirEntry where
  filename := Vector.ofFn fun k => r k
  iNo := wordAt r 16
  fType := wordAt r 20

/-- `struct dir *`: the root directory, or one that `dir_open` allocated. -/
inductive Dir
  | root
  | opened (inode : InodePtr)
  deriving DecidableEq

def Dir.inode (s : State) : Dir → InodePtr
  | .root => s.rootDir
  | .opened a => a

def dirOpen (s : State) (inodeNo : UInt32) : Except Fault (Dir × State) := do
  let (buf, s) := sysMalloc s 520
  let _ ← deref buf
  let (a, s) ← inodeOpen s inodeNo
  .ok (.opened a, s)

def dirClose (s : State) : Dir → Except Fault State
  -- the root directory is never closed
  | .root => .ok s
  | .opened a => inodeClose s a

/-- `!strcmp(m, name)`, where a name is the bytes before its NUL. -/
def strMatches (m : Image) : List UInt8 → Bool
  | [] => m 0 = 0
  | c :: l => m 0 = c && strMatches (slice m 1) l

/-- Copy the first `k` direct blocks into `all_blocks`. -/
def copyDirect (x : Inode) (allBlocks : Buffer) : ℕ → Except Fault Buffer
  | 0 => .ok allBlocks
  | k + 1 => do
    let allBlocks ← copyDirect x allBlocks k
    allBlocks.setWord k (x.sector k)

/-- Read the indirect table, if there is one, behind the direct blocks. -/
def loadIndirect (s : State) (x : Inode) (allBlocks : Buffer) : Except Fault Buffer :=
  if x.sector 12 ≠ 0 then ideRead s (x.sector 12).toNat allBlocks 48 1 else .ok allBlocks

/-- The entries of one sector from `idx` on, `fuel` of them. -/
def searchSector (buf : Image) (name : List UInt8) : ℕ → ℕ → Option DirEntry
  | 0, _ => none
  | fuel + 1, idx =>
    let p := slice buf (direntSize * idx)
    if strMatches p name then some (DirEntry.ofBytes p) else searchSector buf name fuel (idx + 1)

/-- The blocks of a directory from `blockIdx` on, `fuel` of them. -/
def searchBlocks (s : State) (name : List UInt8) (allBlocks : Buffer) (buf : Option Buffer) :
    ℕ → ℕ → Except Fault (Option DirEntry)
  | 0, _ => .ok none
  | fuel + 1, blockIdx => do
    let lba ← allBlocks.word blockIdx
    if lba = 0 then searchBlocks s name allBlocks buf fuel (blockIdx + 1)
    else
      let b ← deref buf
      let b ← ideRead s lba.toNat b 0 1
      match searchSector b.bytes name (512 / s.part.dirEntrySize) 0 with
      | some e => .ok (some e)
      | none => searchBlocks s name allBlocks buf fuel (blockIdx + 1)

def searchDirEntry (s : State) (pdir : Dir) (name : List UInt8) :
    Except Fault (Option DirEntry × State) := do
  let (allBlocks, s) := sysMalloc s (48 + 512)
  match allBlocks with
  | none => .ok (none, s)
  | some allBlocks =>
    let x ← deref (s.inodes (pdir.inode s))
    let allBlocks ← copyDirect x allBlocks 12
    let allBlocks ← loadIndirect s x allBlocks
    let (buf, s) := sysMalloc s 512
    let e ← searchBlocks s name allBlocks buf 140 0
    -- `sys_free(buf)`
    ensure Fault.assert buf.isSome
    .ok (e, s)

/-- `create_dir_entry` on a cleared entry. -/
def createDirEntry (filename : List UInt8) (inodeNo fileType : UInt32) :
    Except Fault DirEntry := do
  ensure Fault.assert (filename.length ≤ maxFileNameLen)
  .ok { filename := Vector.ofFn fun k => filename.getD k 0
        iNo := inodeNo
        fType := fileType }

/-- The first entry of a sector whose type is `FT_UNKNOWN`. -/
def findFreeEntry (buf : Image) : ℕ → ℕ → Option ℕ
  | 0, _ => none
  | fuel + 1, idx =>
    if wordAt buf (direntSize * idx + 20) = ftUnknown then some idx
    else findFreeEntry buf fuel (idx + 1)

/-- Write the bitmap sector of a block that was just allocated. -/
def syncBlock (s : State) (blockLba : ℕ) : Except Fault State := do
  ensure Fault.assert ((blockLba : ℤ) - s.part.dataStartLba ≠ -1)
  bitmapSync s (blockLba - s.part.dataStartLba) .blockBitmap

/-- The block becomes the indirect table; a second one will hold the entry. -/
def addIndirectTable (s : State) (dirInode : InodePtr) (tableLba : ℕ) (allBlocks : Buffer) :
    Except Fault (Option Buffer × State) := do
  let x ← deref (s.inodes dirInode)
  let s := s.setInode dirInode (x.setSector 12 (UInt32.ofNat tableLba))
  let (blockLba, s) ← blockBitmapAlloc s
  match blockLba with
  | none =>
    let s := { s with
      blockBitmap := bitmapSet s.blockBitmap (tableLba - s.part.dataStartLba) false }
    .ok (none, s.setInode dirInode (x.setSector 12 0))
  | some blockLba =>
    let s ← syncBlock s blockLba
    let allBlocks ← allBlocks.setWord 12 (UInt32.ofNat blockLba)
    let s ← ideWrite s tableLba allBlocks 48 1
    .ok (some allBlocks, s)

/-- Enter a new block at index `blockIdx` of the directory. -/
def linkDirBlock (s : State) (dirInode : InodePtr) (blockIdx blockLba : ℕ) (allBlocks : Buffer) :
    Except Fault (Option Buffer × State) := do
  if blockIdx < 12 then
    let x ← deref (s.inodes dirInode)
    let allBlocks ← allBlocks.setWord blockIdx (UInt32.ofNat blockLba)
    .ok (some allBlocks, s.setInode dirInode (x.setSector blockIdx (UInt32.ofNat blockLba)))
  else if blockIdx = 12 then
    addIndirectTable s dirInode blockLba allBlocks
  else
    let x ← deref (s.inodes dirInode)
    let allBlocks ← allBlocks.setWord blockIdx (UInt32.ofNat blockLba)
    let s ← ideWrite s (x.sector 12).toNat allBlocks 48 1
    .ok (some allBlocks, s)

/-- `dir_inode->i_size += dir_entry_size`. -/
def growDir (s : State) (dirInode : InodePtr) : Except Fault State := do
  let x ← deref (s.inodes dirInode)
  .ok (s.setInode dirInode { x with iSize := x.iSize + UInt32.ofNat s.part.dirEntrySize })

/-- The branch of `sync_dir_entry` for an index without a block. -/
def addDirBlock (s : State) (dirInode : InodePtr) (e : DirEntry) (blockIdx : ℕ)
    (allBlocks ioBuf : Buffer) : Except Fault (Bool × State) := do
  let (blockLba, s) ← blockBitmapAlloc s
  match blockLba with
  | none => .ok (false, s)
  | some blockLba =>
    let s ← syncBlock s blockLba
    let (allBlocks, s) ← linkDirBlock s dirInode blockIdx blockLba allBlocks
    match allBlocks with
    | none => .ok (false, s)
    | some allBlocks =>
      let ioBuf ← ioBuf.copy 0 512 zeros
      let ioBuf ← ioBuf.copy 0 s.part.dirEntrySize e.bytes
      let lba ← allBlocks.word blockIdx
      let s ← ideWrite s lba.toNat ioBuf 0 1
      let s ← growDir s dirInode
      .ok (true, s)

/-- The loop of `sync_dir_entry` from `blockIdx` on, `fuel` blocks. -/
def syncDirLoop (s : State) (dirInode : InodePtr) (e : DirEntry) (allBlocks : Buffer) :
    ℕ → ℕ → Buffer → Except Fault (Bool × State)
  | 0, _, _ => .ok (false, s)
  | fuel + 1, blockIdx, ioBuf => do
    let lba ← allBlocks.word blockIdx
    if lba = 0 then addDirBlock s dirInode e blockIdx allBlocks ioBuf
    else
      let ioBuf ← ideRead s lba.toNat ioBuf 0 1
      match findFreeEntry ioBuf.bytes (512 / s.part.dirEntrySize) 0 with
      | some idx =>
        let ioBuf ← ioBuf.copy (direntSize * idx) s.part.dirEntrySize e.bytes
        let s ← ideWrite s lba.toNat ioBuf 0 1
        let s ← growDir s dirInode
        .ok (true, s)
      | none => syncDirLoop s dirInode e allBlocks fuel (blockIdx + 1) ioBuf

/-- `sync_dir_entry`. The private block list is 140 words, of which only the direct
blocks are filled in. -/
def syncDirEntry (s : State) (dirInode : InodePtr) (e : DirEntry) (ioBuf : Buffer) :
    Except Fault (Bool × State) := do
  let x ← deref (s.inodes dirInode)
  ensure Fault.assert (x.iSize.toNat % s.part.dirEntrySize = 0)
  let allBlocks ← copyDirect x { size := 560, bytes := zeros } 12
  syncDirLoop s dirInode e allBlocks 140 0 ioBuf

end X86System.FileSystem
