import X86System.FileData
import X86System.Removal

/-!
# Opening and creating

`file_table` is shared by all processes; a process names a slot by its index in the
process's own table. A slot belongs to one inode from the call that fills it to the
call that stores NULL in it. Creating a file or directory allocates an inode number
first and enters the name last, with a rollback for what fails in between.
-/
namespace X86System.FileSystem
open Bytes Exec

/-- `O_WRONLY`, `O_RDWR` and `O_CREAT`. -/
def oWronly : UInt8 := 1
def oRdwr : UInt8 := 2
def oCreat : UInt8 := 4

/-- Whether the flags ask for writing. -/
def forWriting (flag : UInt32) : Bool := flag &&& 1 ≠ 0 || flag &&& 2 ≠ 0

/-- The loop of `get_free_slot_in_global`. -/
def freeSlotFrom (s : State) : ℕ → ℕ → Option ℕ
  | 0, _ => none
  | fuel + 1, fdIdx =>
    match s.fileTable[fdIdx]? with
    | none => none
    | some f => if f.fdInode = none then some fdIdx else freeSlotFrom s fuel (fdIdx + 1)

/-- `get_free_slot_in_global`; the slots of the standard streams are skipped. -/
def getFreeSlotInGlobal (s : State) : Option ℕ := freeSlotFrom s 29 3

/-- The entry `fd` of a process's table, `none` outside the table. -/
def Task.fd (t : Task) (fd : ℕ) : Option ℤ := t.fdTable[fd]?

def Task.setFd (t : Task) (fd : ℕ) (v : ℤ) : Task :=
  { t with fdTable := t.fdTable.setIfInBounds fd v }

def State.setTask (s : State) (p : ℕ) (t : Task) : State :=
  { s with tasks := Function.update s.tasks p (some t) }

/-- The loop of `pcb_fd_install`. -/
def freeFdFrom (t : Task) : ℕ → ℕ → Option ℕ
  | 0, _ => none
  | fuel + 1, fd => if t.fd fd = some (-1) then some fd else freeFdFrom t fuel (fd + 1)

/-- `pcb_fd_install`. -/
def pcbFdInstall (s : State) (globalFdIdx : ℕ) : Except Fault (Option ℕ × State) := do
  let t ← deref (s.tasks s.cur)
  match freeFdFrom t 5 3 with
  | none => .ok (none, s)
  | some fd => .ok (some fd, s.setTask s.cur (t.setFd fd globalFdIdx))

/-- `sys_free` of an in-memory inode. -/
def State.freeInode (s : State) (a : InodePtr) : State :=
  { s with inodes := Function.update s.inodes a none }

/-- The rollback steps of a failed creation give the inode number back. -/
def State.dropInodeNo (s : State) (inodeNo : ℕ) : State :=
  { s with inodeBitmap := bitmapSet s.inodeBitmap inodeNo false }

/-- What `file_create` does once the new entry is in its directory. -/
def enrolFile (s : State) (parent a : InodePtr) (inodeNo fdIdx : ℕ) :
    Except Fault (Option ℕ × State) := do
  let x ← deref (s.inodes parent)
  let s ← inodeSync s x { size := 1024, bytes := zeros }
  let y ← deref (s.inodes a)
  let s ← inodeSync s y { size := 1024, bytes := zeros }
  let s ← bitmapSync s inodeNo .inodeBitmap
  let s := { s.setInode a { y with iOpenCnts := 1 } with openInodes := a :: s.openInodes }
  pcbFdInstall s fdIdx

/-- The part of `file_create` that follows the allocation of an inode. -/
def createInDir (s : State) (parent : InodePtr) (filename : List UInt8) (flag : UInt8)
    (inodeNo : ℕ) (a : InodePtr) (ioBuf : Buffer) : Except Fault (Option ℕ × State) := do
  let s := s.setInode a (inodeInit (UInt32.ofNat inodeNo))
  match getFreeSlotInGlobal s with
  | none => .ok (none, (s.freeInode a).dropInodeNo inodeNo)
  | some fdIdx =>
    let s := s.setFile fdIdx { fdPos := 0, fdFlag := flag.toUInt32, fdInode := some a }
    let e ← createDirEntry filename (UInt32.ofNat inodeNo) ftRegular
    match ← syncDirEntry s parent e ioBuf with
    | (false, s) =>
      let s := s.setFile fdIdx { fdPos := 0, fdFlag := 0, fdInode := none }
      .ok (none, (s.freeInode a).dropInodeNo inodeNo)
    | (true, s) => enrolFile s parent a inodeNo fdIdx

/-- `file_create`; the local descriptor, `none` for -1. -/
def fileCreate (s : State) (parentDir : Dir) (filename : List UInt8) (flag : UInt8) :
    Except Fault (Option ℕ × State) := do
  let (ioBuf, s) := sysMalloc s 1024
  match ioBuf with
  | none => .ok (none, s)
  | some ioBuf =>
    match ← inodeBitmapAlloc s with
    | (none, s) => .ok (none, s)
    | (some inodeNo, s) =>
      match mallocInode s with
      | (none, s) => .ok (none, s.dropInodeNo inodeNo)
      | (some a, s) => createInDir s (parentDir.inode s) filename flag inodeNo a ioBuf

/-- Take the right to write to an inode, unless it is taken. -/
def denyWrite (s : State) (a : InodePtr) : Except Fault (Bool × State) := do
  let x ← deref (s.inodes a)
  if x.writeDeny = 0 then .ok (true, s.setInode a { x with writeDeny := 1 }) else .ok (false, s)

/-- `file_open`. Where another handle writes, it returns -1 with the slot filled in. -/
def fileOpen (s : State) (inodeNo : UInt32) (flag : UInt8) :
    Except Fault (Option ℕ × State) := do
  match getFreeSlotInGlobal s with
  | none => .ok (none, s)
  | some fdIdx =>
    let (a, s) ← inodeOpen s inodeNo
    let s := s.setFile fdIdx { fdPos := 0, fdFlag := flag.toUInt32, fdInode := some a }
    if forWriting flag.toUInt32 then
      match ← denyWrite s a with
      | (false, s) => .ok (none, s)
      | (true, s) => pcbFdInstall s fdIdx
    else pcbFdInstall s fdIdx

/-- `file_close`. -/
def fileClose (s : State) (g : ℕ) : Except Fault State := do
  let f ← s.file g
  let a ← deref f.fdInode
  let x ← deref (s.inodes a)
  let s ← inodeClose (s.setInode a { x with writeDeny := 0 }) a
  .ok (s.setFile g { f with fdInode := none })

/-- The `int` that a descriptor or -1 is returned as. -/
def fdResult (fd : Option ℕ) : ℤ :=
  match fd with
  | some fd => fd
  | none => -1

/-- What `sys_open` does with the result of the path search. -/
def openFound (s : State) (pathname : List UInt8) (flags : UInt8) (depth : ℕ)
    (inodeNo : UInt32) (record : PathSearchRecord) : Except Fault (ℤ × State) := do
  if record.fileType = ftDirectory then
    let s ← dirClose s record.parentDir
    .ok (-1, s)
  else
    let searchedDepth ← pathDepthCnt record.searchedPath
    -- a missing directory on the way, a missing file, or a file that exists already
    if depth ≠ searchedDepth ∨ (inodeNo = minusOne ∧ flags &&& oCreat = 0) ∨
        (inodeNo ≠ minusOne ∧ flags &&& oCreat ≠ 0) then
      let s ← dirClose s record.parentDir
      .ok (-1, s)
    else if flags &&& oCreat ≠ 0 then
      let (fd, s) ← fileCreate s record.parentDir (lastName pathname) flags
      let s ← dirClose s record.parentDir
      .ok (fdResult fd, s)
    else
      -- the directory of the search record stays open
      let (fd, s) ← fileOpen s inodeNo flags
      .ok (fdResult fd, s)

/-- `sys_open`. -/
def sysOpen (s : State) (pathname : List UInt8) (flags : UInt8) : Except Fault (ℤ × State) := do
  ensure Fault.overrun (pathname ≠ [])
  if pathname.getLast? = some slash then .ok (0, s)
  else
    ensure Fault.assert (flags ≤ 7)
    let depth ← pathDepthCnt pathname
    let (inodeNo, record, s) ← searchFile s pathname
    openFound s pathname flags depth inodeNo record

/-- What `sys_mkdir` does once it has an inode number. -/
def makeDir (s : State) (record : PathSearchRecord) (inodeNo : ℕ) (ioBuf : Buffer) :
    Except Fault (Bool × State) := do
  let parent := record.parentDir.inode s
  match ← blockBitmapAlloc s with
  | (none, s) => .ok (false, s.dropInodeNo inodeNo)
  | (some blockLba, s) =>
    ensure Fault.assert (blockLba - s.part.dataStartLba ≠ 0)
    let s ← bitmapSync s (blockLba - s.part.dataStartLba) .blockBitmap
    let x ← deref (s.inodes parent)
    let self ← createDirEntry [dot] (UInt32.ofNat inodeNo) ftDirectory
    let up ← createDirEntry [dot, dot] x.iNo ftDirectory
    let ioBuf ← ioBuf.copy 0 1024 zeros
    let ioBuf ← ioBuf.copy 0 direntSize self.bytes
    let ioBuf ← ioBuf.copy direntSize direntSize up.bytes
    let s ← ideWrite s blockLba ioBuf 0 1
    let new := { (inodeInit (UInt32.ofNat inodeNo)).setSector 0 (UInt32.ofNat blockLba) with
      iSize := 2 * UInt32.ofNat s.part.dirEntrySize }
    let e ← createDirEntry (lastName record.searchedPath) (UInt32.ofNat inodeNo) ftDirectory
    match ← syncDirEntry s parent e { size := 1024, bytes := zeros } with
    | (false, s) => .ok (false, s.dropInodeNo inodeNo)
    | (true, s) =>
      let x ← deref (s.inodes parent)
      let s ← inodeSync s x { size := 1024, bytes := zeros }
      let s ← inodeSync s new { size := 1024, bytes := zeros }
      let s ← bitmapSync s inodeNo .inodeBitmap
      .ok (true, s)

/-- `sys_mkdir`; `true` stands for 0 and `false` for -1. -/
def sysMkdir (s : State) (pathname : List UInt8) : Except Fault (Bool × State) := do
  let (ioBuf, s) := sysMalloc s 1024
  match ioBuf with
  | none => .ok (false, s)
  | some ioBuf =>
    let (inodeNo, record, s) ← searchFile s pathname
    if inodeNo ≠ minusOne then
      let s ← dirClose s record.parentDir
      .ok (false, s)
    else
      let depth ← pathDepthCnt pathname
      let searchedDepth ← pathDepthCnt record.searchedPath
      if depth ≠ searchedDepth then
        let s ← dirClose s record.parentDir
        .ok (false, s)
      else
        match ← inodeBitmapAlloc s with
        | (none, s) =>
          let s ← dirClose s record.parentDir
          .ok (false, s)
        | (some inodeNo, s) =>
          let (made, s) ← makeDir s record inodeNo ioBuf
          let s ← dirClose s record.parentDir
          .ok (made, s)

end X86System.FileSystem
