import X86System.FileSystem

/-!
# The inode table on disk

A record of the table is the 76 bytes of a `struct inode`, so that records start
at any word of a sector and may straddle two. The routines compute where a record
lies in sectors; over the byte-addressed disk this is entry `n` of an array, and
both read-modify-write cases replace that entry and nothing else.
-/
namespace X86System.FileSystem
open Bytes Exec

/-- `sizeof(struct inode)`. -/
def inodeSize : ℕ := 76

/-- `struct inode_position`. -/
structure InodePosition where
  twoSec : Bool
  secLba : ℕ
  offSize : ℕ

def inodeLocate (s : State) (inodeNo : UInt32) : Except Fault InodePosition := do
  ensure Fault.assert (inodeNo.toNat < 4096)
  let offSize := inodeNo.toNat * inodeSize
  let offSec := offSize / 512
  let offSizeInSec := offSize % 512
  let leftInSec := 512 - offSizeInSec
  .ok { twoSec := leftInSec < inodeSize
        secLba := s.part.inodeTableLba + offSec
        offSize := offSizeInSec }

/-- The words of a `struct inode`; the links of `inode_tag` are NULL. -/
def Inode.word (x : Inode) (k : ℕ) : UInt32 :=
  if k = 0 then x.iNo
  else if k = 1 then x.iSize
  else if k = 2 then UInt32.ofNat x.iOpenCnts
  else if k = 3 then x.writeDeny
  else if h : k - 4 < 13 then x.iSectors[k - 4]
  else 0

/-- The bytes of a `struct inode` whose `inode_tag` is cleared. -/
def Inode.bytes (x : Inode) : Image := ofWords x.word

/-- The inode that `memcpy` finds in a record. The links of its tag are left out:
`list_push` sets both. -/
def Inode.ofBytes (r : Image) : Inode where
  iNo := wordAt r 0
  iSize := wordAt r 4
  iOpenCnts := (wordAt r 8).toNat
  writeDeny := wordAt r 12
  iSectors := Vector.ofFn fun k => wordAt r (16 + 4 * k)

/-- What only matters in memory is cleared before an inode goes to disk. -/
def Inode.pure (x : Inode) : Inode := { x with iOpenCnts := 0, writeDeny := 0 }

/-- Read the sectors of a record, replace its bytes in the buffer, write them back. -/
def replaceRecord (s : State) (pos : InodePosition) (ioBuf : Buffer) (src : Image) :
    Except Fault State := do
  ensure Fault.assert (pos.secLba ≤ s.part.startLba + s.part.secCnt)
  if pos.twoSec then
    let buf ← ideRead s pos.secLba ioBuf 0 2
    let buf ← buf.copy pos.offSize inodeSize src
    ideWrite s pos.secLba buf 0 2
  else
    let buf ← ideRead s pos.secLba ioBuf 0 1
    let buf ← buf.copy pos.offSize inodeSize src
    ideWrite s pos.secLba buf 0 1

def inodeSync (s : State) (inode : Inode) (ioBuf : Buffer) : Except Fault State := do
  -- `uint8_t inode_no = inode->i_no`
  let inodeNo : UInt8 := inode.iNo.toUInt8
  let pos ← inodeLocate s inodeNo.toUInt32
  replaceRecord s pos ioBuf inode.pure.bytes

def inodeDelete (s : State) (inodeNo : UInt32) (ioBuf : Buffer) : Except Fault State := do
  ensure Fault.assert (inodeNo.toNat < 4096)
  let pos ← inodeLocate s inodeNo
  replaceRecord s pos ioBuf zeros

/-- The walk of `inode_open` along `open_inodes`. -/
def findOpen (s : State) (inodeNo : UInt32) : List InodePtr → Except Fault (Option InodePtr)
  | [] => .ok none
  | a :: l => do
    let x ← deref (s.inodes a)
    if x.iNo = inodeNo then .ok (some a) else findOpen s inodeNo l

/-- The part of `inode_open` that brings in an inode from the disk. -/
def inodeLoad (s : State) (inodeNo : UInt32) : Except Fault (InodePtr × State) := do
  let pos ← inodeLocate s inodeNo
  let (inodeFound, s) := mallocInode s
  let secs := if pos.twoSec then 2 else 1
  let (inodeBuf, s) := sysMalloc s (512 * secs)
  let buf ← deref inodeBuf
  let buf ← ideRead s pos.secLba buf 0 secs
  let a ← deref inodeFound
  let x := Inode.ofBytes (slice buf.bytes pos.offSize)
  .ok (a, { s.setInode a { x with iOpenCnts := 1 } with openInodes := a :: s.openInodes })

def inodeOpen (s : State) (inodeNo : UInt32) : Except Fault (InodePtr × State) := do
  match ← findOpen s inodeNo s.openInodes with
  | some a =>
    let x ← deref (s.inodes a)
    .ok (a, s.setInode a { x with iOpenCnts := x.iOpenCnts + 1 })
  | none => inodeLoad s inodeNo

/-- `inode_close`; the count is unsigned, so that it wraps at zero. -/
def inodeClose (s : State) (a : InodePtr) : Except Fault State := do
  let x ← deref (s.inodes a)
  if x.iOpenCnts = 1 then
    .ok { s with openInodes := s.openInodes.erase a, inodes := Function.update s.inodes a none }
  else
    .ok (s.setInode a { x with
      iOpenCnts := if x.iOpenCnts = 0 then 2 ^ 32 - 1 else x.iOpenCnts - 1 })

/-- `inode_init`. -/
def inodeInit (inodeNo : UInt32) : Inode where
  iNo := inodeNo
  iSize := 0
  iOpenCnts := 0
  writeDeny := 0
  iSectors := Vector.replicate 13 0

end X86System.FileSystem
