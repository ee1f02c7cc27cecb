import X86System.Creation
import Mathlib.Data.Multiset.AddSub
import Mathlib.Data.Finset.Basic

/-!
# Descriptors of processes

The slots of `file_table` hold files and pipes. A pipe's slot points to the page of
its ring and counts its descriptors in `fd_pos`; a file's slot is closed by the first
close, whatever other descriptors name it. `sys_fork` copies the table of the caller,
`sys_exit` closes what is left in it.
-/
namespace X86System.FileSystem
open Bytes Exec

/-- `PIPE_FLAG`. -/
def pipeFlag : UInt32 := 0xffff

/-- The file system with what else the calls of all processes leave behind: the kernel
pages that hold rings of pipes, the working directory of each process by its inode
number, and the directories that were opened by `sys_opendir`. -/
structure Session where
  fs : State
  ringPages : Finset ℕ
  cwdInodeNr : ℕ → UInt32
  handles : Multiset Dir

/-- `fd_table[fd]` of the running process. -/
def localFd (s : State) (fd : ℕ) : Except Fault ℤ := do
  let t ← deref (s.tasks s.cur)
  match t.fd fd with
  | none => .error .overrun
  | some v => .ok v

/-- `cur->fd_table[fd] = v` -/
def storeFd (s : State) (fd : ℕ) (v : ℤ) : Except Fault State := do
  let t ← deref (s.tasks s.cur)
  ensure Fault.overrun (fd < 8)
  .ok (s.setTask s.cur (t.setFd fd v))

/-- `fd_local2global`. -/
def fdLocal2Global (s : State) (fd : ℕ) : Except Fault ℕ := do
  let v ← localFd s fd
  ensure Fault.assert (0 ≤ v ∧ v < 32)
  .ok v.toNat

/-- `is_pipe`. -/
def isPipe (s : State) (fd : ℕ) : Except Fault Bool := do
  let g ← fdLocal2Global s fd
  let f ← s.file g
  .ok (f.fdFlag = pipeFlag)

/-- A descriptor of a pipe goes; with the last one the ring's page is freed. -/
def dropPipe (s : Session) (g : ℕ) : Except Fault Session := do
  let f ← s.fs.file g
  if f.fdPos - 1 = 0 then
    let page ← deref f.fdInode
    .ok { s with
      fs := s.fs.setFile g { f with fdPos := 0, fdInode := none }
      ringPages := s.ringPages.erase page }
  else .ok { s with fs := s.fs.setFile g { f with fdPos := f.fdPos - 1 } }

/-- Give up the slot of a descriptor. -/
def closeSlot (s : Session) (g : ℕ) (pipe : Bool) : Except Fault Session :=
  if pipe then dropPipe s g
  else do
    let t ← fileClose s.fs g
    .ok { s with fs := t }

/-- `sys_close`; `true` stands for 0 and `false` for -1. -/
def sysClose (s : Session) (fd : ℤ) : Except Fault (Bool × Session) := do
  if 2 < fd then
    let g ← fdLocal2Global s.fs fd.toNat
    let pipe ← isPipe s.fs fd.toNat
    let s ← closeSlot s g pipe
    let t ← storeFd s.fs fd.toNat (-1)
    .ok (true, { s with fs := t })
  else .ok (false, s)

/-- `sys_pipe`: the two descriptors. A table without a free slot is written at index -1,
and a missing page is used before it is looked at. -/
def sysPipe (s : Session) : Except Fault ((Option ℕ × Option ℕ) × Session) := do
  match getFreeSlotInGlobal s.fs with
  | none => .error .overrun
  | some g =>
    if s.fs.heap 0 then
      let page := s.fs.nextInode
      let t := { s.fs with heap := fun k => s.fs.heap (k + 1), nextInode := s.fs.nextInode + 1 }
      let t := t.setFile g { fdPos := 2, fdFlag := pipeFlag, fdInode := some page }
      let (fd0, t) ← pcbFdInstall t g
      let (fd1, t) ← pcbFdInstall t g
      .ok ((fd0, fd1), { s with fs := t, ringPages := insert page s.ringPages })
    else .error .page

/-- `sys_dup2`. -/
def sysDup2 (s : State) (fd1 fd2 : ℕ) : Except Fault State :=
  if fd1 < 3 then storeFd s fd2 fd1
  else do
    let v ← localFd s fd1
    storeFd s fd2 v

/-- One more descriptor of a slot after a fork. -/
def shareSlot (s : State) (g : ℕ) : Except Fault State := do
  let f ← s.file g
  if f.fdFlag = pipeFlag then .ok (s.setFile g { f with fdPos := f.fdPos + 1 })
  else
    let a ← deref f.fdInode
    let x ← deref (s.inodes a)
    .ok (s.setInode a { x with iOpenCnts := x.iOpenCnts + 1 })

/-- `update_inode_open_cnts`, from descriptor `fd` on. -/
def updateInodeOpenCnts (t : Task) : ℕ → ℕ → State → Except Fault State
  | 0, _, s => .ok s
  | fuel + 1, fd, s => do
    match t.fd fd with
    | none => .error .overrun
    | some v =>
      if v = -1 then updateInodeOpenCnts t fuel (fd + 1) s
      else
        ensure Fault.assert (0 ≤ v ∧ v < 32)
        let s ← shareSlot s v.toNat
        updateInodeOpenCnts t fuel (fd + 1) s

/-- The files of a fork that succeeds. -/
def forkFiles (s : State) (child : ℕ) : Except Fault State := do
  let t ← deref (s.tasks s.cur)
  let s ← updateInodeOpenCnts t 5 3 s
  .ok (s.setTask child t)

/-- One descriptor in `release_proc_resource`; that of a pipe stays in the table. -/
def releaseFd (s : Session) (fd : ℕ) : Except Fault Session := do
  let v ← localFd s.fs fd
  if v = -1 then .ok s
  else
    let pipe ← isPipe s.fs fd
    if pipe then dropPipe s v.toNat
    else
      let (_, s) ← sysClose s fd
      .ok s

/-- The loop that closes the files of a process that exits. -/
def releaseFds : ℕ → ℕ → Session → Except Fault Session
  | 0, _, s => .ok s
  | fuel + 1, fd, s => do
    let s ← releaseFd s fd
    releaseFds fuel (fd + 1) s

/-- The files of a process that exits. -/
def exitFiles (s : Session) : Except Fault Session := do
  let s ← releaseFds 5 3 s
  .ok { s with fs := { s.fs with tasks := Function.update s.fs.tasks s.fs.cur none } }

/-- `sys_write` to a file; what goes to the console or a ring is not part of the state. -/
def sysWrite (s : State) (fd : ℤ) (src : Image) (count : UInt32) : Except Fault State := do
  if fd < 0 then .ok s
  else
    let pipe ← isPipe s fd.toNat
    if pipe ∨ fd = 1 then .ok s
    else
      let g ← fdLocal2Global s fd.toNat
      let f ← s.file g
      if forWriting f.fdFlag then
        let (_, s) ← fileWrite s g src count
        .ok s
      else .ok s

/-- `sys_read` from a file. -/
def sysRead (s : State) (fd : ℤ) (count : UInt32) : Except Fault State := do
  if fd < 0 ∨ fd = 1 ∨ fd = 2 then .ok s
  else
    let pipe ← isPipe s fd.toNat
    if pipe ∨ fd = 0 then .ok s
    else
      let g ← fdLocal2Global s fd.toNat
      let (_, _, s) ← fileRead s g zeros count
      .ok s

end X86System.FileSystem
