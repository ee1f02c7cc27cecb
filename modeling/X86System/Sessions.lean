import X86System.Descriptors
import X86System.Library.Transition

/-!
# Runs of system calls

A session is the file system while processes make calls in any order; a call is one
step, taken by a process that is live. A process is live from the fork that made it
to its exit. What a session starts from is any disk, with the root directory open,
no other open file, and processes in the root directory with the standard streams only.
-/
namespace X86System.FileSystem
open Bytes Exec Transition

/-- `sys_opendir`; the test for `"/."` looks at the wrong byte and never holds. -/
def sysOpendir (s : Session) (pathname : List UInt8) : Except Fault (Option Dir × Session) := do
  ensure Fault.assert (pathname.length < maxPathLen)
  if pathname = [slash] then .ok (some .root, s)
  else
    let (inodeNo, record, t) ← searchFile s.fs pathname
    if inodeNo = minusOne ∨ record.fileType ≠ ftDirectory then
      let t ← dirClose t record.parentDir
      .ok (none, { s with fs := t })
    else
      let (dir, t) ← dirOpen t inodeNo
      let t ← dirClose t record.parentDir
      .ok (some dir, { s with fs := t, handles := dir ::ₘ s.handles })

/-- `sys_closedir`. -/
def sysClosedir (s : Session) (dir : Dir) : Except Fault Session := do
  let t ← dirClose s.fs dir
  .ok { s with fs := t, handles := s.handles.erase dir }

/-- `sys_chdir`. -/
def sysChdir (s : Session) (path : List UInt8) : Except Fault (Bool × Session) := do
  let (inodeNo, record, t) ← searchFile s.fs path
  let moves : Bool := inodeNo ≠ minusOne && record.fileType = ftDirectory
  let t ← dirClose t record.parentDir
  let cwd := if moves then Function.update s.cwdInodeNr s.fs.cur inodeNo else s.cwdInodeNr
  .ok (moves, { s with fs := t, cwdInodeNr := cwd })

/-- A system call with its arguments. -/
inductive Call
  | open (pathname : List UInt8) (flags : UInt8)
  | close (fd : ℤ)
  | pipe
  | dup2 (fd1 fd2 : ℕ)
  | fork (child : ℕ)
  | exit
  | write (fd : ℤ) (src : Image) (count : UInt32)
  | read (fd : ℤ) (count : UInt32)
  | mkdir (pathname : List UInt8)
  | rmdir (pathname : List UInt8)
  | unlink (pathname : List UInt8)
  | opendir (pathname : List UInt8)
  | closedir (dir : Dir)
  | chdir (path : List UInt8)

/-- The session after a call of the running process. -/
def Session.perform (s : Session) : Call → Except Fault Session
  | .open pathname flags => do
    let (_, t) ← sysOpen s.fs pathname flags
    .ok { s with fs := t }
  | .close fd => do
    let (_, s) ← sysClose s fd
    .ok s
  | .pipe => do
    let (_, s) ← sysPipe s
    .ok s
  | .dup2 fd1 fd2 => do
    let t ← sysDup2 s.fs fd1 fd2
    .ok { s with fs := t }
  | .fork child => do
    let t ← forkFiles s.fs child
    .ok { s with fs := t, cwdInodeNr := Function.update s.cwdInodeNr child (s.cwdInodeNr s.fs.cur) }
  | .exit => exitFiles s
  | .write fd src count => do
    let t ← sysWrite s.fs fd src count
    .ok { s with fs := t }
  | .read fd count => do
    let t ← sysRead s.fs fd count
    .ok { s with fs := t }
  | .mkdir pathname => do
    let (_, t) ← sysMkdir s.fs pathname
    .ok { s with fs := t }
  | .rmdir pathname => do
    let (_, t) ← sysRmdir s.fs pathname
    .ok { s with fs := t }
  | .unlink pathname => do
    let (_, t) ← sysUnlink s.fs pathname
    .ok { s with fs := t }
  | .opendir pathname => do
    let (_, s) ← sysOpendir s pathname
    .ok s
  | .closedir dir => sysClosedir s dir
  | .chdir path => do
    let (_, s) ← sysChdir s path
    .ok s

/-- The process that makes the next call. -/
def Session.run (s : Session) (p : ℕ) : Session := { s with fs := { s.fs with cur := p } }

/-- `fork_pid` finds a pid that no live process has; `sys_closedir` is called with a
directory that is open. -/
def Call.possible (s : Session) : Call → Prop
  | .fork child => child < 1024 ∧ s.fs.tasks child = none
  | .closedir dir => dir = .root ∨ dir ∈ s.handles
  | _ => True

/-- A new process has the standard streams. -/
def stdTask : Task := { fdTable := #v[0, 1, 2, -1, -1, -1, -1, -1] }

/-- What a session starts from. -/
structure SessionStart (s : Session) : Prop where
  noSlots : ∀ f ∈ s.fs.fileTable.toList, f.fdInode = none ∧ f.fdFlag ≠ pipeFlag
  openInodes : s.fs.openInodes = [s.fs.rootDir]
  rootOpen : ∃ x, s.fs.inodes s.fs.rootDir = some x ∧ 0 < x.iOpenCnts
  used : ∀ a x, s.fs.inodes a = some x → a < s.fs.nextInode
  std : ∀ p t, s.fs.tasks p = some t → p < 1024 ∧ t = stdTask
  cwd : ∀ p, s.cwdInodeNr p = 0
  noPages : s.ringPages = ∅
  noHandles : s.handles = 0

/-- Calls of any live processes in any order. -/
def sessions : System Session (ℕ × Call) where
  start := SessionStart
  step s c t := (∃ task, s.fs.tasks c.1 = some task) ∧ c.2.possible s ∧
    (s.run c.1).perform c.2 = .ok t

instance (s : Session) (c : Call) : Decidable (c.possible s) := by
  cases c <;> unfold Call.possible <;> infer_instance

/-- Make calls one after the other. -/
def Session.exec (s : Session) : List (ℕ × Call) → Except Fault Session
  | [] => .ok s
  | (p, c) :: l => do
    ensure Fault.assert ((s.fs.tasks p).isSome ∧ c.possible s)
    let t ← (s.run p).perform c
    t.exec l

/-- The first call of a list is a step, the others follow. -/
theorem exec_cons {c : ℕ × Call} {l : List (ℕ × Call)} {s t : Session}
    (h : s.exec (c :: l) = .ok t) : ∃ u, sessions.step s c u ∧ u.exec l = .ok t := by
  have hspec : Returns (s.exec (c :: l)) fun t => ∃ u, sessions.step s c u ∧ u.exec l = .ok t := by
    refine returns_ensure fun hc => returns_bind fun u hu => Returns.intro fun t ht => ?_
    exact ⟨u, ⟨Option.isSome_iff_exists.mp hc.1, hc.2, hu⟩, ht⟩
  exact hspec.of_ok h

theorem exec_run {l : List (ℕ × Call)} : ∀ {s t : Session}, s.exec l = .ok t →
    sessions.Run s l t := by
  induction l with
  | nil =>
    intro s t h
    obtain rfl : s = t := Except.ok.inj h
    exact .nil
  | cons c l ih =>
    intro s t h
    obtain ⟨u, hu, ht⟩ := exec_cons h
    exact System.Run.cons hu (ih ht)

section Sample

/-- The bytes of a directory entry. -/
def entryBytes (name : List UInt8) (n ty : UInt32) : Image :=
  DirEntry.bytes { filename := Vector.ofFn fun k => name.getD k 0, iNo := n, fType := ty }

/-- `"/f"` and `"/d"`. -/
def pathF : List UInt8 := [slash, 0x66]
def pathD : List UInt8 := [slash, 0x64]

/-- A root directory with a file `f`, inode 1, and a directory `d`, inode 2. -/
def sampleRoot : Image :=
  overlay (overlay (overlay (overlay zeros 0 24 (entryBytes [dot] 0 ftDirectory))
    24 24 (entryBytes [dot, dot] 0 ftDirectory))
    48 24 (entryBytes [0x66] 1 ftRegular)) 72 24 (entryBytes [0x64] 2 ftDirectory)

/-- The block of the empty directory. -/
def sampleDir : Image :=
  overlay (overlay zeros 0 24 (entryBytes [dot] 2 ftDirectory))
    24 24 (entryBytes [dot, dot] 0 ftDirectory)

/-- The root directory in block 612 and `d` in block 613, with their inodes. -/
def sampleDisk : Image :=
  overlay (overlay (overlay (overlay zeros (512 * 612) 512 sampleRoot) (512 * 613) 512 sampleDir)
    (512 * 4 + 76) 76 (inodeInit 1).bytes) (512 * 4 + 152) 76
    { (inodeInit 2).setSector 0 613 with iSize := 48 : Inode }.bytes

/-- Process 1 before its first call. -/
def sampleSession : Session where
  fs := { blankState with
    disk := sampleDisk
    blockBitmap := ⟨512, fun i => if i = 0 then 3 else 0⟩
    inodeBitmap := ⟨512, fun i => if i = 0 then 7 else 0⟩
    inodes := fun a => if a = 0 then
      some { (inodeInit 0).setSector 0 612 with iSize := 96, iOpenCnts := 1 } else none
    nextInode := 1
    openInodes := [0]
    tasks := fun p => if p = 1 then some stdTask else none
    cur := 1 }
  ringPages := ∅
  cwdInodeNr := fun _ => 0
  handles := 0

theorem sampleSession_start : SessionStart sampleSession where
  noSlots f hf := by
    have hf : f ∈ List.replicate 32 (⟨0, 0, none⟩ : File) := hf
    obtain rfl := List.eq_of_mem_replicate hf
    decide
  openInodes := rfl
  rootOpen := ⟨_, rfl, by decide⟩
  used a x hx := by
    by_cases ha : a = 0
    · subst ha
      decide
    · simp [sampleSession, ha] at hx
  std p t ht := by
    by_cases hp : p = 1
    · subst hp
      exact ⟨by decide, by simpa [sampleSession, eq_comm] using ht⟩
    · simp [sampleSession, hp] at ht
  cwd _ := rfl
  noPages := rfl
  noHandles := rfl

end Sample

end X86System.FileSystem
