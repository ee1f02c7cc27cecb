import X86System.Backing
import X86System.InodeRecords

/-!
# Removed directories and their users

`sys_rmdir` looks only at the size of the directory that it removes. The counts
balance over the call, so the directory is in `open_inodes` afterwards exactly when
it was before, and who had it as working directory still has.
-/
namespace X86System.FileSystem
open Bytes Exec Transition

variable {x : Session} {s t : State} {a : InodePtr} {n : UInt32}

/-- The number in the inode that a path names. -/
def namedInode (s : State) (pathname : List UInt8) : Except Fault UInt32 := do
  let (inodeNo, _, s) ← searchFile s pathname
  let (dir, s) ← dirOpen s inodeNo
  let x ← deref (s.inodes (dir.inode s))
  .ok x.iNo

/-- Nobody uses the directory with this inode number. -/
structure Idle (x : Session) (n : UInt32) : Prop where
  noCwd : ∀ p task, x.fs.tasks p = some task → x.cwdInodeNr p ≠ n
  notOpen : ∀ a ∈ x.fs.openInodes, (x.fs.inodes a).map Inode.iNo ≠ some n

/-- What is to hold of an inode number that was released: no process is in the directory, no
handle refers to it, it is not in `open_inodes`, and opening it reads the disk. -/
structure Released (x : Session) (n : UInt32) : Prop where
  noCwd : ∀ p task, x.fs.tasks p = some task → x.cwdInodeNr p ≠ n
  noHandle : ∀ a, Dir.opened a ∈ x.handles → (x.fs.inodes a).map Inode.iNo ≠ some n
  notOpen : ∀ a ∈ x.fs.openInodes, (x.fs.inodes a).map Inode.iNo ≠ some n
  reads : inodeOpen x.fs n = inodeLoad x.fs n

/-- An idle number is released as far as the tables go. -/
theorem Idle.released (hx : Idle x n) (hb : Backed x.fs x.held) : Released x n where
  noCwd := hx.noCwd
  noHandle a ha := by
    refine hx.notOpen a (hb.held_open (Multiset.mem_cons_of_mem ?_))
    exact Multiset.mem_bind.mpr ⟨_, ha, by simp [Dir.handles]⟩
  notOpen := hx.notOpen
  reads := by
    have hno : ∀ a ∈ x.fs.openInodes, ∃ z, x.fs.inodes a = some z ∧ z.iNo ≠ n := by
      intro a ha
      obtain ⟨z, hz, -⟩ := hb.ok.live a ha
      have hne := hx.notOpen a ha
      rw [hz] at hne
      exact ⟨z, hz, fun h => hne (congrArg some h)⟩
    unfold inodeOpen
    rw [findOpen_none hno, ok_bind]

/-- A call that closes what it opened leaves the same inodes open. -/
theorem Opens.openInodes (ho : Opens s t 0) : a ∈ t.openInodes ↔ a ∈ s.openInodes := by
  rw [← ho.ok.openCount_pos, ← ho.start.openCount_pos, ho.count]
  simp

theorem idle_iff (ho : Opens x.fs t 0) : Idle { x with fs := t } n ↔ Idle x n := by
  have hno : ∀ a ∈ x.fs.openInodes,
      (t.inodes a).map Inode.iNo = (x.fs.inodes a).map Inode.iNo := ho.old
  have htasks : t.tasks = x.fs.tasks := ho.tables.tasks
  constructor
  · rintro ⟨hcwd, hopen⟩
    exact ⟨htasks ▸ hcwd, fun a ha => hno a ha ▸ hopen a (ho.openInodes.mpr ha)⟩
  · rintro ⟨hcwd, hopen⟩
    refine ⟨fun p task htask => hcwd p task (htasks ▸ htask), fun a ha => ?_⟩
    have ha' := ho.openInodes.mp ha
    exact hno a ha' ▸ hopen a ha'

theorem dirIsEmpty_inode {dir : Dir} {empty : Bool} (h : dirIsEmpty s dir = .ok empty) :
    ∃ z, s.inodes (dir.inode s) = some z := by
  cases hz : s.inodes (dir.inode s) with
  | some z => exact ⟨z, rfl⟩
  | none =>
    unfold dirIsEmpty at h
    rw [hz, deref_none, error_bind] at h
    exact absurd h (by simp)

/-- A path that was removed names an inode. -/
theorem namedInode_of_removed {path : List UInt8} (hrun : sysRmdir s path = .ok (true, t)) :
    ∃ n, namedInode s path = .ok n := by
  have hspec : Returns (sysRmdir s path) fun r => r.1 = true → ∃ n, namedInode s path = .ok n := by
    refine returns_bind fun ⟨n, r, u⟩ hu => returns_ensure fun _ => returns_ite (fun _ => ?_) ?_
    · exact returns_skip fun v hv => by simp at hv
    · refine fun _ => returns_bind fun ⟨dir, v⟩ hv => returns_bind fun ⟨removed, w⟩ hw => ?_
      refine returns_skip fun _ => returns_skip fun _ _ => ?_
      have hread : Returns (removeIfEmpty v r.parentDir dir) fun _ =>
          ∃ z, v.inodes (dir.inode v) = some z :=
        returns_bind fun empty hempty => Returns.intro fun _ _ => dirIsEmpty_inode hempty
      obtain ⟨z, hz⟩ := hread.of_ok hw
      have hnamed : namedInode s path = .ok z.iNo := by
        unfold namedInode
        simp only [hu, hv, hz, ok_bind, deref_some]
      exact ⟨z.iNo, hnamed⟩
  exact hspec.of_ok hrun rfl

/-- After `sys_rmdir` returns 0 the number of the removed directory is unused exactly when
nobody used the directory before. -/
theorem removed_directory_released (hx : sessions.Reachable x) {path : List UInt8}
    (hrun : sysRmdir x.fs path = .ok (true, t)) :
    ∃ n, namedInode x.fs path = .ok n ∧ (Released { x with fs := t } n ↔ Idle x n) := by
  have hb : Backed x.fs x.held :=
    hx.invariant (fun y hy => backed_start hy) fun y c z hy hstep => step_backed hy hstep
  have ho : Opens x.fs t 0 := (sysRmdir_opens (Opens.refl hb.ok) path).of_ok hrun
  have hheld : Session.held { x with fs := t } = x.held := congrArg (· ::ₘ _) ho.rootDir
  have hbt : Backed t (Session.held { x with fs := t }) := by
    rw [hheld]
    exact (hb.opens ho).le (Multiset.le_add_left _ _)
  obtain ⟨n, hn⟩ := namedInode_of_removed hrun
  refine ⟨n, hn, fun hr => idle_iff ho |>.mp ⟨hr.noCwd, hr.notOpen⟩, fun hi => ?_⟩
  exact Idle.released (x := { x with fs := t }) ((idle_iff ho).mpr hi) hbt

/-- The empty directory of the sample disk is removed. -/
theorem removed_directory_sample : ∃ t, sysRmdir sampleSession.fs pathD = .ok (true, t) ∧
    ∃ n, namedInode sampleSession.fs pathD = .ok n ∧
      (Released { sampleSession with fs := t } n ↔ Idle sampleSession n) := by
  obtain ⟨⟨removed, t⟩, ht, rfl⟩ : ∃ v, sysRmdir sampleSession.fs pathD = .ok v ∧ v.1 = true := by
    decide
  exact ⟨t, ht, removed_directory_released ⟨_, [], sampleSession_start, .nil⟩ ht⟩

/-- The directory that is removed stays the working directory of the process in it. -/
theorem removed_directory_is_cwd : ∃ x t, sessions.Reachable x ∧
    sysRmdir x.fs pathD = .ok (true, t) ∧ namedInode x.fs pathD = .ok 2 ∧
    ¬ Released { x with fs := t } 2 := by
  obtain ⟨x, hx, ⟨removed, t⟩, ht, n, hn, rfl, rfl, hcwd, htask⟩ :
      ∃ x, sampleSession.exec [(1, .chdir pathD)] = .ok x ∧ ∃ v, sysRmdir x.fs pathD = .ok v ∧
        ∃ n, namedInode x.fs pathD = .ok n ∧
          v.1 = true ∧ n = 2 ∧ x.cwdInodeNr 1 = 2 ∧ (v.2.tasks 1).isSome := by decide
  obtain ⟨task, htask⟩ := Option.isSome_iff_exists.mp htask
  refine ⟨x, t, ⟨_, _, sampleSession_start, exec_run hx⟩, ht, hn, fun hr => ?_⟩
  exact hr.noCwd 1 task htask hcwd

end X86System.FileSystem
