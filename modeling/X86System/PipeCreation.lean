import X86System.DescriptorRuns
import X86System.OpenAccounts
import X86System.FileReads

/-!
# What creating a pipe needs

`sys_pipe` takes a slot, a kernel page and two descriptors. It looks at none of the four
before it uses it: a missing slot is an index of -1, a missing page is initialized before
it is compared with NULL, and a missing descriptor is handed to the caller as -1.
-/
namespace X86System.FileSystem
open Exec Transition

variable {s t : State} {x y : Session} {task : Task} {g k : ℕ}

section Calls

/-- `get_kernel_pages` for one page. -/
def getKernelPage (s : State) : Option InodePtr × State :=
  if s.heap 0 then
    (some s.nextInode, { s with heap := fun k => s.heap (k + 1), nextInode := s.nextInode + 1 })
  else (none, { s with heap := fun k => s.heap (k + 1) })

/-- `file_table[global_fd].fd_inode = page`; without a slot the index is -1. -/
def storePage (s : State) (globalFd : Option ℕ) (page : Option InodePtr) :
    Except Fault (ℕ × State) :=
  match globalFd with
  | none => .error .overrun
  | some g => do
    let f ← s.file g
    .ok (g, s.setFile g { f with fdInode := page })

/-- `sys_pipe` statement by statement: what it returns, `none` for -1, and the descriptors. -/
def sysPipeSteps (x : Session) : Except Fault (Option (Option ℕ × Option ℕ) × Session) := do
  let globalFd := getFreeSlotInGlobal x.fs
  let (page, t) := getKernelPage x.fs
  let (g, t) ← storePage t globalFd page
  -- `ioqueue_init`, through the pointer that is looked at behind it
  let ring ← deref page
  if page = none then .ok (none, { x with fs := t })
  else
    let t := t.setFile g { fdPos := 2, fdFlag := pipeFlag, fdInode := page }
    let (fd0, t) ← pcbFdInstall t g
    let (fd1, t) ← pcbFdInstall t g
    .ok (some (fd0, fd1), { x with fs := t, ringPages := insert ring x.ringPages })

theorem storePage_some {f : File} (hf : s.fileTable[g]? = some f) (page : Option InodePtr) :
    storePage s (some g) page = .ok (g, s.setFile g { f with fdInode := page }) := by
  unfold storePage
  dsimp only
  rw [file_of_slot hf, ok_bind]

/-- The page that was looked at is there: this is `sys_pipe` without the exit of -1. -/
theorem sysPipeSteps_eq (x : Session) : sysPipeSteps x = (do
    let (fds, y) ← sysPipe x
    .ok (some fds, y)) := by
  unfold sysPipeSteps sysPipe getKernelPage
  cases hslot : getFreeSlotInGlobal x.fs with
  | none => rfl
  | some g =>
    obtain ⟨-, f, hf, -⟩ := getFreeSlotInGlobal_spec hslot
    dsimp only
    by_cases hheap : x.fs.heap 0 = true
    · rw [if_pos hheap, if_pos hheap]
      dsimp only
      rw [storePage_some (s := { x.fs with
          heap := fun k => x.fs.heap (k + 1), nextInode := x.fs.nextInode + 1 }) hf,
        ok_bind, deref_some, ok_bind, if_neg (Option.some_ne_none _), setFile_setFile]
      cases h0 : pcbFdInstall _ g with
      | error e => rfl
      | ok r =>
        rw [ok_bind, ok_bind]
        cases h1 : pcbFdInstall r.2 g <;> rfl
    · rw [if_neg hheap, if_neg hheap]
      dsimp only
      rw [storePage_some (s := { x.fs with heap := fun k => x.fs.heap (k + 1) }) hf]
      rfl

/-- With a slot and a page, only the descriptors are left to be taken. -/
theorem sysPipe_of_page (hslot : getFreeSlotInGlobal x.fs = some g) (hheap : x.fs.heap 0 = true) :
    sysPipe x = (do
      let (fd0, t) ← pcbFdInstall (x.fs.withPipe g) g
      let (fd1, t) ← pcbFdInstall t g
      .ok ((fd0, fd1), { x with fs := t, ringPages := insert x.fs.nextInode x.ringPages })) := by
  unfold sysPipe
  rw [hslot]
  exact if_pos hheap

theorem setTask_self (s : State) (p : ℕ) (task : Task) : (s.setTask p task).tasks p = some task :=
  Function.update_self ..

theorem localFd_of {v : ℤ} (htask : s.tasks s.cur = some task) (hk : task.fd k = some v) :
    localFd s k = .ok v := by
  unfold localFd
  rw [htask, deref_some, ok_bind, hk]

/-- What is free once a descriptor of a slot was installed. -/
theorem fd_setFd_free {e : ℕ} (hk : k < 8) :
    (task.setFd k g).fd e = some (-1) ↔ e ≠ k ∧ task.fd e = some (-1) := by
  rw [task_fd_setFd hk]
  by_cases he : e = k
  · rw [if_pos he, Option.some.injEq]
    exact iff_of_false (by omega) fun h => h.1 he
  · rw [if_neg he]
    exact (and_iff_right he).symm

/-- Where a process has a free descriptor, `pcb_fd_install` takes one. -/
theorem pcbFdInstall_of_free (htask : s.tasks s.cur = some task) (hk : 3 ≤ k)
    (hfree : task.fd k = some (-1)) (g : ℕ) : ∃ fd, 3 ≤ fd ∧ task.fd fd = some (-1) ∧
      pcbFdInstall s g = .ok (some fd, s.setTask s.cur (task.setFd fd g)) := by
  unfold pcbFdInstall
  rw [htask, deref_some, ok_bind]
  cases hfd : freeFdFrom task 5 3 with
  | none =>
    have hlt : k < 8 := (Vector.getElem?_eq_some_iff.mp hfree).1
    exact absurd hfree (freeFdFrom_none 5 hfd k hk hlt)
  | some fd =>
    obtain ⟨hle, hmark⟩ := freeFdFrom_spec 5 hfd
    exact ⟨fd, hle, hmark, rfl⟩

/-- What `pcb_fd_install` takes was free. -/
theorem pcbFdInstall_takes (htask : s.tasks s.cur = some task) {fd : ℕ}
    (hrun : pcbFdInstall s g = .ok (some fd, t)) : 3 ≤ fd ∧ task.fd fd = some (-1) ∧
      t = s.setTask s.cur (task.setFd fd g) := by
  rcases (pcbFdInstall_exits s g).of_ok hrun with ⟨heq, -⟩ | ⟨task', fd', htask', hle, hfree, heq⟩
  · exact absurd (congrArg Prod.fst heq) (Option.some_ne_none fd)
  · obtain rfl : task = task' := Option.some.inj (htask.symm.trans htask')
    obtain ⟨hfd, rfl⟩ := Prod.mk.inj heq
    obtain rfl := Option.some.inj hfd
    exact ⟨hle, hfree, rfl⟩

end Calls

section Pipes

/-- A pipe was made: `fd0` and `fd1` are two descriptors of slot `g`, which was free, and the slot
has a ring in a new page. -/
structure PipeMade (x y : Session) (g fd0 fd1 : ℕ) : Prop where
  free : 3 ≤ g ∧ x.fs.freeSlot g
  low : 3 ≤ fd0 ∧ 3 ≤ fd1
  ne : fd0 ≠ fd1
  reads : localFd y.fs fd0 = .ok (g : ℤ)
  writes : localFd y.fs fd1 = .ok (g : ℤ)
  slot : y.fs.fileTable =
    (x.fs.setFile g { fdPos := 2, fdFlag := pipeFlag, fdInode := some x.fs.nextInode }).fileTable
  page : y.ringPages = insert x.fs.nextInode x.ringPages

/-- `sys_pipe` makes a pipe, or it returns -1 and the attempt to get a page is all that has
happened. -/
def CreatesPipe (x : Session) : Prop :=
  (∃ fd0 fd1 y, sysPipeSteps x = .ok (some (some fd0, some fd1), y) ∧
    ∃ g, PipeMade x y g fd0 fd1) ∨
  ∃ y, sysPipeSteps x = .ok (none, y) ∧ y = { x with fs := { x.fs with heap := y.fs.heap } }

theorem sysPipeSteps_ne_none (x y : Session) : sysPipeSteps x ≠ .ok (none, y) := by
  intro h
  rw [sysPipeSteps_eq] at h
  obtain ⟨r, -, hr⟩ := of_bind_eq_ok h
  exact absurd (congrArg Prod.fst (Except.ok.inj hr)) (Option.some_ne_none _)

/-- With everything there, a pipe is made. -/
theorem createsPipe_of_room (htask : x.fs.tasks x.fs.cur = some task) (hslot : x.fs.slotFree)
    (hheap : x.fs.heap 0 = true) {fd fd' : ℕ} (hfd : 3 ≤ fd) (hlt : fd < fd')
    (hfree : task.fd fd = some (-1)) (hfree' : task.fd fd' = some (-1)) : CreatesPipe x := by
  cases hg : getFreeSlotInGlobal x.fs with
  | none => exact absurd hslot (getFreeSlotInGlobal_none.mp hg)
  | some g =>
    have hspec := getFreeSlotInGlobal_spec hg
    obtain ⟨k, hk, hkfree, h0⟩ :=
      pcbFdInstall_of_free (s := x.fs.withPipe g) htask hfd hfree g
    have hk8 : k < 8 := (Vector.getElem?_eq_some_iff.mp hkfree).1
    -- one of the two descriptors is still free
    obtain ⟨e, he, hefree⟩ : ∃ e, 3 ≤ e ∧ (task.setFd k g).fd e = some (-1) := by
      by_cases hkfd : k = fd
      · exact ⟨fd', by omega, (fd_setFd_free hk8).mpr ⟨by omega, hfree'⟩⟩
      · exact ⟨fd, hfd, (fd_setFd_free hk8).mpr ⟨Ne.symm hkfd, hfree⟩⟩
    obtain ⟨m, hm, hmfree, h1⟩ := pcbFdInstall_of_free
      (setTask_self (x.fs.withPipe g) (x.fs.withPipe g).cur (task.setFd k g)) he hefree g
    have hmk := ((fd_setFd_free hk8).mp hmfree).1
    have hm8 : m < 8 := (Vector.getElem?_eq_some_iff.mp hmfree).1
    refine Or.inl ⟨k, m, { x with
      fs := ((x.fs.withPipe g).setTask x.fs.cur (task.setFd k g)).setTask x.fs.cur
        ((task.setFd k g).setFd m g)
      ringPages := insert x.fs.nextInode x.ringPages }, ?_, g, hspec, ⟨hk, hm⟩, Ne.symm hmk, ?_, ?_, rfl, rfl⟩
    · rw [sysPipeSteps_eq, sysPipe_of_page hg hheap, h0, ok_bind]
      dsimp only
      rw [h1]
      rfl
    · refine localFd_of (setTask_self _ _ _) ?_
      rw [task_fd_setFd hm8, if_neg (Ne.symm hmk), task_fd_setFd hk8, if_pos rfl]
    · refine localFd_of (setTask_self _ _ _) ?_
      rw [task_fd_setFd hm8, if_pos rfl]

/-- `sys_pipe` makes a pipe or fails cleanly if and only if a slot, a page and two descriptors are
there for it. -/
theorem sys_pipe_iff (htask : x.fs.tasks x.fs.cur = some task) : CreatesPipe x ↔
    x.fs.slotFree ∧ x.fs.heap 0 = true ∧
      ∃ fd fd', 3 ≤ fd ∧ fd < fd' ∧ task.fd fd = some (-1) ∧ task.fd fd' = some (-1) := by
  constructor
  · rintro (⟨fd0, fd1, y, hrun, -⟩ | ⟨y, hrun, -⟩)
    · rw [sysPipeSteps_eq] at hrun
      obtain ⟨⟨fds, z⟩, hpipe, hrun⟩ := of_bind_eq_ok hrun
      obtain ⟨hfds, -⟩ := Prod.mk.inj (Except.ok.inj hrun)
      obtain rfl := Option.some.inj hfds
      cases hg : getFreeSlotInGlobal x.fs with
      | none =>
        unfold sysPipe at hpipe
        rw [hg] at hpipe
        cases hpipe
      | some g =>
        have hspec := getFreeSlotInGlobal_spec hg
        by_cases hheap : x.fs.heap 0 = true
        · rw [sysPipe_of_page hg hheap] at hpipe
          obtain ⟨⟨o, t⟩, h0, hpipe⟩ := of_bind_eq_ok hpipe
          obtain ⟨⟨o', u⟩, h1, hpipe⟩ := of_bind_eq_ok hpipe
          obtain ⟨hfds, -⟩ := Prod.mk.inj (Except.ok.inj hpipe)
          obtain ⟨rfl, rfl⟩ := Prod.mk.inj hfds
          obtain ⟨hle0, hfree0, rfl⟩ := pcbFdInstall_takes (s := x.fs.withPipe g) htask h0
          obtain ⟨hle1, hfree1, -⟩ := pcbFdInstall_takes (setTask_self _ _ _) h1
          have h8 : fd0 < 8 := (Vector.getElem?_eq_some_iff.mp hfree0).1
          obtain ⟨hne, hfree1⟩ := (fd_setFd_free h8).mp hfree1
          refine ⟨⟨g, hspec⟩, hheap, ?_⟩
          obtain hlt | hlt := Nat.lt_or_gt_of_ne hne
          · exact ⟨fd1, fd0, hle1, hlt, hfree1, hfree0⟩
          · exact ⟨fd0, fd1, hle0, hlt, hfree0, hfree1⟩
        · unfold sysPipe at hpipe
          rw [hg] at hpipe
          dsimp only at hpipe
          rw [if_neg hheap] at hpipe
          cases hpipe
    · exact absurd hrun (sysPipeSteps_ne_none x y)
  · rintro ⟨hslot, hheap, fd, fd', hfd, hlt, hfree, hfree'⟩
    exact createsPipe_of_room htask hslot hheap hfd hlt hfree hfree'

theorem sys_pipe_first : CreatesPipe sampleSession := by
  have htask : sampleSession.fs.tasks sampleSession.fs.cur = some stdTask := rfl
  exact (sys_pipe_iff htask).mpr ⟨⟨3, le_rfl, ⟨0, 0, none⟩, rfl, rfl⟩, rfl, 3, 4, by decide⟩

/-- The third pipe of a process returns 0 with -1 as its second descriptor. -/
theorem sys_pipe_third : ∃ x l y, SessionStart x ∧ sessions.Run x l y ∧ ¬ CreatesPipe y ∧
    ∃ r, sysPipeSteps y = .ok r ∧ r.1 = some (some 7, none) := by
  obtain ⟨y, hy, r, hr, hfds⟩ : ∃ y, sampleSession.exec [(1, .pipe), (1, .pipe)] = .ok y ∧
      ∃ r, sysPipeSteps y = .ok r ∧ r.1 = some (some 7, none) := by decide
  refine ⟨_, _, y, sampleSession_start, exec_run hy, ?_, r, hr, hfds⟩
  rintro (⟨fd0, fd1, z, hrun, -⟩ | ⟨z, hrun, -⟩)
  · rw [Except.ok.inj (hr.symm.trans hrun)] at hfds
    exact absurd hfds (by simp)
  · exact sysPipeSteps_ne_none y z hrun

end Pipes

end X86System.FileSystem
