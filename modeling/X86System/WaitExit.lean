import X86System.Thread

/-!
# fork, exit and wait

A system call that may give up the processor half way is split where it does.
`sys_fork` allocates pages and page tables between taking a pid and putting the
child on the lists; `sys_exit` releases the resources of the process between
handing its children to init and hanging itself. `sys_wait` repeats one pass.
-/
namespace X86System.Thread
open Exec

/-- The child's PCB is a copy of its parent's but for these fields. -/
def copyPcb (parentThread : TaskStruct) (pid : ℤ) (serial : ℕ) : TaskStruct :=
  { parentThread with
    pid := pid
    elapsedTicks := 0
    status := .ready
    ticks := parentThread.priority
    parentPid := parentThread.pid
    serial := serial }

/-- `sys_fork` up to the point where the child has a pid and a PCB of its own.
`childThread` is the page that `get_kernel_pages` returned. -/
def forkCopy (s : Kernel) (childThread : Tid) : Except Site Kernel := do
  let parentThread := s.runningThread
  ensure .sysFork (s.intrOn = false ∧ (s.task parentThread).pgdir = true)
  let (pid, s) ← allocatePid s
  pure { s with
    task := Function.update s.task childThread (copyPcb (s.task parentThread) pid s.created)
    point := Function.update (Function.update s.point childThread .user) parentThread
      (.fork childThread)
    created := s.created + 1 }

/-- `strcat(child_thread->name, "_fork")` -/
def forkName (name : List UInt8) : List UInt8 := name ++ [0x5f, 0x66, 0x6f, 0x72, 0x6b]

/-- The rest of `sys_fork`. Where a page could not be had it returns -1, and the
pid and the PCB page of the child stay allocated. -/
def forkFinish (s : Kernel) (childThread : Tid) (ok : Bool) : Except Site Kernel := do
  let s := { s with point := Function.update s.point s.runningThread .user }
  if ok then
    ensure .sysFork ((s.task childThread).name.length < 11)
    enlist .sysFork (s.setTask childThread (fun p => { p with name := forkName p.name }))
      childThread
  else pure s

def findChild (s : Kernel) (ppid : ℤ) (pelem : Tid) : Bool :=
  (s.task pelem).parentPid = ppid

def findHangingChild (s : Kernel) (ppid : ℤ) (pelem : Tid) : Bool :=
  (s.task pelem).parentPid = ppid ∧ s.status pelem = .hanging

def initAdaptAChild (ppid : ℤ) (p : TaskStruct) : TaskStruct :=
  if p.parentPid = ppid then { p with parentPid := 1 } else p

/-- `list_traversal(&thread_all_list, init_adapt_a_child, ppid)` -/
def adaptChildren (s : Kernel) (ppid : ℤ) : Kernel :=
  { s with task := fun t =>
      if t ∈ s.threadAllList then initAdaptAChild ppid (s.task t) else s.task t }

def pid2thread (s : Kernel) (pid : ℤ) : Option Tid :=
  s.threadAllList.find? (fun t => (s.task t).pid = pid)

/-- `sys_exit` up to the release of the resources of the process. -/
def sysExit (s : Kernel) (status : Int32) : Except Site Kernel := do
  let childThread := s.runningThread
  let s := s.setTask childThread (fun p => { p with exitStatus := status.toInt8 })
  ensure .sysExit ((s.task childThread).parentPid ≠ -1)
  let s := adaptChildren s (s.task childThread).pid
  pure { s with point := Function.update s.point childThread .exiting }

/-- A parent that sleeps in `sys_wait` is woken. -/
def wakeParent (s : Kernel) (parentThread : Tid) : Except Site Kernel :=
  if s.status parentThread = .waiting then threadUnblock s parentThread else pure s

/-- The rest of `sys_exit`. Without a parent a NULL pointer would be followed. -/
def sysExitHang (s : Kernel) : Except Site Kernel :=
  match pid2thread s (s.task s.runningThread).parentPid with
  | none => .error .sysExit
  | some parentThread => do
    let s ← wakeParent s parentThread
    threadBlock s .hanging

/-- How one pass of the loop in `sys_wait` ends. -/
inductive WaitPass
  /-- It returns the pid and stores the status of this child. -/
  | child (childThread : Tid) (childPid : ℤ) (status : Int32)
  /-- It returns -1. -/
  | none
  /-- The caller went to sleep and repeats the pass when it is woken. -/
  | blocked
  deriving DecidableEq, Repr

def sysWait (s : Kernel) : Except Site (Kernel × WaitPass) :=
  let parentThread := s.runningThread
  match s.threadAllList.find? (findHangingChild s (s.task parentThread).pid) with
  | some childThread =>
    let p := s.task childThread
    pure (threadExit s childThread, .child childThread p.pid p.exitStatus.toInt32)
  | Option.none =>
    match s.threadAllList.find? (findChild s (s.task parentThread).pid) with
    | Option.none => pure (s, .none)
    | some _ => do
      let s ← threadBlock s .waiting
      pure (s, .blocked)

end X86System.Thread
