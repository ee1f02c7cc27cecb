import X86System.Bitmap
import X86System.Library.Exec
import Mathlib.Tactic

/-!
# Threads, the ready list and blocking

The state holds the PCBs, the two thread lists, the semaphores and the waiter
slots of the I/O queues. `general_tag` links a thread into the ready list or into
one waiters list, so both are lists of PCB pages. Each function runs with
interrupts off and is one transition; what follows a `switch_to` in the source is
executed when the thread is given the processor again.
-/
namespace X86System.Thread
open Exec

/-- A thread is named by the page of its PCB. Pages are reused. -/
abbrev Tid := ℕ

inductive TaskStatus
  | running
  | ready
  | blocked
  | waiting
  | hanging
  | died
  deriving DecidableEq, Repr

/-- The fields of the PCB that the scheduler, `fork`, `exit` and `wait` use. The
kernel has no `serial`: it numbers the threads in the order of their creation, so
that a process has a name of its own when its page and its pid are reused. -/
structure TaskStruct where
  pid : ℤ
  status : TaskStatus
  priority : UInt8
  name : List UInt8
  ticks : UInt8
  elapsedTicks : UInt32
  /-- Whether `pgdir` is not NULL, that is, whether this is a user process. -/
  pgdir : Bool
  parentPid : ℤ
  exitStatus : Int8
  stackMagic : UInt32
  serial : ℕ
  deriving DecidableEq, Repr

structure Semaphore where
  value : UInt8
  waiters : List Tid
  deriving DecidableEq, Repr

/-- How far a thread is in a system call that other threads may interleave with. -/
inductive Point
  | user
  /-- In `sys_fork`, with the child's PCB filled in but on no list. -/
  | fork (child : Tid)
  /-- In `sys_exit`, after its children were handed to init. -/
  | exiting
  deriving DecidableEq, Repr

/-- The function whose `ASSERT` or `PANIC` stopped the kernel. -/
inductive Site
  | schedule
  | threadBlock
  | threadUnblock
  | threadYield
  | threadStart
  | semaDown
  | semaUp
  | ioqWait
  | wakeup
  | timer
  | bitmapScan
  | sysFork
  | sysExit
  | lockAcquire
  | lockRelease
  deriving DecidableEq, Repr

structure Kernel where
  task : Tid → TaskStruct
  threadAllList : List Tid
  threadReadyList : List Tid
  /-- The thread whose stack the processor uses. -/
  runningThread : Tid
  mainThread : Tid
  idleThread : Tid
  intrOn : Bool
  ticks : UInt32
  sema : ℕ → Semaphore
  /-- The `producer` and `consumer` slots of the I/O queues. -/
  waiter : ℕ → Option Tid
  pidBitmap : Bitmap
  point : Tid → Point
  /-- How many threads were created so far. -/
  created : ℕ

def Kernel.setTask (s : Kernel) (t : Tid) (f : TaskStruct → TaskStruct) : Kernel :=
  { s with task := Function.update s.task t (f (s.task t)) }

def Kernel.setStatus (s : Kernel) (t : Tid) (stat : TaskStatus) : Kernel :=
  s.setTask t (fun p => { p with status := stat })

def Kernel.setSema (s : Kernel) (i : ℕ) (x : Semaphore) : Kernel :=
  { s with sema := Function.update s.sema i x }

def Kernel.setWaiter (s : Kernel) (w : ℕ) (x : Option Tid) : Kernel :=
  { s with waiter := Function.update s.waiter w x }

def Kernel.status (s : Kernel) (t : Tid) : TaskStatus := (s.task t).status

/-- A thread leaves the blocked state by the head of the ready list. -/
def Kernel.pushReady (s : Kernel) (pthread : Tid) : Kernel :=
  { s.setStatus pthread .ready with threadReadyList := pthread :: s.threadReadyList }

def threadUnblock (s : Kernel) (pthread : Tid) : Except Site Kernel := do
  ensure .threadUnblock (s.status pthread = .blocked ∨ s.status pthread = .waiting ∨
    s.status pthread = .hanging)
  if s.status pthread ≠ .ready then
    ensure .threadUnblock (pthread ∉ s.threadReadyList)
    pure (s.pushReady pthread)
  else pure s

/-- A running thread goes to the tail of the ready list with a full time slice. -/
def requeue (s : Kernel) : Except Site Kernel :=
  let cur := s.runningThread
  if s.status cur = .running then do
    ensure .schedule (cur ∉ s.threadReadyList)
    pure { s.setTask cur (fun p => { p with ticks := p.priority, status := .ready }) with
      threadReadyList := s.threadReadyList ++ [cur] }
  else pure s

/-- Where no thread is ready, the idle thread is. -/
def wakeIdle (s : Kernel) : Except Site Kernel :=
  if s.threadReadyList = [] then threadUnblock s s.idleThread else pure s

/-- The head of the ready list gets the processor. -/
def switchTo (s : Kernel) : Except Site Kernel :=
  match s.threadReadyList with
  | [] => .error .schedule
  | next :: rest =>
    pure { s.setStatus next .running with threadReadyList := rest, runningThread := next }

def schedule (s : Kernel) : Except Site Kernel := do
  ensure .schedule (s.intrOn = false)
  let s ← requeue s
  let s ← wakeIdle s
  switchTo s

def threadBlock (s : Kernel) (stat : TaskStatus) : Except Site Kernel := do
  ensure .threadBlock (stat = .blocked ∨ stat = .waiting ∨ stat = .hanging)
  schedule ({ s with intrOn := false }.setStatus s.runningThread stat)

def threadYield (s : Kernel) : Except Site Kernel := do
  let cur := s.runningThread
  ensure .threadYield (cur ∉ s.threadReadyList)
  schedule { s.setStatus cur .ready with
    intrOn := false, threadReadyList := s.threadReadyList ++ [cur] }

/-- One pass of the loop in `sema_down`; a thread that blocks repeats the pass. -/
def semaDown (s : Kernel) (psema : ℕ) : Except Site Kernel :=
  let x := s.sema psema
  if x.value = 0 then do
    ensure .semaDown (s.runningThread ∉ x.waiters)
    threadBlock ({ s with intrOn := false }.setSema psema
      { x with waiters := x.waiters ++ [s.runningThread] }) .blocked
  else do
    ensure .semaDown (x.value - 1 = 0)
    pure (s.setSema psema { x with value := x.value - 1 })

/-- Unblock the first waiter, if any. -/
def wakeWaiter (s : Kernel) (psema : ℕ) : Except Site Kernel :=
  match (s.sema psema).waiters with
  | [] => pure s
  | threadBlocked :: rest =>
    threadUnblock (s.setSema psema { s.sema psema with waiters := rest }) threadBlocked

def semaUp (s : Kernel) (psema : ℕ) : Except Site Kernel := do
  ensure .semaUp ((s.sema psema).value = 0)
  let s ← wakeWaiter s psema
  let x := s.sema psema
  ensure .semaUp (x.value + 1 = 1)
  pure (s.setSema psema { x with value := x.value + 1 })

def ioqWait (s : Kernel) (waiter : ℕ) : Except Site Kernel := do
  ensure .ioqWait (s.waiter waiter = none)
  threadBlock (s.setWaiter waiter (some s.runningThread)) .blocked

def wakeup (s : Kernel) (waiter : ℕ) : Except Site Kernel :=
  match s.waiter waiter with
  | none => .error .wakeup
  | some thread => do
    let s ← threadUnblock s thread
    pure (s.setWaiter waiter none)

def intrTimerHandler (s : Kernel) : Except Site Kernel := do
  let cur := s.runningThread
  ensure .timer ((s.task cur).stackMagic = 0x19870916)
  let s := s.setTask cur (fun p => { p with elapsedTicks := p.elapsedTicks + 1 })
  let s := { s with ticks := s.ticks + 1 }
  if (s.task cur).ticks = 0 then schedule s
  else pure (s.setTask cur (fun p => { p with ticks := p.ticks - 1 }))

def allocatePid (s : Kernel) : Except Site (ℤ × Kernel) :=
  match bitmapScan s.pidBitmap 1 with
  | .ok (some bitIdx) =>
    pure (bitIdx + 1, { s with pidBitmap := bitmapSet s.pidBitmap bitIdx true })
  | _ => .error .bitmapScan

def releasePid (s : Kernel) (pid : ℤ) : Kernel :=
  { s with pidBitmap := bitmapSet s.pidBitmap (pid - 1).toNat false }

/-- The PCB that `init_thread` fills in. -/
def newPcb (pid : ℤ) (status : TaskStatus) (name : List UInt8) (prio : UInt8) (serial : ℕ) :
    TaskStruct :=
  { pid := pid
    status := status
    priority := prio
    name := name
    ticks := prio
    elapsedTicks := 0
    pgdir := false
    parentPid := -1
    exitStatus := 0
    stackMagic := 0x19870916
    serial := serial }

def initThread (s : Kernel) (pthread : Tid) (name : List UInt8) (prio : UInt8) :
    Except Site Kernel := do
  let (pid, s) ← allocatePid s
  let status := if pthread = s.mainThread then .running else .ready
  pure { s with
    task := Function.update s.task pthread (newPcb pid status name prio s.created)
    point := Function.update s.point pthread .user
    created := s.created + 1 }

/-- Put a new thread on both lists. -/
def enlist (site : Site) (s : Kernel) (thread : Tid) : Except Site Kernel := do
  ensure site (thread ∉ s.threadReadyList)
  ensure site (thread ∉ s.threadAllList)
  pure { s with
    threadReadyList := s.threadReadyList ++ [thread]
    threadAllList := s.threadAllList ++ [thread] }

/-- `thread` is the page that `get_kernel_pages` returned for the PCB. -/
def threadStart (s : Kernel) (thread : Tid) (name : List UInt8) (prio : UInt8) :
    Except Site Kernel := do
  let s ← initThread s thread name prio
  enlist .threadStart s thread

/-- `thread_exit(thread_over, 0)`: the PCB page returns to the kernel pool before
`release_pid` reads the pid from it, with its bytes still in place. -/
def threadExit (s : Kernel) (threadOver : Tid) : Kernel :=
  let s := s.setStatus threadOver .died
  let s := { s with
    threadReadyList := s.threadReadyList.erase threadOver
    threadAllList := s.threadAllList.erase threadOver }
  releasePid s (s.task threadOver).pid

end X86System.Thread
