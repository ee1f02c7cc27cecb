import X86System.WaitExit
import X86System.Library.Transition

/-!
# The running kernel

Boot leaves three threads, the process init, the kernel's main thread and idle.
From there the thread on the processor, or an interrupt handler on its stack,
takes one action after another. An action runs with interrupts off, so a run is a
sequence of actions; the interrupt flag at its start is arbitrary except where an
interrupt gate or a system call has cleared it.
-/
namespace X86System.Thread
open Exec Transition

/-- What an action shows to an observer; processes are named by their serials. -/
inductive Event
  | quiet
  | forked (parent child : ℕ)
  | exited (child : ℕ) (status : Int32)
  /-- A `sys_wait` of `parent` returned `pid` and stored `status`. -/
  | reaped (parent child : ℕ) (pid : ℤ) (status : Int32)
  /-- A `sys_wait` of `parent` returned -1. -/
  | noChild (parent : ℕ)
  deriving DecidableEq, Repr

inductive Action
  | timer
  /-- The body of the loop in `idle`. -/
  | idle
  | threadYield
  | threadStart (thread : Tid) (name : List UInt8) (prio : UInt8)
  | semaDown (psema : ℕ)
  | semaUp (psema : ℕ)
  | ioqWait (waiter : ℕ)
  | wakeup (waiter : ℕ)
  | forkCopy (childThread : Tid)
  | forkFinish (ok : Bool)
  | exit (status : Int32)
  | exitHang
  | wait
  deriving DecidableEq, Repr

/-- What `get_kernel_pages` promises of a page it returns: no thread and no unfinished
fork uses it. The PCB of the main thread is not in the kernel pool. -/
def Kernel.PageFree (s : Kernel) (t : Tid) : Prop :=
  t ∉ s.threadAllList ∧ t ≠ s.mainThread ∧ ∀ u ∈ s.threadAllList, s.point u ≠ .fork t

/-- Interrupt handlers run on any thread. The idle thread does nothing but block,
and system calls do not nest. -/
def Action.Enabled (s : Kernel) : Action → Prop
  | .timer | .semaUp _ | .wakeup _ => True
  | .idle => s.runningThread = s.idleThread
  | .threadYield | .semaDown _ | .ioqWait _ => s.runningThread ≠ s.idleThread
  | .threadStart t _ _ | .forkCopy t => s.runningThread ≠ s.idleThread ∧
      s.point s.runningThread = .user ∧ s.PageFree t
  | .forkFinish _ => s.runningThread ≠ s.idleThread ∧ ∃ c, s.point s.runningThread = .fork c
  | .exit _ | .wait => s.runningThread ≠ s.idleThread ∧ s.point s.runningThread = .user
  | .exitHang => s.runningThread ≠ s.idleThread ∧ s.point s.runningThread = .exiting

/-- The serial of the thread in this page. -/
def Kernel.serial (s : Kernel) (t : Tid) : ℕ := (s.task t).serial

def quietly (r : Except Site Kernel) : Except Site (Kernel × Event) := do
  let s ← r
  pure (s, .quiet)

def performFinish (s : Kernel) (ok : Bool) : Except Site (Kernel × Event) :=
  match s.point s.runningThread with
  | .fork child => do
    let t ← forkFinish s child ok
    pure (t, if ok then .forked (s.serial s.runningThread) (s.serial child) else .quiet)
  | _ => .error .sysFork

def performWait (s : Kernel) : Except Site (Kernel × Event) := do
  let (t, pass) ← sysWait s
  match pass with
  | .child c pid status =>
    pure (t, .reaped (s.serial s.runningThread) (s.serial c) pid status)
  | .none => pure (t, .noChild (s.serial s.runningThread))
  | .blocked => pure (t, .quiet)

def perform (s : Kernel) : Action → Except Site (Kernel × Event)
  | .timer => quietly (intrTimerHandler { s with intrOn := false })
  | .idle => quietly (threadBlock s .blocked)
  | .threadYield => quietly (threadYield s)
  | .threadStart t name prio => quietly (threadStart s t name prio)
  | .semaDown i => quietly (semaDown s i)
  | .semaUp i => quietly (semaUp s i)
  | .ioqWait w => quietly (ioqWait { s with intrOn := false } w)
  | .wakeup w => quietly (wakeup { s with intrOn := false } w)
  | .forkCopy t => quietly (forkCopy { s with intrOn := false } t)
  | .forkFinish ok => performFinish { s with intrOn := false } ok
  | .exit status => do
    let t ← sysExit { s with intrOn := false } status
    pure (t, .exited (s.serial s.runningThread) status)
  | .exitHang => quietly (sysExitHang { s with intrOn := false })
  | .wait => performWait { s with intrOn := false }

/-- `process_execute(init, "init")`, with the page that `get_kernel_pages` returned. -/
def processExecute (s : Kernel) (thread : Tid) (name : List UInt8) : Except Site Kernel := do
  let s ← initThread s thread name 31
  enlist .threadStart (s.setTask thread (fun p => { p with pgdir := true })) thread

/-- The thread lists before `thread_init`; no semaphore has a waiter yet. -/
def blank (main idle : Tid) (value : ℕ → UInt8) : Kernel :=
  { task := fun _ => ⟨0, .died, 0, [], 0, 0, false, 0, 0, 0, 0⟩
    threadAllList := []
    threadReadyList := []
    runningThread := main
    mainThread := main
    idleThread := idle
    intrOn := false
    ticks := 0
    sema := fun i => ⟨value i, []⟩
    waiter := fun _ => none
    pidBitmap := bitmapInit ⟨128, fun _ => 0⟩
    point := fun _ => .user
    created := 0 }

/-- `make_main_thread` -/
def makeMainThread (s : Kernel) : Except Site Kernel := do
  let s ← initThread s s.mainThread [0x6d, 0x61, 0x69, 0x6e] 31
  ensure .threadStart (s.mainThread ∉ s.threadAllList)
  pure { s with threadAllList := s.threadAllList ++ [s.mainThread] }

/-- `thread_init`, with the pages of the PCBs of init, main and idle. -/
def threadInit (init main idle : Tid) (value : ℕ → UInt8) : Except Site Kernel := do
  let s ← processExecute (blank main idle value) init [0x69, 0x6e, 0x69, 0x74]
  let s ← makeMainThread s
  threadStart s idle [0x69, 0x64, 0x6c, 0x65] 10

def Booted (s : Kernel) : Prop :=
  ∃ init main idle value, init ≠ main ∧ init ≠ idle ∧ main ≠ idle ∧
    threadInit init main idle value = .ok s

def kernel : System Kernel Event where
  start := Booted
  step s e t := ∃ on a, a.Enabled s ∧ perform { s with intrOn := on } a = .ok (t, e)

instance (s : Kernel) (t : Tid) : Decidable (s.PageFree t) :=
  inferInstanceAs (Decidable (_ ∧ _ ∧ _))

instance (x : Point) : Decidable (∃ c, x = .fork c) :=
  match x with
  | .user => isFalse (by simp)
  | .fork c => isTrue ⟨c, rfl⟩
  | .exiting => isFalse (by simp)

instance (s : Kernel) (a : Action) : Decidable (a.Enabled s) :=
  match a with
  | .timer | .semaUp _ | .wakeup _ => inferInstanceAs (Decidable True)
  | .idle => inferInstanceAs (Decidable (_ = _))
  | .threadYield | .semaDown _ | .ioqWait _ => inferInstanceAs (Decidable (_ ≠ _))
  | .threadStart t _ _ | .forkCopy t => inferInstanceAs (Decidable (_ ∧ _ ∧ s.PageFree t))
  | .forkFinish _ => inferInstanceAs (Decidable (_ ∧ ∃ _, _))
  | .exit _ | .wait | .exitHang => inferInstanceAs (Decidable (_ ∧ _))

/-- Execute a list of actions, as far as each of them is enabled. -/
def performAll (s : Kernel) : List Action → Option (Kernel × List Event)
  | [] => some (s, [])
  | a :: as =>
    if a.Enabled s then
      match perform { s with intrOn := false } a with
      | .ok (t, e) => (performAll t as).map (fun r => (r.1, e :: r.2))
      | .error _ => none
    else none

/-- An executed list of actions is a run. -/
theorem performAll_run {s t : Kernel} {l : List Action} {es : List Event}
    (h : performAll s l = some (t, es)) : kernel.Run s es t := by
  induction l generalizing s t es with
  | nil =>
    obtain ⟨rfl, rfl⟩ : s = t ∧ [] = es := by simpa [performAll] using h
    exact .nil
  | cons a as ih =>
    simp only [performAll] at h
    split_ifs at h with hen
    split at h
    · next u e hperform =>
      obtain ⟨⟨v, es'⟩, hv, hr⟩ := Option.map_eq_some_iff.mp h
      obtain ⟨rfl, rfl⟩ := Prod.mk.inj hr
      exact .cons ⟨false, a, hen, hperform⟩ (ih hv)
    · exact absurd h (by simp)

end X86System.Thread
