import X86System.Parking

/-!
# Locks

A lock is a holder, a nesting count and a binary semaphore. `lock_acquire` and
`lock_release` leave interrupts on, so each access to the lock is a step of its own
and any action of the running kernel may come between two of them. The semaphore is
the one at `psema`; the depth of a thread counts the acquisitions it has completed
and not yet given back, which the code does not record.
-/
namespace X86System.Thread
open Exec Transition

/-- Where a thread stands in `lock_acquire` or `lock_release`. -/
inductive Pc
  | outside
  /-- `plock->holder != running_thread()` -/
  | testHolder
  | down
  | setHolder
  | checkNr
  | setNr
  /-- `plock->holder_repeat_nr++` reads and then writes. -/
  | incLoad
  | incStore (nr : UInt32)
  | assertHolder
  | testNr
  | decLoad
  | decStore (nr : UInt32)
  | assertNr
  | clearHolder
  | clearNr
  | up
  deriving DecidableEq, Repr

structure LockState where
  kernel : Kernel
  holder : Option Tid
  holderRepeatNr : UInt32
  pc : Tid → Pc
  depth : Tid → ℕ

variable (psema : ℕ)

/-- The value of the lock's semaphore. -/
def LockState.value (s : LockState) : UInt8 := (s.kernel.sema psema).value

/-- Thread `c` goes on to `p`. -/
def LockState.goto (s : LockState) (c : Tid) (p : Pc) : LockState :=
  { s with pc := Function.update s.pc c p }

/-- Thread `c` writes the nesting count and is at depth `n` from now on. -/
def LockState.count (s : LockState) (c : Tid) (nr : UInt32) (n : ℕ) : LockState :=
  { s with holderRepeatNr := nr, depth := Function.update s.depth c n }

/-- One step of the running thread inside `lock_acquire` or `lock_release`. -/
def advance (s : LockState) : Except Site LockState :=
  let cur := s.kernel.runningThread
  match s.pc cur with
  | .outside => .ok s
  | .testHolder => .ok (s.goto cur (if s.holder ≠ some cur then .down else .incLoad))
  | .down => do
    let kernel ← semaDown s.kernel psema
    let next := if s.value psema = 0 then .down else .setHolder
    pure ({ s with kernel := kernel }.goto cur next)
  | .setHolder => .ok ({ s with holder := some cur }.goto cur .checkNr)
  | .checkNr => do
    ensure .lockAcquire (s.holderRepeatNr = 0)
    pure (s.goto cur .setNr)
  | .setNr => .ok ((s.count cur 1 1).goto cur .outside)
  | .incLoad => .ok (s.goto cur (.incStore s.holderRepeatNr))
  | .incStore nr => .ok ((s.count cur (nr + 1) (s.depth cur + 1)).goto cur .outside)
  | .assertHolder => do
    ensure .lockRelease (s.holder = some cur)
    pure (s.goto cur .testNr)
  | .testNr => .ok (s.goto cur (if s.holderRepeatNr > 1 then .decLoad else .assertNr))
  | .decLoad => .ok (s.goto cur (.decStore s.holderRepeatNr))
  | .decStore nr => .ok ((s.count cur (nr - 1) (s.depth cur - 1)).goto cur .outside)
  | .assertNr => do
    ensure .lockRelease (s.holderRepeatNr = 1)
    pure (s.goto cur .clearHolder)
  | .clearHolder => .ok ({ s with holder := none }.goto cur .clearNr)
  | .clearNr => .ok ((s.count cur 0 (s.depth cur - 1)).goto cur .up)
  | .up => do
    let kernel ← semaUp s.kernel psema
    pure ({ s with kernel := kernel }.goto cur .outside)

inductive LockAction
  /-- The running thread calls `lock_acquire`. -/
  | acquire
  /-- The running thread calls `lock_release`. -/
  | release
  | advance
  /-- Any other action of the kernel: an interrupt, or the thread does something else. -/
  | other (on : Bool) (a : Action)
  deriving DecidableEq, Repr

/-- Interrupt handlers run in the middle of everything. -/
def Action.isInterrupt : Action → Bool
  | .timer | .semaUp _ | .wakeup _ => true
  | _ => false

/-- A thread releases only what it acquired, and does not exit with the lock held. The
semaphore belongs to the lock. -/
def LockAction.Enabled (s : LockState) : LockAction → Prop
  | .acquire => s.kernel.runningThread ≠ s.kernel.idleThread ∧
      s.pc s.kernel.runningThread = .outside
  | .release => s.kernel.runningThread ≠ s.kernel.idleThread ∧
      s.pc s.kernel.runningThread = .outside ∧ 0 < s.depth s.kernel.runningThread
  | .advance => s.kernel.runningThread ≠ s.kernel.idleThread ∧
      s.pc s.kernel.runningThread ≠ .outside
  | .other _ a => a.Enabled s.kernel ∧ a ≠ .semaDown psema ∧ a ≠ .semaUp psema ∧
      (a.isInterrupt = true ∨ s.pc s.kernel.runningThread = .outside) ∧
      ∀ status, a = .exit status → s.depth s.kernel.runningThread = 0

def lockPerform (s : LockState) : LockAction → Except Site LockState
  | .acquire => .ok (s.goto s.kernel.runningThread .testHolder)
  | .release => .ok (s.goto s.kernel.runningThread .assertHolder)
  | .advance => advance psema s
  | .other on a => do
    let (kernel, _) ← perform { s.kernel with intrOn := on } a
    pure { s with kernel := kernel }

/-- Boot, and then `lock_init`. -/
def LockState.Init (s : LockState) : Prop :=
  Booted s.kernel ∧ s.value psema = 1 ∧ s.holder = none ∧ s.holderRepeatNr = 0 ∧
    (∀ t, s.pc t = .outside) ∧ ∀ t, s.depth t = 0

def lockSystem : System LockState LockAction where
  start := LockState.Init psema
  step s a t := a.Enabled psema s ∧ lockPerform psema s a = .ok t

section SameSema

/-- The function leaves the semaphore alone. -/
def SameSema (i : ℕ) (s : Kernel) (r : Except Site Kernel) : Prop :=
  Outcome r (fun t => t.sema i = s.sema i) (fun _ => True)

variable {i : ℕ} {s : Kernel}

theorem SamePlace.sema {r : Except Site Kernel} (h : SamePlace (.inl i) s r) : SameSema i s r :=
  Outcome.mono h (fun _ ht => Sum.inl.inj ht) (fun _ h => h)

end SameSema

end X86System.Thread
