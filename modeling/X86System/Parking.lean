import X86System.SchedulerRuns

/-!
# Semaphores and waiter slots

Threads sleep on semaphores and in the waiter slots of the I/O queues. Only the
operations of such a place change what it holds: whatever else the kernel does moves
threads between the lists and leaves it as it is.
-/
namespace X86System.Thread
open Exec

/-- A semaphore or a waiter slot, with what it holds. -/
def Kernel.place (s : Kernel) : ℕ ⊕ ℕ → Semaphore ⊕ Option Tid
  | .inl i => .inl (s.sema i)
  | .inr w => .inr (s.waiter w)

/-- The function leaves the place alone. -/
def SamePlace (x : ℕ ⊕ ℕ) (s : Kernel) (r : Except Site Kernel) : Prop :=
  Outcome r (fun t => t.place x = s.place x) (fun _ => True)

/-- The place whose operation an action is. -/
def Action.place : Action → Option (ℕ ⊕ ℕ)
  | .semaDown i | .semaUp i => some (.inl i)
  | .ioqWait w | .wakeup w => some (.inr w)
  | _ => none

variable {x : ℕ ⊕ ℕ} {s t : Kernel}

theorem SamePlace.bind {r : Except Site Kernel} {f : Kernel → Except Site Kernel}
    (h : SamePlace x s r) (hf : ∀ t, SamePlace x t (f t)) : SamePlace x s (r >>= f) :=
  Outcome.bind h (fun t ht => (hf t).mono (fun _ hu => hu.trans ht) (fun _ h => h))

theorem SamePlace.of_eq {s' : Kernel} {r : Except Site Kernel} (hs : s'.place x = s.place x)
    (h : SamePlace x s' r) : SamePlace x s r :=
  h.mono (fun _ ht => ht.trans hs) (fun _ h => h)

theorem SamePlace.waiter {w : ℕ} {r : Except Site Kernel} (h : SamePlace (.inr w) s r)
    (hr : r = .ok t) : t.waiter w = s.waiter w :=
  Sum.inr.inj (h.of_ok hr)

section Scheduling

theorem threadUnblock_place (s : Kernel) (p : Tid) : SamePlace x s (threadUnblock s p) := by
  refine outcome_ensure (fun _ => trivial) (fun _ => outcome_ite (fun _ => ?_) (fun _ => rfl))
  exact outcome_ensure (fun _ => trivial) (fun _ => rfl)

theorem schedule_place (s : Kernel) : SamePlace x s (schedule s) := by
  refine outcome_ensure (fun _ => trivial) (fun _ => SamePlace.bind ?_ (fun t => ?_))
  · exact outcome_ite (fun _ => outcome_ensure (fun _ => trivial) (fun _ => rfl)) (fun _ => rfl)
  · refine SamePlace.bind ?_ (fun u => ?_)
    · exact outcome_ite (fun _ => threadUnblock_place t _) (fun _ => rfl)
    · cases h : u.threadReadyList with
      | nil =>
        simp only [switchTo, h]
        trivial
      | cons next rest =>
        simp only [switchTo, h]
        rfl

theorem threadBlock_place (s : Kernel) (stat : TaskStatus) :
    SamePlace x s (threadBlock s stat) :=
  outcome_ensure (fun _ => trivial) (fun _ =>
    (schedule_place (x := x) ({ s with intrOn := false }.setStatus s.runningThread stat)).mono
      (fun _ h => h) (fun _ h => h))

end Scheduling

section Places

theorem setSema_place {j : ℕ} (hj : .inl j ≠ x) (s : Kernel) (y : Semaphore) :
    (s.setSema j y).place x = s.place x := by
  cases x with
  | inl i =>
    have hne : i ≠ j := fun he => hj (congrArg Sum.inl he.symm)
    exact congrArg Sum.inl (Function.update_of_ne hne _ _)
  | inr w => rfl

theorem setWaiter_place {w : ℕ} (hw : .inr w ≠ x) (s : Kernel) (y : Option Tid) :
    (s.setWaiter w y).place x = s.place x := by
  cases x with
  | inl i => rfl
  | inr v =>
    have hne : v ≠ w := fun he => hw (congrArg Sum.inr he.symm)
    exact congrArg Sum.inr (Function.update_of_ne hne _ _)

theorem semaDown_place {j : ℕ} (hj : .inl j ≠ x) (s : Kernel) : SamePlace x s (semaDown s j) := by
  refine outcome_ite (fun _ => ?_) (fun _ => ?_)
  · refine outcome_ensure (fun _ => trivial) (fun _ => ?_)
    exact (threadBlock_place _ _).of_eq (setSema_place hj _ _)
  · exact outcome_ensure (fun _ => trivial) (fun _ => setSema_place hj _ _)

theorem semaUp_place {j : ℕ} (hj : .inl j ≠ x) (s : Kernel) : SamePlace x s (semaUp s j) := by
  refine outcome_ensure (fun _ => trivial) (fun _ => SamePlace.bind ?_ (fun t => ?_))
  · cases h : (s.sema j).waiters with
    | nil =>
      simp only [wakeWaiter, h]
      rfl
    | cons p rest =>
      simp only [wakeWaiter, h]
      exact (threadUnblock_place _ _).of_eq (setSema_place hj _ _)
  · exact outcome_ensure (fun _ => trivial) (fun _ => setSema_place hj _ _)

theorem ioqWait_place {w : ℕ} (hw : .inr w ≠ x) (s : Kernel) : SamePlace x s (ioqWait s w) :=
  outcome_ensure (fun _ => trivial) (fun _ =>
    (threadBlock_place _ _).of_eq (setWaiter_place hw _ _))

theorem wakeup_place {w : ℕ} (hw : .inr w ≠ x) (s : Kernel) : SamePlace x s (wakeup s w) := by
  cases h : s.waiter w with
  | none =>
    simp only [wakeup, h]
    trivial
  | some p =>
    simp only [wakeup, h]
    exact SamePlace.bind (threadUnblock_place s p) (fun t => setWaiter_place hw t _)

/-- The thread that waits in a slot is recorded there. -/
theorem ioqWait_waiter {w : ℕ} (h : ioqWait s w = .ok t) :
    s.waiter w = none ∧ t.waiter w = some s.runningThread := by
  have hspec : Outcome (ioqWait s w)
      (fun t => s.waiter w = none ∧ t.waiter w = some s.runningThread) (fun _ => True) := by
    refine outcome_ensure (fun _ => trivial) (fun hnone => ?_)
    refine (threadBlock_place (x := .inr w) _ _).mono (fun t ht => ⟨hnone, ?_⟩) (fun _ h => h)
    have ht := Sum.inr.inj ht
    simpa [Kernel.setWaiter] using ht
  exact hspec.of_ok h

/-- A slot is empty after its waiter was woken. -/
theorem wakeup_waiter {w : ℕ} (h : wakeup s w = .ok t) : t.waiter w = none := by
  have hspec : Outcome (wakeup s w) (fun t => t.waiter w = none) (fun _ => True) := by
    cases h : s.waiter w with
    | none =>
      simp only [wakeup, h]
      trivial
    | some p =>
      simp only [wakeup, h]
      refine Outcome.bind (threadUnblock_place (x := .inr w) s p) fun t _ => ?_
      exact Function.update_self w none t.waiter
  exact hspec.of_ok h

end Places

section Actions

theorem intrTimerHandler_place (s : Kernel) : SamePlace x s (intrTimerHandler s) :=
  outcome_ensure (fun _ => trivial) (fun _ =>
    outcome_ite (fun _ => (schedule_place _).of_eq rfl) (fun _ => rfl))

theorem enlist_place (site : Site) (s : Kernel) (p : Tid) : SamePlace x s (enlist site s p) :=
  outcome_ensure (fun _ => trivial) (fun _ => outcome_ensure (fun _ => trivial) (fun _ => rfl))

theorem allocatePid_place (s : Kernel) :
    Outcome (allocatePid s) (fun r => r.2.place x = s.place x) (fun _ => True) :=
  (allocatePid_outcome s).mono (by rintro _ ⟨bit, -, rfl⟩; rfl) (fun _ _ => trivial)

theorem threadStart_place (s : Kernel) (p : Tid) (name : List UInt8) (prio : UInt8) :
    SamePlace x s (threadStart s p name prio) := by
  refine SamePlace.bind ?_ (fun t => enlist_place _ t p)
  exact Outcome.bind (allocatePid_place s) (fun _ hr => hr)

theorem forkCopy_place (s : Kernel) (c : Tid) : SamePlace x s (forkCopy s c) :=
  outcome_ensure (fun _ => trivial) (fun _ => Outcome.bind (allocatePid_place s) (fun _ hr => hr))

theorem forkFinish_place (s : Kernel) (c : Tid) (ok : Bool) :
    SamePlace x s (forkFinish s c ok) :=
  outcome_ite (fun _ => outcome_ensure (fun _ => trivial) (fun _ =>
    (enlist_place _ _ _).of_eq rfl)) (fun _ => rfl)

theorem sysExitHang_place (s : Kernel) : SamePlace x s (sysExitHang s) := by
  cases h : pid2thread s (s.task s.runningThread).parentPid with
  | none =>
    simp only [sysExitHang, h]
    trivial
  | some p =>
    simp only [sysExitHang, h]
    refine SamePlace.bind ?_ (fun t => threadBlock_place t _)
    exact outcome_ite (fun _ => threadUnblock_place s p) (fun _ => rfl)

theorem sysWait_place (s : Kernel) :
    Outcome (sysWait s) (fun r => r.1.place x = s.place x) (fun _ => True) := by
  cases h : s.threadAllList.find? (findHangingChild s (s.task s.runningThread).pid) with
  | some c =>
    simp only [sysWait, h]
    rfl
  | none =>
    cases h' : s.threadAllList.find? (findChild s (s.task s.runningThread).pid) with
    | none =>
      simp only [sysWait, h, h']
      rfl
    | some c =>
      simp only [sysWait, h, h']
      exact Outcome.bind (threadBlock_place s .waiting) (fun _ ht => ht)

/-- Only its own operations touch a semaphore or a slot. -/
theorem perform_place {a : Action} (ha : a.place ≠ some x) (s : Kernel) :
    Outcome (perform s a) (fun y => y.1.place x = s.place x) (fun _ => True) := by
  have hquiet {r : Except Site Kernel} (h : SamePlace x s r) :
      Outcome (quietly r) (fun y => y.1.place x = s.place x) (fun _ => True) :=
    Outcome.bind h (fun _ ht => ht)
  cases a with
  | timer => exact hquiet ((intrTimerHandler_place _).of_eq rfl)
  | idle => exact hquiet (threadBlock_place s _)
  | threadYield =>
    exact hquiet (outcome_ensure (fun _ => trivial) (fun _ => (schedule_place _).of_eq rfl))
  | threadStart p name prio => exact hquiet (threadStart_place s p name prio)
  | semaDown j => exact hquiet (semaDown_place (fun he => ha (congrArg some he)) s)
  | semaUp j => exact hquiet (semaUp_place (fun he => ha (congrArg some he)) s)
  | ioqWait w => exact hquiet ((ioqWait_place (fun he => ha (congrArg some he)) _).of_eq rfl)
  | wakeup w => exact hquiet ((wakeup_place (fun he => ha (congrArg some he)) _).of_eq rfl)
  | forkCopy c => exact hquiet ((forkCopy_place _ c).of_eq rfl)
  | forkFinish ok =>
    simp only [perform, performFinish]
    split
    · exact Outcome.bind (forkFinish_place _ _ ok) (fun _ ht => ht)
    · trivial
  | exit status =>
    have hexit : SamePlace x s (sysExit { s with intrOn := false } status) :=
      outcome_ensure (fun _ => trivial) (fun _ => rfl)
    exact Outcome.bind hexit (fun _ ht => ht)
  | exitHang => exact hquiet ((sysExitHang_place _).of_eq rfl)
  | wait =>
    refine Outcome.bind (sysWait_place (x := x) _) ?_
    rintro ⟨t, _ | _ | _⟩ ht <;> exact ht

end Actions

end X86System.Thread
