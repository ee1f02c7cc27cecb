import X86System.ResponseTimes
import X86System.Lock
import X86System.Format

/-!
# Sleeping for a time

`mtime_sleep` waits in a loop that compares the tick count with that at its start and yields.
Interrupts and other threads run between any two steps of the loop. The sleeper is never blocked,
so the response time of the scheduler bounds how late it wakes up.
-/
namespace X86System.Thread
open Exec Transition

/-- Where a thread is in `ticks_to_sleep`. -/
inductive SleepPc
  | awake
  | test (startTick sleepTicks : UInt32)
  | yield (startTick sleepTicks : UInt32)
  deriving DecidableEq, Repr

structure SleepState where
  kernel : Kernel
  pc : Tid → SleepPc

inductive SleepOp
  | mtimeSleep (mSeconds : UInt32)
  /-- The condition of the loop. -/
  | test
  | yield (on : Bool)
  /-- An interrupt, or what a thread does that does not sleep. -/
  | other (on : Bool) (a : Action)
  deriving DecidableEq, Repr

section Source

/-- `mil_seconds_per_intr` -/
def milSecondsPerIntr : UInt32 := 10

def SleepState.goto (s : SleepState) (p : SleepPc) : SleepState :=
  { s with pc := Function.update s.pc s.kernel.runningThread p }

/-- `mtime_sleep` up to the loop of `ticks_to_sleep`. -/
def mtimeSleep (s : SleepState) (mSeconds : UInt32) : Except Site SleepState := do
  let sleepTicks := FileSystem.divRoundUp mSeconds milSecondsPerIntr
  ensure Site.timer (0 < sleepTicks)
  .ok (s.goto (.test s.kernel.ticks sleepTicks))

/-- `ticks - start_tick < sleep_ticks` -/
def ticksToSleepTest (s : SleepState) (startTick sleepTicks : UInt32) : SleepState :=
  if s.kernel.ticks - startTick < sleepTicks then s.goto (.yield startTick sleepTicks)
  else s.goto .awake

def sleepPerform (s : SleepState) : SleepOp → Except Site SleepState
  | .mtimeSleep mSeconds => mtimeSleep s mSeconds
  | .test =>
    match s.pc s.kernel.runningThread with
    | .test startTick sleepTicks => .ok (ticksToSleepTest s startTick sleepTicks)
    | _ => .ok s
  | .yield on =>
    match s.pc s.kernel.runningThread with
    | .yield startTick sleepTicks => do
      let kernel ← threadYield { s.kernel with intrOn := on }
      .ok { s.goto (.test startTick sleepTicks) with kernel := kernel }
    | _ => .ok s
  | .other on a => do
    let (kernel, _) ← perform { s.kernel with intrOn := on } a
    .ok { s with kernel := kernel }

/-- A thread in the loop does nothing else. -/
def SleepOp.Enabled (s : SleepState) : SleepOp → Prop
  | .mtimeSleep _ => s.kernel.runningThread ≠ s.kernel.idleThread ∧
      s.pc s.kernel.runningThread = .awake
  | .test => s.kernel.runningThread ≠ s.kernel.idleThread ∧
      ∃ startTick sleepTicks, s.pc s.kernel.runningThread = .test startTick sleepTicks
  | .yield _ => s.kernel.runningThread ≠ s.kernel.idleThread ∧
      ∃ startTick sleepTicks, s.pc s.kernel.runningThread = .yield startTick sleepTicks
  | .other _ a => a.Enabled s.kernel ∧
      (a.isInterrupt = true ∨ s.pc s.kernel.runningThread = .awake)

def sleepSystem : System SleepState SleepOp where
  start s := Booted s.kernel ∧ ∀ u, s.pc u = .awake
  step s op t := op.Enabled s ∧ sleepPerform s op = .ok t

end Source

section Ticks

variable {s t : Kernel}

/-- The function leaves the tick count alone. -/
def SameTicks (s : Kernel) (r : Except Site Kernel) : Prop :=
  Outcome r (fun t => t.ticks = s.ticks) (fun _ => True)

theorem SameTicks.bind {r : Except Site Kernel} {f : Kernel → Except Site Kernel}
    (h : SameTicks s r) (hf : ∀ t, SameTicks t (f t)) : SameTicks s (r >>= f) :=
  Outcome.bind h fun t ht => (hf t).mono (fun _ hu => hu.trans ht) fun _ h => h

theorem SameTicks.of_eq {s' : Kernel} {r : Except Site Kernel} (h : SameTicks s' r)
    (hs : s'.ticks = s.ticks) : SameTicks s r :=
  h.mono (fun _ ht => ht.trans hs) fun _ h => h

theorem threadUnblock_ticks (s : Kernel) (p : Tid) : SameTicks s (threadUnblock s p) := by
  refine outcome_ensure (fun _ => trivial) fun _ => outcome_ite (fun _ => ?_) fun _ => rfl
  exact outcome_ensure (fun _ => trivial) fun _ => rfl

theorem schedule_ticks (s : Kernel) : SameTicks s (schedule s) := by
  refine outcome_ensure (fun _ => trivial) fun _ => SameTicks.bind ?_ fun t => ?_
  · exact outcome_ite (fun _ => outcome_ensure (fun _ => trivial) fun _ => rfl) fun _ => rfl
  · refine SameTicks.bind ?_ fun u => ?_
    · exact outcome_ite (fun _ => threadUnblock_ticks t _) fun _ => rfl
    · cases h : u.threadReadyList with
      | nil =>
        simp only [switchTo, h]
        trivial
      | cons next rest =>
        simp only [switchTo, h]
        rfl

theorem threadBlock_ticks (s : Kernel) (stat : TaskStatus) : SameTicks s (threadBlock s stat) :=
  outcome_ensure (fun _ => trivial) fun _ =>
    (schedule_ticks ({ s with intrOn := false }.setStatus s.runningThread stat)).mono
      (fun _ h => h) fun _ h => h

theorem threadYield_ticks (s : Kernel) : SameTicks s (threadYield s) :=
  outcome_ensure (fun _ => trivial) fun _ =>
    (schedule_ticks { s.setStatus s.runningThread .ready with
      intrOn := false, threadReadyList := s.threadReadyList ++ [s.runningThread] }).of_eq rfl

theorem semaDown_ticks (s : Kernel) (i : ℕ) : SameTicks s (semaDown s i) := by
  refine outcome_ite (fun _ => ?_) fun _ => ?_
  · refine outcome_ensure (fun _ => trivial) fun _ => ?_
    exact (threadBlock_ticks ({ s with intrOn := false }.setSema i
      { s.sema i with waiters := (s.sema i).waiters ++ [s.runningThread] }) .blocked).of_eq rfl
  · exact outcome_ensure (fun _ => trivial) fun _ => rfl

theorem semaUp_ticks (s : Kernel) (i : ℕ) : SameTicks s (semaUp s i) := by
  refine outcome_ensure (fun _ => trivial) fun _ => SameTicks.bind ?_ fun t => ?_
  · cases h : (s.sema i).waiters with
    | nil =>
      simp only [wakeWaiter, h]
      rfl
    | cons p rest =>
      simp only [wakeWaiter, h]
      exact (threadUnblock_ticks (s.setSema i { s.sema i with waiters := rest }) p).of_eq rfl
  · exact outcome_ensure (fun _ => trivial) fun _ => rfl

theorem wakeup_ticks (s : Kernel) (w : ℕ) : SameTicks s (wakeup s w) := by
  cases h : s.waiter w with
  | none =>
    simp only [wakeup, h]
    trivial
  | some p =>
    simp only [wakeup, h]
    exact SameTicks.bind (threadUnblock_ticks s p) fun _ => rfl

theorem ioqWait_ticks (s : Kernel) (w : ℕ) : SameTicks s (ioqWait s w) :=
  outcome_ensure (fun _ => trivial) fun _ =>
    (threadBlock_ticks (s.setWaiter w (some s.runningThread)) .blocked).of_eq rfl

theorem enlist_ticks (site : Site) (s : Kernel) (p : Tid) : SameTicks s (enlist site s p) :=
  outcome_ensure (fun _ => trivial) fun _ => outcome_ensure (fun _ => trivial) fun _ => rfl

theorem allocatePid_ticks (s : Kernel) :
    Outcome (allocatePid s) (fun r => r.2.ticks = s.ticks) (fun _ => True) :=
  (allocatePid_outcome s).mono (by rintro _ ⟨bit, -, rfl⟩; rfl) fun _ _ => trivial

theorem forkFinish_ticks (s : Kernel) (c : Tid) (ok : Bool) : SameTicks s (forkFinish s c ok) :=
  outcome_ite (fun _ => outcome_ensure (fun _ => trivial) fun _ =>
    (enlist_ticks _ _ _).of_eq rfl) fun _ => rfl

theorem sysExitHang_ticks (s : Kernel) : SameTicks s (sysExitHang s) := by
  cases h : pid2thread s (s.task s.runningThread).parentPid with
  | none =>
    simp only [sysExitHang, h]
    trivial
  | some p =>
    simp only [sysExitHang, h]
    refine SameTicks.bind ?_ fun t => threadBlock_ticks t _
    exact outcome_ite (fun _ => threadUnblock_ticks s p) fun _ => rfl

theorem sysWait_ticks (s : Kernel) :
    Outcome (sysWait s) (fun r => r.1.ticks = s.ticks) (fun _ => True) := by
  cases h : s.threadAllList.find? (findHangingChild s (s.task s.runningThread).pid) with
  | some c =>
    simp only [sysWait, h]
    rfl
  | none =>
    cases h' : s.threadAllList.find? (findChild s (s.task s.runningThread).pid) with
    | none =>
      simp only [sysWait, h, h']
      rfl
    | some c =>
      simp only [sysWait, h, h']
      exact Outcome.bind (threadBlock_ticks s .waiting) fun _ ht => ht

theorem intrTimerHandler_ticks (s : Kernel) :
    Outcome (intrTimerHandler s) (fun t => t.ticks = s.ticks + 1) (fun _ => True) := by
  rw [intrTimerHandler_eq]
  exact outcome_ensure (fun _ => trivial) fun _ =>
    outcome_ite (fun _ => schedule_ticks s.counted) fun _ => rfl

/-- Only the timer handler counts, and it counts each interrupt once. -/
theorem perform_ticks (s : Kernel) (a : Action) : Outcome (perform s a)
    (fun y => y.1.ticks = s.ticks + if a = .timer then 1 else 0) (fun _ => True) := by
  have hquiet {r : Except Site Kernel} (h : SameTicks s r) (ha : a ≠ .timer) :
      Outcome (quietly r) (fun y => y.1.ticks = s.ticks + if a = .timer then 1 else 0)
        (fun _ => True) := by
    rw [if_neg ha, UInt32.add_zero]
    exact Outcome.bind h fun _ ht => ht
  cases a with
  | timer => exact Outcome.bind (intrTimerHandler_ticks { s with intrOn := false }) fun _ ht => ht
  | idle => exact hquiet (threadBlock_ticks s _) (by simp)
  | threadYield => exact hquiet (threadYield_ticks s) (by simp)
  | threadStart p name prio =>
    refine hquiet ?_ (by simp)
    refine SameTicks.bind ?_ fun t => enlist_ticks _ t p
    exact Outcome.bind (allocatePid_ticks s) fun _ hr => hr
  | semaDown i => exact hquiet (semaDown_ticks s i) (by simp)
  | semaUp i => exact hquiet (semaUp_ticks s i) (by simp)
  | ioqWait w => exact hquiet ((ioqWait_ticks { s with intrOn := false } w).of_eq rfl) (by simp)
  | wakeup w => exact hquiet ((wakeup_ticks { s with intrOn := false } w).of_eq rfl) (by simp)
  | forkCopy c =>
    refine hquiet ?_ (by simp)
    exact outcome_ensure (fun _ => trivial) fun _ =>
      Outcome.bind (allocatePid_ticks { s with intrOn := false }) fun _ hr => hr
  | forkFinish ok =>
    simp only [perform, performFinish]
    split
    · exact Outcome.bind (forkFinish_ticks _ _ ok) fun _ ht => by simpa using ht
    · trivial
  | exit status =>
    have hexit : SameTicks s (sysExit { s with intrOn := false } status) :=
      outcome_ensure (fun _ => trivial) fun _ => rfl
    exact Outcome.bind hexit fun _ ht => by simpa using ht
  | exitHang => exact hquiet ((sysExitHang_ticks { s with intrOn := false }).of_eq rfl) (by simp)
  | wait =>
    refine Outcome.bind (sysWait_ticks { s with intrOn := false }) ?_
    rintro ⟨t, _ | _ | _⟩ ht <;> simpa using ht

end Ticks

section Able

variable {s t : Kernel} {u : Tid}

/-- The thread runs or is ready. -/
def Kernel.Able (s : Kernel) (u : Tid) : Prop := u = s.runningThread ∨ u ∈ s.threadReadyList

theorem switchTo_able (hu : u ∈ s.threadReadyList) (h : switchTo s = .ok t) : t.Able u := by
  unfold switchTo at h
  cases hlist : s.threadReadyList with
  | nil => simp [hlist] at hu
  | cons next rest =>
    rw [hlist] at h hu
    obtain rfl := Except.ok.inj h
    exact List.mem_cons.mp hu

/-- Who is ready, or runs and is put behind the others, can go on. -/
theorem schedule_able (hu : u ∈ s.threadReadyList ∨
    u = s.runningThread ∧ s.status s.runningThread = .running) (h : schedule s = .ok t) :
    t.Able u := by
  obtain ⟨-, h⟩ := of_ensure_eq_ok h
  obtain ⟨s₁, h₁, h⟩ := of_bind_eq_ok h
  obtain ⟨s₂, h₂, h⟩ := of_bind_eq_ok h
  have hmem : u ∈ s₁.threadReadyList := by
    unfold requeue at h₁
    dsimp only at h₁
    split_ifs at h₁ with hrun
    · obtain ⟨-, h₁⟩ := of_ensure_eq_ok h₁
      obtain rfl := Except.ok.inj h₁
      exact List.mem_append.mpr (hu.imp_right fun hcur => List.mem_singleton.mpr hcur.1)
    · obtain rfl := Except.ok.inj h₁
      exact hu.resolve_right fun hcur => hrun hcur.2
  obtain rfl : s₁ = s₂ := by
    rw [wakeIdle, if_neg (List.ne_nil_of_mem hmem)] at h₂
    exact Except.ok.inj h₂
  exact switchTo_able hmem h

theorem intrTimerHandler_able (hcur : s.status s.runningThread = .running)
    (h : intrTimerHandler s = .ok t) : t.Able s.runningThread := by
  rw [intrTimerHandler_eq] at h
  obtain ⟨-, h⟩ := of_ensure_eq_ok h
  split_ifs at h
  · have hcounted : s.counted.status s.counted.runningThread = .running := by
      simpa [Kernel.counted, Kernel.status, Kernel.setTask] using hcur
    exact schedule_able (s := s.counted) (Or.inr ⟨rfl, hcounted⟩) h
  · obtain rfl := Except.ok.inj h
    exact Or.inl rfl

theorem threadYield_able (h : threadYield s = .ok t) : t.Able s.runningThread := by
  obtain ⟨-, h⟩ := of_ensure_eq_ok h
  exact schedule_able (Or.inl (List.mem_append_right _ (List.mem_singleton_self _))) h

theorem threadUnblock_running {p : Tid} (h : threadUnblock s p = .ok t) :
    t.runningThread = s.runningThread := by
  obtain ⟨-, h⟩ := of_ensure_eq_ok h
  split_ifs at h
  · obtain ⟨-, h⟩ := of_ensure_eq_ok h
    obtain rfl := Except.ok.inj h
    rfl
  · obtain rfl := Except.ok.inj h
    rfl

theorem semaUp_running {i : ℕ} (h : semaUp s i = .ok t) : t.runningThread = s.runningThread := by
  obtain ⟨-, h⟩ := of_ensure_eq_ok h
  obtain ⟨r, hr, h⟩ := of_bind_eq_ok h
  obtain ⟨-, h⟩ := of_ensure_eq_ok h
  obtain rfl := Except.ok.inj h
  unfold wakeWaiter at hr
  split at hr
  · obtain rfl := Except.ok.inj hr
    rfl
  · have hrun := threadUnblock_running hr
    exact hrun

theorem wakeup_running {w : ℕ} (h : wakeup s w = .ok t) : t.runningThread = s.runningThread := by
  unfold wakeup at h
  split at h
  · cases h
  · obtain ⟨r, hr, h⟩ := of_bind_eq_ok h
    obtain rfl := Except.ok.inj h
    have hrun := threadUnblock_running hr
    exact hrun

/-- A thread is blocked by nobody but itself. -/
theorem perform_able (h : s.Scheduled) (hu : s.Able u) {a : Action} (hen : a.Enabled s)
    (hfree : a.isInterrupt = true ∨ u ≠ s.runningThread) {on : Bool} {e : Event}
    (he : perform { s with intrOn := on } a = .ok (t, e)) : t.Able u := by
  by_cases hwait : t.runningThread = u
  · exact Or.inl hwait.symm
  · rcases hu with rfl | hu
    · have hint := hfree.resolve_right fun hne => hne rfl
      cases a with
      | timer =>
        have htimer : intrTimerHandler { s with intrOn := false } = .ok t := quietly_eq_ok he
        exact intrTimerHandler_able (s := { s with intrOn := false }) h.current_running htimer
      | semaUp i =>
        have hup : semaUp { s with intrOn := on } i = .ok t := quietly_eq_ok he
        exact Or.inl (semaUp_running hup).symm
      | wakeup w =>
        have hup : wakeup { s with intrOn := false } w = .ok t := quietly_eq_ok he
        exact Or.inl (wakeup_running hup).symm
      | _ => simp [Action.isInterrupt] at hint
    · exact Or.inr (perform_still h hu hen he hwait).1.mem

end Able

section Sleep

variable {s t : SleepState} {op : SleepOp} {u : Tid}

structure SleepInv (s : SleepState) : Prop where
  scheduled : s.kernel.Scheduled
  able : ∀ u, s.pc u ≠ .awake → s.kernel.Able u

/-- The call that a thread is in: the tick count at its start and the ticks that it sleeps. -/
def SleepPc.call : SleepPc → Option (UInt32 × UInt32)
  | .awake => none
  | .test startTick sleepTicks | .yield startTick sleepTicks => some (startTick, sleepTicks)

def SleepOp.isTimer : SleepOp → Bool
  | .other _ .timer => true
  | _ => false

/-- What a step does to the tick count and to the calls of the threads. -/
structure SleepMove (s : SleepState) (op : SleepOp) (t : SleepState) : Prop where
  ticks : t.kernel.ticks = s.kernel.ticks + if op.isTimer then 1 else 0
  call : ∀ u, s.pc u ≠ .awake → t.pc u ≠ .awake → (t.pc u).call = (s.pc u).call

@[simp] theorem sleepGoto_pc (s : SleepState) (p : SleepPc) (u : Tid) :
    (s.goto p).pc u = if u = s.kernel.runningThread then p else s.pc u :=
  Function.update_apply _ _ _ _

/-- A step inside the loop, or out of it. -/
theorem sleep_goto (hs : SleepInv s) (p : SleepPc) (hop : op.isTimer = false)
    (hp : p ≠ .awake → s.pc s.kernel.runningThread ≠ .awake →
      p.call = (s.pc s.kernel.runningThread).call) :
    SleepInv (s.goto p) ∧ SleepMove s op (s.goto p) := by
  refine ⟨⟨hs.scheduled, fun u hu => ?_⟩, ?_, fun u hu hu' => ?_⟩
  · by_cases hne : u = s.kernel.runningThread
    · exact Or.inl hne
    · rw [sleepGoto_pc, if_neg hne] at hu
      exact hs.able u hu
  · rw [hop]
    exact (UInt32.add_zero _).symm
  · by_cases hne : u = s.kernel.runningThread
    · subst hne
      rw [sleepGoto_pc, if_pos rfl] at hu' ⊢
      exact hp hu' hu
    · rw [sleepGoto_pc, if_neg hne]

theorem sleep_step (hs : SleepInv s) (h : sleepSystem.step s op t) :
    SleepInv t ∧ SleepMove s op t := by
  obtain ⟨hen, h⟩ := h
  cases op with
  | mtimeSleep ms =>
    obtain ⟨-, h⟩ := of_ensure_eq_ok h
    obtain rfl := Except.ok.inj h
    exact sleep_goto hs _ rfl fun _ hcur => absurd hen.2 hcur
  | test =>
    obtain ⟨-, a, n, hpc⟩ := hen
    simp only [sleepPerform, hpc, Except.ok.injEq] at h
    subst h
    unfold ticksToSleepTest
    split_ifs
    · refine sleep_goto hs _ rfl fun _ _ => ?_
      rw [hpc]
      rfl
    · exact sleep_goto hs _ rfl fun hawake => absurd rfl hawake
  | yield on =>
    obtain ⟨hidle, a, n, hpc⟩ := hen
    simp only [sleepPerform, hpc] at h
    obtain ⟨k, hk, h⟩ := of_bind_eq_ok h
    obtain rfl := Except.ok.inj h
    have hperform : perform { s.kernel with intrOn := on } .threadYield = .ok (k, .quiet) := by
      rw [perform, hk]
      rfl
    have hen : Action.threadYield.Enabled s.kernel := hidle
    refine ⟨⟨(perform_scheduling hs.scheduled hen on).of_ok hperform, fun u hu => ?_⟩, ?_,
      fun u hu _ => ?_⟩
    · by_cases hcur : u = s.kernel.runningThread
      · rw [hcur]
        exact threadYield_able hk
      · have hu : s.pc u ≠ .awake := by simpa [hcur] using hu
        exact perform_able hs.scheduled (hs.able u hu) hen (Or.inr hcur) hperform
    · exact ((threadYield_ticks _).of_ok hk).trans (UInt32.add_zero _).symm
    · by_cases hcur : u = s.kernel.runningThread
      · subst hcur
        simp [hpc, SleepPc.call]
      · simp [hcur]
  | other on a =>
    obtain ⟨hen, hfree⟩ := hen
    obtain ⟨⟨k, e⟩, hk, h⟩ := of_bind_eq_ok h
    obtain rfl := Except.ok.inj h
    refine ⟨⟨(perform_scheduling hs.scheduled hen on).of_ok hk, fun u hu => ?_⟩, ?_,
      fun _ _ _ => rfl⟩
    · refine perform_able hs.scheduled (hs.able u hu) hen (hfree.imp_right fun hawake hcur => ?_) hk
      exact hu (hcur ▸ hawake)
    · have hticks := (perform_ticks { s.kernel with intrOn := on } a).of_ok hk
      dsimp only at hticks ⊢
      rw [hticks]
      cases a <;> rfl

theorem sleepInv_start (h : sleepSystem.start s) : SleepInv s :=
  ⟨reachable_scheduled ⟨s.kernel, [], h.1, .nil⟩, fun u hu => absurd (h.2 u) hu⟩

theorem sleepInv_reachable (h : sleepSystem.Reachable s) : SleepInv s :=
  h.invariant (fun _ hs => sleepInv_start hs) fun _ _ _ hs hstep => (sleep_step hs hstep).1

/-- While a call lasts, the thread can go on and each timer interrupt is counted. -/
theorem sleep_run {s₁ : SleepState} (hs : SleepInv s₁) (hu : s₁.pc u ≠ .awake) {l : List SleepOp}
    (hrun : (sleepSystem.within fun t => t.pc u ≠ .awake).Run s₁ l t) :
    SleepInv t ∧ t.pc u ≠ .awake ∧ (t.pc u).call = (s₁.pc u).call ∧
      t.kernel.ticks = s₁.kernel.ticks + UInt32.ofNat (l.countP SleepOp.isTimer) := by
  induction hrun with
  | nil => exact ⟨hs, hu, rfl, (UInt32.add_zero _).symm⟩
  | @snoc t r l op _ hstep ih =>
    obtain ⟨ht, htu, hcall, hticks⟩ := ih
    obtain ⟨hr, hmove⟩ := sleep_step ht hstep.1
    refine ⟨hr, hstep.2, (hmove.call u htu hstep.2).trans hcall, ?_⟩
    rw [hmove.ticks, hticks, List.countP_append, List.countP_singleton, UInt32.add_assoc,
      UInt32.ofNat_add]
    cases op.isTimer <;> rfl

/-- What a step does to the kernel: nothing, or an action. -/
theorem sleep_kernel (h : sleepSystem.step s op t) :
    t.kernel = s.kernel ∧ op.isTimer = false ∨ ∃ a on e, a.Enabled s.kernel ∧
      perform { s.kernel with intrOn := on } a = .ok (t.kernel, e) ∧
      (op.isTimer = true → a = .timer) := by
  obtain ⟨hen, h⟩ := h
  cases op with
  | mtimeSleep ms =>
    obtain ⟨-, h⟩ := of_ensure_eq_ok h
    obtain rfl := Except.ok.inj h
    exact Or.inl ⟨rfl, rfl⟩
  | test =>
    obtain ⟨-, a, n, hpc⟩ := hen
    simp only [sleepPerform, hpc, Except.ok.injEq] at h
    subst h
    unfold ticksToSleepTest
    split_ifs <;> exact Or.inl ⟨rfl, rfl⟩
  | yield on =>
    obtain ⟨hidle, a, n, hpc⟩ := hen
    simp only [sleepPerform, hpc] at h
    obtain ⟨k, hk, h⟩ := of_bind_eq_ok h
    obtain rfl := Except.ok.inj h
    refine Or.inr ⟨.threadYield, on, .quiet, hidle, ?_, by simp [SleepOp.isTimer]⟩
    rw [perform, hk]
    rfl
  | other on a =>
    obtain ⟨⟨k, e⟩, hk, h⟩ := of_bind_eq_ok h
    obtain rfl := Except.ok.inj h
    refine Or.inr ⟨a, on, e, hen.1, hk, fun ha => ?_⟩
    cases a <;> first | rfl | simp [SleepOp.isTimer] at ha

/-- The interrupts that come while a thread is passed over are taken from the slices in front of
it. -/
theorem passedOver_sleep {l : List SleepOp} (hs : SleepInv s) (hu : u ∈ s.kernel.threadReadyList)
    (hrun : (sleepSystem.within fun t => t.kernel.runningThread ≠ u).Run s l t) :
    l.countP SleepOp.isTimer ≤ s.kernel.slicesAhead u := by
  have hstep : ∀ (s : SleepState) (op : SleepOp) (t : SleepState),
      SleepInv s ∧ u ∈ s.kernel.threadReadyList →
      (sleepSystem.within fun t => t.kernel.runningThread ≠ u).step s op t →
      (SleepInv t ∧ u ∈ t.kernel.threadReadyList) ∧
        t.kernel.slicesAhead u + (if op.isTimer then 1 else 0) ≤ s.kernel.slicesAhead u := by
    rintro s op t ⟨hs, hu⟩ ⟨hstep, hwait⟩
    have ht := (sleep_step hs hstep).1
    rcases sleep_kernel hstep with ⟨hk, hop⟩ | ⟨a, on, e, hen, hk, htimer⟩
    · rw [hk, hop]
      exact ⟨⟨ht, hu⟩, le_rfl⟩
    · obtain ⟨hstill, hless⟩ := perform_still hs.scheduled hu hen hk hwait
      refine ⟨⟨ht, hstill.mem⟩, ?_⟩
      split_ifs with hop
      · exact hless (htimer hop)
      · exact hstill.slices_le
  exact (Nat.le_add_left _ _).trans (System.Run.potential hstep hrun ⟨hs, hu⟩).2

/-- A sleeping thread runs or is ready all the time. Its call returns after the time it asks for,
not before: at each test of the loop it returns if and only if that many timer interrupts came
since the call, but for full rounds of the counter. While it is passed over there come no more than
the slices of the other threads. -/
theorem sleep_returns_in_time {s₁ : SleepState} {mSeconds : UInt32} {l : List SleepOp}
    (h : sleepSystem.Reachable s) (hcall : sleepSystem.step s (.mtimeSleep mSeconds) s₁)
    (hcur : s.kernel.runningThread = u)
    (hrun : (sleepSystem.within fun t => t.pc u ≠ .awake).Run s₁ l t) :
    t.kernel.Able u ∧
      (∀ t', t.kernel.runningThread = u → sleepSystem.step t .test t' → (t'.pc u = .awake ↔
        (FileSystem.divRoundUp mSeconds milSecondsPerIntr).toNat ≤
          l.countP SleepOp.isTimer % 2 ^ 32)) ∧
      ∀ l' t', (sleepSystem.within fun t => t.kernel.runningThread ≠ u).Run t l' t' →
        t.kernel.runningThread ≠ u →
        l'.countP SleepOp.isTimer ≤ 256 * (t.kernel.threadAllList.length - 1) := by
  have hs := sleepInv_reachable h
  have hs₁ := (sleep_step hs hcall).1
  obtain ⟨-, hcall⟩ := hcall
  obtain ⟨-, hcall⟩ := of_ensure_eq_ok hcall
  obtain rfl := Except.ok.inj hcall
  subst hcur
  obtain ⟨ht, hut, hpc, hticks⟩ := sleep_run hs₁ (by simp) hrun
  have hable := ht.able _ hut
  refine ⟨hable, fun t' hcur hstep => ?_, fun l' t' hrun' hne => ?_⟩
  · obtain ⟨⟨-, a, n, htest⟩, hstep⟩ := hstep
    simp only [sleepPerform, htest, Except.ok.injEq] at hstep
    rw [hcur] at htest
    rw [htest, sleepGoto_pc, if_pos rfl] at hpc
    obtain ⟨rfl, rfl⟩ := Prod.mk.inj (Option.some.inj hpc)
    have helapsed : (t.kernel.ticks - s.kernel.ticks).toNat =
        l.countP SleepOp.isTimer % 2 ^ 32 := by
      have hcount : t.kernel.ticks - s.kernel.ticks = UInt32.ofNat (l.countP SleepOp.isTimer) := by
        rw [hticks, UInt32.add_comm]
        exact UInt32.add_sub_cancel _ _
      rw [hcount, UInt32.toNat_ofNat']
    rw [← hstep, ticksToSleepTest, ← helapsed, ← UInt32.le_iff_toNat_le, ← UInt32.not_lt]
    split_ifs with hlt <;> simp [hcur, hlt]
  · have hmem := hable.resolve_left (Ne.symm hne)
    have hall := ((ht.scheduled.settled.mem_ready _).mp hmem).1
    exact (passedOver_sleep ht hmem hrun').trans (slicesAhead_le hall)

/-- The main thread sleeps for 20 ms, which are two timer interrupts. -/
theorem sleep_returns_in_time_two : ∃ s s₁ t t', sleepSystem.start s ∧
    sleepSystem.step s (.mtimeSleep 20) s₁ ∧
    (sleepSystem.within fun t => t.pc 2 ≠ .awake).Run s₁
      [.other false .timer, .other false .timer] t ∧
    sleepSystem.step t .test t' ∧ t'.pc 2 = .awake := by
  obtain ⟨k, hk⟩ : ∃ k, threadInit 1 2 3 (fun _ => 1) = .ok k := ⟨_, rfl⟩
  have hstart : sleepSystem.start ⟨k, fun _ => .awake⟩ := 
    ⟨⟨1, 2, 3, _, by decide, by decide, by decide, hk⟩, fun _ => rfl⟩
  obtain ⟨s₁, hcall, t, hrun, hrunning, hidle, hpc⟩ : ∃ s₁,
      sleepSystem.step ⟨k, fun _ => .awake⟩ (.mtimeSleep 20) s₁ ∧ ∃ t,
      (sleepSystem.within fun t => t.pc 2 ≠ .awake).Run s₁
        [.other false .timer, .other false .timer] t ∧
      t.kernel.runningThread = 2 ∧ t.kernel.idleThread = 3 ∧ t.pc 2 = .test 0 2 := by
    obtain rfl := Except.ok.inj hk
    refine ⟨_, ⟨⟨by decide, rfl⟩, rfl⟩, _, .snoc (l := [_]) (.snoc (l := []) .nil
      ⟨⟨⟨trivial, Or.inl rfl⟩, rfl⟩, ?_⟩) ⟨⟨⟨trivial, Or.inl rfl⟩, rfl⟩, ?_⟩, ?_, ?_, ?_⟩ <;> decide
  have htest : sleepSystem.step t .test (ticksToSleepTest t 0 2) := by
    rw [← hrunning] at hpc
    refine ⟨⟨by rw [hrunning, hidle]; decide, 0, 2, hpc⟩, ?_⟩
    simp only [sleepPerform, hpc]
  have hcur : k.runningThread = 2 := by
    obtain rfl := Except.ok.inj hk
    rfl
  obtain ⟨-, hreturns, -⟩ := sleep_returns_in_time ⟨_, [], hstart, .nil⟩ hcall hcur hrun
  exact ⟨_, s₁, t, _, hstart, hcall, hrun, htest, (hreturns _ hrunning htest).mpr (by decide)⟩

end Sleep

end X86System.Thread
