import X86System.ExitDelivery

/-!
# What a step of the kernel does

The scheduler makes no thread wait: only `sys_wait` does, and only when it found no
hanging child. Every step is one of nine kinds, each described by the state it
leads to, so that an invariant is checked kind by kind.
-/
namespace X86System.Thread
open Exec Transition

variable {s t u : Kernel}

/-- No thread has come to wait. -/
def Calm (s t : Kernel) : Prop := ∀ v, t.status v = .waiting → s.status v = .waiting

theorem Calm.refl (s : Kernel) : Calm s s := fun _ h => h

theorem Calm.trans (h : Calm s t) (h' : Calm t u) : Calm s u := fun v hv => h v (h' v hv)

theorem Calm.of_status (h : t.status = s.status) : Calm s t := fun v hv => by rwa [← h]

/-- A thread gets another status than waiting. -/
theorem setTask_calm {c : Tid} {f : TaskStruct → TaskStruct}
    (hf : (f (s.task c)).status ≠ .waiting) : Calm s (s.setTask c f) := by
  intro v hv
  by_cases hvc : v = c
  · subst hvc
    exact absurd (by simpa [Kernel.status, Kernel.setTask] using hv) hf
  · simpa [Kernel.status, Kernel.setTask, hvc] using hv

/-- If the call returns, no thread has come to wait. -/
def Calmly (s : Kernel) (r : Except Site Kernel) : Prop := Outcome r (Calm s) (fun _ => True)

theorem Calmly.ok (h : Calm s t) : Calmly s (pure t) := h

theorem Calmly.bind {r : Except Site Kernel} {f : Kernel → Except Site Kernel}
    (h : Calmly s r) (hf : ∀ t, Calmly t (f t)) : Calmly s (r >>= f) :=
  Outcome.bind h fun t ht => (hf t).mono (fun _ hu => ht.trans hu) (fun _ _ => trivial)

theorem Calmly.ensure {p : Prop} [Decidable p] {e : Site} {f : Unit → Except Site Kernel}
    (h : Calmly s (f ())) : Calmly s (ensure e p >>= f) :=
  outcome_ensure (fun _ => trivial) (fun _ => h)

/-- What is calm after a first change is calm after it and before it. -/
theorem Calmly.after {r : Except Site Kernel} (h : Calm s t) (hr : Calmly t r) : Calmly s r :=
  hr.mono (fun _ hu => h.trans hu) (fun _ _ => trivial)

theorem threadUnblock_calm (s : Kernel) (p : Tid) : Calmly s (threadUnblock s p) := by
  refine Calmly.ensure (outcome_ite (fun _ => Calmly.ensure ?_) (fun _ => Calm.refl s))
  exact setTask_calm (f := fun q => { q with status := .ready }) (by simp)

theorem requeue_calm (s : Kernel) : Calmly s (requeue s) := by
  refine outcome_ite (fun _ => Calmly.ensure ?_) (fun _ => Calm.refl s)
  exact setTask_calm (f := fun p => { p with ticks := p.priority, status := .ready }) (by simp)

theorem wakeIdle_calm (s : Kernel) : Calmly s (wakeIdle s) :=
  outcome_ite (fun _ => threadUnblock_calm s _) (fun _ => Calm.refl s)

theorem switchTo_calm (s : Kernel) : Calmly s (switchTo s) := by
  unfold switchTo
  split
  · trivial
  · exact setTask_calm (f := fun q => { q with status := .running }) (by simp)

theorem schedule_calm (s : Kernel) : Calmly s (schedule s) :=
  Calmly.ensure ((requeue_calm s).bind fun t => (wakeIdle_calm t).bind switchTo_calm)

/-- After blocking, the waiting threads are those of the state with the new status. -/
theorem threadBlock_calm (s : Kernel) (stat : TaskStatus) :
    Calmly (s.setStatus s.runningThread stat) (threadBlock s stat) :=
  Calmly.ensure ((schedule_calm _).after (Calm.of_status rfl))

theorem threadBlock_calm_of_ne (s : Kernel) {stat : TaskStatus} (h : stat ≠ .waiting) :
    Calmly s (threadBlock s stat) :=
  (threadBlock_calm s stat).after (setTask_calm h)

theorem threadYield_calm (s : Kernel) : Calmly s (threadYield s) := by
  refine Calmly.ensure ((schedule_calm _).after ?_)
  exact setTask_calm (f := fun q => { q with status := .ready }) (by simp)

theorem semaDown_calm (s : Kernel) (i : ℕ) : Calmly s (semaDown s i) := by
  refine outcome_ite (fun _ => Calmly.ensure ?_) (fun _ => Calmly.ensure (Calm.of_status rfl))
  exact (threadBlock_calm_of_ne _ (by simp)).after (Calm.of_status rfl)

theorem wakeWaiter_calm (s : Kernel) (i : ℕ) : Calmly s (wakeWaiter s i) := by
  unfold wakeWaiter
  split
  · exact Calm.refl s
  · exact (threadUnblock_calm _ _).after (Calm.of_status rfl)

theorem semaUp_calm (s : Kernel) (i : ℕ) : Calmly s (semaUp s i) :=
  Calmly.ensure ((wakeWaiter_calm s i).bind fun _ => Calmly.ensure (Calm.of_status rfl))

theorem ioqWait_calm (s : Kernel) (w : ℕ) : Calmly s (ioqWait s w) :=
  Calmly.ensure ((threadBlock_calm_of_ne _ (by simp)).after (Calm.of_status rfl))

theorem wakeup_calm (s : Kernel) (w : ℕ) : Calmly s (wakeup s w) := by
  unfold wakeup
  split
  · trivial
  · exact (threadUnblock_calm s _).bind fun _ => Calm.of_status rfl

theorem status_setTask (s : Kernel) (c : Tid) (f : TaskStruct → TaskStruct)
    (hf : ∀ p, (f p).status = p.status) : (s.setTask c f).status = s.status :=
  funext fun v => setTask_field TaskStruct.status hf c v

theorem intrTimerHandler_calm (s : Kernel) : Calmly s (intrTimerHandler s) := by
  have htick : (s.setTask s.runningThread
      (fun p => { p with elapsedTicks := p.elapsedTicks + 1 })).status = s.status :=
    status_setTask _ _ _ (fun _ => rfl)
  refine Calmly.ensure (outcome_ite (fun _ => (schedule_calm _).after (Calm.of_status htick))
    (fun _ => Calm.of_status ?_))
  exact (status_setTask _ _ (fun p => { p with ticks := p.ticks - 1 }) (fun _ => rfl)).trans htick

/-- The parent that `sys_exit` finds does not wait afterwards. -/
theorem sysExitHang_calm {parent : Tid}
    (hp : pid2thread s (s.task s.runningThread).parentPid = some parent) :
    Outcome (sysExitHang s) (fun t => Calm s t ∧ t.status parent ≠ .waiting)
      (fun _ => True) := by
  have hwake : Outcome (wakeParent s parent)
      (fun t => Calm s t ∧ t.status parent ≠ .waiting) (fun _ => True) := by
    refine outcome_ite (fun _ => ?_) (fun hw => ⟨Calm.refl s, hw⟩)
    refine outcome_ensure (fun _ => trivial) (fun _ => outcome_ite (fun _ => ?_) (fun hr => ?_))
    · refine outcome_ensure (fun _ => trivial) (fun _ => ⟨?_, ?_⟩)
      · exact setTask_calm (f := fun q => { q with status := .ready }) (by simp)
      · simp [Kernel.pushReady, Kernel.status, Kernel.setStatus, Kernel.setTask]
    · rw [not_not] at hr
      exact ⟨Calm.refl s, by rw [hr]; decide⟩
  rw [sysExitHang, hp]
  refine Outcome.bind hwake fun t ht => ?_
  refine (threadBlock_calm_of_ne t (by simp)).mono (fun v hv => ?_) (fun _ _ => trivial)
  exact ⟨ht.1.trans hv, fun hw => ht.2 (hv parent hw)⟩

/-- Where `sys_wait` sleeps, only the caller has come to wait, and no child of it hangs. -/
theorem sysWait_calm (s : Kernel) :
    Outcome (sysWait s) (fun r => r.2 = .blocked →
        (∀ v, r.1.status v = .waiting → v = s.runningThread ∨ s.status v = .waiting) ∧
        ∀ c ∈ s.threadAllList, (s.task c).parentPid = (s.task s.runningThread).pid →
          s.status c ≠ .hanging)
      (fun _ => True) := by
  cases hc : s.threadAllList.find? (findHangingChild s (s.task s.runningThread).pid) with
  | some c =>
    simp only [sysWait, hc, outcome_pure]
    intro h
    cases h
  | none =>
    have hnone := List.find?_eq_none.mp hc
    cases hn : s.threadAllList.find? (findChild s (s.task s.runningThread).pid) with
    | none =>
      simp only [sysWait, hc, hn, outcome_pure]
      intro h
      cases h
    | some c =>
      simp only [sysWait, hc, hn]
      refine Outcome.bind (threadBlock_calm s .waiting) fun t ht _ => ⟨fun v hv => ?_, ?_⟩
      · by_cases hvr : v = s.runningThread
        · exact .inl hvr
        · right
          simpa [Kernel.status, Kernel.setStatus, Kernel.setTask, hvr] using ht v hv
      · intro d hd hp hhang
        have hfound := hnone d hd
        simp [findHangingChild, hp, hhang] at hfound

/-- The kinds of steps, with the state each leads to. -/
inductive StepKind (s t : Kernel) : Event → Prop
  /-- The scheduler moves threads, or `sys_wait` finds no child. -/
  | quiet {e : Event} : e.Silent → s.Frame t → Calm s t → StepKind s t e
  /-- The caller of `sys_wait` goes to sleep. -/
  | slept : s.Frame t →
      (∀ v, t.status v = .waiting → v = s.runningThread ∨ s.status v = .waiting) →
      (∀ c ∈ s.threadAllList, (s.task c).parentPid = (s.task s.runningThread).pid →
        s.status c ≠ .hanging) → StepKind s t .quiet
  /-- An exiting process wakes its parent and hangs. -/
  | hung {parent : Tid} : s.point s.runningThread = .exiting →
      pid2thread s (s.task s.runningThread).parentPid = some parent →
      (s.setStatus s.runningThread .hanging).Frame t → Calm s t → t.status parent ≠ .waiting →
      StepKind s t .quiet
  | started {bit : ℕ} {thread : Tid} {name : List UInt8} {prio : UInt8} :
      s.PageFree thread → t = s.withStarted bit thread name prio → StepKind s t .quiet
  | copied {bit : ℕ} {child : Tid} : s.PageFree child → s.point s.runningThread = .user →
      t = s.withCopy bit child → StepKind s t .quiet
  | failed {child : Tid} : s.point s.runningThread = .fork child → t = s.setPoint .user →
      StepKind s t .quiet
  | forked {child : Tid} : s.point s.runningThread = .fork child → t = s.withChild child →
      StepKind s t (.forked (s.serial s.runningThread) (s.serial child))
  | exited {arg : Int32} : s.point s.runningThread = .user →
      (s.task s.runningThread).parentPid ≠ -1 → t = s.withExit arg →
      StepKind s t (.exited (s.serial s.runningThread) arg)
  | reaped {child : Tid} {pid : ℤ} {st : Int32} : child ∈ s.threadAllList →
      s.status child = .hanging → t = threadExit s child →
      StepKind s t (.reaped (s.serial s.runningThread) (s.serial child) pid st)

theorem Quiet.kind {r : Except Site Kernel} (hr : Quiet s r) (hcalm : Calmly s r) {e : Event}
    (h : quietly r = .ok (t, e)) : StepKind s t e := by
  cases r with
  | error site => simp [quietly] at h
  | ok v =>
    obtain ⟨rfl, rfl⟩ := Prod.mk.inj (Except.ok.inj h)
    exact .quiet (.inl rfl) hr.2 hcalm

/-- Every step is of one of the kinds, from the state with the interrupt flag it started
with. -/
theorem step_cases {tr : List Event} (h : Delivery tr s) {e : Event}
    (hstep : kernel.step s e t) : ∃ on, StepKind { s with intrOn := on } t e := by
  obtain ⟨on, a, ha, hperform⟩ := hstep
  have hsched (b : Bool) : Kernel.Scheduled { s with intrOn := b } :=
    ⟨h.scheduled.settled, h.scheduled.pending, h.scheduled.pending_unique⟩
  have hset (b : Bool) : ({ s with intrOn := b } : Kernel).queues.Settled := h.scheduled.settled
  cases a with
  | timer => exact ⟨false, (intrTimerHandler_quiet (hset false) rfl).kind
      (intrTimerHandler_calm _) hperform⟩
  | idle => exact ⟨on, (idle_quiet (hset on)).kind (threadBlock_calm_of_ne _ (by simp)) hperform⟩
  | threadYield => exact ⟨on, (threadYield_quiet (hset on)).kind (threadYield_calm _) hperform⟩
  | semaDown i => exact ⟨on, (semaDown_quiet (hset on) ha i).kind (semaDown_calm _ i) hperform⟩
  | semaUp i => exact ⟨on, (semaUp_quiet (hset on) i).kind (semaUp_calm _ i) hperform⟩
  | ioqWait w =>
    exact ⟨false, (ioqWait_quiet (hset false) ha w).kind (ioqWait_calm _ w) hperform⟩
  | wakeup w => exact ⟨false, (wakeup_quiet (hset false) w).kind (wakeup_calm _ w) hperform⟩
  | threadStart c name prio =>
    have hout := threadStart_outcome (hsched on) ha.2.2 name prio
    cases hr : threadStart { s with intrOn := on } c name prio with
    | error site => simp [perform, quietly, hr] at hperform
    | ok v =>
      obtain ⟨-, bit, -, hv⟩ := hout.of_ok hr
      simp only [perform, quietly, hr, ok_bind, pure_eq_ok, Except.ok.injEq, Prod.mk.injEq]
        at hperform
      obtain ⟨rfl, rfl⟩ := hperform
      exact ⟨on, .started ha.2.2 hv⟩
  | forkCopy c =>
    have hout := forkCopy_outcome (hsched false) ha.2.2
    cases hr : forkCopy { s with intrOn := false } c with
    | error site => simp [perform, quietly, hr] at hperform
    | ok v =>
      obtain ⟨-, bit, -, hv⟩ := hout.of_ok hr
      simp only [perform, quietly, hr, ok_bind, pure_eq_ok, Except.ok.injEq, Prod.mk.injEq]
        at hperform
      obtain ⟨rfl, rfl⟩ := hperform
      exact ⟨false, .copied ha.2.2 ha.2.1 hv⟩
  | forkFinish ok =>
    obtain ⟨-, c, hc⟩ := ha
    have hout := forkFinish_outcome (hsched false) ok hc
    simp only [perform, performFinish, hc] at hperform
    cases hr : forkFinish { s with intrOn := false } c ok with
    | error site => simp [hr] at hperform
    | ok v =>
      obtain ⟨-, hv⟩ := hout.of_ok hr
      simp only [hr, ok_bind, pure_eq_ok, Except.ok.injEq, Prod.mk.injEq] at hperform
      obtain ⟨rfl, rfl⟩ := hperform
      cases ok with
      | false => exact ⟨false, .failed hc hv⟩
      | true => exact ⟨false, .forked hc hv⟩
  | exit status =>
    have hout := sysExit_outcome (hsched false) status
    cases hr : sysExit { s with intrOn := false } status with
    | error site => simp [perform, hr] at hperform
    | ok v =>
      obtain ⟨-, hp, hv⟩ := hout.of_ok hr
      simp only [perform, hr, ok_bind, pure_eq_ok, Except.ok.injEq, Prod.mk.injEq] at hperform
      obtain ⟨rfl, rfl⟩ := hperform
      exact ⟨false, .exited ha.2 hp hv⟩
  | exitHang =>
    have hout := sysExitHang_outcome (hset false) ha.1
    cases hr : sysExitHang { s with intrOn := false } with
    | error site => simp [perform, quietly, hr] at hperform
    | ok v =>
      simp only [perform, quietly, hr, ok_bind, pure_eq_ok, Except.ok.injEq, Prod.mk.injEq]
        at hperform
      obtain ⟨rfl, rfl⟩ := hperform
      cases hp : pid2thread { s with intrOn := false } (s.task s.runningThread).parentPid with
      | none => simp [sysExitHang, hp] at hr
      | some parent =>
        obtain ⟨hcalm, hawake⟩ := (sysExitHang_calm hp).of_ok hr
        exact ⟨false, .hung ha.2 hp (hout.of_ok hr).2 hcalm hawake⟩
  | wait =>
    have hout := sysWait_outcome (hset false) ha.1
    have hcalm := sysWait_calm { s with intrOn := false }
    simp only [perform, performWait] at hperform
    cases hr : sysWait { s with intrOn := false } with
    | error site => simp [hr] at hperform
    | ok r =>
      obtain ⟨v, pass⟩ := r
      rw [hr, ok_bind] at hperform
      obtain ⟨c, hmem, -, hhang, hv⟩ | ⟨hv, -⟩ | ⟨hb, -, hf⟩ := hout.of_ok hr
      · obtain ⟨rfl, rfl⟩ := Prod.mk.inj hv
        obtain ⟨rfl, rfl⟩ := Prod.mk.inj (Except.ok.inj hperform)
        exact ⟨false, .reaped hmem hhang rfl⟩
      · obtain ⟨rfl, rfl⟩ := Prod.mk.inj hv
        obtain ⟨rfl, rfl⟩ := Prod.mk.inj (Except.ok.inj hperform)
        exact ⟨false, .quiet (.inr ⟨_, rfl⟩) (Kernel.Frame.refl _) (Calm.refl _)⟩
      · obtain rfl : pass = .blocked := hb
        obtain ⟨rfl, rfl⟩ := Prod.mk.inj (Except.ok.inj hperform)
        obtain ⟨hwait, hnone⟩ := hcalm.of_ok hr rfl
        exact ⟨false, .slept hf hwait hnone⟩

end X86System.Thread
