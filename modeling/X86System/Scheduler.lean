import X86System.Queues

/-!
# The scheduler's primitives

Each primitive and each of its callers in the synchronization code is shown to
keep the queues settled, to stay inside a frame that leaves the processes as they
are, and never to trip one of the scheduler's own assertions.
-/
namespace X86System.Thread
open Exec

variable {s t : Kernel}

/-- What the scheduler leaves alone: of a thread it changes only the status and the
accounting, and it hangs nobody. -/
structure Kernel.Frame (s t : Kernel) : Prop where
  all : t.threadAllList = s.threadAllList
  task : ∀ u, t.task u = { s.task u with
    status := (t.task u).status
    ticks := (t.task u).ticks
    elapsedTicks := (t.task u).elapsedTicks }
  hanging : ∀ u, t.status u = .hanging → s.status u = .hanging
  outside : ∀ u, u ∉ s.threadAllList → t.task u = s.task u
  point : t.point = s.point
  pidBitmap : t.pidBitmap = s.pidBitmap
  created : t.created = s.created
  idleThread : t.idleThread = s.idleThread
  mainThread : t.mainThread = s.mainThread

theorem Kernel.Frame.refl (s : Kernel) : s.Frame s :=
  ⟨rfl, fun _ => rfl, fun _ h => h, fun _ _ => rfl, rfl, rfl, rfl, rfl, rfl⟩

theorem Kernel.Frame.trans {u : Kernel} (h : s.Frame t) (h' : t.Frame u) : s.Frame u where
  all := h'.all.trans h.all
  task v := by
    rw [h'.task v, h.task v]
  hanging v hv := h.hanging v (h'.hanging v hv)
  outside v hv := (h'.outside v (by rwa [h.all])).trans (h.outside v hv)
  point := h'.point.trans h.point
  pidBitmap := h'.pidBitmap.trans h.pidBitmap
  created := h'.created.trans h.created
  idleThread := h'.idleThread.trans h.idleThread
  mainThread := h'.mainThread.trans h.mainThread

/-- Changing the status or the accounting of one thread, and any list but the list of
all threads, stays inside the frame. -/
theorem Kernel.Frame.setTask {s : Kernel} {c : Tid} {f : TaskStruct → TaskStruct}
    (hmem : c ∈ s.threadAllList) (hf : ∀ p, f p = { p with
      status := (f p).status, ticks := (f p).ticks, elapsedTicks := (f p).elapsedTicks })
    (hstat : (f (s.task c)).status = .hanging → s.status c = .hanging) :
    s.Frame (s.setTask c f) := by
  refine ⟨rfl, ?_, ?_, ?_, rfl, rfl, rfl, rfl, rfl⟩
  · intro u
    by_cases hu : u = c
    · subst hu
      simpa [Kernel.setTask] using hf (s.task u)
    · simp [Kernel.setTask, hu]
  · intro u
    by_cases hu : u = c
    · subst hu
      simpa [Kernel.status, Kernel.setTask] using hstat
    · simp [Kernel.status, Kernel.setTask, hu]
  · intro u hu
    have hne : u ≠ c := fun he => hu (he ▸ hmem)
    simp [Kernel.setTask, hne]

theorem Kernel.Frame.lists {s : Kernel} (h : s.Frame t) (ready : List Tid) (c : Tid) (on : Bool)
    (sema : ℕ → Semaphore) (waiter : ℕ → Option Tid) (ticks : UInt32) :
    s.Frame { t with threadReadyList := ready, runningThread := c, intrOn := on, sema := sema
                     waiter := waiter, ticks := ticks } :=
  ⟨h.all, h.task, h.hanging, h.outside, h.point, h.pidBitmap, h.created, h.idleThread, h.mainThread⟩

@[simp] theorem queues_setTask (s : Kernel) (c : Tid) (f : TaskStruct → TaskStruct) :
    (s.setTask c f).queues = s.queues.setStatus c (f (s.task c)).status := by
  simp only [Kernel.queues, Kernel.setTask, Queues.setStatus, Queues.mk.injEq, true_and, and_true]
  funext u
  by_cases hu : u = c
  · subst hu
    simp [Kernel.status]
  · simp [Kernel.status, hu]

/-- The status of one thread, the ready list and the processor change together. -/
theorem queues_move (s : Kernel) (c : Tid) (f : TaskStruct → TaskStruct) (ready : List Tid)
    (cur : Tid) :
    ({ s.setTask c f with threadReadyList := ready, runningThread := cur } : Kernel).queues =
      { s.queues.setStatus c (f (s.task c)).status with ready := ready, current := cur } :=
  congrArg (fun q : Queues => { q with ready := ready, current := cur }) (queues_setTask s c f)

@[simp] theorem queues_setSema (s : Kernel) (i : ℕ) (x : Semaphore) :
    (s.setSema i x).queues = s.queues.park (.inl i) x.waiters := by
  simp only [Kernel.queues, Kernel.setSema, Queues.park, Queues.mk.injEq, true_and]
  refine ⟨rfl, funext fun y => ?_⟩
  cases y with
  | inl j => by_cases hj : j = i <;> simp [hj]
  | inr w => simp

@[simp] theorem queues_setWaiter (s : Kernel) (w : ℕ) (x : Option Tid) :
    (s.setWaiter w x).queues = s.queues.park (.inr w) x.toList := by
  simp only [Kernel.queues, Kernel.setWaiter, Queues.park, Queues.mk.injEq, true_and]
  refine ⟨rfl, funext fun y => ?_⟩
  cases y with
  | inl i => simp
  | inr v => by_cases hv : v = w <;> simp [hv]

/-- A thread that sleeps and is parked nowhere can be unblocked. -/
theorem threadUnblock_spec (h : s.queues.Sound) {p : Tid} (hp : p ∈ s.threadAllList)
    (hstat : s.status p = .blocked ∨ s.status p = .waiting)
    (hpark : ∀ x, p ∉ s.queues.parked x) :
    ∃ t, threadUnblock s p = .ok t ∧ t.queues.Sound ∧ s.Frame t ∧ t.threadReadyList ≠ [] ∧
      t.runningThread = s.runningThread ∧ t.status p = .ready ∧
      ∀ u, u ≠ p → t.status u = s.status u := by
  have hready : s.status p ≠ .ready := by rcases hstat with h | h <;> simp [h]
  have hhang : s.status p = .blocked ∨ s.status p = .waiting ∨ s.status p = .hanging := by
    rcases hstat with h | h <;> simp [h]
  have hmem : p ∉ s.threadReadyList := h.not_ready hready
  refine ⟨s.pushReady p, by simp [threadUnblock, hhang, hready, hmem], ?_, ?_, ?_, rfl, ?_, ?_⟩
  · have hw := h.wake hp hready hpark
    have hq := queues_move s p (fun q => { q with status := .ready })
      (p :: s.threadReadyList) s.runningThread
    exact hq ▸ hw
  · exact (Kernel.Frame.setTask hp (fun _ => rfl) (by simp)).lists _ _ _ _ _ _
  · simp [Kernel.pushReady]
  · simp [Kernel.status, Kernel.pushReady, Kernel.setStatus, Kernel.setTask]
  · intro u hu
    simp [Kernel.status, Kernel.pushReady, Kernel.setStatus, Kernel.setTask, hu]

theorem requeue_spec (h : s.queues.Sound) :
    ∃ t, requeue s = .ok t ∧ t.queues.Sound ∧ s.Frame t ∧
      t.status t.runningThread ≠ .running := by
  by_cases hrun : s.status s.runningThread = .running
  · have hmem : s.runningThread ∉ s.threadReadyList := h.not_ready (by simp [Kernel.queues, hrun])
    refine ⟨_, by simp only [requeue, if_pos hrun, ensure_of hmem]; rfl, ?_, ?_, ?_⟩
    · have hw := Queues.Settled.requeue ⟨h, hrun⟩
      have hq := queues_move s s.runningThread
        (fun p => { p with ticks := p.priority, status := .ready })
        (s.threadReadyList ++ [s.runningThread]) s.runningThread
      exact hq ▸ hw
    · exact (Kernel.Frame.setTask h.current_mem (fun _ => rfl) (by simp)).lists _ _ _ _ _ _
    · simp [Kernel.status, Kernel.setTask]
  · exact ⟨s, by simp only [requeue, if_neg hrun]; rfl, h, Kernel.Frame.refl s, hrun⟩

/-- With nobody running and no thread ready, the idle thread is blocked. -/
theorem idle_blocked (h : s.queues.Sound) (hnone : s.status s.runningThread ≠ .running)
    (hempty : s.threadReadyList = []) : s.status s.idleThread = .blocked := by
  rcases h.idle_status with hi | hi | hi
  · have hcur : s.idleThread = s.runningThread := h.running_current _ h.idle_mem hi
    exact absurd (hcur ▸ hi) hnone
  · have := (h.mem_ready _).mpr ⟨h.idle_mem, hi⟩
    simp [Kernel.queues, hempty] at this
  · exact hi

theorem wakeIdle_spec (h : s.queues.Sound) (hnone : s.status s.runningThread ≠ .running) :
    ∃ t, wakeIdle s = .ok t ∧ t.queues.Sound ∧ s.Frame t ∧
      t.status t.runningThread ≠ .running ∧ t.threadReadyList ≠ [] := by
  by_cases hempty : s.threadReadyList = []
  · have hidle := idle_blocked h hnone hempty
    obtain ⟨t, he, hs, hf, hne, hcur, hready, hsame⟩ := threadUnblock_spec h h.idle_mem
      (Or.inl hidle) (fun x hx => (h.parked_blocked x _ hx).2.2 rfl)
    refine ⟨t, by rw [wakeIdle, if_pos hempty]; exact he, hs, hf, ?_, hne⟩
    rw [hcur]
    by_cases hc : s.runningThread = s.queues.idle
    · rw [hc, hready]
      simp
    · rwa [hsame _ hc]
  · exact ⟨s, by rw [wakeIdle, if_neg hempty]; rfl, h, Kernel.Frame.refl _, hnone, hempty⟩

/-- `schedule` never trips an assertion, and leaves one thread running. -/
theorem schedule_spec (h : s.queues.Sound) (hintr : s.intrOn = false) :
    ∃ t, schedule s = .ok t ∧ t.queues.Settled ∧ s.Frame t := by
  obtain ⟨s₁, he₁, h₁, hf₁, hnone₁⟩ := requeue_spec h
  obtain ⟨s₂, he₂, h₂, hf₂, hnone₂, hne⟩ := wakeIdle_spec h₁ hnone₁
  cases hlist : s₂.threadReadyList with
  | nil => exact absurd hlist hne
  | cons next rest =>
    have hnext : next ∈ s₂.threadAllList := ((h₂.mem_ready next).mp (by
      simp [Kernel.queues, hlist])).1
    have hf₃ : s₂.Frame (s₂.setStatus next .running) :=
      Kernel.Frame.setTask hnext (fun _ => rfl) (by simp)
    refine ⟨_, ?_, ?_, (hf₁.trans hf₂).trans (hf₃.lists rest next s₂.intrOn s₂.sema s₂.waiter
      s₂.ticks)⟩
    · simp only [schedule, ensure_of hintr, ok_bind, he₁, he₂]
      rw [switchTo, hlist]
      rfl
    · have hd := h₂.dispatch hlist hnone₂
      have hq := queues_move s₂ next (fun p => { p with status := .running }) rest next
      exact hq ▸ hd

/-- Blocking succeeds wherever the queues stay sound with the current thread asleep. -/
theorem threadBlock_spec (stat : TaskStatus)
    (hstat : stat = .blocked ∨ stat = .waiting ∨ stat = .hanging)
    (h : (s.queues.setStatus s.runningThread stat).Sound) :
    ∃ t, threadBlock s stat = .ok t ∧ t.queues.Settled ∧
      (s.setStatus s.runningThread stat).Frame t := by
  have hq : ({ s with intrOn := false }.setStatus s.runningThread stat).queues.Sound := by
    rw [Kernel.setStatus, queues_setTask]
    exact h
  obtain ⟨t, he, hs, hf⟩ := schedule_spec hq rfl
  refine ⟨t, by simpa only [threadBlock, ensure_of hstat, ok_bind] using he, hs, ?_⟩
  exact ⟨hf.all, hf.task, hf.hanging, hf.outside, hf.point, hf.pidBitmap, hf.created, hf.idleThread,
    hf.mainThread⟩

/-- The assertions of these functions are the scheduler's own. -/
def schedulerSites : List Site := [.schedule, .threadBlock, .threadUnblock, .threadYield]

/-- An action of the scheduler keeps the queues settled and the processes as they are;
if it stops, then not in the scheduler. -/
def Quiet (s : Kernel) (r : Except Site Kernel) : Prop :=
  Outcome r (fun t => t.queues.Settled ∧ s.Frame t) (fun e => e ∉ schedulerSites)

/-- The running thread blocks in a place where it waits to be woken. -/
theorem block_spec (h : s.queues.Settled) (hidle : s.runningThread ≠ s.idleThread)
    (x : ℕ ⊕ ℕ) {u : Kernel} (hrun : u.runningThread = s.runningThread)
    (hq : u.queues = s.queues.park x (s.queues.parked x ++ [s.runningThread]))
    (hf : s.Frame u) :
    ∃ t, threadBlock u .blocked = .ok t ∧ t.queues.Settled ∧ s.Frame t := by
  have hcur : s.queues.status s.queues.current = .running := h.current_running
  have hsleep := h.sleep .blocked (Or.inl rfl) (fun _ => rfl)
  have hpark : ∀ y, s.runningThread ∉ s.queues.parked y :=
    h.not_parked (t := s.queues.current) (by simp [hcur])
  have henter := hsleep.enter (t := s.runningThread) x h.current_mem
    (by simp [Queues.setStatus, Kernel.queues]) hidle hpark
  have hsound : (u.queues.setStatus u.runningThread .blocked).Sound := by
    rw [hq, hrun]
    exact henter
  obtain ⟨t, he, hs, hft⟩ := threadBlock_spec .blocked (Or.inl rfl) hsound
  have hmem : u.runningThread ∈ u.threadAllList := by
    rw [hrun, hf.all]
    exact h.current_mem
  exact ⟨t, he, hs, (hf.trans (Kernel.Frame.setTask hmem (fun _ => rfl) (by simp))).trans hft⟩

theorem Quiet.of_spec {r : Except Site Kernel} (h : ∃ t, r = .ok t ∧ t.queues.Settled ∧ s.Frame t) :
    Quiet s r := by
  obtain ⟨t, rfl, hs, hf⟩ := h
  exact ⟨hs, hf⟩

theorem idle_quiet (h : s.queues.Settled) : Quiet s (threadBlock s .blocked) := by
  obtain ⟨t, he, hs, hf⟩ := threadBlock_spec (s := s) .blocked (Or.inl rfl)
    (h.sleep .blocked (Or.inl rfl) (fun _ => rfl))
  rw [Quiet, he]
  exact ⟨hs, (Kernel.Frame.setTask h.current_mem (fun _ => rfl) (by simp)).trans hf⟩

theorem threadYield_quiet (h : s.queues.Settled) : Quiet s (threadYield s) := by
  have hcur : s.queues.status s.queues.current = .running := h.current_running
  have hmem : s.runningThread ∉ s.threadReadyList :=
    h.not_ready (t := s.queues.current) (by simp [hcur])
  have hq := queues_move s s.runningThread (fun p => { p with status := .ready })
    (s.threadReadyList ++ [s.runningThread]) s.runningThread
  obtain ⟨t, he, hs, hf⟩ := schedule_spec (s := { s.setStatus s.runningThread .ready with
    intrOn := false, threadReadyList := s.threadReadyList ++ [s.runningThread] })
    (hq ▸ h.requeue) rfl
  have hframe : s.Frame (s.setStatus s.runningThread .ready) :=
    Kernel.Frame.setTask h.current_mem (fun _ => rfl) (by simp)
  simp only [Quiet, threadYield, ensure_of hmem, ok_bind, he]
  exact ⟨hs, (hframe.lists _ _ _ _ _ _).trans hf⟩

/-- Changing the value of a semaphore moves nobody. -/
theorem setValue_settled (h : s.queues.Settled) (i : ℕ) (v : UInt8) :
    (s.setSema i { s.sema i with value := v }).queues.Settled := by
  rw [queues_setSema]
  simpa [Queues.park, Kernel.queues] using h

theorem semaDown_quiet (h : s.queues.Settled) (hidle : s.runningThread ≠ s.idleThread) (i : ℕ) :
    Quiet s (semaDown s i) := by
  refine outcome_ite (fun _ => ?_) (fun _ => ?_)
  · refine outcome_ensure (fun _ => by decide) (fun _ => ?_)
    exact Quiet.of_spec (block_spec h hidle (.inl i) rfl (queues_setSema _ _ _)
      ((Kernel.Frame.refl s).lists _ _ _ _ _ _))
  · refine outcome_ensure (fun _ => by decide) (fun _ => ?_)
    exact ⟨setValue_settled h i _, (Kernel.Frame.refl s).lists _ _ _ _ _ _⟩

theorem ioqWait_quiet (h : s.queues.Settled) (hidle : s.runningThread ≠ s.idleThread) (w : ℕ) :
    Quiet s (ioqWait s w) := by
  refine outcome_ensure (fun _ => by decide) (fun hnone => ?_)
  refine Quiet.of_spec (block_spec h hidle (.inr w) rfl ?_
    ((Kernel.Frame.refl s).lists _ _ _ _ _ _))
  rw [queues_setWaiter]
  simp [Kernel.queues, hnone]

/-- Waking a thread after it left the place where it was parked. -/
theorem unpark_spec (h : s.queues.Settled) {x : ℕ ⊕ ℕ} {p : Tid} {l : List Tid}
    (hx : s.queues.parked x = p :: l) {s' : Kernel}
    (hq : s'.queues = s.queues.park x l) (hf : s.Frame s') :
    ∃ t, threadUnblock s' p = .ok t ∧ t.queues.Settled ∧ s.Frame t := by
  have hp := h.parked_blocked x p (by simp [hx])
  have hnodup := h.parked_nodup x
  rw [hx, List.nodup_cons] at hnodup
  have hleave : s'.queues.Sound := by
    rw [hq]
    exact h.toSound.leave x (by rw [hx]; exact List.sublist_cons_self _ _)
  have hpark : ∀ y, p ∉ s'.queues.parked y := by
    intro y hy
    rw [hq] at hy
    by_cases hyx : y = x
    · subst hyx
      exact hnodup.1 (by simpa [Queues.park] using hy)
    · have hy' : p ∈ s.queues.parked y := by simpa [Queues.park, hyx] using hy
      exact hyx (h.parked_unique y x p hy' (by simp [hx]))
  have hstat : s'.status p = .blocked := by
    have : s'.queues.status p = s.queues.status p := by rw [hq]; rfl
    exact this.trans hp.2.1
  have hmem : p ∈ s'.threadAllList := by
    have : s'.threadAllList = s.threadAllList := congrArg Queues.all hq
    exact this ▸ hp.1
  obtain ⟨t, he, hs, hft, -, hcur, -, hsame⟩ := threadUnblock_spec hleave hmem (Or.inl hstat) hpark
  refine ⟨t, he, ⟨hs, ?_⟩, hf.trans hft⟩
  have hcur' : s'.runningThread = s.runningThread := by
    have : s'.queues.current = s.queues.current := by rw [hq]; rfl
    exact this
  have hrun : s'.status s.runningThread = .running := by
    have : s'.queues.status = s.queues.status := by rw [hq]; rfl
    exact (congrFun this _).trans h.current_running
  have hne : s.runningThread ≠ p := by
    rintro rfl
    simp [hstat] at hrun
  change t.status t.runningThread = .running
  rw [hcur, hcur', hsame _ hne, hrun]

theorem wakeWaiter_spec (h : s.queues.Settled) (i : ℕ) :
    ∃ t, wakeWaiter s i = .ok t ∧ t.queues.Settled ∧ s.Frame t := by
  cases hw : (s.sema i).waiters with
  | nil => exact ⟨s, by simp only [wakeWaiter, hw]; rfl, h, Kernel.Frame.refl s⟩
  | cons p rest =>
    obtain ⟨t, he, hs, hf⟩ := unpark_spec h (x := .inl i) hw
      (queues_setSema s i { s.sema i with waiters := rest })
      ((Kernel.Frame.refl s).lists _ _ _ _ _ _)
    exact ⟨t, by simp only [wakeWaiter, hw, he], hs, hf⟩

theorem semaUp_quiet (h : s.queues.Settled) (i : ℕ) : Quiet s (semaUp s i) := by
  refine outcome_ensure (fun _ => by decide) (fun _ => ?_)
  refine Outcome.bind (Quiet.of_spec (wakeWaiter_spec h i)) (fun t ht => ?_)
  refine outcome_ensure (fun _ => by decide) (fun _ => ?_)
  exact ⟨setValue_settled ht.1 i _, ht.2.lists _ _ _ _ _ _⟩

theorem threadUnblock_setWaiter (p : Tid) (w : ℕ) (x : Option Tid) :
    threadUnblock (s.setWaiter w x) p =
      threadUnblock s p >>= fun t => pure (t.setWaiter w x) := by
  have hstat : (s.setWaiter w x).status p = s.status p := rfl
  have hlist : (s.setWaiter w x).threadReadyList = s.threadReadyList := rfl
  simp only [threadUnblock, hstat, hlist]
  by_cases h : s.status p = .blocked ∨ s.status p = .waiting ∨ s.status p = .hanging
  · by_cases hready : s.status p = .ready
    · simp [hready]
    · by_cases hmem : p ∈ s.threadReadyList
      · simp [h, hready, hmem]
      · simp [h, hready, hmem]
        rfl
  · simp [h]

theorem wakeup_quiet (h : s.queues.Settled) (w : ℕ) : Quiet s (wakeup s w) := by
  cases hw : s.waiter w with
  | none =>
    simp only [Quiet, wakeup, hw, outcome_error]
    decide
  | some p =>
    obtain ⟨t, he, hs, hf⟩ := unpark_spec h (x := .inr w) (p := p) (l := [])
      (by simp [Kernel.queues, hw]) (queues_setWaiter s w none)
      ((Kernel.Frame.refl s).lists _ _ _ _ _ _)
    have he' : wakeup s w = .ok t := by
      rw [threadUnblock_setWaiter] at he
      rw [wakeup, hw]
      exact he
    rw [Quiet, he']
    exact ⟨hs, hf⟩

theorem queues_account (s : Kernel) (c : Tid) (f : TaskStruct → TaskStruct)
    (hf : (f (s.task c)).status = s.status c) : (s.setTask c f).queues = s.queues := by
  rw [queues_setTask, hf]
  exact congrArg (fun st => { s.queues with status := st }) (Function.update_eq_self c s.status)

theorem intrTimerHandler_quiet (h : s.queues.Settled) (hintr : s.intrOn = false) :
    Quiet s (intrTimerHandler s) := by
  refine outcome_ensure (fun _ => by decide) (fun _ => ?_)
  set s₁ := s.setTask s.runningThread (fun p => { p with elapsedTicks := p.elapsedTicks + 1 })
    with hs₁
  have hf : s.Frame s₁ := Kernel.Frame.setTask h.current_mem (fun _ => rfl) (fun h => h)
  have hq : s₁.queues = s.queues := queues_account _ _ _ rfl
  have hf₂ : s.Frame { s₁ with ticks := s₁.ticks + 1 } := hf.lists _ _ _ _ _ _
  have hq₂ : ({ s₁ with ticks := s₁.ticks + 1 } : Kernel).queues = s.queues := hq
  refine outcome_ite (fun _ => ?_) (fun _ => ?_)
  · obtain ⟨t, he, hs, hft⟩ := schedule_spec
      (s := { s₁ with ticks := s₁.ticks + 1 }) (hq₂ ▸ h.toSound) hintr
    rw [he]
    exact ⟨hs, hf₂.trans hft⟩
  · refine ⟨?_, hf₂.trans (Kernel.Frame.setTask h.current_mem (fun _ => rfl) (fun h => h))⟩
    rw [queues_account _ _ _ rfl, hq₂]
    exact h

end X86System.Thread
