import X86System.SchedulerRuns
import Mathlib.Algebra.Order.BigOperators.Group.Finset

/-!
# How long a ready thread waits

A woken thread goes to the head of the ready list, so a waiting thread can be overtaken
any number of times. Its waiting time is bounded all the same: a time slice is refilled only
where the timer handler puts the thread behind all that are ready, so each thread in front
takes no more timer interrupts than its slice has left, and one.
-/
namespace X86System.Thread
open Exec Transition

variable {s t : Kernel} {u v : Tid}

/-- The steps of the kernel, labelled with the actions. -/
def dispatcher : System Kernel Action where
  start := Booted
  step s a t := a.Enabled s ∧ ∃ on e, perform { s with intrOn := on } a = .ok (t, e)

theorem dispatcher_reachable (h : dispatcher.Reachable s) : kernel.Reachable s := by
  obtain ⟨s₀, l, hs₀, hrun⟩ := h
  induction hrun with
  | nil => exact ⟨s₀, [], hs₀, .nil⟩
  | snoc _ hstep ih =>
    obtain ⟨hen, on, e, hperform⟩ := hstep
    exact ih.step ⟨on, _, hen, hperform⟩

section Line

/-- The threads behind the first `u` of a list. -/
def behind (u : Tid) (l : List Tid) : List Tid := (l.dropWhile (· ≠ u)).tail

theorem behind_cons_of_ne {l : List Tid} (h : v ≠ u) : behind u (v :: l) = behind u l := by
  simp [behind, h]

theorem behind_append {l : List Tid} (h : u ∈ l) (m : List Tid) :
    behind u (l ++ m) = behind u l ++ m := by
  induction l with
  | nil => simp at h
  | cons v l ih =>
    by_cases hv : v = u
    · simp [behind, hv]
    · have hmem : u ∈ l := (List.mem_cons.mp h).resolve_left (Ne.symm hv)
      rw [List.cons_append, behind_cons_of_ne hv, behind_cons_of_ne hv, ih hmem]

/-- The threads that may get the processor before `u`, which is ready. -/
def Kernel.contenders (s : Kernel) (u : Tid) : Finset Tid :=
  s.threadAllList.toFinset.filter fun v => v ≠ u ∧ v ∉ behind u s.threadReadyList

/-- The timer interrupts that these threads can take before they are behind `u`. -/
def Kernel.slicesAhead (s : Kernel) (u : Tid) : ℕ :=
  ∑ v ∈ s.contenders u, ((s.task v).ticks.toNat + 1)

theorem mem_contenders : v ∈ s.contenders u ↔
    v ∈ s.threadAllList ∧ v ≠ u ∧ v ∉ behind u s.threadReadyList := by
  simp [Kernel.contenders]

/-- `u` stays ready, nobody gets in front of it anew, and no slice in front of it is refilled. -/
structure StillReady (u : Tid) (s t : Kernel) : Prop where
  mem : u ∈ t.threadReadyList
  contenders : t.contenders u ⊆ s.contenders u
  ticks : ∀ v ∈ t.contenders u, (t.task v).ticks.toNat ≤ (s.task v).ticks.toNat

theorem StillReady.refl (h : u ∈ s.threadReadyList) : StillReady u s s :=
  ⟨h, fun _ hv => hv, fun _ _ => le_rfl⟩

theorem StillReady.trans {r : Kernel} (h : StillReady u s t) (h' : StillReady u t r) :
    StillReady u s r where
  mem := h'.mem
  contenders := h'.contenders.trans h.contenders
  ticks v hv := (h'.ticks v hv).trans (h.ticks v (h'.contenders hv))

theorem StillReady.slices_le (h : StillReady u s t) : t.slicesAhead u ≤ s.slicesAhead u :=
  calc t.slicesAhead u ≤ ∑ v ∈ t.contenders u, ((s.task v).ticks.toNat + 1) :=
        Finset.sum_le_sum fun v hv => Nat.succ_le_succ (h.ticks v hv)
    _ ≤ s.slicesAhead u := Finset.sum_le_sum_of_subset h.contenders

/-- A thread in front of `u` used up an interrupt, or went behind it. -/
theorem StillReady.slices_lt (h : StillReady u s t) (hv : v ∈ s.contenders u)
    (hused : v ∈ t.contenders u → (t.task v).ticks.toNat + 1 ≤ (s.task v).ticks.toNat) :
    t.slicesAhead u + 1 ≤ s.slicesAhead u := by
  rw [Nat.add_one_le_iff]
  by_cases hstays : v ∈ t.contenders u
  · refine lt_of_lt_of_le (Finset.sum_lt_sum (fun w hw => Nat.succ_le_succ (h.ticks w hw))
      ⟨v, hstays, Nat.succ_lt_succ (hused hstays)⟩) ?_
    exact Finset.sum_le_sum_of_subset h.contenders
  · refine lt_of_le_of_lt (Finset.sum_le_sum fun w hw => Nat.succ_le_succ (h.ticks w hw)) ?_
    exact Finset.sum_lt_sum_of_subset h.contenders hv hstays (Nat.succ_pos _)
      fun w _ _ => Nat.zero_le _

end Line

section Primitives

@[simp] theorem ticks_setStatus (s : Kernel) (c : Tid) (stat : TaskStatus) (v : Tid) :
    ((s.setStatus c stat).task v).ticks = (s.task v).ticks := by
  by_cases hv : v = c
  · subst hv
    simp [Kernel.setStatus, Kernel.setTask]
  · simp [Kernel.setStatus, Kernel.setTask, hv]

/-- New threads go behind `u`, and nobody gets more time. -/
theorem stillReady_append (hu : u ∈ s.threadReadyList) {l : List Tid}
    (hready : t.threadReadyList = s.threadReadyList ++ l)
    (hall : ∀ v ∈ t.threadAllList, v ∉ l → v ∈ s.threadAllList)
    (hticks : ∀ v ∈ t.threadAllList, v ∉ l → (t.task v).ticks = (s.task v).ticks) :
    StillReady u s t := by
  have hold : ∀ v ∈ t.contenders u, v ∉ l ∧ v ∉ behind u s.threadReadyList := by
    intro v hv
    have hbehind := (mem_contenders.mp hv).2.2
    rw [hready, behind_append hu, List.mem_append, not_or] at hbehind
    exact hbehind.symm
  constructor
  · rw [hready]
    exact List.mem_append_left l hu
  · intro v hv
    obtain ⟨hmem, hne, -⟩ := mem_contenders.mp hv
    exact mem_contenders.mpr ⟨hall v hmem (hold v hv).1, hne, (hold v hv).2⟩
  · intro v hv
    rw [hticks v (mem_contenders.mp hv).1 (hold v hv).1]

/-- A woken thread goes in front, where it was counted already. -/
theorem threadUnblock_still (hu : u ∈ s.threadReadyList) {p : Tid}
    (h : threadUnblock s p = .ok t) : StillReady u s t ∧ t.runningThread = s.runningThread := by
  obtain ⟨-, h⟩ := of_ensure_eq_ok h
  split_ifs at h with hready
  · obtain ⟨hp, h⟩ := of_ensure_eq_ok h
    obtain rfl : s.pushReady p = t := Except.ok.inj h
    have hne : p ≠ u := fun he => hp (he ▸ hu)
    have hbehind : behind u (s.pushReady p).threadReadyList = behind u s.threadReadyList :=
      behind_cons_of_ne hne
    refine ⟨⟨List.mem_cons_of_mem p hu, fun v hv => ?_, fun v _ => ?_⟩, rfl⟩
    · rw [mem_contenders, hbehind] at hv
      exact mem_contenders.mpr hv
    · exact le_of_eq (congrArg UInt8.toNat (ticks_setStatus s p .ready v))
  · obtain rfl := Except.ok.inj h
    exact ⟨.refl hu, rfl⟩

/-- A thread that was running is behind all that were ready. -/
theorem requeue_still (hu : u ∈ s.threadReadyList) (h : requeue s = .ok t) :
    StillReady u s t ∧ (s.status s.runningThread = .running →
      s.runningThread ∈ behind u t.threadReadyList) := by
  unfold requeue at h
  dsimp only at h
  split_ifs at h with hrun
  · obtain ⟨-, h⟩ := of_ensure_eq_ok h
    obtain rfl := Except.ok.inj h
    constructor
    · refine stillReady_append hu (l := [s.runningThread]) rfl (fun v hv _ => hv) fun v _ hv => ?_
      have hne : v ≠ s.runningThread := by simpa using hv
      simp [Kernel.setTask, hne]
    · intro _
      change _ ∈ behind u (s.threadReadyList ++ [s.runningThread])
      rw [behind_append hu]
      simp
  · obtain rfl := Except.ok.inj h
    exact ⟨.refl hu, fun hcur => absurd hcur hrun⟩

/-- The head of the ready list gets the processor: either `u`, or a thread in front of it. -/
theorem switchTo_still (hu : u ∈ s.threadReadyList) (h : switchTo s = .ok t)
    (hwait : t.runningThread ≠ u) :
    StillReady u s t ∧ behind u t.threadReadyList = behind u s.threadReadyList := by
  unfold switchTo at h
  cases hlist : s.threadReadyList with
  | nil => simp [hlist] at hu
  | cons next rest =>
    rw [hlist] at h
    obtain rfl := Except.ok.inj h
    have hmem : u ∈ rest := by
      rw [hlist] at hu
      exact (List.mem_cons.mp hu).resolve_left (Ne.symm hwait)
    have hbehind : behind u rest = behind u s.threadReadyList := by
      rw [hlist, behind_cons_of_ne hwait]
    refine ⟨⟨hmem, fun v hv => ?_, fun v _ => ?_⟩, hlist ▸ hbehind⟩
    · rw [mem_contenders] at hv ⊢
      rw [← hbehind]
      exact hv
    · exact le_of_eq (congrArg UInt8.toNat (ticks_setStatus s next .running v))

theorem schedule_still (hu : u ∈ s.threadReadyList) (h : schedule s = .ok t)
    (hwait : t.runningThread ≠ u) :
    StillReady u s t ∧ (s.status s.runningThread = .running →
      s.runningThread ∈ behind u t.threadReadyList) := by
  obtain ⟨-, h⟩ := of_ensure_eq_ok h
  obtain ⟨s₁, h₁, h⟩ := of_bind_eq_ok h
  obtain ⟨s₂, h₂, h⟩ := of_bind_eq_ok h
  obtain ⟨hstill, hcur⟩ := requeue_still hu h₁
  have hne : s₁.threadReadyList ≠ [] := List.ne_nil_of_mem hstill.mem
  obtain rfl : s₁ = s₂ := by
    rw [wakeIdle, if_neg hne] at h₂
    exact Except.ok.inj h₂
  obtain ⟨hstill', hbehind⟩ := switchTo_still hstill.mem h hwait
  exact ⟨hstill.trans hstill', fun hrun => hbehind ▸ hcur hrun⟩

theorem threadBlock_still (hu : u ∈ s.threadReadyList) {stat : TaskStatus}
    (h : threadBlock s stat = .ok t) (hwait : t.runningThread ≠ u) : StillReady u s t := by
  obtain ⟨-, h⟩ := of_ensure_eq_ok h
  have hsleep : StillReady u s ({ s with intrOn := false }.setStatus s.runningThread stat) :=
    stillReady_append hu (l := []) (by simp [Kernel.setStatus, Kernel.setTask])
      (fun v hv _ => hv) fun v _ _ => ticks_setStatus _ _ _ v
  exact hsleep.trans (schedule_still hsleep.mem h hwait).1

theorem wakeWaiter_still (hu : u ∈ s.threadReadyList) {i : ℕ} (h : wakeWaiter s i = .ok t) :
    StillReady u s t := by
  unfold wakeWaiter at h
  split at h
  · obtain rfl := Except.ok.inj h
    exact .refl hu
  · next p rest _ =>
    have hset : StillReady u s (s.setSema i { s.sema i with waiters := rest }) :=
      ⟨hu, fun _ hv => hv, fun _ _ => le_rfl⟩
    exact hset.trans (threadUnblock_still hset.mem h).1

theorem wakeup_still (hu : u ∈ s.threadReadyList) {w : ℕ} (h : wakeup s w = .ok t) :
    StillReady u s t := by
  unfold wakeup at h
  split at h
  · cases h
  · obtain ⟨s₁, h₁, h⟩ := of_bind_eq_ok h
    obtain rfl := Except.ok.inj h
    have hwoken := (threadUnblock_still hu h₁).1
    exact ⟨hwoken.mem, hwoken.contenders, hwoken.ticks⟩

end Primitives

section Actions

theorem mem_of_mem_behind {l : List Tid} (h : v ∈ behind u l) : v ∈ l :=
  (List.dropWhile_sublist _).subset (List.mem_of_mem_tail h)

/-- The running thread is in front of every ready one. -/
theorem running_contends (h : s.queues.Settled) (hu : u ∈ s.threadReadyList) :
    s.runningThread ∈ s.contenders u := by
  have hcur : s.status s.runningThread = .running := h.current_running
  have hnot : s.runningThread ∉ s.threadReadyList := h.not_ready (by simp [Kernel.queues, hcur])
  exact mem_contenders.mpr ⟨h.current_mem, fun he => hnot (he ▸ hu),
    fun hmem => hnot (mem_of_mem_behind hmem)⟩

theorem toNat_pred {x : UInt8} (h : x ≠ 0) : (x - 1).toNat + 1 = x.toNat := by
  have hpos : x.toNat ≠ 0 := fun he => h (UInt8.toNat_inj.mp he)
  have hone : (1 : UInt8) ≤ x := UInt8.le_iff_toNat_le.mpr (Nat.one_le_iff_ne_zero.mpr hpos)
  rw [UInt8.toNat_sub_of_le x 1 hone]
  exact Nat.sub_add_cancel (Nat.one_le_iff_ne_zero.mpr hpos)

/-- The state with the interrupt on the accounts. -/
def Kernel.counted (s : Kernel) : Kernel :=
  { s.setTask s.runningThread (fun p => { p with elapsedTicks := p.elapsedTicks + 1 }) with
    ticks := s.ticks + 1 }

/-- The state with one tick off the slice of the running thread. -/
def Kernel.tickedOff (s : Kernel) : Kernel :=
  s.setTask s.runningThread fun p => { p with ticks := p.ticks - 1 }

theorem intrTimerHandler_eq (s : Kernel) : intrTimerHandler s =
    ensure Site.timer ((s.task s.runningThread).stackMagic = 0x19870916) >>= fun _ =>
      if (s.counted.task s.runningThread).ticks = 0 then schedule s.counted
      else pure s.counted.tickedOff := rfl

theorem ticks_counted (s : Kernel) (v : Tid) : (s.counted.task v).ticks = (s.task v).ticks := by
  by_cases hv : v = s.runningThread
  · subst hv
    simp [Kernel.counted, Kernel.setTask]
  · simp [Kernel.counted, Kernel.setTask, hv]

/-- A timer interrupt is taken from the slices in front of `u`. -/
theorem timer_still (h : s.queues.Settled) (hu : u ∈ s.threadReadyList)
    (he : intrTimerHandler s = .ok t) (hwait : t.runningThread ≠ u) :
    StillReady u s t ∧ t.slicesAhead u + 1 ≤ s.slicesAhead u := by
  rw [intrTimerHandler_eq] at he
  obtain ⟨-, he⟩ := of_ensure_eq_ok he
  have hcontends := running_contends h hu
  have hcounted : StillReady u s s.counted :=
    stillReady_append hu (l := []) (by simp [Kernel.counted, Kernel.setTask]) (fun v hv _ => hv)
      fun v _ _ => ticks_counted s v
  split_ifs at he with hzero
  · obtain ⟨hstill, hbehind⟩ := schedule_still hcounted.mem he hwait
    have hstatus : s.counted.status s.runningThread = .running := by
      have hcur : s.status s.runningThread = .running := h.current_running
      simpa [Kernel.counted, Kernel.status, Kernel.setTask] using hcur
    refine ⟨hcounted.trans hstill, (hcounted.trans hstill).slices_lt hcontends fun hmem => ?_⟩
    exact absurd (hbehind hstatus) (mem_contenders.mp hmem).2.2
  · obtain rfl := Except.ok.inj he
    have hused : (s.counted.tickedOff.task s.runningThread).ticks.toNat + 1 =
        (s.counted.task s.runningThread).ticks.toNat := by
      simpa [Kernel.tickedOff, Kernel.setTask, Kernel.counted] using toNat_pred hzero
    have hstill : StillReady u s.counted s.counted.tickedOff := by
      refine ⟨hcounted.mem, fun v hv => hv, fun v _ => ?_⟩
      by_cases hv : v = s.runningThread
      · subst hv
        omega
      · simp [Kernel.tickedOff, Kernel.counted, Kernel.setTask, hv]
    refine ⟨hcounted.trans hstill, (hcounted.trans hstill).slices_lt hcontends fun _ => ?_⟩
    rw [hused, ticks_counted]

theorem StillReady.of_intr {on : Bool} (h : StillReady u { s with intrOn := on } t) :
    StillReady u s t := ⟨h.mem, h.contenders, h.ticks⟩

theorem semaDown_still (hu : u ∈ s.threadReadyList) {i : ℕ} (h : semaDown s i = .ok t)
    (hwait : t.runningThread ≠ u) : StillReady u s t := by
  unfold semaDown at h
  dsimp only at h
  split_ifs at h
  · obtain ⟨-, h⟩ := of_ensure_eq_ok h
    have hblocked := threadBlock_still (s := { s with intrOn := false }.setSema i
      { s.sema i with waiters := (s.sema i).waiters ++ [s.runningThread] }) hu h hwait
    exact ⟨hblocked.mem, hblocked.contenders, hblocked.ticks⟩
  · obtain ⟨-, h⟩ := of_ensure_eq_ok h
    obtain rfl := Except.ok.inj h
    exact ⟨hu, fun _ hv => hv, fun _ _ => le_rfl⟩

theorem semaUp_still (hu : u ∈ s.threadReadyList) {i : ℕ} (h : semaUp s i = .ok t) :
    StillReady u s t := by
  obtain ⟨-, h⟩ := of_ensure_eq_ok h
  obtain ⟨s₁, h₁, h⟩ := of_bind_eq_ok h
  obtain ⟨-, h⟩ := of_ensure_eq_ok h
  obtain rfl := Except.ok.inj h
  have hwoken := wakeWaiter_still hu h₁
  exact ⟨hwoken.mem, hwoken.contenders, hwoken.ticks⟩

theorem ioqWait_still (hu : u ∈ s.threadReadyList) {w : ℕ} (h : ioqWait s w = .ok t)
    (hwait : t.runningThread ≠ u) : StillReady u s t := by
  obtain ⟨-, h⟩ := of_ensure_eq_ok h
  have hblocked := threadBlock_still (s := s.setWaiter w (some s.runningThread)) hu h hwait
  exact ⟨hblocked.mem, hblocked.contenders, hblocked.ticks⟩

theorem threadYield_still (hu : u ∈ s.threadReadyList) (h : threadYield s = .ok t)
    (hwait : t.runningThread ≠ u) : StillReady u s t := by
  obtain ⟨-, h⟩ := of_ensure_eq_ok h
  have hback : StillReady u s { s.setStatus s.runningThread .ready with
      intrOn := false, threadReadyList := s.threadReadyList ++ [s.runningThread] } :=
    stillReady_append hu (l := [s.runningThread]) rfl (fun v hv _ => hv)
      fun v _ _ => ticks_setStatus s _ _ v
  exact hback.trans (schedule_still hback.mem h hwait).1

theorem threadStart_still (h : s.Scheduled) (hu : u ∈ s.threadReadyList) (thread : Tid)
    (hfree : s.PageFree thread) {name : List UInt8} {prio : UInt8}
    (he : threadStart s thread name prio = .ok t) : StillReady u s t := by
  obtain ⟨-, bit, -, rfl⟩ := (threadStart_outcome h hfree name prio).of_ok he
  refine stillReady_append hu (l := [thread]) rfl (fun v hv hne => ?_) fun v hv hne => ?_
  · exact (List.mem_append.mp hv).resolve_right hne
  · simp [Kernel.withStarted, Kernel.withThread, show v ≠ thread by simpa using hne]

theorem forkCopy_still (h : s.Scheduled) (hu : u ∈ s.threadReadyList) (child : Tid)
    (hfree : s.PageFree child) (he : forkCopy s child = .ok t) : StillReady u s t := by
  obtain ⟨-, bit, -, rfl⟩ := (forkCopy_outcome h hfree).of_ok he
  refine stillReady_append hu (l := []) ?_ (fun v hv _ => hv) fun v hv _ => ?_
  · simp [Kernel.withCopy, Kernel.setPoint, Kernel.withThread]
  · have hne : v ≠ child := fun he => hfree.1 (he ▸ hv)
    simp [Kernel.withCopy, Kernel.setPoint, Kernel.withThread, hne]

theorem forkFinish_still (h : s.Scheduled) (hu : u ∈ s.threadReadyList) {child : Tid} {ok : Bool}
    (hpoint : s.point s.runningThread = .fork child) (he : forkFinish s child ok = .ok t) :
    StillReady u s t := by
  obtain ⟨-, rfl⟩ := (forkFinish_outcome h ok hpoint).of_ok he
  split_ifs
  · refine stillReady_append hu (l := [child]) rfl (fun v hv hne => ?_) fun v hv hne => ?_
    · exact (List.mem_append.mp hv).resolve_right hne
    · simp [Kernel.withChild, Kernel.setPoint, Kernel.setTask, show v ≠ child by simpa using hne]
  · exact ⟨hu, fun _ hv => hv, fun _ _ => le_rfl⟩

theorem ticks_adaptChildren (s : Kernel) (ppid : ℤ) (v : Tid) :
    ((adaptChildren s ppid).task v).ticks = (s.task v).ticks := by
  simp only [adaptChildren, initAdaptAChild]
  split_ifs <;> rfl

theorem sysExit_still (h : s.Scheduled) (hu : u ∈ s.threadReadyList) {status : Int32}
    (he : sysExit s status = .ok t) : StillReady u s t := by
  obtain ⟨-, -, rfl⟩ := (sysExit_outcome h status).of_ok he
  refine stillReady_append hu (l := []) (by simp [Kernel.withExit, Kernel.setPoint, adaptChildren,
    Kernel.setTask]) (fun v hv _ => hv) fun v _ _ => ?_
  refine (ticks_adaptChildren _ _ v).trans ?_
  by_cases hv : v = s.runningThread
  · subst hv
    simp [Kernel.setTask]
  · simp [Kernel.setTask, hv]

theorem sysExitHang_still (hu : u ∈ s.threadReadyList) (h : sysExitHang s = .ok t)
    (hwait : t.runningThread ≠ u) : StillReady u s t := by
  unfold sysExitHang at h
  split at h
  · cases h
  · obtain ⟨s₁, h₁, h⟩ := of_bind_eq_ok h
    have hwoken : StillReady u s s₁ := by
      unfold wakeParent at h₁
      split_ifs at h₁
      · exact (threadUnblock_still hu h₁).1
      · obtain rfl := Except.ok.inj h₁
        exact .refl hu
    exact hwoken.trans (threadBlock_still hwoken.mem h hwait)

/-- A hanging thread is on no list but that of all threads. -/
theorem threadExit_still (h : s.queues.Settled) (hu : u ∈ s.threadReadyList) {c : Tid}
    (hc : s.status c = .hanging) : StillReady u s (threadExit s c) := by
  have hnot : c ∉ s.threadReadyList := h.not_ready (by simp [Kernel.queues, hc])
  refine stillReady_append hu (l := []) ?_ (fun v hv _ => List.mem_of_mem_erase hv) fun v _ _ => ?_
  · simp [threadExit, releasePid, Kernel.setStatus, Kernel.setTask, List.erase_of_not_mem hnot]
  · exact ticks_setStatus s c .died v

theorem sysWait_still (h : s.queues.Settled) (hu : u ∈ s.threadReadyList) {pass : WaitPass}
    (he : sysWait s = .ok (t, pass)) (hwait : t.runningThread ≠ u) : StillReady u s t := by
  unfold sysWait at he
  dsimp only at he
  split at he
  · next c hfind =>
    obtain ⟨rfl, -⟩ := Prod.mk.inj (Except.ok.inj he)
    have hchild := List.find?_some hfind
    simp only [findHangingChild, decide_eq_true_eq] at hchild
    exact threadExit_still h hu hchild.2
  · split at he
    · obtain ⟨rfl, -⟩ := Prod.mk.inj (Except.ok.inj he)
      exact .refl hu
    · obtain ⟨s₁, h₁, he⟩ := of_bind_eq_ok he
      obtain ⟨rfl, -⟩ := Prod.mk.inj (Except.ok.inj he)
      exact threadBlock_still hu h₁ hwait

/-- Whatever happens, nobody gets in front of `u` or more time in front of it. -/
theorem perform_still (h : s.Scheduled) (hu : u ∈ s.threadReadyList) {a : Action}
    (hen : a.Enabled s) {on : Bool} {e : Event}
    (he : perform { s with intrOn := on } a = .ok (t, e)) (hwait : t.runningThread ≠ u) :
    StillReady u s t ∧ (a = .timer → t.slicesAhead u + 1 ≤ s.slicesAhead u) := by
  have hset (b : Bool) : Kernel.Scheduled { s with intrOn := b } :=
    ⟨h.settled, h.pending, h.pending_unique⟩
  have hmem (b : Bool) : u ∈ ({ s with intrOn := b } : Kernel).threadReadyList := hu
  cases a with
  | timer =>
    obtain ⟨hstill, hless⟩ := timer_still (hset false).settled (hmem false) (quietly_eq_ok he) hwait
    exact ⟨hstill.of_intr, fun _ => hless⟩
  | idle =>
    exact ⟨(threadBlock_still (hmem on) (quietly_eq_ok he) hwait).of_intr, by simp⟩
  | threadYield =>
    exact ⟨(threadYield_still (hmem on) (quietly_eq_ok he) hwait).of_intr, by simp⟩
  | threadStart thread name prio =>
    have hstill := threadStart_still (hset on) (hmem on) thread hen.2.2 (quietly_eq_ok he)
    exact ⟨hstill.of_intr, by simp⟩
  | semaDown i => exact ⟨(semaDown_still (hmem on) (quietly_eq_ok he) hwait).of_intr, by simp⟩
  | semaUp i => exact ⟨(semaUp_still (hmem on) (quietly_eq_ok he)).of_intr, by simp⟩
  | ioqWait w => exact ⟨(ioqWait_still (hmem false) (quietly_eq_ok he) hwait).of_intr, by simp⟩
  | wakeup w => exact ⟨(wakeup_still (hmem false) (quietly_eq_ok he)).of_intr, by simp⟩
  | forkCopy child =>
    have hstill := forkCopy_still (hset false) (hmem false) child hen.2.2 (quietly_eq_ok he)
    exact ⟨hstill.of_intr, by simp⟩
  | forkFinish ok =>
    obtain ⟨-, child, hpoint⟩ := hen
    simp only [perform, performFinish, hpoint] at he
    obtain ⟨s₁, h₁, he⟩ := of_bind_eq_ok he
    obtain ⟨rfl, -⟩ := Prod.mk.inj (Except.ok.inj he)
    exact ⟨(forkFinish_still (hset false) (hmem false) hpoint h₁).of_intr, by simp⟩
  | exit status =>
    obtain ⟨s₁, h₁, he⟩ := of_bind_eq_ok he
    obtain ⟨rfl, -⟩ := Prod.mk.inj (Except.ok.inj he)
    exact ⟨(sysExit_still (hset false) (hmem false) h₁).of_intr, by simp⟩
  | exitHang => exact ⟨(sysExitHang_still (hmem false) (quietly_eq_ok he) hwait).of_intr, by simp⟩
  | wait =>
    obtain ⟨⟨s₁, pass⟩, h₁, he⟩ := of_bind_eq_ok he
    obtain rfl : s₁ = t := by
      cases pass <;> exact (Prod.mk.inj (Except.ok.inj he)).1
    exact ⟨(sysWait_still (hset false).settled (hmem false) h₁ hwait).of_intr, by simp⟩

end Actions

section Runs

/-- The runs in which `u` does not get the processor. -/
def passedOver (u : Tid) : System Kernel Action := dispatcher.within fun t => t.runningThread ≠ u

theorem passedOver_step (hs : s.Scheduled ∧ u ∈ s.threadReadyList) {a : Action}
    (h : (passedOver u).step s a t) : (t.Scheduled ∧ u ∈ t.threadReadyList) ∧
      t.slicesAhead u + (if a = .timer then 1 else 0) ≤ s.slicesAhead u := by
  obtain ⟨⟨hen, on, e, he⟩, hwait⟩ := h
  obtain ⟨hstill, htimer⟩ := perform_still hs.1 hs.2 hen he hwait
  have hscheduled : t.Scheduled := (perform_scheduling hs.1 hen on).of_ok he
  refine ⟨⟨hscheduled, hstill.mem⟩, ?_⟩
  split_ifs with ha
  · exact htimer ha
  · exact hstill.slices_le

/-- Each thread in front counts for a time slice of at most 255 ticks, and one. -/
theorem slicesAhead_le (hu : u ∈ s.threadAllList) :
    s.slicesAhead u ≤ 256 * (s.threadAllList.length - 1) := by
  have hsub : s.contenders u ⊆ s.threadAllList.toFinset.erase u := by
    intro v hv
    obtain ⟨hall, hne, -⟩ := mem_contenders.mp hv
    exact Finset.mem_erase.mpr ⟨hne, List.mem_toFinset.mpr hall⟩
  have hcard : (s.contenders u).card ≤ s.threadAllList.length - 1 := by
    refine (Finset.card_le_card hsub).trans ?_
    rw [Finset.card_erase_of_mem (List.mem_toFinset.mpr hu)]
    exact Nat.sub_le_sub_right s.threadAllList.toFinset_card_le 1
  calc s.slicesAhead u ≤ (s.contenders u).card * 256 :=
        Finset.sum_le_card_nsmul _ _ _ fun v _ => (s.task v).ticks.toNat_lt
    _ ≤ 256 * (s.threadAllList.length - 1) := by
        rw [Nat.mul_comm]
        exact Nat.mul_le_mul_left 256 hcard

/-- A ready thread gets the processor before the other threads have used up their slices: as
long as it does not, it stays ready, and there were no more timer interrupts than that. -/
theorem ready_thread_runs (h : dispatcher.Reachable s) (hu : u ∈ s.threadReadyList)
    {l : List Action} (hrun : (passedOver u).Run s l t) :
    u ∈ t.threadReadyList ∧ l.count .timer ≤ s.slicesAhead u ∧
      s.slicesAhead u ≤ 256 * (s.threadAllList.length - 1) := by
  have hs := reachable_scheduled (dispatcher_reachable h)
  have hmem : u ∈ s.threadAllList := ((hs.settled.mem_ready u).mp hu).1
  obtain ⟨hend, hcount⟩ := System.Run.potential (I := fun s => s.Scheduled ∧ u ∈ s.threadReadyList)
    (f := fun s => s.slicesAhead u) (p := fun a => a = .timer)
    (fun s a t hs hstep => by simpa using passedOver_step hs hstep) hrun ⟨hs, hu⟩
  refine ⟨hend.2, ?_, slicesAhead_le hmem⟩
  have heq : l.count .timer = l.countP fun a => a = .timer := by
    rw [List.count_eq_countP]
    rfl
  rw [heq]
  exact (Nat.le_add_left _ _).trans hcount

/-- init, while main is interrupted once after boot. -/
theorem ready_thread_runs_init : ∃ s t, threadInit 1 2 3 (fun _ => 1) = .ok s ∧
    (passedOver 1).Run s [.timer] t ∧ 1 ∈ t.threadReadyList ∧
      [Action.timer].count .timer ≤ s.slicesAhead 1 := by
  obtain ⟨s, t, hs, hstep, hu⟩ : ∃ s t, threadInit 1 2 3 (fun _ => 1) = .ok s ∧
      (passedOver 1).step s .timer t ∧ 1 ∈ s.threadReadyList :=
    ⟨_, _, rfl, ⟨⟨trivial, false, .quiet, rfl⟩, by decide⟩, by decide⟩
  have hrun : (passedOver 1).Run s [.timer] t := .snoc (l := []) .nil hstep
  obtain ⟨hready, hcount, -⟩ := ready_thread_runs
    ⟨s, [], ⟨1, 2, 3, fun _ => 1, by decide, by decide, by decide, hs⟩, .nil⟩ hu hrun
  exact ⟨s, t, hs, hrun, hready, hcount⟩

end Runs

end X86System.Thread
