import X86System.Scheduler
import X86System.Processes

/-!
# The scheduler over whole runs

Process creation, exit and wait change the set of threads as well. Between two
actions the queues are settled and the children of unfinished forks are on no
list; boot establishes this and every action keeps it.
-/
namespace X86System.Thread
open Exec Transition

variable {s t : Kernel}

/-- A pid is taken from the least clear bit. -/
theorem allocatePid_outcome (s : Kernel) :
    Outcome (allocatePid s)
      (fun r => ∃ bit ∈ s.pidBitmap.free,
        r = ((bit : ℤ) + 1, { s with pidBitmap := bitmapSet s.pidBitmap bit true }))
      (fun e => e = .bitmapScan) := by
  cases h : bitmapScan s.pidBitmap 1 with
  | error e =>
    simp only [allocatePid, h]
    rfl
  | ok r =>
    obtain ⟨bit, rfl, hfree, -⟩ := bitmapScan_one h
    simp only [allocatePid, h]
    exact ⟨bit, hfree, rfl⟩

/-- The state with the pid `bit + 1` taken and the PCB of a new thread filled in. -/
def Kernel.withThread (s : Kernel) (bit : ℕ) (thread : Tid) (p : TaskStruct) : Kernel :=
  { s with
    pidBitmap := bitmapSet s.pidBitmap bit true
    task := Function.update s.task thread p
    point := Function.update s.point thread .user
    created := s.created + 1 }

def Kernel.setPoint (s : Kernel) (x : Point) : Kernel :=
  { s with point := Function.update s.point s.runningThread x }

theorem initThread_outcome (s : Kernel) (thread : Tid) (name : List UInt8) (prio : UInt8) :
    Outcome (initThread s thread name prio)
      (fun t => ∃ bit ∈ s.pidBitmap.free, t = s.withThread bit thread (newPcb (bit + 1)
        (if thread = s.mainThread then .running else .ready) name prio s.created))
      (fun e => e = .bitmapScan) := by
  refine (allocatePid_outcome s).bind ?_
  rintro _ ⟨bit, hfree, rfl⟩
  exact ⟨bit, hfree, rfl⟩

/-- The queues are settled, and each unfinished fork has a child of its own that is
ready and on no list. -/
structure Kernel.Scheduled (s : Kernel) : Prop where
  settled : s.queues.Settled
  pending : ∀ u ∈ s.threadAllList, ∀ c, s.point u = .fork c →
    c ∉ s.threadAllList ∧ s.status c = .ready ∧ s.point c = .user
  pending_unique : ∀ u ∈ s.threadAllList, ∀ v ∈ s.threadAllList, ∀ c,
    s.point u = .fork c → s.point v = .fork c → u = v

theorem Kernel.Scheduled.current_mem (h : s.Scheduled) : s.runningThread ∈ s.threadAllList :=
  h.settled.current_mem

theorem Kernel.Scheduled.current_running (h : s.Scheduled) :
    s.status s.runningThread = .running :=
  h.settled.current_running

/-- The scheduler keeps the whole invariant, also when it puts the current thread to
sleep. -/
theorem Kernel.Scheduled.frameStatus (h : s.Scheduled) (stat : TaskStatus)
    (ht : t.queues.Settled) (hf : (s.setStatus s.runningThread stat).Frame t) : t.Scheduled where
  settled := ht
  pending u hu c hc := by
    rw [hf.all] at hu ⊢
    rw [hf.point] at hc ⊢
    obtain ⟨h1, h2, h3⟩ := h.pending u hu c hc
    have hne : c ≠ s.runningThread := fun he => h1 (he ▸ h.current_mem)
    refine ⟨h1, ?_, h3⟩
    rw [Kernel.status, hf.outside c h1]
    simpa [Kernel.setStatus, Kernel.setTask, hne, Kernel.status] using h2
  pending_unique := by
    rw [hf.all, hf.point]
    exact h.pending_unique

theorem setStatus_self (s : Kernel) (c : Tid) : s.setStatus c (s.status c) = s := by
  have : Function.update s.task c { s.task c with status := s.status c } = s.task :=
    Function.update_eq_self _ _
  simp only [Kernel.setStatus, Kernel.setTask, this]

theorem Kernel.Scheduled.frame (h : s.Scheduled) (ht : t.queues.Settled) (hf : s.Frame t) :
    t.Scheduled :=
  h.frameStatus (s.status s.runningThread) ht (by rwa [setStatus_self])

theorem queues_withThread (s : Kernel) (bit : ℕ) (thread : Tid) (p : TaskStruct) :
    (s.withThread bit thread p).queues = s.queues.setStatus thread p.status :=
  queues_setTask s thread (fun _ => p)

/-- A page with no thread is given a ready one. -/
theorem Kernel.Scheduled.withThread (h : s.Scheduled) {thread : Tid} (hfree : s.PageFree thread)
    (bit : ℕ) (p : TaskStruct) : (s.withThread bit thread p).Scheduled := by
  obtain ⟨hmem, -, hfork⟩ := hfree
  have hpoint : ∀ u ∈ s.threadAllList, (s.withThread bit thread p).point u = s.point u := by
    intro u hu
    have hne : u ≠ thread := fun he => hmem (he ▸ hu)
    simp [Kernel.withThread, hne]
  refine ⟨?_, ?_, ?_⟩
  · rw [queues_withThread]
    exact h.settled.outside hmem _
  · intro u hu c hc
    rw [hpoint u hu] at hc
    obtain ⟨h1, h2, h3⟩ := h.pending u hu c hc
    have hne : c ≠ thread := fun he => hfork u hu (he ▸ hc)
    refine ⟨h1, ?_, ?_⟩
    · simpa [Kernel.withThread, Kernel.status, hne] using h2
    · simpa [Kernel.withThread, hne] using h3
  · intro u hu v hv c huc hvc
    rw [hpoint u hu] at huc
    rw [hpoint v hv] at hvc
    exact h.pending_unique u hu v hv c huc hvc

/-- Putting a ready thread on both lists. -/
theorem enlist_outcome {site : Site} (hsite : site ∉ schedulerSites) {thread : Tid}
    (h : s.Scheduled) (hready : s.status thread = .ready)
    (hpoint : ∀ c, s.point thread ≠ .fork c)
    (hfork : ∀ u ∈ s.threadAllList, s.point u ≠ .fork thread) :
    Outcome (enlist site s thread)
      (fun t => t.Scheduled ∧ thread ∉ s.threadAllList ∧
        t = { s with
          threadReadyList := s.threadReadyList ++ [thread]
          threadAllList := s.threadAllList ++ [thread] })
      (fun e => e ∉ schedulerSites) := by
  refine outcome_ensure (fun _ => hsite) (fun _ => ?_)
  refine outcome_ensure (fun _ => hsite) (fun hmem => ?_)
  have hin : ∀ u ∈ s.threadAllList ++ [thread], ∀ c, s.point u = .fork c →
      u ∈ s.threadAllList := by
    intro u hu c hc
    rcases List.mem_append.mp hu with hu | hu
    · exact hu
    · exact absurd (List.mem_singleton.mp hu ▸ hc) (hpoint c)
  refine ⟨⟨?_, ?_, ?_⟩, hmem, rfl⟩
  · have hq : s.queues.setStatus thread .ready = s.queues := by
      rw [← hready]
      exact congrArg (fun st => { s.queues with status := st }) (Function.update_eq_self _ _)
    have hadd := h.settled.add (t := thread) hmem
    rw [hq] at hadd
    exact hadd
  · intro u hu c hc
    have hu' := hin u hu c hc
    obtain ⟨h1, h2, h3⟩ := h.pending u hu' c hc
    have hne : c ≠ thread := fun he => hfork u hu' (he ▸ hc)
    exact ⟨by simp [h1, hne], h2, h3⟩
  · intro u hu v hv c huc hvc
    exact h.pending_unique u (hin u hu c huc) v (hin v hv c hvc) c huc hvc

/-- The state after `thread_start`. -/
def Kernel.withStarted (s : Kernel) (bit : ℕ) (thread : Tid) (name : List UInt8) (prio : UInt8) :
    Kernel :=
  { s.withThread bit thread (newPcb (bit + 1) .ready name prio s.created) with
    threadReadyList := s.threadReadyList ++ [thread]
    threadAllList := s.threadAllList ++ [thread] }

theorem threadStart_outcome (h : s.Scheduled) {thread : Tid} (hfree : s.PageFree thread)
    (name : List UInt8) (prio : UInt8) :
    Outcome (threadStart s thread name prio)
      (fun t => t.Scheduled ∧ ∃ bit ∈ s.pidBitmap.free, t = s.withStarted bit thread name prio)
      (fun e => e ∉ schedulerSites) := by
  refine ((initThread_outcome s thread name prio).mono (fun _ h => h)
    (F := (· ∉ schedulerSites)) (by rintro e rfl; decide)).bind ?_
  rintro _ ⟨bit, hbit, rfl⟩
  rw [if_neg hfree.2.1]
  have hnew := h.withThread hfree bit (newPcb (bit + 1) .ready name prio s.created)
  refine (enlist_outcome (by decide) hnew ?_ ?_ ?_).mono ?_ (fun _ he => he)
  · simp [Kernel.status, Kernel.withThread, newPcb]
  · simp [Kernel.withThread]
  · intro u hu
    have hne : u ≠ thread := fun he => hfree.1 (he ▸ hu)
    simpa [Kernel.withThread, hne] using hfree.2.2 u hu
  · rintro _ ⟨ht, -, rfl⟩
    exact ⟨ht, bit, hbit, rfl⟩

/-- The current thread enters or leaves an unfinished fork. -/
theorem Kernel.Scheduled.setPoint (h : s.Scheduled) {x : Point}
    (hx : ∀ c, x = .fork c → c ∉ s.threadAllList ∧ s.status c = .ready ∧ s.point c = .user ∧
      ∀ u ∈ s.threadAllList, s.point u ≠ .fork c) : (s.setPoint x).Scheduled := by
  have hcur : (s.setPoint x).point s.runningThread = x := by simp [Kernel.setPoint]
  have hne : ∀ u, u ≠ s.runningThread → (s.setPoint x).point u = s.point u := by
    intro u hu
    simp [Kernel.setPoint, hu]
  refine ⟨h.settled, ?_, ?_⟩
  · intro u hu c hc
    obtain ⟨h1, h2, h3⟩ : c ∉ s.threadAllList ∧ s.status c = .ready ∧ s.point c = .user := by
      by_cases hur : u = s.runningThread
      · obtain ⟨h1, h2, h3, -⟩ := hx c (hcur.symm.trans (hur ▸ hc))
        exact ⟨h1, h2, h3⟩
      · exact h.pending u hu c ((hne u hur).symm.trans hc)
    have hcr : c ≠ s.runningThread := fun he => h1 (he ▸ h.current_mem)
    exact ⟨h1, h2, (hne c hcr).trans h3⟩
  · intro u hu v hv c huc hvc
    by_cases hur : u = s.runningThread <;> by_cases hvr : v = s.runningThread
    · rw [hur, hvr]
    · have hxc := hcur.symm.trans (hur ▸ huc)
      exact absurd ((hne v hvr).symm.trans hvc) ((hx c hxc).2.2.2 v hv)
    · have hxc := hcur.symm.trans (hvr ▸ hvc)
      exact absurd ((hne u hur).symm.trans huc) ((hx c hxc).2.2.2 u hu)
    · exact h.pending_unique u hu v hv c ((hne u hur).symm.trans huc)
        ((hne v hvr).symm.trans hvc)

/-- The state in the middle of `sys_fork`. -/
def Kernel.withCopy (s : Kernel) (bit : ℕ) (child : Tid) : Kernel :=
  (s.withThread bit child
    (copyPcb (s.task s.runningThread) (bit + 1) s.created)).setPoint (.fork child)

theorem forkCopy_outcome (h : s.Scheduled) {child : Tid} (hfree : s.PageFree child) :
    Outcome (forkCopy s child)
      (fun t => t.Scheduled ∧ ∃ bit ∈ s.pidBitmap.free, t = s.withCopy bit child)
      (fun e => e ∉ schedulerSites) := by
  refine outcome_ensure (fun _ => by decide) (fun _ => ?_)
  refine ((allocatePid_outcome s).mono (fun _ h => h) (F := (· ∉ schedulerSites))
    (by rintro e rfl; decide)).bind ?_
  rintro _ ⟨bit, hbit, rfl⟩
  refine ⟨?_, bit, hbit, rfl⟩
  refine (h.withThread hfree bit _).setPoint ?_
  rintro _ ⟨⟩
  refine ⟨hfree.1, ?_, ?_, ?_⟩
  · simp [Kernel.status, Kernel.withThread, copyPcb]
  · simp [Kernel.withThread]
  · intro u hu
    have hne : u ≠ child := fun he => hfree.1 (he ▸ hu)
    simpa [Kernel.withThread, hne] using hfree.2.2 u hu

/-- Changing anything but the status of a thread. -/
theorem Kernel.Scheduled.congrTask (h : s.Scheduled) {task : Tid → TaskStruct}
    (htask : ∀ u, (task u).status = (s.task u).status) :
    Kernel.Scheduled { s with task := task } where
  settled := by
    have hq : ({ s with task := task } : Kernel).queues = s.queues :=
      congrArg (fun st => { s.queues with status := st }) (funext htask)
    rw [hq]
    exact h.settled
  pending u hu c hc := by
    obtain ⟨h1, h2, h3⟩ := h.pending u hu c hc
    exact ⟨h1, (htask c).trans h2, h3⟩
  pending_unique := h.pending_unique

/-- The state at the end of `sys_fork`. -/
def Kernel.withChild (s : Kernel) (child : Tid) : Kernel :=
  { (s.setPoint .user).setTask child (fun p => { p with name := forkName p.name }) with
    threadReadyList := s.threadReadyList ++ [child]
    threadAllList := s.threadAllList ++ [child] }

theorem forkFinish_outcome (h : s.Scheduled) {child : Tid} (ok : Bool)
    (hpoint : s.point s.runningThread = .fork child) :
    Outcome (forkFinish s child ok)
      (fun t => t.Scheduled ∧ t = if ok then s.withChild child else s.setPoint .user)
      (fun e => e ∉ schedulerSites) := by
  obtain ⟨hmem, hready, huser⟩ := h.pending _ h.current_mem child hpoint
  have hcr : child ≠ s.runningThread := fun he => hmem (he ▸ h.current_mem)
  have hback : (s.setPoint .user).Scheduled := h.setPoint (fun c hc => nomatch hc)
  refine outcome_ite (fun hok => ?_) (fun hok => ⟨hback, by rw [if_neg hok]; rfl⟩)
  refine outcome_ensure (fun _ => by decide) (fun _ => ?_)
  have hname : ((s.setPoint .user).setTask child
      (fun p => { p with name := forkName p.name })).Scheduled := by
    refine hback.congrTask (fun u => ?_)
    by_cases hu : u = child
    · subst hu
      simp
    · simp [hu]
  refine (enlist_outcome (by decide) hname ?_ ?_ ?_).mono ?_ (fun _ he => he)
  · simpa [Kernel.status, Kernel.setTask, Kernel.setPoint] using hready
  · simp [Kernel.setTask, Kernel.setPoint, hcr, huser]
  · intro u hu hc
    by_cases hur : u = s.runningThread
    · simp [Kernel.setTask, Kernel.setPoint, hur] at hc
    · have hc' : s.point u = .fork child := by
        simpa [Kernel.setTask, Kernel.setPoint, hur] using hc
      exact hur (h.pending_unique u hu _ h.current_mem child hc' hpoint)
  · rintro _ ⟨ht, -, rfl⟩
    exact ⟨ht, by rw [if_pos hok]; rfl⟩

theorem adaptChildren_status (s : Kernel) (ppid : ℤ) (u : Tid) :
    (adaptChildren s ppid).status u = s.status u := by
  simp only [Kernel.status, adaptChildren, initAdaptAChild]
  split_ifs <;> rfl

/-- The state in the middle of `sys_exit`. -/
def Kernel.withExit (s : Kernel) (status : Int32) : Kernel :=
  (adaptChildren (s.setTask s.runningThread (fun p => { p with exitStatus := status.toInt8 }))
    (s.task s.runningThread).pid).setPoint .exiting

theorem sysExit_outcome (h : s.Scheduled) (status : Int32) :
    Outcome (sysExit s status)
      (fun t => t.Scheduled ∧ (s.task s.runningThread).parentPid ≠ -1 ∧ t = s.withExit status)
      (fun e => e ∉ schedulerSites) := by
  have hself : ∀ f, (s.setTask s.runningThread f).task s.runningThread =
      f (s.task s.runningThread) := fun f => by simp [Kernel.setTask]
  have hadapt : (adaptChildren (s.setTask s.runningThread
      (fun p => { p with exitStatus := status.toInt8 })) (s.task s.runningThread).pid).Scheduled := by
    refine h.congrTask (fun u => (adaptChildren_status _ _ u).trans ?_)
    by_cases hu : u = s.runningThread
    · simp [Kernel.status, Kernel.setTask, hu]
    · simp [Kernel.status, Kernel.setTask, hu]
  refine outcome_ensure (fun _ => by decide) (fun hp => ?_)
  simp only [hself] at hp ⊢
  refine ⟨hadapt.setPoint (fun c hc => ?_), hp, rfl⟩
  cases hc

theorem Kernel.Frame.setStatus (hf : s.Frame t) {c : Tid} (hc : c ∈ s.threadAllList)
    (stat : TaskStatus) : (s.setStatus c stat).Frame (t.setStatus c stat) where
  all := hf.all
  task u := by
    have hu := hf.task u
    by_cases huc : u = c
    · subst huc
      simp only [Kernel.setStatus, Kernel.setTask, Function.update_self]
      rw [hu]
    · simpa [Kernel.setStatus, Kernel.setTask, huc] using hu
  hanging u := by
    by_cases huc : u = c
    · subst huc
      simp [Kernel.status, Kernel.setStatus, Kernel.setTask]
    · simpa [Kernel.status, Kernel.setStatus, Kernel.setTask, huc] using hf.hanging u
  outside u hu := by
    have huc : u ≠ c := fun he => hu (he ▸ hc)
    simpa [Kernel.setStatus, Kernel.setTask, huc] using hf.outside u hu
  point := hf.point
  pidBitmap := hf.pidBitmap
  created := hf.created
  idleThread := hf.idleThread
  mainThread := hf.mainThread

theorem wakeParent_spec (h : s.queues.Settled) {parent : Tid} (hmem : parent ∈ s.threadAllList) :
    ∃ t, wakeParent s parent = .ok t ∧ t.queues.Settled ∧ s.Frame t ∧
      t.runningThread = s.runningThread := by
  by_cases hw : s.status parent = .waiting
  · have hpark : ∀ x, parent ∉ s.queues.parked x :=
      h.not_parked (t := parent) (by simp [Kernel.queues, hw])
    obtain ⟨t, he, hs, hf, -, hcur, -, hsame⟩ :=
      threadUnblock_spec h.toSound hmem (Or.inr hw) hpark
    have hrun : s.status s.runningThread = .running := h.current_running
    have hne : s.runningThread ≠ parent := by
      rintro rfl
      simp [hw] at hrun
    refine ⟨t, by rw [wakeParent, if_pos hw, he], ⟨hs, ?_⟩, hf, hcur⟩
    change t.status t.runningThread = .running
    rw [hcur, hsame _ hne, hrun]
  · exact ⟨s, by rw [wakeParent, if_neg hw]; rfl, h, Kernel.Frame.refl s, rfl⟩

/-- Hanging succeeds, and wakes the parent where it waits. -/
theorem sysExitHang_outcome (h : s.queues.Settled) (hidle : s.runningThread ≠ s.idleThread) :
    Outcome (sysExitHang s)
      (fun t => t.queues.Settled ∧ (s.setStatus s.runningThread .hanging).Frame t)
      (fun e => e ∉ schedulerSites) := by
  cases hp : pid2thread s (s.task s.runningThread).parentPid with
  | none =>
    simp only [sysExitHang, hp, outcome_error]
    decide
  | some parent =>
    have hmem : parent ∈ s.threadAllList := List.mem_of_find?_eq_some hp
    obtain ⟨s₁, he₁, hs₁, hf₁, hcur⟩ := wakeParent_spec h hmem
    have hsleep := hs₁.sleep .hanging (by simp) (fun he => by
      have hcur' : s₁.runningThread = s₁.idleThread := he
      rw [hcur, hf₁.idleThread] at hcur'
      exact absurd hcur' hidle)
    obtain ⟨t, he, hs, hf⟩ := threadBlock_spec .hanging (Or.inr (Or.inr rfl)) hsleep
    have he' : sysExitHang s = .ok t := by
      simp only [sysExitHang, hp, he₁, ok_bind, he]
    rw [he']
    refine ⟨hs, ?_⟩
    rw [hcur] at hf
    exact (hf₁.setStatus h.current_mem .hanging).trans hf

/-- One pass of `sys_wait`: which of its three ends it takes, and the state after it. -/
theorem sysWait_outcome (h : s.queues.Settled) (hidle : s.runningThread ≠ s.idleThread) :
    Outcome (sysWait s)
      (fun r =>
        (∃ c ∈ s.threadAllList, (s.task c).parentPid = (s.task s.runningThread).pid ∧
          s.status c = .hanging ∧ r = (threadExit s c,
            .child c (s.task c).pid (s.task c).exitStatus.toInt32)) ∨
        (r = (s, .none) ∧ ∀ c ∈ s.threadAllList,
          (s.task c).parentPid ≠ (s.task s.runningThread).pid) ∨
        (r.2 = .blocked ∧ r.1.queues.Settled ∧ s.Frame r.1))
      (fun e => e ∉ schedulerSites) := by
  cases hc : s.threadAllList.find? (findHangingChild s (s.task s.runningThread).pid) with
  | some c =>
    have hchild := List.find?_some hc
    simp only [findHangingChild, decide_eq_true_eq] at hchild
    simp only [sysWait, hc]
    exact Or.inl ⟨c, List.mem_of_find?_eq_some hc, hchild.1, hchild.2, rfl⟩
  | none =>
    cases hn : s.threadAllList.find? (findChild s (s.task s.runningThread).pid) with
    | none =>
      simp only [sysWait, hc, hn]
      refine Or.inr (Or.inl ⟨rfl, fun c hmem => ?_⟩)
      have := List.find?_eq_none.mp hn c hmem
      simpa [findChild] using this
    | some c =>
      obtain ⟨t, he, hs, hf⟩ := threadBlock_spec (s := s) .waiting (by simp)
        (h.sleep .waiting (by simp) (fun he => absurd he hidle))
      simp only [sysWait, hc, hn, he, ok_bind]
      refine Or.inr (Or.inr ⟨rfl, hs, ?_⟩)
      exact (Kernel.Frame.setTask h.current_mem (fun _ => rfl) (by simp)).trans hf

theorem threadExit_scheduled (h : s.Scheduled) {c : Tid} (hc : c ∈ s.threadAllList)
    (hhang : s.status c = .hanging) : (threadExit s c).Scheduled where
  settled := by
    have hq : (threadExit s c).queues = { s.queues.setStatus c .died with
        ready := s.queues.ready.erase c, all := s.queues.all.erase c } :=
      congrArg (fun q : Queues => { q with
        ready := s.queues.ready.erase c, all := s.queues.all.erase c })
        (queues_setTask s c (fun p => { p with status := .died }))
    rw [hq]
    exact h.settled.remove hhang
  pending u hu d hd := by
    have hu' : u ∈ s.threadAllList := List.mem_of_mem_erase hu
    obtain ⟨h1, h2, h3⟩ := h.pending u hu' d hd
    have hne : d ≠ c := fun he => h1 (he ▸ hc)
    refine ⟨fun hmem => h1 (List.mem_of_mem_erase hmem), ?_, h3⟩
    simp only [Kernel.status] at h2
    simp [threadExit, releasePid, Kernel.status, Kernel.setStatus, Kernel.setTask, hne, h2]
  pending_unique u hu v hv d :=
    h.pending_unique u (List.mem_of_mem_erase hu) v (List.mem_of_mem_erase hv) d

/-- What is shown of every action: the invariant is kept, and an assertion that fails
is not one of the scheduler's. -/
def Scheduling (r : Except Site (Kernel × Event)) : Prop :=
  Outcome r (fun x => x.1.Scheduled) (fun e => e ∉ schedulerSites)

theorem quietly_eq_ok {r : Except Site Kernel} {e : Event} (h : quietly r = .ok (t, e)) :
    r = .ok t := by
  obtain ⟨r', hr, h⟩ := of_bind_eq_ok h
  obtain ⟨rfl, -⟩ := Prod.mk.inj (Except.ok.inj h)
  exact hr

theorem quietly_scheduling {r : Except Site Kernel} {Q : Kernel → Prop}
    (h : Outcome r (fun t => t.Scheduled ∧ Q t) (fun e => e ∉ schedulerSites)) :
    Scheduling (quietly r) :=
  Outcome.bind h (fun _ ht => ht.1)

theorem Quiet.scheduling {r : Except Site Kernel} (h : s.Scheduled) (hr : Quiet s r) :
    Scheduling (quietly r) :=
  Outcome.bind hr (fun _ ht => h.frame ht.1 ht.2)

/-- Every action keeps the invariant and trips none of the scheduler's assertions. -/
theorem perform_scheduling (h : s.Scheduled) {a : Action} (ha : a.Enabled s) (on : Bool) :
    Scheduling (perform { s with intrOn := on } a) := by
  have hset (b : Bool) : Kernel.Scheduled { s with intrOn := b } :=
    ⟨h.settled, h.pending, h.pending_unique⟩
  cases a with
  | timer => exact (intrTimerHandler_quiet (hset false).settled rfl).scheduling (hset false)
  | idle => exact (idle_quiet (hset on).settled).scheduling (hset on)
  | threadYield => exact (threadYield_quiet (hset on).settled).scheduling (hset on)
  | threadStart t name prio =>
    exact quietly_scheduling (threadStart_outcome (hset on) ha.2.2 name prio)
  | semaDown i => exact (semaDown_quiet (hset on).settled ha i).scheduling (hset on)
  | semaUp i => exact (semaUp_quiet (hset on).settled i).scheduling (hset on)
  | ioqWait w => exact (ioqWait_quiet (hset false).settled ha w).scheduling (hset false)
  | wakeup w => exact (wakeup_quiet (hset false).settled w).scheduling (hset false)
  | forkCopy c => exact quietly_scheduling (forkCopy_outcome (hset false) ha.2.2)
  | forkFinish ok =>
    obtain ⟨-, c, hc⟩ := ha
    simp only [perform, performFinish, hc]
    exact Outcome.bind (forkFinish_outcome (hset false) ok hc) (fun _ ht => ht.1)
  | exit status => exact Outcome.bind (sysExit_outcome (hset false) status) (fun _ ht => ht.1)
  | exitHang =>
    refine Outcome.bind (sysExitHang_outcome (hset false).settled ha.1) ?_
    exact fun t ht => (hset false).frameStatus .hanging ht.1 ht.2
  | wait =>
    refine Outcome.bind (sysWait_outcome (hset false).settled ha.1) ?_
    rintro ⟨t, pass⟩ (⟨c, hmem, -, hhang, he⟩ | ⟨he, -⟩ | ⟨hb, hs, hf⟩)
    · obtain ⟨rfl, rfl⟩ := Prod.mk.inj he
      exact threadExit_scheduled (hset false) hmem hhang
    · obtain ⟨rfl, rfl⟩ := Prod.mk.inj he
      exact hset false
    · obtain rfl : pass = .blocked := hb
      exact (hset false).frame hs hf

/-- The pids of init, main and idle. -/
theorem bitmapScan_boot :
    let b₀ := bitmapInit ⟨128, fun _ => 0⟩
    let b₁ := bitmapSet b₀ 0 true
    let b₂ := bitmapSet b₁ 1 true
    bitmapScan b₀ 1 = .ok (some 0) ∧ bitmapScan b₁ 1 = .ok (some 1) ∧
      bitmapScan b₂ 1 = .ok (some 2) := ⟨rfl, rfl, rfl⟩

/-- What boot leaves behind. -/
structure Kernel.AtBoot (s : Kernel) (init main idle : Tid) : Prop where
  all : s.threadAllList = [init, main, idle]
  ready : s.threadReadyList = [init, idle]
  running : s.runningThread = main
  mainThread : s.mainThread = main
  idleThread : s.idleThread = idle
  init_task : s.task init = { newPcb 1 .ready [0x69, 0x6e, 0x69, 0x74] 31 0 with pgdir := true }
  main_task : s.task main = newPcb 2 .running [0x6d, 0x61, 0x69, 0x6e] 31 1
  idle_task : s.task idle = newPcb 3 .ready [0x69, 0x64, 0x6c, 0x65] 10 2
  waiters : ∀ i, (s.sema i).waiters = []
  waiter : ∀ w, s.waiter w = none
  point : ∀ t, s.point t = .user
  pidBitmap : s.pidBitmap =
    bitmapSet (bitmapSet (bitmapSet (bitmapInit ⟨128, fun _ => 0⟩) 0 true) 1 true) 2 true
  created : s.created = 3

theorem threadInit_atBoot {init main idle : Tid} {value : ℕ → UInt8} (him : init ≠ main)
    (hid : init ≠ idle) (hmd : main ≠ idle) (h : threadInit init main idle value = .ok s) :
    s.AtBoot init main idle := by
  obtain ⟨h₀, h₁, h₂⟩ := bitmapScan_boot
  simp only [threadInit, processExecute, makeMainThread, threadStart, initThread, allocatePid,
    enlist, blank, Kernel.setTask, h₀, h₁, h₂, ensure_of, ok_bind, pure_eq_ok, List.not_mem_nil,
    not_false_eq_true, List.nil_append, List.mem_cons, List.mem_append,
    him.symm, hid.symm, hmd.symm, or_self, Except.ok.injEq] at h
  subst h
  constructor <;>
    simp [newPcb, him, hid, hmd, Function.update_apply]

theorem Kernel.AtBoot.scheduled {init main idle : Tid} (h : s.AtBoot init main idle)
    (him : init ≠ main) (hid : init ≠ idle) (hmd : main ≠ idle) : s.Scheduled := by
  have hstat : s.status init = .ready ∧ s.status main = .running ∧ s.status idle = .ready := by
    simp [Kernel.status, h.init_task, h.main_task, h.idle_task, newPcb]
  obtain ⟨hi, hm, hd⟩ := hstat
  have hpark : ∀ x, s.queues.parked x = [] := by
    rintro (i | w)
    · exact h.waiters i
    · simp [Kernel.queues, h.waiter w]
  refine ⟨⟨?_, ?_⟩, ?_, ?_⟩
  · constructor
    · simp [Kernel.queues, h.all, him, hid, hmd]
    · simp [Kernel.queues, h.ready, hid]
    · intro t
      simp only [Kernel.queues, h.all, h.ready]
      constructor
      · intro ht
        rcases List.mem_cons.mp ht with rfl | ht
        · simp [hi]
        · rw [List.mem_singleton.mp ht]
          simp [hd]
      · rintro ⟨ht, hready⟩
        have hne : t ≠ main := by
          rintro rfl
          simp [hm] at hready
        simpa [hne] using ht
    · simp [Kernel.queues, h.all, h.running]
    · intro t ht hrun
      simp only [Kernel.queues, h.all, List.mem_cons, List.not_mem_nil, or_false] at ht
      rcases ht with rfl | rfl | rfl
      · simp [Kernel.queues, hi] at hrun
      · exact h.running.symm
      · simp [Kernel.queues, hd] at hrun
    · simp [hpark]
    · simp [hpark]
    · simp [hpark]
    · simp [Kernel.queues, h.all, h.idleThread]
    · simp [Kernel.queues, h.idleThread, hd]
  · simp [Kernel.queues, h.running, hm]
  · simp [h.point]
  · simp [h.point]

theorem reachable_scheduled (h : kernel.Reachable s) : s.Scheduled := by
  refine h.invariant ?_ ?_
  · rintro s ⟨init, main, idle, value, him, hid, hmd, hboot⟩
    exact (threadInit_atBoot him hid hmd hboot).scheduled him hid hmd
  · rintro s e t hs ⟨on, a, ha, hstep⟩
    exact (perform_scheduling hs ha on).of_ok hstep

/-- In every reachable state the ready list holds exactly the ready threads, one thread
runs, a waiting thread waits on one list, and no action trips an assertion of the
scheduler. The child of an unfinished `sys_fork` is on no list and not a thread yet. -/
theorem scheduler_invariant (h : kernel.Reachable s) :
    s.threadReadyList.Nodup ∧
    (∀ t, t ∈ s.threadReadyList ↔ t ∈ s.threadAllList ∧ s.status t = .ready) ∧
    (s.runningThread ∈ s.threadAllList ∧ s.status s.runningThread = .running ∧
      ∀ t ∈ s.threadAllList, s.status t = .running → t = s.runningThread) ∧
    (∀ i, (s.sema i).waiters.Nodup ∧ ∀ t ∈ (s.sema i).waiters,
      t ∈ s.threadAllList ∧ s.status t = .blocked ∧ ∀ j, t ∈ (s.sema j).waiters → j = i) ∧
    (∀ on a, a.Enabled s → ∀ site, perform { s with intrOn := on } a = .error site →
      site ∉ schedulerSites) := by
  have hs := reachable_scheduled h
  have hq := hs.settled
  refine ⟨hq.ready_nodup, hq.mem_ready, ⟨hq.current_mem, hq.current_running,
    hq.running_current⟩, ?_, ?_⟩
  · intro i
    refine ⟨hq.parked_nodup (.inl i), fun t ht => ?_⟩
    obtain ⟨hmem, hblocked, -⟩ := hq.parked_blocked (.inl i) t ht
    refine ⟨hmem, hblocked, fun j hj => ?_⟩
    exact Sum.inl.inj (hq.parked_unique (.inl j) (.inl i) t hj ht)
  · intro on a ha site hsite
    exact (perform_scheduling hs ha on).of_error hsite

/-- Main takes a semaphore, blocks on it and leaves the processor to init. -/
theorem scheduler_invariant_blocked : ∃ s₀ s es,
    threadInit 1 2 3 (fun _ => 1) = .ok s₀ ∧
    performAll s₀ [.semaDown 0, .semaDown 0] = some (s, es) ∧
    s.runningThread = 1 ∧ (s.sema 0).waiters = [2] ∧ s.threadReadyList.Nodup :=
  ⟨_, _, _, rfl, rfl, rfl, rfl, (scheduler_invariant ⟨_, _,
    ⟨1, 2, 3, fun _ => 1, by decide, by decide, by decide, rfl⟩,
    performAll_run (l := [.semaDown 0, .semaDown 0]) rfl⟩).1⟩

end X86System.Thread
