import X86System.StepCases

/-!
# Parents and orphans

A process that called `execv` has a short name again and may fork further, so runs
here may also contain `execv`. Pids and parents name processes soundly in every
such run.
-/
namespace X86System.Thread
open Exec Transition

variable {s t : Kernel} {tr : List Event}

/-- What `sys_execv` changes in the PCB: the first bytes of the path become the name. -/
def sysExecv (s : Kernel) (path : List UInt8) : Kernel :=
  s.setTask s.runningThread (fun p => { p with name := path.take 15 })

/-- The running kernel in which processes also execute programs. -/
def kernelExec : System Kernel Event where
  start := Booted
  step s e t := kernel.step s e t ∨
    e = .quiet ∧ s.runningThread ≠ s.idleThread ∧ s.point s.runningThread = .user ∧
      (s.task s.runningThread).pgdir = true ∧ ∃ path, t = sysExecv s path

theorem run_exec (h : kernel.Run s tr t) : kernelExec.Run s tr t :=
  h.mono fun _ _ _ hstep => Or.inl hstep

theorem execv_field {α : Type} (g : TaskStruct → α) (hg : ∀ p n, g { p with name := n } = g p)
    (s : Kernel) (path : List UInt8) (u : Tid) :
    g ((sysExecv s path).task u) = g (s.task u) :=
  setTask_field (f := fun p => { p with name := path.take 15 }) g (fun p => hg p _) _ u

theorem execv_status (s : Kernel) (path : List UInt8) (u : Tid) :
    (sysExecv s path).status u = s.status u :=
  execv_field TaskStruct.status (fun _ _ => rfl) s path u

theorem Delivery.execv (h : Delivery tr s) (path : List UInt8) :
    Delivery (tr ++ [.quiet]) (sysExecv s path) := by
  have hpid := execv_field TaskStruct.pid (fun _ _ => rfl) s path
  have hparent := execv_field TaskStruct.parentPid (fun _ _ => rfl) s path
  have hserial := execv_field TaskStruct.serial (fun _ _ => rfl) s path
  have hexit := execv_field TaskStruct.exitStatus (fun _ _ => rfl) s path
  refine ⟨h.scheduled.congrTask (execv_status s path), ?_, ?_⟩
  · exact (h.names.silent (.inl rfl)).congr
      (fun u _ => ⟨hpid u, hserial u, hexit u, Iff.rfl⟩) rfl rfl
  · refine (h.family.silent (.inl rfl)).congr rfl
      (fun u => ⟨hpid u, hparent u, hserial u⟩) rfl ?_
    intro u hu hhang
    rw [execv_status] at hhang
    exact h.family.hanging u hu hhang

/-- What the invariant of the kernel's runs needs of a step holds of an `execv` too. -/
theorem Delivery.exec (h : Delivery tr s) {e : Event} (hstep : kernelExec.step s e t) :
    Delivery (tr ++ [e]) t := by
  obtain ⟨on, a, ha, hstep⟩ | ⟨rfl, -, -, -, path, rfl⟩ := hstep
  · exact (perform_delivers h ha on).of_ok hstep
  · exact h.execv path

/-- What a step leaves of the threads that were there: none is renumbered or hangs, and
one that is new neither hangs nor exits. -/
structure Kept (s t : Kernel) : Prop where
  pid : ∀ u ∈ s.threadAllList, (t.task u).pid = (s.task u).pid
  parent : ∀ u ∈ s.threadAllList, (t.task u).parentPid = (s.task u).parentPid
  exiting : ∀ u ∈ t.threadAllList, t.point u = .exiting → u ∈ s.threadAllList ∧ s.point u = .exiting
  still : ∀ u ∈ s.threadAllList, s.point u = .exiting → s.status u ≠ .hanging →
    u ∈ t.threadAllList ∧ t.point u = .exiting ∧ t.status u ≠ .hanging
  hanging : ∀ u ∈ t.threadAllList, t.status u = .hanging →
    u ∈ s.threadAllList ∧ s.status u = .hanging
  waiting : ∀ u ∈ t.threadAllList, t.status u = .waiting → u ∈ s.threadAllList

theorem Kept.frame (hf : s.Frame t) : Kept s t where
  pid u _ := hf.pid u
  parent u _ := hf.parentPid u
  exiting u hu hx := by
    rw [hf.all] at hu
    rw [hf.point] at hx
    exact ⟨hu, hx⟩
  still u hu hx hhang :=
    ⟨by rwa [hf.all], by rwa [hf.point], fun ht => hhang (hf.hanging u ht)⟩
  hanging u hu ht := by
    rw [hf.all] at hu
    exact ⟨hu, hf.hanging u ht⟩
  waiting u hu _ := by rwa [hf.all] at hu

/-- A thread that may enter the list, with only its own PCB and its creator's point
changed. -/
theorem Kept.birth {c : Tid} (hc : c ∉ s.threadAllList)
    (hall : ∀ u ∈ t.threadAllList, u ∈ s.threadAllList ∨ u = c)
    (hsub : ∀ u ∈ s.threadAllList, u ∈ t.threadAllList)
    (htask : ∀ u, u ≠ c → t.task u = s.task u)
    (hpoint : ∀ u, u ≠ c → (t.point u = .exiting ↔ s.point u = .exiting))
    (hnew : t.status c = .ready ∧ t.point c = .user) : Kept s t ∧ Calm s t := by
  have hne : ∀ u ∈ s.threadAllList, u ≠ c := fun u hu he => hc (he ▸ hu)
  have hstatus : ∀ u, u ≠ c → t.status u = s.status u := fun u hu => by
    rw [Kernel.status, htask u hu, Kernel.status]
  have hold : ∀ u ∈ t.threadAllList, t.status u ≠ .ready ∨ t.point u = .exiting →
      u ∈ s.threadAllList ∧ u ≠ c := by
    intro u hu h
    have huc : u ≠ c := by
      rintro rfl
      rw [hnew.1, hnew.2] at h
      simp at h
    exact ⟨(hall u hu).resolve_right huc, huc⟩
  refine ⟨⟨?_, ?_, ?_, ?_, ?_, ?_⟩, ?_⟩
  · intro u hu
    rw [htask u (hne u hu)]
  · intro u hu
    rw [htask u (hne u hu)]
  · intro u hu hx
    obtain ⟨hs, huc⟩ := hold u hu (.inr hx)
    exact ⟨hs, (hpoint u huc).mp hx⟩
  · intro u hu hx hhang
    exact ⟨hsub u hu, (hpoint u (hne u hu)).mpr hx, by rwa [hstatus u (hne u hu)]⟩
  · intro u hu ht
    obtain ⟨hs, huc⟩ := hold u hu (.inl (by rw [ht]; decide))
    exact ⟨hs, by rwa [hstatus u huc] at ht⟩
  · intro u hu ht
    exact (hold u hu (.inl (by rw [ht]; decide))).1
  · intro u hu
    by_cases huc : u = c
    · rw [huc, hnew.1] at hu
      cases hu
    · rwa [hstatus u huc] at hu

theorem Kept.started {bit : ℕ} {thread : Tid} (hfree : s.PageFree thread) (name : List UInt8)
    (prio : UInt8) : Kept s (s.withStarted bit thread name prio) ∧
      Calm s (s.withStarted bit thread name prio) := by
  refine Kept.birth hfree.1 ?_ ?_ ?_ ?_ ?_
  · intro u hu
    simpa [Kernel.withStarted] using hu
  · intro u hu
    simp [Kernel.withStarted, hu]
  · intro u hu
    simp [Kernel.withStarted, Kernel.withThread, hu]
  · intro u hu
    simp [Kernel.withStarted, Kernel.withThread, hu]
  · simp [Kernel.withStarted, Kernel.withThread, Kernel.status, newPcb]

theorem Kept.copied {bit : ℕ} {child : Tid} (hfree : s.PageFree child)
    (hcur : s.runningThread ∈ s.threadAllList) (huser : s.point s.runningThread = .user) :
    Kept s (s.withCopy bit child) ∧ Calm s (s.withCopy bit child) := by
  have hne : s.runningThread ≠ child := fun he => hfree.1 (he ▸ hcur)
  refine Kept.birth hfree.1 (fun u hu => .inl hu) (fun u hu => hu) ?_ ?_ ?_
  · intro u hu
    simp [Kernel.withCopy, Kernel.setPoint, Kernel.withThread, hu]
  · intro u hu
    by_cases hur : u = s.runningThread
    · subst hur
      simp [Kernel.withCopy, Kernel.setPoint, Kernel.withThread, huser]
    · simp [Kernel.withCopy, Kernel.setPoint, Kernel.withThread, hu, hur]
  · simp [Kernel.withCopy, Kernel.setPoint, Kernel.withThread, hne.symm, Kernel.status, copyPcb]

theorem Kept.failed {child : Tid} (hfork : s.point s.runningThread = .fork child) :
    Kept s (s.setPoint .user) ∧ Calm s (s.setPoint .user) := by
  have hpoint : ∀ u, (s.setPoint .user).point u = .exiting ↔ s.point u = .exiting := by
    intro u
    by_cases hur : u = s.runningThread
    · subst hur
      simp [Kernel.setPoint, hfork]
    · simp [Kernel.setPoint, hur]
  refine ⟨⟨fun _ _ => rfl, fun _ _ => rfl, ?_, ?_, fun u hu ht => ⟨hu, ht⟩, fun u hu _ => hu⟩,
    Calm.refl s⟩
  · exact fun u hu hx => ⟨hu, (hpoint u).mp hx⟩
  · exact fun u hu hx hhang => ⟨hu, (hpoint u).mpr hx, hhang⟩

theorem Kept.forked (h : s.Scheduled) {child : Tid}
    (hfork : s.point s.runningThread = .fork child) :
    Kept s (s.withChild child) ∧ Calm s (s.withChild child) := by
  obtain ⟨hmem, hready, huser⟩ := h.pending _ h.current_mem child hfork
  have hne : child ≠ s.runningThread := fun he => hmem (he ▸ h.current_mem)
  refine Kept.birth hmem ?_ ?_ ?_ ?_ ⟨?_, ?_⟩
  · intro u hu
    simpa [Kernel.withChild] using hu
  · intro u hu
    simp [Kernel.withChild, hu]
  · intro u hu
    simp [Kernel.withChild, Kernel.setTask, Kernel.setPoint, hu]
  · intro u hu
    by_cases hur : u = s.runningThread
    · subst hur
      simp [Kernel.withChild, Kernel.setTask, Kernel.setPoint, hfork]
    · simp [Kernel.withChild, Kernel.setTask, Kernel.setPoint, hur]
  · simpa [Kernel.withChild, Kernel.status, Kernel.setTask, Kernel.setPoint] using hready
  · simpa [Kernel.withChild, Kernel.setTask, Kernel.setPoint, hne] using huser

theorem Kept.reaped {c : Tid} (hnodup : s.threadAllList.Nodup) (hhang : s.status c = .hanging) :
    Kept s (threadExit s c) ∧ Calm s (threadExit s c) := by
  have hmem : ∀ u, u ∈ (threadExit s c).threadAllList ↔ u ≠ c ∧ u ∈ s.threadAllList :=
    fun u => hnodup.mem_erase_iff
  have hstatus : ∀ u, u ≠ c → (threadExit s c).status u = s.status u := by
    intro u hu
    simp [threadExit, releasePid, Kernel.status, Kernel.setStatus, Kernel.setTask, hu]
  have hkeep {α : Type} (g : TaskStruct → α)
      (hg : ∀ p : TaskStruct, g { p with status := .died } = g p) (u : Tid) :
      g ((threadExit s c).task u) = g (s.task u) := setTask_field g hg c u
  refine ⟨⟨fun u _ => hkeep TaskStruct.pid (fun _ => rfl) u,
    fun u _ => hkeep TaskStruct.parentPid (fun _ => rfl) u, ?_, ?_, ?_, ?_⟩, ?_⟩
  · exact fun u hu hx => ⟨((hmem u).mp hu).2, hx⟩
  · intro u hu hx hne
    have huc : u ≠ c := fun he => hne (he ▸ hhang)
    exact ⟨(hmem u).mpr ⟨huc, hu⟩, hx, by rwa [hstatus u huc]⟩
  · intro u hu ht
    obtain ⟨huc, hu⟩ := (hmem u).mp hu
    exact ⟨hu, by rwa [hstatus u huc] at ht⟩
  · exact fun u hu _ => ((hmem u).mp hu).2
  · intro u hu
    by_cases huc : u = c
    · simp [huc, threadExit, releasePid, Kernel.status, Kernel.setStatus, Kernel.setTask] at hu
    · rwa [hstatus u huc] at hu

theorem Kept.execv (path : List UInt8) :
    Kept s (sysExecv s path) ∧ Calm s (sysExecv s path) := by
  have hstatus := execv_status s path
  refine ⟨⟨fun u _ => execv_field TaskStruct.pid (fun _ _ => rfl) s path u,
    fun u _ => execv_field TaskStruct.parentPid (fun _ _ => rfl) s path u,
    fun u hu hx => ⟨hu, hx⟩, fun u hu hx hne => ⟨hu, hx, by rwa [hstatus]⟩,
    fun u hu ht => ⟨hu, by rwa [hstatus] at ht⟩, fun u hu _ => hu⟩,
    fun u hu => by rwa [hstatus] at hu⟩

/-- The PCBs after an exit: the children of the process are init's. -/
theorem withExit_task (s : Kernel) (arg : Int32) (u : Tid) :
    ((s.withExit arg).task u).pid = (s.task u).pid ∧
    (s.withExit arg).status u = s.status u ∧
    ((s.withExit arg).task u).parentPid =
      if u ∈ s.threadAllList ∧ (s.task u).parentPid = (s.task s.runningThread).pid then 1
      else (s.task u).parentPid := by
  set s₁ := s.setTask s.runningThread (fun p => { p with exitStatus := arg.toInt8 }) with hs₁
  have hkeep {α : Type} (g : TaskStruct → α)
      (hg : ∀ p : TaskStruct, g { p with exitStatus := arg.toInt8 } = g p) (u : Tid) :
      g (s₁.task u) = g (s.task u) := setTask_field g hg _ u
  have hparent := (adaptChildren_task s₁ (s.task s.runningThread).pid u).2.2.2
  rw [hkeep TaskStruct.parentPid (fun _ => rfl) u] at hparent
  exact ⟨(adaptChildren_task s₁ _ u).1.trans (hkeep TaskStruct.pid (fun _ => rfl) u),
    (adaptChildren_status s₁ _ u).trans (hkeep TaskStruct.status (fun _ => rfl) u), hparent⟩

theorem withExit_point (s : Kernel) (arg : Int32) (u : Tid) :
    (s.withExit arg).point u = if u = s.runningThread then .exiting else s.point u :=
  Function.update_apply ..

/-- The place of a step of `kernelExec` among the kinds. -/
theorem exec_cases (h : Delivery tr s) {e : Event} (hstep : kernelExec.step s e t) :
    (∃ on, StepKind { s with intrOn := on } t e) ∨ e = .quiet ∧ ∃ path, t = sysExecv s path := by
  obtain hstep | ⟨rfl, -, -, -, path, rfl⟩ := hstep
  · exact .inl (step_cases h hstep)
  · exact .inr ⟨rfl, path, rfl⟩

/-- Who exits has a parent. -/
def ExitingHasParent (s : Kernel) : Prop :=
  ∀ u ∈ s.threadAllList, s.point u = .exiting → (s.task u).parentPid ≠ -1

theorem ExitingHasParent.kept (h : ExitingHasParent s) (hk : Kept s t) : ExitingHasParent t := by
  intro u hu hx
  obtain ⟨hs, hx⟩ := hk.exiting u hu hx
  rw [hk.parent u hs]
  exact h u hs hx

theorem ExitingHasParent.step (hd : Delivery tr s) (h : ExitingHasParent s) {e : Event}
    (hstep : kernelExec.step s e t) : ExitingHasParent t := by
  obtain ⟨on, hkind⟩ | ⟨-, path, rfl⟩ := exec_cases hd hstep
  swap
  · exact h.kept (Kept.execv path).1
  have hs : ExitingHasParent { s with intrOn := on } := h
  have hsched : Kernel.Scheduled { s with intrOn := on } :=
    ⟨hd.scheduled.settled, hd.scheduled.pending, hd.scheduled.pending_unique⟩
  cases hkind with
  | quiet _ hf _ => exact hs.kept (Kept.frame hf)
  | slept hf _ _ => exact hs.kept (Kept.frame hf)
  | hung hx _ hf _ _ =>
    intro u hu hxu
    rw [hf.all] at hu
    rw [hf.point] at hxu
    have hp := (hf.parentPid u).trans (setTask_field (f := fun p => { p with status := .hanging })
      TaskStruct.parentPid (fun _ => rfl) _ u)
    rw [hp]
    exact h u hu hxu
  | started hfree he =>
    subst he
    exact hs.kept (Kept.started hfree _ _).1
  | copied hfree huser he =>
    subst he
    exact hs.kept (Kept.copied hfree hd.scheduled.current_mem huser).1
  | failed hfork he =>
    subst he
    exact hs.kept (Kept.failed hfork).1
  | forked hfork he =>
    subst he
    exact hs.kept (Kept.forked hsched hfork).1
  | reaped _ hhang he =>
    subst he
    exact hs.kept (Kept.reaped (s := { s with intrOn := on }) hsched.settled.all_nodup hhang).1
  | exited huser hparent he =>
    subst he
    intro u hu hx
    rw [(withExit_task _ _ u).2.2]
    split_ifs
    · decide
    · rw [withExit_point] at hx
      split_ifs at hx with hur
      · rw [hur]
        exact hparent
      · exact h u hu hx

theorem exiting_has_parent {s₀ : Kernel} (hboot : kernelExec.start s₀)
    (hrun : kernelExec.Run s₀ tr s) : Delivery tr s ∧ ExitingHasParent s := by
  obtain ⟨init, main, idle, value, him, hid, hmd, hinit⟩ := hboot
  have hat := threadInit_atBoot him hid hmd hinit
  refine hrun.history (I := fun tr s => Delivery tr s ∧ ExitingHasParent s) ?_
    ⟨hat.delivery him hid hmd, ?_⟩
  · intro tr s e t hs hstep
    exact ⟨hs.1.exec hstep, hs.2.step hs.1 hstep⟩
  · intro u _ hx
    simp [hat.point] at hx

/-- In every run the pids of the threads are distinct and their bits are set, every
parent is a thread, `sys_exit` finds it, and it forked the child or is init and the
forker has exited. -/
theorem process_identity {s₀ : Kernel} (hboot : kernelExec.start s₀)
    (hrun : kernelExec.Run s₀ tr s) :
    (s.threadAllList.map fun u => (s.task u).pid).Nodup ∧
    (∀ u ∈ s.threadAllList, ∃ bit : ℕ, (s.task u).pid = (bit : ℤ) + 1 ∧
      bitmapScanTest s.pidBitmap bit = true) ∧
    (∀ u ∈ s.threadAllList, (s.task u).parentPid = -1 ∨
      ∃ p ∈ s.threadAllList, (s.task p).pid = (s.task u).parentPid) ∧
    (∀ u ∈ s.threadAllList, s.point u = .exiting →
      ∃ p ∈ s.threadAllList, pid2thread s (s.task u).parentPid = some p) ∧
    (∀ u ∈ s.threadAllList, ∀ p ∈ s.threadAllList, (s.task p).pid = (s.task u).parentPid →
      (∃ f, .forked f (s.serial u) ∈ tr) ∧
      ∀ f, .forked f (s.serial u) ∈ tr → f = s.serial p ∨
        (s.serial p = 0 ∧ ∃ arg, .exited f arg ∈ tr)) := by
  obtain ⟨h, hexit⟩ := exiting_has_parent hboot hrun
  have hparent : ∀ u ∈ s.threadAllList, (s.task u).parentPid ≠ -1 →
      ∃ p ∈ s.threadAllList, (s.task p).pid = (s.task u).parentPid := by
    intro u hu hne
    obtain ⟨p, hp, hpid, -⟩ := h.family.parent u hu hne
    exact ⟨p, hp, hpid⟩
  refine ⟨?_, fun u hu => h.names.pid_bit u (.inl hu), ?_, ?_, ?_⟩
  · refine h.scheduled.settled.all_nodup.map_on ?_
    exact fun u hu v hv he => h.names.pid_unique u v (.inl hu) (.inl hv) he
  · intro u hu
    by_cases hne : (s.task u).parentPid = -1
    · exact .inl hne
    · exact .inr (hparent u hu hne)
  · intro u hu hx
    obtain ⟨p, hp, hpid⟩ := hparent u hu (hexit u hu hx)
    have hsome : (pid2thread s (s.task u).parentPid).isSome := by
      rw [pid2thread, List.find?_isSome]
      exact ⟨p, hp, by simpa using hpid⟩
    obtain ⟨q, hq⟩ := Option.isSome_iff_exists.mp hsome
    exact ⟨q, List.mem_of_find?_eq_some hq, hq⟩
  · intro u hu p hp hpid
    have hne : (s.task u).parentPid ≠ -1 := by
      obtain ⟨bit, hbit, -⟩ := h.names.pid_bit p (.inl hp)
      omega
    obtain ⟨q, hq, hqpid, -, hforked⟩ := h.family.parent u hu hne
    obtain rfl := h.names.pid_unique q p (.inl hq) (.inl hp) (hqpid.trans hpid.symm)
    exact hforked

/-- init forks a child, the child exits and is reaped, and the next child has its pid. -/
theorem process_identity_reuse : ∃ s₀ s tr, kernelExec.start s₀ ∧ kernelExec.Run s₀ tr s ∧
    .reaped 0 3 4 0 ∈ tr ∧ (∃ u ∈ s.threadAllList, (s.task u).pid = 4 ∧ s.serial u = 4) ∧
    (s.threadAllList.map fun u => (s.task u).pid).Nodup := by
  obtain ⟨s₀, h₀, ⟨s, tr⟩, h₁, hreaped, hpid⟩ : ∃ s₀, threadInit 1 2 3 (fun _ => 1) = .ok s₀ ∧
      ∃ v ∈ performAll s₀ [.threadYield, .forkCopy 4, .forkFinish true, .wait, .idle, .threadYield,
        .exit 0, .exitHang, .wait, .forkCopy 5, .forkFinish true],
        .reaped 0 3 4 0 ∈ v.2 ∧ ∃ u ∈ v.1.threadAllList, (v.1.task u).pid = 4 ∧ v.1.serial u = 4 := by
    decide
  have hboot : kernelExec.start s₀ :=
    ⟨1, 2, 3, fun _ => 1, by decide, by decide, by decide, h₀⟩
  have hrun := run_exec (performAll_run h₁)
  exact ⟨s₀, s, tr, hboot, hrun, hreaped, hpid, (process_identity hboot hrun).1⟩

end X86System.Thread
