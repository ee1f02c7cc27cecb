import X86System.Parents

/-!
# Sleeping parents

A process that exits wakes its parent if that sleeps in `sys_wait`. The hanging
children it leaves behind go to init, and nobody wakes init for them: a sleeping
init over a hanging child is the one case in which a wakeup is missed, and it does
not arise where another child of init is on its way out.
-/
namespace X86System.Thread
open Exec Transition

variable {s t : Kernel} {tr : List Event}

/-- In `sys_exit`, with the wakeup of the parent still to come. -/
def Kernel.Leaving (s : Kernel) (x : Tid) : Prop :=
  x ∈ s.threadAllList ∧ s.point x = .exiting ∧ s.status x ≠ .hanging

/-- Only init may sleep over a hanging child, and then a child of it will wake it. -/
def SleepersWoken (s : Kernel) : Prop :=
  ∀ p ∈ s.threadAllList, s.status p = .waiting →
    ∀ c ∈ s.threadAllList, s.status c = .hanging → (s.task c).parentPid = (s.task p).pid →
      (s.task p).pid = 1 ∧ ∃ x, s.Leaving x ∧ (s.task x).parentPid = 1

/-- Where a process exits over a hanging child while init sleeps, the process or another
that is leaving is a child of init, or a leaving child of the process becomes one. -/
def OrphansSeen (s : Kernel) (e : Event) : Prop :=
  ∀ child arg, e = .exited child arg →
    ∀ p ∈ s.threadAllList, (s.task p).pid = 1 → s.status p = .waiting →
      ∀ c ∈ s.threadAllList, s.status c = .hanging →
        (s.task c).parentPid = (s.task s.runningThread).pid →
          ∃ x ∈ s.threadAllList,
            (x = s.runningThread ∨ s.point x = .exiting ∧ s.status x ≠ .hanging) ∧
            ((s.task x).parentPid = 1 ∨
              (s.task x).parentPid = (s.task s.runningThread).pid)

theorem Kernel.Leaving.kept {x : Tid} (h : s.Leaving x) (hk : Kept s t) : t.Leaving x :=
  hk.still x h.1 h.2.1 h.2.2

theorem SleepersWoken.kept (h : SleepersWoken s) (hk : Kept s t)
    (hwait : ∀ p ∈ s.threadAllList, t.status p = .waiting →
      ∀ c ∈ s.threadAllList, s.status c = .hanging → (s.task c).parentPid = (s.task p).pid →
        s.status p = .waiting) : SleepersWoken t := by
  intro p hp hw c hc hhang hparent
  obtain ⟨hcs, hhang⟩ := hk.hanging c hc hhang
  have hps := hk.waiting p hp hw
  rw [hk.parent c hcs, hk.pid p hps] at hparent
  obtain ⟨hone, x, hx, hxp⟩ := h p hps (hwait p hps hw c hcs hhang hparent) c hcs hhang hparent
  refine ⟨by rwa [hk.pid p hps], x, hx.kept hk, ?_⟩
  rw [hk.parent x hx.1]
  exact hxp

theorem SleepersWoken.calm (h : SleepersWoken s) (hk : Kept s t ∧ Calm s t) : SleepersWoken t :=
  h.kept hk.1 fun p _ hw _ _ _ _ => hk.2 p hw

/-- A thread that is found by its pid is the only one with it. -/
theorem pid2thread_unique (hd : Delivery tr s) {pid : ℤ} {p q : Tid}
    (hq : pid2thread s pid = some q) (hp : p ∈ s.threadAllList) (hpid : (s.task p).pid = pid) :
    p = q := by
  have hqpid : (s.task q).pid = pid := by simpa using List.find?_some hq
  exact hd.names.pid_unique p q (.inl hp) (.inl (List.mem_of_find?_eq_some hq))
    (hpid.trans hqpid.symm)

/-- A process that hangs has woken its parent. -/
theorem SleepersWoken.hung (hd : Delivery tr s) (h : SleepersWoken s) {parent : Tid}
    (hparent : pid2thread s (s.task s.runningThread).parentPid = some parent)
    (hf : (s.setStatus s.runningThread .hanging).Frame t) (hcalm : Calm s t)
    (hawake : t.status parent ≠ .waiting) : SleepersWoken t := by
  have hpp (u : Tid) : (t.task u).parentPid = (s.task u).parentPid :=
    (hf.parentPid u).trans (setTask_field (f := fun p => { p with status := .hanging })
      TaskStruct.parentPid (fun _ => rfl) _ u)
  have hpid (u : Tid) : (t.task u).pid = (s.task u).pid :=
    (hf.pid u).trans (setTask_field (f := fun p => { p with status := .hanging })
      TaskStruct.pid (fun _ => rfl) _ u)
  have hhangs (u : Tid) (hu : u ≠ s.runningThread) (ht : t.status u = .hanging) :
      s.status u = .hanging := by
    have hs := hf.hanging u ht
    simpa [Kernel.status, Kernel.setStatus, Kernel.setTask, hu] using hs
  have hall : t.threadAllList = s.threadAllList := hf.all
  -- who waits is not the parent that was woken
  have hother (p : Tid) (hp : p ∈ s.threadAllList) (hw : t.status p = .waiting) :
      (s.task s.runningThread).parentPid ≠ (s.task p).pid := by
    intro he
    rw [pid2thread_unique hd hparent hp he.symm] at hw
    exact hawake hw
  intro p hp hw c hc hhang hcp
  rw [hall] at hp hc
  rw [hpp, hpid] at hcp
  have hne : c ≠ s.runningThread := fun he => hother p hp hw (by rw [← he, hcp])
  obtain ⟨hone, x, hx, hxp⟩ := h p hp (hcalm p hw) c hc (hhangs c hne hhang) hcp
  refine ⟨by rw [hpid, hone], x, ⟨by rw [hall]; exact hx.1, ?_, ?_⟩, by rw [hpp, hxp]⟩
  · rw [hf.point]
    exact hx.2.1
  · intro ht
    have hxr : x ≠ s.runningThread :=
      fun he => hother p hp hw (by rw [← he, hxp, hone])
    exact hx.2.2 (hhangs x hxr ht)

/-- The children of a process that exits are handed to init. -/
theorem SleepersWoken.exited (hd : Delivery tr s) (h : SleepersWoken s) {arg : Int32}
    (hseen : OrphansSeen s (.exited (s.serial s.runningThread) arg)) :
    SleepersWoken (s.withExit arg) := by
  have htask := withExit_task s arg
  have hpoint (u : Tid) (hu : s.point u = .exiting) : (s.withExit arg).point u = .exiting := by
    rw [withExit_point]
    split_ifs
    · rfl
    · exact hu
  have hrun : s.status s.runningThread ≠ .hanging := by
    have hcur : s.status s.runningThread = .running := hd.scheduled.settled.current_running
    simp [hcur]
  intro p hp hw c hc hhang hcp
  rw [(htask p).2.1] at hw
  rw [(htask c).2.1] at hhang
  rw [(htask p).1] at hcp ⊢
  have hmem (u : Tid) (hu : u ∈ s.threadAllList) : u ∈ (s.withExit arg).threadAllList := hu
  by_cases hchild : (s.task c).parentPid = (s.task s.runningThread).pid
  · rw [(htask c).2.2, if_pos ⟨hc, hchild⟩] at hcp
    obtain ⟨x, hx, hleave, hxp⟩ := hseen _ _ rfl p hp hcp.symm hw c hc hhang hchild
    refine ⟨hcp.symm, x, ⟨hmem x hx, ?_, ?_⟩, ?_⟩
    · obtain rfl | ⟨hpt, -⟩ := hleave
      · simp [withExit_point]
      · exact hpoint x hpt
    · rw [(htask x).2.1]
      obtain rfl | ⟨-, hst⟩ := hleave
      · exact hrun
      · exact hst
    · rw [(htask x).2.2]
      obtain hone | hsame := hxp
      · rw [hone, ite_self]
      · rw [if_pos ⟨hx, hsame⟩]
  · rw [(htask c).2.2, if_neg fun he => hchild he.2] at hcp
    obtain ⟨hone, x, hx, hxp⟩ := h p hp hw c hc hhang hcp
    refine ⟨hone, x, ⟨hmem x hx.1, hpoint x hx.2.1, ?_⟩, ?_⟩
    · rw [(htask x).2.1]
      exact hx.2.2
    · rw [(htask x).2.2, hxp, ite_self]

theorem SleepersWoken.step (hd : Delivery tr s) (h : SleepersWoken s) {e : Event}
    (hseen : OrphansSeen s e) (hstep : kernelExec.step s e t) : SleepersWoken t := by
  obtain ⟨on, hkind⟩ | ⟨-, path, rfl⟩ := exec_cases hd hstep
  swap
  · exact h.calm (Kept.execv path)
  have hs : SleepersWoken { s with intrOn := on } := h
  have hds : Delivery tr { s with intrOn := on } :=
    ⟨⟨hd.scheduled.settled, hd.scheduled.pending, hd.scheduled.pending_unique⟩,
      hd.names.congr (fun _ _ => ⟨rfl, rfl, rfl, Iff.rfl⟩) rfl rfl,
      hd.family.congr rfl (fun _ => ⟨rfl, rfl, rfl⟩) rfl hd.family.hanging⟩
  have hcur := hd.scheduled.current_mem
  cases hkind with
  | quiet _ hf hcalm => exact hs.calm ⟨Kept.frame hf, hcalm⟩
  | slept hf hwait hnone =>
    refine hs.kept (Kept.frame hf) fun p hp hw c hc hhang hcp => ?_
    obtain rfl | hps := hwait p hw
    · exact absurd hhang (hnone c hc hcp)
    · exact hps
  | hung _ hparent hf hcalm hawake => exact hs.hung hds hparent hf hcalm hawake
  | started hfree he => exact he ▸ hs.calm (Kept.started hfree _ _)
  | copied hfree huser he => exact he ▸ hs.calm (Kept.copied hfree hcur huser)
  | failed hfork he => exact he ▸ hs.calm (Kept.failed hfork)
  | forked hfork he => exact he ▸ hs.calm (Kept.forked hds.scheduled hfork)
  | reaped _ hhang he =>
    exact he ▸ hs.calm (Kept.reaped (s := { s with intrOn := on })
      hd.scheduled.settled.all_nodup hhang)
  | exited _ _ he => exact he ▸ hs.exited hds hseen

/-- If no exit hands a hanging child to a sleeping init unseen, no parent sleeps over a
hanging child in a state in which no process is inside `sys_exit`. -/
theorem waiting_parents_woken {s₀ : Kernel} (hboot : kernelExec.start s₀)
    (hrun : kernelExec.RunWhere OrphansSeen s₀ tr s)
    (hquiet : ∀ x ∈ s.threadAllList, s.point x = .exiting → s.status x = .hanging) :
    ∀ p ∈ s.threadAllList, s.status p = .waiting →
      ∀ c ∈ s.threadAllList, (s.task c).parentPid = (s.task p).pid → s.status c ≠ .hanging := by
  have hinv : (∃ tr, Delivery tr s) ∧ SleepersWoken s := by
    obtain ⟨init, main, idle, value, him, hid, hmd, hinit⟩ := hboot
    have hat := threadInit_atBoot him hid hmd hinit
    have hdel := hat.delivery him hid hmd
    refine hrun.keeps (I := fun s => (∃ tr, Delivery tr s) ∧ SleepersWoken s) ?_
      ⟨⟨[], hdel⟩, ?_⟩
    · rintro s e t ⟨⟨tr, hd⟩, hs⟩ hseen hstep
      exact ⟨⟨tr ++ [e], hd.exec hstep⟩, hs.step hd hseen hstep⟩
    · intro p _ _ c hc hhang
      have hx := hdel.family.hanging c hc hhang
      simp [hat.point] at hx
  intro p hp hw c hc hcp hhang
  obtain ⟨-, x, ⟨hx, hpoint, hstat⟩, -⟩ := hinv.2 p hp hw c hc hhang hcp
  exact hstat (hquiet x hx hpoint)

/-- Where nothing hangs, an exit leaves no hanging child behind. -/
theorem orphansSeen_of_none (h : ∀ c ∈ s.threadAllList, s.status c ≠ .hanging) (e : Event) :
    OrphansSeen s e :=
  fun _ _ _ _ _ _ _ c hc hhang => absurd hhang (h c hc)

set_option synthInstance.maxSize 256 in
/-- init waits for a child; the child exits, and init does not sleep over it. -/
theorem waiting_parents_woken_exit : ∃ s₀ s tr, kernelExec.start s₀ ∧
    kernelExec.RunWhere OrphansSeen s₀ tr s ∧ .exited 3 7 ∈ tr ∧
    (∃ c ∈ s.threadAllList, s.status c = .hanging ∧ (s.task c).parentPid = 1) ∧
    ∀ p ∈ s.threadAllList, s.status p = .waiting →
      ∀ c ∈ s.threadAllList, (s.task c).parentPid = (s.task p).pid → s.status c ≠ .hanging := by
  obtain ⟨s₀, h₀, ⟨s, tr⟩, h₁, ⟨t, e⟩, h₂, ⟨u, e'⟩, h₃, hsilent, hnone, hen₂, rfl, hen₃, rfl, hquiet,
      hhang⟩ : ∃ s₀, threadInit 1 2 3 (fun _ => 1) = .ok s₀ ∧
      ∃ v ∈ performAll s₀ [.threadYield, .forkCopy 4, .forkFinish true, .wait, .idle, .threadYield],
        ∃ w, perform { v.1 with intrOn := false } (.exit 7) = .ok w ∧
          ∃ x, perform { w.1 with intrOn := false } .exitHang = .ok x ∧
            (∀ a ∈ v.2, a = .quiet ∨ a = .forked 0 3) ∧
            (∀ c ∈ v.1.threadAllList, v.1.status c ≠ .hanging) ∧ Action.Enabled v.1 (.exit 7) ∧
            w.2 = .exited 3 7 ∧ Action.Enabled w.1 .exitHang ∧ x.2 = .quiet ∧
            (∀ c ∈ x.1.threadAllList, x.1.point c = .exiting → x.1.status c = .hanging) ∧
            ∃ c ∈ x.1.threadAllList, x.1.status c = .hanging ∧ (x.1.task c).parentPid = 1 := by
    decide
  have hboot : kernelExec.start s₀ :=
    ⟨1, 2, 3, fun _ => 1, by decide, by decide, by decide, h₀⟩
  have hrun₁ : kernelExec.RunWhere OrphansSeen s₀ tr s := by
    refine (run_exec (performAll_run h₁)).where fun a ha u child arg he => ?_
    obtain rfl | rfl := hsilent a ha <;> cases he
  have hrun₂ := hrun₁.snoc (orphansSeen_of_none hnone _) (.inl ⟨false, _, hen₂, h₂⟩)
  have hrun₃ := hrun₂.snoc (a := .quiet) (fun _ _ he => by cases he)
    (.inl ⟨false, _, hen₃, h₃⟩)
  exact ⟨s₀, u, _, hboot, hrun₃, by simp, hhang,
    waiting_parents_woken hboot hrun₃ hquiet⟩

/-- init sleeps while its grandchild, which became a program of its own, forks a child,
outlives it without waiting and exits: init is the parent of a hanging child and sleeps. -/
theorem waiting_init_over_hanging_child : ∃ s₀ s tr, kernelExec.start s₀ ∧
    kernelExec.Run s₀ tr s ∧
    (∀ x ∈ s.threadAllList, s.point x = .exiting → s.status x = .hanging) ∧
    ∃ p ∈ s.threadAllList, ∃ c ∈ s.threadAllList, s.status p = .waiting ∧
      (s.task c).parentPid = (s.task p).pid ∧ s.status c = .hanging := by
  obtain ⟨s₀, h₀, ⟨s, tr⟩, h₁, ⟨t, tr'⟩, h₂, ⟨hidle, huser, hpgdir⟩, hquiet, hsleeps⟩ :
      ∃ s₀, threadInit 1 2 3 (fun _ => 1) = .ok s₀ ∧
      ∃ v ∈ performAll s₀ [.threadYield, .forkCopy 4, .forkFinish true, .wait, .idle, .threadYield,
        .forkCopy 5, .forkFinish true, .threadYield, .threadYield],
        ∃ w ∈ performAll (sysExecv v.1 [0x2f, 0x73, 0x68]) [.forkCopy 6, .forkFinish true,
          .threadYield, .threadYield, .threadYield, .exit 0, .exitHang, .exit 0, .exitHang],
          (v.1.runningThread ≠ v.1.idleThread ∧ v.1.point v.1.runningThread = .user ∧
            (v.1.task v.1.runningThread).pgdir = true) ∧
          (∀ c ∈ w.1.threadAllList, w.1.point c = .exiting → w.1.status c = .hanging) ∧
          ∃ p ∈ w.1.threadAllList, ∃ c ∈ w.1.threadAllList, w.1.status p = .waiting ∧
            (w.1.task c).parentPid = (w.1.task p).pid ∧ w.1.status c = .hanging := by
    decide
  have hrun := ((run_exec (performAll_run h₁)).snoc
    (.inr ⟨rfl, hidle, huser, hpgdir, _, rfl⟩)).append (run_exec (performAll_run h₂))
  exact ⟨s₀, t, _, ⟨1, 2, 3, fun _ => 1, by decide, by decide, by decide, h₀⟩, hrun, hquiet,
    hsleeps⟩

end X86System.Thread
