import X86System.Library.Transition
import X86System.SwitchTo
import Mathlib.Data.Finset.Basic

/-!
# The contexts of the threads over whole runs

The threads share one processor. What runs of them is compiled C code, of which only this much is
known: it keeps its stack below the frame of the program it serves, and leaves the
stacks of the other threads alone. Everything else that touches a stack is modelled: the entries
into the kernel and the ways out, the switch, and the functions that make up a stack. Each thread
goes on exactly where it left, in the kernel as in its program.
-/
namespace X86System.Context
open StackMachine Transition

/-- The addresses of code that the kernel puts on a stack. -/
structure Symbols where
  kernelThread : ℕ
  intrExit : ℕ

structure Kernel where
  cpu : Cpu
  /-- The PCB of the thread that runs. -/
  cur : ℕ
  /-- `esp0` of the TSS -/
  esp0 : ℕ
  /-- The PCBs in `thread_all_list`. -/
  threads : Finset ℕ
  /-- The threads with a `pgdir`. -/
  processes : Finset ℕ

section Steps

variable (y : Symbols) (s : Kernel)

def Kernel.InUser : Prop := s.cpu.reg .cs % 4 = 3

/-- The end of the part of a stack that the C code may use: a process has the frame of its program
above it. -/
def Kernel.guard (t : ℕ) : ℕ := if t ∈ s.processes then t + 4020 else t + 4096

/-- `self_kstack` and the words that are in use of the stack of a thread that does not run. -/
def Suspended (m : ℕ → ℕ) (t x : ℕ) : Prop := x = t ∨ m t ≤ x ∧ x < t + 4096

/-- What the C code of the running thread leaves alone. -/
def Kernel.Reserved (x : ℕ) : Prop :=
  s.guard s.cur ≤ x ∧ x < s.cur + 4096 ∨ x = s.cur ∨
    ∃ t ∈ s.threads, t ≠ s.cur ∧ Suspended s.cpu.mem t x

/-- The running thread serves a program, whose frame is at the top of the stack. -/
def Kernel.Serves : Prop :=
  s.cur ∈ s.threads ∧ s.cur ∈ s.processes ∧ s.cpu.mem (s.cur + 4080) % 4 = 3

/-- `process_activate` -/
def Kernel.processActivate (next : ℕ) : ℕ :=
  if next ∈ s.processes then next + 4096 else s.esp0

/-- A page that a new PCB may take. -/
def Kernel.Fresh (t : ℕ) : Prop := t % 4096 = 0 ∧ t ∉ s.threads ∧ t ≠ s.cur

inductive Event
  | user
  | interrupt (vec entry : ℕ)
  | syscall (entry : ℕ)
  | compute
  | threadCreate (t function arg : ℕ) (process : Bool)
  | fork (child : ℕ)
  | threadExit (t : ℕ)
  | switchTo (next back : ℕ)
  | intrExit
  | syscallReturn (result : ℕ)
  | startProcess (function : ℕ)
  | execv (argv argc entry : ℕ)

inductive Step : Kernel → Event → Kernel → Prop
  /-- A program computes. It does not get at the memory of the kernel. -/
  | user {s : Kernel} (reg : Reg → ℕ) (hin : s.InUser) (hcs : reg .cs = s.cpu.reg .cs) :
      Step s .user { s with cpu := ⟨reg, s.cpu.mem⟩ }
  | interrupt {s : Kernel} (vec entry : ℕ) (hin : s.InUser) :
      Step s (.interrupt vec entry)
        { s with cpu := run (intrEntry vec) (enterKernel s.esp0 entry s.cpu) }
  | syscall {s : Kernel} (entry : ℕ) (hin : s.InUser) :
      Step s (.syscall entry)
        { s with cpu := run syscallEntry (enterKernel s.esp0 entry s.cpu) }
  /-- C code computes, and the interrupts that it takes. -/
  | compute {s : Kernel} (c : Cpu) (hin : ¬ s.InUser) (hcs : c.reg .cs = s.cpu.reg .cs)
      (hsp : c.reg .esp ≤ s.guard s.cur) (hmem : ∀ x, s.Reserved x → c.mem x = s.cpu.mem x) :
      Step s .compute { s with cpu := c }
  /-- `init_thread` and `thread_create` on a new page; a process has `pgdir` set behind them. -/
  | threadCreate {s : Kernel} (t function arg : ℕ) (process : Bool) (hin : ¬ s.InUser)
      (hfresh : s.Fresh t) :
      Step s (.threadCreate t function arg process)
        { s with
          cpu := ⟨s.cpu.reg, threadCreate y.kernelThread t function arg (initKstack t s.cpu.mem)⟩
          threads := insert t s.threads
          processes := if process then insert t s.processes else s.processes.erase t }
  | fork {s : Kernel} (child : ℕ) (hin : ¬ s.InUser) (hserves : s.Serves)
      (hfresh : s.Fresh child) :
      Step s (.fork child)
        { s with
          cpu := ⟨s.cpu.reg, buildChildStack y.intrExit child (copyStack0 child s.cur s.cpu.mem)⟩
          threads := insert child s.threads
          processes := insert child s.processes }
  | threadExit {s : Kernel} (t : ℕ) (hin : ¬ s.InUser) :
      Step s (.threadExit t) { s with threads := s.threads.erase t }
  /-- The end of `schedule`. The stack of the running thread has not run into its PCB. -/
  | switchTo {s : Kernel} (next back : ℕ) (hin : ¬ s.InUser) (hnext : next ∈ s.threads)
      (hroom : s.cur + 32 ≤ s.cpu.reg .esp) :
      Step s (.switchTo next back)
        { s with
          cpu := run (callSwitchTo s.cur next back) s.cpu
          cur := next
          esp0 := s.processActivate next }
  /-- A handler has returned to the stub of an entry from user mode. -/
  | intrExit {s : Kernel} (hin : ¬ s.InUser) (hserves : s.Serves)
      (hsp : s.cpu.reg .esp = s.cur + 4020) :
      Step s .intrExit { s with cpu := run intrExit s.cpu }
  /-- A function of the table has returned to `syscall_handler`. -/
  | syscallReturn {s : Kernel} (result : ℕ) (hin : ¬ s.InUser) (hserves : s.Serves)
      (hsp : s.cpu.reg .esp = s.cur + 4008) (hresult : s.cpu.reg .eax = result) :
      Step s (.syscallReturn result) { s with cpu := run syscallReturn s.cpu }
  /-- `start_process` makes its frame within the page. -/
  | startProcess {s : Kernel} (function : ℕ) (hin : ¬ s.InUser)
      (hproc : s.cur ∈ s.threads ∧ s.cur ∈ s.processes)
      (hplace : s.cur < s.cpu.mem s.cur + 128 ∧ s.cpu.mem s.cur + 204 ≤ s.cur + 4096) :
      Step s (.startProcess function)
        { s with
          cpu :=
            jumpIntrExit (s.cpu.mem s.cur + 128) (startProcess s.cur function s.cpu.mem) s.cpu }
  | execv {s : Kernel} (argv argc entry : ℕ) (hin : ¬ s.InUser) (hserves : s.Serves) :
      Step s (.execv argv argc entry)
        { s with
          cpu := jumpIntrExit (s.cur + 4020) (execv s.cur argv argc entry s.cpu.mem) s.cpu }

instance : Decidable s.InUser := inferInstanceAs (Decidable (_ = _))

instance : Decidable s.Serves := inferInstanceAs (Decidable (_ ∧ _))

instance (t : ℕ) : Decidable (s.Fresh t) := inferInstanceAs (Decidable (_ ∧ _))

/-- In `thread_init` the main thread alone is there, in the kernel. -/
structure Booted (s : Kernel) : Prop where
  threads : s.threads = {s.cur}
  processes : s.processes = ∅
  aligned : s.cur % 4096 = 0
  kernel : ¬ s.InUser
  sp : s.cpu.reg .esp ≤ s.cur + 4096

def contexts : System Kernel Event where
  start := Booted
  step := Step y

end Steps

section Invariant

variable {y : Symbols} {s s' : Kernel} {e : Event} {t x : ℕ}

structure Inv (s : Kernel) : Prop where
  cur_aligned : s.cur % 4096 = 0
  aligned : ∀ t ∈ s.threads, t % 4096 = 0
  suspended : ∀ t ∈ s.threads, t ≠ s.cur → t < s.cpu.mem t ∧ s.cpu.mem t + 20 ≤ s.guard t
  esp0 : s.cur ∈ s.processes → s.esp0 = s.cur + 4096
  user : s.InUser → s.cur ∈ s.threads ∧ s.cur ∈ s.processes
  sp : ¬ s.InUser → s.cpu.reg .esp ≤ s.guard s.cur

theorem guard_le (s : Kernel) (t : ℕ) : s.guard t ≤ t + 4096 := by
  unfold Kernel.guard
  split <;> omega

theorem le_guard (s : Kernel) (t : ℕ) : t + 4020 ≤ s.guard t := by
  unfold Kernel.guard
  split <;> omega

theorem guard_of_mem (h : t ∈ s.processes) : s.guard t = t + 4020 := if_pos h

/-- Words of a suspended stack are in the page of their thread. -/
theorem Inv.page (hs : Inv s) (ht : t ∈ s.threads) (hne : t ≠ s.cur)
    (hx : Suspended s.cpu.mem t x) : t ≤ x ∧ x < t + 4096 := by
  have := hs.suspended t ht hne
  unfold Suspended at hx
  omega

/-- No step touches the stack of a thread that does not run. -/
theorem mem_eq_of_step (h : Step y s e s') (hs : Inv s) (ht : t ∈ s.threads) (hne : t ≠ s.cur)
    (hx : Suspended s.cpu.mem t x) : s'.cpu.mem x = s.cpu.mem x := by
  obtain ⟨hlow, hhigh⟩ := hs.page ht hne hx
  have halign := hs.aligned t ht
  have hcur := hs.cur_aligned
  have hguard := guard_le s s.cur
  cases h with
  | user reg hin hcs => rfl
  | interrupt vec entry hin =>
    have hesp0 := hs.esp0 (hs.user hin).2
    have hentered := run_intrEntry s.cpu entry vec (show 76 ≤ s.esp0 by omega)
    have hout : x < s.esp0 - 76 - 4 * 0 ∨ s.esp0 ≤ x := by omega
    exact hentered.rest x hout
  | syscall entry hin =>
    have hesp0 := hs.esp0 (hs.user hin).2
    have hentered := run_syscallEntry s.cpu entry (show 88 ≤ s.esp0 by omega)
    have hout : x < s.esp0 - 76 - 4 * 3 ∨ s.esp0 ≤ x := by omega
    exact hentered.rest x hout
  | compute c hin hcs hsp hmem => exact hmem x (Or.inr (Or.inr ⟨t, ht, hne, hx⟩))
  | threadCreate t' function arg process hin hfresh =>
    obtain ⟨halign', hnew, -⟩ := hfresh
    have : t' ≠ t := fun he => hnew (he ▸ ht)
    have hout : x < t' ∨ t' + 4096 ≤ x := by omega
    have hframe : threadCreate y.kernelThread t' function arg (initKstack t' s.cpu.mem) x =
        s.cpu.mem x := threadCreate_of_not_mem _ _ _ hout
    exact hframe
  | fork child hin hserves hfresh =>
    obtain ⟨halign', hnew, -⟩ := hfresh
    have : child ≠ t := fun he => hnew (he ▸ ht)
    exact (buildChildStack_of_not_mem (by omega)).trans (copyStack0_of_not_mem (by omega))
  | threadExit t' hin => rfl
  | switchTo next back hin hnext hroom =>
    have hsp := hs.sp hin
    have hsaved := (run_callSwitchTo next back hroom).1
    exact hsaved.rest x (by omega) (by omega)
  | intrExit hin hserves hsp => rw [run_intrExit_mem]
  | syscallReturn result hin hserves hsp hresult =>
    rw [run_syscallReturn, jumpIntrExit_mem]
    exact Function.update_of_ne (by omega) _ _
  | startProcess function hin hproc hplace =>
    rw [jumpIntrExit_mem]
    exact startProcess_of_not_mem _ (by omega) (by omega)
  | execv argv argc entry hin hserves =>
    have hout : x < s.cur + 4020 ∨ s.cur + 4096 ≤ x := by omega
    rw [jumpIntrExit_mem]
    exact execv_of_not_mem _ _ _ hout

theorem Inv.of_booted (h : Booted s) : Inv s where
  cur_aligned := h.aligned
  aligned t ht := by
    rw [h.threads, Finset.mem_singleton] at ht
    exact ht ▸ h.aligned
  suspended t ht hne := by
    rw [h.threads, Finset.mem_singleton] at ht
    exact absurd ht hne
  esp0 hproc := by simp [h.processes] at hproc
  user hin := absurd hin h.kernel
  sp _ := by simpa [Kernel.guard, h.processes] using h.sp

/-- Where the same thread runs on, the invariant is about its processor only. -/
theorem Inv.of_cpu (hs : Inv s) {c : Cpu} (hstep : Step y s e { s with cpu := c })
    (huser : c.reg .cs % 4 = 3 → s.cur ∈ s.threads ∧ s.cur ∈ s.processes)
    (hsp : ¬ c.reg .cs % 4 = 3 → c.reg .esp ≤ s.guard s.cur) : Inv { s with cpu := c } where
  cur_aligned := hs.cur_aligned
  aligned := hs.aligned
  suspended t ht hne := by
    rw [mem_eq_of_step hstep hs ht hne (Or.inl rfl)]
    exact hs.suspended t ht hne
  esp0 := hs.esp0
  user := huser
  sp := hsp

theorem leaves_cs (sp : ℕ) (m : ℕ → ℕ) (c : Cpu) (hcs : m (sp + 60) % 4 = 3) :
    (jumpIntrExit sp m c).reg .cs % 4 = 3 := by
  rw [jumpIntrExit_spec (IntrStack.holds_at m sp) hcs]
  exact hcs

/-- Where a thread is added, the invariant is about the place of its stack only. -/
theorem Inv.of_new (hs : Inv s) {m : ℕ → ℕ} {p : Finset ℕ} (hin : ¬ s.InUser) (hfresh : s.Fresh t)
    (hstep : Step y s e
      { s with cpu := ⟨s.cpu.reg, m⟩, threads := insert t s.threads, processes := p })
    (hp : ∀ u, u ≠ t → (u ∈ p ↔ u ∈ s.processes)) (hlow : t < m t) (hhigh : m t ≤ t + 4000) :
    Inv { s with cpu := ⟨s.cpu.reg, m⟩, threads := insert t s.threads, processes := p } := by
  obtain ⟨halign, hnew, hne⟩ := hfresh
  have hguard : ∀ u, u ≠ t →
      Kernel.guard { s with cpu := ⟨s.cpu.reg, m⟩, threads := insert t s.threads, processes := p } u
        = s.guard u := by
    intro u hu
    simp only [Kernel.guard, hp u hu]
  refine ⟨hs.cur_aligned, ?_, ?_, ?_, fun h => absurd h hin, fun _ => ?_⟩
  · intro u hu
    rcases Finset.mem_insert.mp hu with rfl | hu
    · exact halign
    · exact hs.aligned u hu
  · intro u hu hucur
    rcases Finset.mem_insert.mp hu with rfl | hu
    · have := le_guard { s with
        cpu := ⟨s.cpu.reg, m⟩, threads := insert u s.threads, processes := p } u
      exact ⟨hlow, by simp only; omega⟩
    · rw [mem_eq_of_step hstep hs hu hucur (Or.inl rfl), hguard u fun he => hnew (he ▸ hu)]
      exact hs.suspended u hu hucur
  · intro hcur
    exact hs.esp0 ((hp _ hne.symm).mp hcur)
  · rw [hguard _ hne.symm]
    exact hs.sp hin

/-- The ways out of the kernel. -/
def Event.Leaves : Event → Prop
  | .intrExit | .syscallReturn _ | .startProcess _ | .execv .. => True
  | _ => False

/-- A way out leads to the program of the running thread, a process. -/
theorem inUser_of_leaves (h : Step y s e s') (he : e.Leaves) :
    s'.InUser ∧ s.cur ∈ s.threads ∧ s.cur ∈ s.processes := by
  cases h with
  | intrExit hin hserves hsp =>
    refine ⟨?_, hserves.1, hserves.2.1⟩
    dsimp only [Kernel.InUser]
    rw [run_intrExit_eq, hsp]
    exact leaves_cs (s.cur + 4020) _ s.cpu hserves.2.2
  | syscallReturn result hin hserves hsp hresult =>
    have hcs : Function.update s.cpu.mem (s.cur + 4008 + 44) (s.cpu.reg .eax)
        (s.cur + 4008 + 12 + 60) % 4 = 3 := by
      rw [Function.update_of_ne (by omega)]
      exact hserves.2.2
    refine ⟨?_, hserves.1, hserves.2.1⟩
    dsimp only [Kernel.InUser]
    rw [run_syscallReturn, hsp]
    exact leaves_cs (s.cur + 4008 + 12) _ s.cpu hcs
  | startProcess function hin hproc hplace =>
    obtain ⟨f, hreg, hholds⟩ := startProcess_holds function hplace.1
    have hcs : f.cs = selectorUCode := congrFun hreg .cs
    refine ⟨?_, hproc⟩
    rw [Kernel.InUser, jumpIntrExit_spec hholds (by rw [hcs, selectorUCode]), hreg]
    simp [startReg, selectorUCode]
  | execv argv argc entry hin hserves =>
    have hcs : execv s.cur argv argc entry s.cpu.mem (s.cur + 4020 + 60) % 4 = 3 := by
      rw [execv, storeAll_of_forall_ne (by simp)]
      exact hserves.2.2
    refine ⟨?_, hserves.1, hserves.2.1⟩
    dsimp only [Kernel.InUser]
    exact leaves_cs (s.cur + 4020) _ s.cpu hcs
  | _ => exact he.elim

theorem Inv.of_leave (hs : Inv s) {c : Cpu} (hstep : Step y s e { s with cpu := c })
    (he : e.Leaves) : Inv { s with cpu := c } := by
  obtain ⟨hcs, hproc⟩ := inUser_of_leaves hstep he
  exact hs.of_cpu hstep (fun _ => hproc) fun hnot => absurd hcs hnot

theorem Inv.step (hs : Inv s) (h : Step y s e s') : Inv s' := by
  have hcur := hs.cur_aligned
  have hstep := h
  cases h with
  | user reg hin hcs =>
    have hcs' : reg .cs % 4 = 3 := by rwa [hcs]
    exact hs.of_cpu hstep (fun _ => hs.user hin) fun hnot => absurd hcs' hnot
  | interrupt vec entry hin =>
    obtain ⟨hlive, hproc⟩ := hs.user hin
    have hesp0 := hs.esp0 hproc
    have hentered := run_intrEntry s.cpu entry vec (show 76 ≤ s.esp0 by omega)
    refine hs.of_cpu hstep (fun _ => ⟨hlive, hproc⟩) fun _ => ?_
    rw [hentered.sp, guard_of_mem hproc, hesp0]
    simp
  | syscall entry hin =>
    obtain ⟨hlive, hproc⟩ := hs.user hin
    have hesp0 := hs.esp0 hproc
    have hentered := run_syscallEntry s.cpu entry (show 88 ≤ s.esp0 by omega)
    refine hs.of_cpu hstep (fun _ => ⟨hlive, hproc⟩) fun _ => ?_
    rw [hentered.sp, guard_of_mem hproc, hesp0]
    simp
  | compute c hin hcs hsp hmem =>
    exact hs.of_cpu hstep (fun hnow => absurd (by rwa [hcs] at hnow) hin) fun _ => hsp
  | threadCreate t function arg process hin hfresh =>
    refine hs.of_new hin hfresh hstep (fun u hu => ?_) ?_ ?_
    · cases process <;> simp [hu]
    · rw [threadCreate_kstack]
      omega
    · rw [threadCreate_kstack]
      omega
  | fork child hin hserves hfresh =>
    refine hs.of_new hin hfresh hstep (fun u hu => by simp [hu]) ?_ ?_
    · rw [buildChildStack_kstack]
      omega
    · rw [buildChildStack_kstack]
  | threadExit t hin =>
    exact ⟨hcur, fun u hu => hs.aligned u (Finset.mem_of_mem_erase hu),
      fun u hu => hs.suspended u (Finset.mem_of_mem_erase hu), hs.esp0,
      fun h => absurd h hin, hs.sp⟩
  | switchTo next back hin hnext hroom =>
    obtain ⟨hsaved, htaken, hcs⟩ := run_callSwitchTo next back hroom
    have hsp := hs.sp hin
    have hkstack : ∀ t ∈ s.threads,
        t < (run (callSwitchTo s.cur next back) s.cpu).mem t ∧
        (run (callSwitchTo s.cur next back) s.cpu).mem t + 20 ≤ s.guard t := by
      intro t ht
      by_cases hcur' : t = s.cur
      · rw [hcur', hsaved.kstack]
        omega
      · rw [mem_eq_of_step hstep hs ht hcur' (Or.inl rfl)]
        exact hs.suspended t ht hcur'
    refine ⟨hs.aligned next hnext, hs.aligned, fun t ht _ => hkstack t ht,
      fun hproc => if_pos hproc, fun h => ?_, fun _ => ?_⟩
    · rw [Kernel.InUser, hcs] at h
      exact absurd h hin
    rw [htaken.esp]
    exact (hkstack next hnext).2
  | intrExit hin hserves hsp => exact hs.of_leave hstep trivial
  | syscallReturn result hin hserves hsp hresult => exact hs.of_leave hstep trivial
  | startProcess function hin hproc hplace => exact hs.of_leave hstep trivial
  | execv argv argc entry hin hserves => exact hs.of_leave hstep trivial

theorem reachable_inv (h : (contexts y).Reachable s) : Inv s :=
  h.invariant (fun _ hs => .of_booted hs) fun _ _ _ hs hstep => hs.step hstep

end Invariant

section Boot

def bootReg : Reg → ℕ
  | .esp => 0x9e800
  | .cs => selectorKCode
  | _ => 0

def bootKernel : Kernel where
  cpu := ⟨bootReg, fun _ => 0⟩
  cur := 0x9e000
  esp0 := 0
  threads := {0x9e000}
  processes := ∅

def bootSymbols : Symbols := ⟨0x1500, 0x2500⟩

theorem bootKernel_reachable : (contexts bootSymbols).Reachable bootKernel :=
  ⟨bootKernel, [], ⟨rfl, rfl, rfl, by decide, by decide⟩, .nil⟩

/-- A kernel that runs a program. -/
def programKernel : { s : Kernel // (contexts bootSymbols).Reachable s } :=
  ⟨_, ((bootKernel_reachable.step
    (.threadCreate 0x100000 1 2 true (by decide) (by decide))).step
    (.switchTo 0x100000 3 (by decide) (by decide) (by decide))).step
    (.startProcess 1 (by decide) (by decide) (by decide))⟩

end Boot

section Suspension

variable {y : Symbols} {s s₁ s₂ s₃ : Kernel} {t back back' : ℕ} {l : List Event}

/-- While a thread waits, its stack stays as it is. -/
theorem run_suspended (hs : Inv s) (ht : t ∈ s.threads) (hne : t ≠ s.cur)
    (hrun : ((contexts y).within fun u => t ∈ u.threads ∧ u.cur ≠ t).Run s l s₁) :
    Inv s₁ ∧ t ∈ s₁.threads ∧ t ≠ s₁.cur ∧
    ∀ x, Suspended s.cpu.mem t x → s₁.cpu.mem x = s.cpu.mem x := by
  refine hrun.keeps (I := fun u => Inv u ∧ t ∈ u.threads ∧ t ≠ u.cur ∧
    ∀ x, Suspended s.cpu.mem t x → u.cpu.mem x = s.cpu.mem x) ?_ ⟨hs, ht, hne, fun _ _ => rfl⟩
  rintro u e v ⟨hu, htu, hneu, hkept⟩ ⟨hstep, htv, hnev⟩
  have hkstack : u.cpu.mem t = s.cpu.mem t := hkept t (Or.inl rfl)
  refine ⟨hu.step hstep, htv, hnev.symm, fun x hx => ?_⟩
  rw [mem_eq_of_step hstep hu htu hneu (by rwa [Suspended, hkstack])]
  exact hkept x hx

/-- The words of a waiting thread's stack, and what the processor takes from them when the thread
is its next one. -/
theorem switchTo_suspended {k : ℕ} {words : List ℕ} (hs : Inv s) (ht : t ∈ s.threads)
    (hne : t ≠ s.cur) (hkstack : s.cpu.mem t = k) (hwords : Holds s.cpu.mem k words)
    (hlen : k + 4 * words.length ≤ t + 4096)
    (hrun : ((contexts y).within fun u => t ∈ u.threads ∧ u.cur ≠ t).Run s l s₁)
    (hstep : Step y s₁ (.switchTo t back) s₂) :
    Taken s₂.cpu t ∧ s₂.cpu.mem t = k ∧ Holds s₂.cpu.mem k words ∧
    ∀ x, k ≤ x → x < t + 4096 → s₂.cpu.mem x = s.cpu.mem x := by
  obtain ⟨hs₁, ht₁, hne₁, hkept⟩ := run_suspended hs ht hne hrun
  have hkstack₁ : s₁.cpu.mem t = s.cpu.mem t := hkept t (Or.inl rfl)
  have hkept₂ : ∀ x, Suspended s.cpu.mem t x → s₂.cpu.mem x = s.cpu.mem x := fun x hx =>
    (mem_eq_of_step hstep hs₁ ht₁ hne₁ (by rwa [Suspended, hkstack₁])).trans (hkept x hx)
  have hstack : ∀ x, k ≤ x → x < t + 4096 → s₂.cpu.mem x = s.cpu.mem x := fun x hlow hhigh =>
    hkept₂ x (Or.inr ⟨hkstack ▸ hlow, hhigh⟩)
  refine ⟨?_, (hkept₂ t (Or.inl rfl)).trans hkstack, ?_, hstack⟩
  · cases hstep with
    | switchTo _ _ hin hnext hroom => exact (run_callSwitchTo t back hroom).2.1
  · exact hwords.congr fun x hlow hhigh => hstack x hlow (by omega)

/-- The registers and the stack with which C code goes on behind its call of `switch_to`; the two
arguments are still on the stack. -/
structure Resumes (c c' : Cpu) (top back : ℕ) : Prop where
  ebp : c'.reg .ebp = c.reg .ebp
  ebx : c'.reg .ebx = c.reg .ebx
  edi : c'.reg .edi = c.reg .edi
  esi : c'.reg .esi = c.reg .esi
  eip : c'.reg .eip = back
  esp : c'.reg .esp + 8 = c.reg .esp
  stack : ∀ x, c.reg .esp ≤ x → x < top → c'.mem x = c.mem x

/-- The words that `switch_to` saves are enough to resume its caller. -/
theorem Resumes.of_taken {c c' : Cpu} {next : ℕ} (hroom : t + 32 ≤ c.reg .esp)
    (htaken : Taken c' t) (hkstack : c'.mem t = c.reg .esp - 28)
    (hwords : Holds c'.mem (c.reg .esp - 28)
      [c.reg .ebp, c.reg .ebx, c.reg .edi, c.reg .esi, back, t, next])
    (hstack : ∀ x, c.reg .esp ≤ x → x < t + 4096 → c'.mem x = c.mem x) :
    Resumes c c' (t + 4096) back := by
  obtain ⟨hebp, hebx, hedi, hesi, heip, hesp⟩ := htaken
  rw [hkstack] at hebp hebx hedi hesi heip hesp
  obtain ⟨webp, webx, wedi, wesi, weip, -⟩ := hwords
  exact ⟨hebp.trans webp, hebx.trans webx, hedi.trans wedi, hesi.trans wesi, heip.trans weip,
    by omega, hstack⟩

/-- A thread that leaves the processor goes on where it left, with the registers that its
compiled code relies on and its stack, whatever ran in between. -/
theorem switch_to_resumes (hs : (contexts y).Reachable s) (hlive : s.cur ∈ s.threads) {next : ℕ}
    (h : Step y s (.switchTo next back) s₁) :
    (next = s.cur → Resumes s.cpu s₁.cpu (s.cur + 4096) back) ∧
    (next ≠ s.cur →
      ((contexts y).within fun u => s.cur ∈ u.threads ∧ u.cur ≠ s.cur).Run s₁ l s₂ →
      Step y s₂ (.switchTo s.cur back') s₃ → Resumes s.cpu s₃.cpu (s.cur + 4096) back) := by
  have hinv := reachable_inv hs
  have hinv₁ := hinv.step h
  cases h with
  | switchTo _ _ hin hnext hroom =>
    obtain ⟨hsaved, htaken, -⟩ := run_callSwitchTo next back hroom
    have hstack : ∀ x, s.cpu.reg .esp ≤ x → x < s.cur + 4096 →
        (run (callSwitchTo s.cur next back) s.cpu).mem x = s.cpu.mem x := fun x hlow _ =>
      hsaved.rest x (by omega) (Or.inr hlow)
    have hsp := hinv.sp hin
    have hguard := guard_le s s.cur
    constructor
    · intro hself
      rw [hself] at htaken hsaved hstack ⊢
      exact .of_taken hroom htaken hsaved.kstack hsaved.words hstack
    · intro hne hrun hstep
      obtain ⟨htaken₃, hkstack, hwords, hkept⟩ := switchTo_suspended hinv₁ hlive hne.symm
        hsaved.kstack hsaved.words (by simp only [List.length_cons, List.length_nil]; omega)
        hrun hstep
      refine .of_taken hroom htaken₃ hkstack hwords fun x hlow hhigh => ?_
      rw [hkept x (by omega) hhigh]
      exact hstack x hlow hhigh

theorem switch_to_resumes_main :
    ∃ s s₃ : Kernel, s.cur = 0x9e000 ∧ Resumes s.cpu s₃.cpu 0x9f000 3 :=
  ⟨_, _, rfl, (switch_to_resumes (bootKernel_reachable.step
    (.threadCreate 0x100000 1 2 true (by decide) (by decide))) (by decide)
    (.switchTo 0x100000 3 (by decide) (by decide) (by decide))).2 (by decide) .nil
    (.switchTo 0x9e000 4 (by decide) (by decide) (by decide))⟩

end Suspension

section Programs

variable {y : Symbols} {s s₁ s₂ s₃ : Kernel} {e e' : Event} {t : ℕ} {l : List Event}

/-- The thread lives, serves its program and is not back in it. -/
structure Kernel.Serving (s : Kernel) (t : ℕ) : Prop where
  live : t ∈ s.threads
  process : t ∈ s.processes
  inside : s.cur = t → ¬ s.InUser

theorem suspended_of_frame (hs : Inv s) (ht : t ∈ s.threads) (hproc : t ∈ s.processes)
    (hne : t ≠ s.cur) {x : ℕ} (hlow : t + 4020 ≤ x) (hhigh : x < t + 4096) :
    Suspended s.cpu.mem t x := by
  have := hs.suspended t ht hne
  rw [guard_of_mem hproc] at this
  exact Or.inr ⟨by omega, hhigh⟩

/-- No step that leaves a thread in the kernel touches the frame of its program. -/
theorem frame_eq_of_step (h : Step y s e s₁) (hs : Inv s) (ht : s.Serving t) (ht₁ : s₁.Serving t)
    {x : ℕ} (hlow : t + 4020 ≤ x) (hhigh : x < t + 4096) : s₁.cpu.mem x = s.cpu.mem x := by
  by_cases hcur : t = s.cur
  · subst hcur
    have hguard := guard_of_mem ht.process
    have hnot : ¬ e.Leaves ∨ s₁.cur ≠ s.cur := by
      by_contra hboth
      rw [not_or, not_not, not_not] at hboth
      exact ht₁.inside hboth.2 (inUser_of_leaves h hboth.1).1
    have hcur := hs.cur_aligned
    cases h with
    | user reg hin hcs => exact absurd hin (ht.inside rfl)
    | interrupt vec entry hin => exact absurd hin (ht.inside rfl)
    | syscall entry hin => exact absurd hin (ht.inside rfl)
    | compute c hin hcs hsp hmem => exact hmem x (Or.inl ⟨by omega, hhigh⟩)
    | threadCreate t function arg process hin hfresh =>
      obtain ⟨halign, -, hne⟩ := hfresh
      have hout : x < t ∨ t + 4096 ≤ x := by omega
      dsimp only
      rw [threadCreate_of_not_mem _ _ _ hout]
    | fork child hin hserves hfresh =>
      obtain ⟨halign, -, hne⟩ := hfresh
      have hout : x < child ∨ child + 4096 ≤ x := by omega
      dsimp only
      rw [buildChildStack_of_not_mem hout, copyStack0_of_not_mem hout]
    | threadExit t hin => rfl
    | switchTo next back hin hnext hroom =>
      have hsp := hs.sp hin
      exact (run_callSwitchTo next back hroom).1.rest x (by omega) (by omega)
    | _ => simp [Event.Leaves] at hnot
  · exact mem_eq_of_step h hs ht.live hcur
      (suspended_of_frame hs ht.live ht.process hcur hlow hhigh)

theorem run_serving (hs : Inv s) (ht : s.Serving t)
    (hrun : ((contexts y).within fun u => u.Serving t).Run s l s₁) :
    Inv s₁ ∧ s₁.Serving t ∧ ∀ x, t + 4020 ≤ x → x < t + 4096 → s₁.cpu.mem x = s.cpu.mem x := by
  refine hrun.keeps (I := fun u => Inv u ∧ u.Serving t ∧
    ∀ x, t + 4020 ≤ x → x < t + 4096 → u.cpu.mem x = s.cpu.mem x) ?_ ⟨hs, ht, fun _ _ _ => rfl⟩
  rintro u e v ⟨hu, htu, hkept⟩ ⟨hstep, htv⟩
  exact ⟨hu.step hstep, htv, fun x hlow hhigh =>
    (frame_eq_of_step hstep hu htu htv hlow hhigh).trans (hkept x hlow hhigh)⟩

/-- The ways into the kernel. -/
def Event.Enters : Event → Prop
  | .interrupt .. | .syscall _ => True
  | _ => False

theorem frame_of_entered {c c' : Cpu} {esp0 vec cur : ℕ} {args : List ℕ}
    (h : Entered c esp0 vec args c') (hesp0 : esp0 = cur + 4096) :
    ¬ c'.reg .cs % 4 = 3 ∧ ∃ f : IntrStack, f.reg = c.reg ∧ Holds c'.mem (cur + 4020) f.words := by
  have hframe := h.frame
  have hplace : cur + 4096 - 76 = cur + 4020 := rfl
  rw [hesp0, hplace] at hframe
  refine ⟨?_, _, IntrStack.ofReg_reg _ _ _, hframe⟩
  rw [h.cs, selectorKCode]
  simp

/-- An entry leaves the registers of the program in its frame. -/
theorem frame_of_enters (hs : Inv s) (h : Step y s e s₁) (he : e.Enters) :
    s₁.cur = s.cur ∧ s₁.Serving s.cur ∧
    ∃ f : IntrStack, f.reg = s.cpu.reg ∧ Holds s₁.cpu.mem (s.cur + 4020) f.words := by
  cases h with
  | interrupt vec entry hin =>
    obtain ⟨hlive, hproc⟩ := hs.user hin
    have hesp0 := hs.esp0 hproc
    have hentered := run_intrEntry s.cpu entry vec (show 76 ≤ s.esp0 by omega)
    obtain ⟨hcs, hframe⟩ := frame_of_entered hentered hesp0
    exact ⟨rfl, ⟨hlive, hproc, fun _ => hcs⟩, hframe⟩
  | syscall entry hin =>
    obtain ⟨hlive, hproc⟩ := hs.user hin
    have hesp0 := hs.esp0 hproc
    have hentered := run_syscallEntry s.cpu entry (show 88 ≤ s.esp0 by omega)
    obtain ⟨hcs, hframe⟩ := frame_of_entered hentered hesp0
    exact ⟨rfl, ⟨hlive, hproc, fun _ => hcs⟩, hframe⟩
  | _ => exact he.elim

/-- The registers that a way out gives to a program that entered with `reg`. -/
def Event.leave (reg : Reg → ℕ) : Event → Reg → ℕ
  | .syscallReturn result => Function.update reg .eax result
  | .startProcess function => startReg function
  | .execv argv argc entry => execReg reg argv argc entry
  | _ => reg

theorem reg_of_leaves {f : IntrStack} (h : Step y s e s₁) (he : e.Leaves)
    (hf : Holds s.cpu.mem (s.cur + 4020) f.words) :
    s₁.cur = s.cur ∧ s₁.cpu.reg = e.leave f.reg := by
  have hplace : s.cpu.mem (s.cur + 4080) = f.cs := cs_of_holds hf
  cases h with
  | intrExit _ hserves hsp =>
    have hcs : f.cs % 4 = 3 := hplace ▸ hserves.2.2
    exact ⟨rfl, run_intrExit (by rwa [hsp]) hcs⟩
  | syscallReturn result _ hserves hsp hresult =>
    have hcs : f.cs % 4 = 3 := hplace ▸ hserves.2.2
    have hplace : s.cpu.reg .esp + 12 = s.cur + 4020 := by omega
    rw [← hplace] at hf
    have hreg := run_syscallReturn_reg hf hcs
    rw [hresult] at hreg
    exact ⟨rfl, hreg⟩
  | startProcess function _ hproc hbounds =>
    obtain ⟨f', hreg, hholds⟩ := startProcess_holds function hbounds.1
    have hcs : f'.cs = selectorUCode := congrFun hreg .cs
    exact ⟨rfl, (jumpIntrExit_spec hholds (by rw [hcs, selectorUCode])).trans hreg⟩
  | execv argv argc entry _ hserves =>
    obtain ⟨f', hreg, hcs', hholds⟩ := execv_holds argv argc entry hf
    have hcs : f'.cs % 4 = 3 := hcs' ▸ hplace ▸ hserves.2.2
    have hreg' := (jumpIntrExit_spec (c := s.cpu) hholds hcs).trans hreg
    exact ⟨rfl, hreg'⟩
  | _ => exact he.elim

/-- What `fork` leaves on the stack of the child. -/
theorem stack_of_fork {child : ℕ} {f : IntrStack} (h : Step y s (.fork child) s₁)
    (hf : Holds s.cpu.mem (s.cur + 4020) f.words) :
    child ∈ s₁.threads ∧ child ≠ s₁.cur ∧ s₁.cpu.mem child = child + 4000 ∧
    Holds s₁.cpu.mem (child + 4000)
      ([0, 0, 0, 0, y.intrExit] ++ ({ f with eax := 0 } : IntrStack).words) ∧ f.cs % 4 = 3 := by
  have hplace : s.cpu.mem (s.cur + 4080) = f.cs := cs_of_holds hf
  cases h with
  | fork _ hin hserves hfresh =>
    exact ⟨Finset.mem_insert_self child s.threads, hfresh.2.2, buildChildStack_kstack,
      buildChildStack_holds hf, hplace ▸ hserves.2.2⟩

/-- The child of `fork` gets to `intr_exit` when it first runs, and from there to the program
with the registers of its parent and the result 0. -/
theorem fork_child_returns {child entry back : ℕ} {s₄ s₅ : Kernel} {l' : List Event}
    (hs : (contexts y).Reachable s) (h : Step y s (.syscall entry) s₁)
    (hrun : ((contexts y).within fun u => u.Serving s.cur).Run s₁ l s₂) (hcur : s₂.cur = s.cur)
    (hfork : Step y s₂ (.fork child) s₃)
    (hwait : ((contexts y).within fun u => child ∈ u.threads ∧ u.cur ≠ child).Run s₃ l' s₄)
    (hswitch : Step y s₄ (.switchTo child back) s₅) :
    s₅.cpu.reg .eip = y.intrExit ∧ s₅.cpu.reg .esp = child + 4020 ∧
    (run intrExit s₅.cpu).reg = Function.update s.cpu.reg .eax 0 := by
  have hinv := reachable_inv hs
  obtain ⟨-, hserving, f, hreg, hframe⟩ := frame_of_enters hinv h trivial
  obtain ⟨hinv₂, -, hkept⟩ := run_serving (hinv.step h) hserving hrun
  have hframe₂ : Holds s₂.cpu.mem (s₂.cur + 4020) f.words := by
    rw [hcur]
    exact hframe.congr fun x hlow hhigh => hkept x hlow (by simpa [IntrStack.words] using hhigh)
  obtain ⟨hlive, hne, hkstack, hwords, hcs⟩ := stack_of_fork hfork hframe₂
  obtain ⟨htaken, hkstack₅, hwords₅, -⟩ := switchTo_suspended (hinv₂.step hfork) hlive hne hkstack
    hwords (by simp [IntrStack.words]) hwait hswitch
  rw [holds_append] at hwords₅
  have hesp : s₅.cpu.reg .esp = child + 4020 := by
    rw [htaken.esp, hkstack₅]
  have hreg₅ : ({ f with eax := 0 } : IntrStack).reg = Function.update f.reg .eax 0 := by
    funext r
    cases r <;> rfl
  refine ⟨?_, hesp, ?_⟩
  · rw [htaken.eip, hkstack₅]
    exact hwords₅.1.2.2.2.2.1
  · rw [← hreg, ← hreg₅]
    exact run_intrExit (by rw [hesp]; exact hwords₅.2) hcs

theorem fork_child_returns_program : ∃ s₅ : Kernel, s₅.cpu.reg .eip = 0x2500 ∧
    s₅.cpu.reg .esp = 0x102000 + 4020 ∧
    (run intrExit s₅.cpu).reg = Function.update programKernel.1.cpu.reg .eax 0 :=
  ⟨_, fork_child_returns programKernel.2 (.syscall 4 (by decide)) .nil rfl
    (.fork 0x102000 (by decide) (by decide) (by decide)) .nil
    (.switchTo 0x102000 5 (by decide) (by decide) (by decide))⟩

/-- What `thread_create` leaves on the stack of the new thread. -/
theorem stack_of_threadCreate {function arg : ℕ} {process : Bool}
    (h : Step y s (.threadCreate t function arg process) s₁) :
    t ∈ s₁.threads ∧ t ≠ s₁.cur ∧ s₁.cpu.mem t = t + 3664 ∧
    ∃ w, Holds s₁.cpu.mem (t + 3664) [0, 0, 0, 0, y.kernelThread, w, function, arg] := by
  cases h with
  | threadCreate _ _ _ _ hin hfresh =>
    have hkstack := threadCreate_kstack y.kernelThread t function arg s.cpu.mem
    have hholds := threadCreate_holds y.kernelThread t function arg s.cpu.mem
    exact ⟨Finset.mem_insert_self t s.threads, hfresh.2.2, hkstack, hholds⟩

/-- A new thread gets to `kernel_thread` when it first runs, with the function and its argument in
the places of the arguments of a call. -/
theorem new_thread_starts {function arg back : ℕ} {process : Bool}
    (hs : (contexts y).Reachable s) (h : Step y s (.threadCreate t function arg process) s₁)
    (hwait : ((contexts y).within fun u => t ∈ u.threads ∧ u.cur ≠ t).Run s₁ l s₂)
    (hswitch : Step y s₂ (.switchTo t back) s₃) :
    s₃.cpu.reg .eip = y.kernelThread ∧ s₃.cpu.mem (s₃.cpu.reg .esp + 4) = function ∧
    s₃.cpu.mem (s₃.cpu.reg .esp + 8) = arg := by
  obtain ⟨hlive, hne, hkstack, w, hwords⟩ := stack_of_threadCreate h
  obtain ⟨htaken, hkstack₃, hwords₃, -⟩ := switchTo_suspended ((reachable_inv hs).step h) hlive hne
    hkstack hwords (by simp only [List.length_cons, List.length_nil]; omega) hwait hswitch
  rw [htaken.eip, htaken.esp, hkstack₃]
  obtain ⟨-, -, -, -, heip, -, hfunction, harg, -⟩ := hwords₃
  exact ⟨heip, hfunction, harg⟩

theorem new_thread_starts_first : ∃ s₃ : Kernel, s₃.cpu.reg .eip = 0x1500 ∧
    s₃.cpu.mem (s₃.cpu.reg .esp + 4) = 1 ∧ s₃.cpu.mem (s₃.cpu.reg .esp + 8) = 2 :=
  ⟨_, new_thread_starts bootKernel_reachable
    (.threadCreate 0x100000 1 2 true (by decide) (by decide)) .nil
    (.switchTo 0x100000 3 (by decide) (by decide) (by decide))⟩

end Programs

end X86System.Context
