import X86System.LockInvariant

/-!
# Calls under a lock

A function that acquires a lock, works and releases it, such as `console_put_str` or `ide_read`.
The thread works step by step, with interrupts on, so other threads and interrupt handlers run
between any two steps, and inside the lock's own code. What the calls of one lock have in common
is that at most one of them works.
-/
namespace X86System.Thread
open Exec Transition

/-- Where a thread is in a call; `b` is what the call has still to do. -/
inductive Call (β : Type)
  | idle
  | entering (b : β)
  | inside (b : β)
  | leaving
  deriving DecidableEq, Repr

/-- What the calls do with what they share while they hold the lock. A handler is an interrupt
handler that belongs to the same device; `admits` leaves out the actions that only the calls and
the handler take. -/
structure Client (σ β : Type) where
  start : Kernel → σ → Prop
  enters : β → Prop
  work : Kernel → σ → β → Kernel → σ → β → Prop
  finished : β → Prop
  handler : Kernel → σ → Kernel → σ → Prop
  admits : Action → Prop

structure CallState (σ β : Type) where
  lock : LockState
  shared : σ
  call : Tid → Call β

inductive CallEvent (β : Type)
  | call (t : Tid) (b : β)
  /-- A step inside `lock_acquire` or `lock_release`. -/
  | lock
  | work
  | finish (t : Tid) (b : β)
  | handler
  | other (on : Bool) (a : Action)
  deriving DecidableEq, Repr

section Steps

variable {σ β : Type} (psema : ℕ) (C : Client σ β)

/-- The thread has got through the lock's code. -/
def Call.passed : Call β → Call β
  | .entering b => .inside b
  | .leaving => .idle
  | c => c

def LockState.withKernel (l : LockState) (k : Kernel) : LockState := { l with kernel := k }

/-- The thread that runs. -/
def CallState.cur (s : CallState σ β) : Tid := s.lock.kernel.runningThread

def CallState.setCall (s : CallState σ β) (c : Call β) : CallState σ β :=
  { s with call := Function.update s.call s.cur c }

@[simp] theorem setCall_call (s : CallState σ β) (c : Call β) (t : Tid) :
    (s.setCall c).call t = if t = s.cur then c else s.call t :=
  Function.update_apply _ _ _ _

@[simp] theorem setCall_shared (s : CallState σ β) (c : Call β) :
    (s.setCall c).shared = s.shared := rfl

inductive CallStep : CallState σ β → CallEvent β → CallState σ β → Prop
  | call {s : CallState σ β} (b : β) (hidle : s.cur ≠ s.lock.kernel.idleThread)
      (hcall : s.call s.cur = .idle) (henters : C.enters b) :
      CallStep s (.call s.cur b)
        { s.setCall (.entering b) with lock := s.lock.goto s.cur .testHolder }
  | lock {s : CallState σ β} {l : LockState} (hidle : s.cur ≠ s.lock.kernel.idleThread)
      (hpc : s.lock.pc s.cur ≠ .outside) (hadvance : advance psema s.lock = .ok l) :
      CallStep s .lock
        { s.setCall (if l.pc s.cur = .outside then (s.call s.cur).passed else s.call s.cur) with
          lock := l }
  | work {s : CallState σ β} {b b' : β} {k : Kernel} {x : σ}
      (hidle : s.cur ≠ s.lock.kernel.idleThread) (hcall : s.call s.cur = .inside b)
      (hwork : C.work s.lock.kernel s.shared b k x b') :
      CallStep s .work
        { s.setCall (.inside b') with lock := s.lock.withKernel k, shared := x }
  | finish {s : CallState σ β} {b : β} (hidle : s.cur ≠ s.lock.kernel.idleThread)
      (hcall : s.call s.cur = .inside b) (hfinished : C.finished b) :
      CallStep s (.finish s.cur b)
        { s.setCall .leaving with lock := s.lock.goto s.cur .assertHolder }
  | handler {s : CallState σ β} {k : Kernel} {x : σ}
      (hhandler : C.handler s.lock.kernel s.shared k x) :
      CallStep s .handler { s with lock := s.lock.withKernel k, shared := x }
  | other {s : CallState σ β} {on : Bool} {a : Action} {k : Kernel} {e : Event}
      (henabled : a.Enabled s.lock.kernel) (hdown : a ≠ .semaDown psema)
      (hup : a ≠ .semaUp psema) (hadmits : C.admits a)
      (hfree : a.isInterrupt = true ∨ s.call s.cur = .idle)
      (hperform : perform { s.lock.kernel with intrOn := on } a = .ok (k, e)) :
      CallStep s (.other on a) { s with lock := s.lock.withKernel k }

def callSystem : System (CallState σ β) (CallEvent β) where
  start s := LockState.Init psema s.lock ∧ C.start s.lock.kernel s.shared ∧ ∀ t, s.call t = .idle
  step := CallStep psema C

/-- The steps of the calls and of the handler leave the lock's semaphore alone, and trip none of
the scheduler's assertions. -/
structure Client.Sound : Prop where
  work : ∀ {k : Kernel} {x : σ} {b : β} {k' : Kernel} {x' : σ} {b' : β}, k.Scheduled →
    k.runningThread ≠ k.idleThread → C.work k x b k' x' b' →
    k'.Scheduled ∧ (k'.sema psema).value = (k.sema psema).value
  handler : ∀ {k : Kernel} {x : σ} {k' : Kernel} {x' : σ}, k.Scheduled → C.handler k x k' x' →
    k'.Scheduled ∧ (k'.sema psema).value = (k.sema psema).value

end Steps

section Phases

variable {σ β : Type} {psema : ℕ} {C : Client σ β} {s t : CallState σ β} {e : CallEvent β}

/-- Where a thread stands in the lock's code tells where it is in its call. -/
def Phase (pc : Pc) (n : ℕ) : Call β → Prop
  | .idle => pc = .outside ∧ n = 0
  | .entering _ => n = 0 ∧
      (pc = .testHolder ∨ pc = .down ∨ pc = .setHolder ∨ pc = .checkNr ∨ pc = .setNr)
  | .inside _ => pc = .outside ∧ n = 1
  | .leaving => n = 1 ∧ (pc = .assertHolder ∨ pc = .testNr ∨ pc = .assertNr ∨
      pc = .clearHolder ∨ pc = .clearNr) ∨ n = 0 ∧ pc = .up

structure CallInv (psema : ℕ) (s : CallState σ β) : Prop where
  lock : LockInv psema s.lock
  phase : ∀ t, Phase (s.lock.pc t) (s.lock.depth t) (s.call t)

/-- At most one call works. -/
theorem CallInv.inside_unique (h : CallInv psema s) {u v : Tid} {b b' : β}
    (hu : s.call u = .inside b) (hv : s.call v = .inside b') : u = v := by
  have howns : ∀ {w : Tid} {b : β}, s.call w = .inside b →
      Owns (s.lock.pc w) (s.lock.depth w) := by
    intro w b hw
    have hphase := h.phase w
    rw [hw] at hphase
    exact Or.inl (by rw [hphase.2]; decide)
  exact (h.lock.owner v (howns hv)).2.2.2 u (howns hu)

/-- A kernel with the same semaphore of the lock. -/
theorem LockInv.withKernel {l : LockState} (h : LockInv psema l) {k : Kernel} (hk : k.Scheduled)
    (hvalue : (k.sema psema).value = l.value psema) : LockInv psema (l.withKernel k) := by
  refine ⟨hk, ?_, h.pc_ok, h.bound, fun t ht => ?_, h.free⟩
  · rcases h.value with hv | hv
    · exact Or.inl (hvalue.trans hv)
    · exact Or.inr (hvalue.trans hv)
  · obtain ⟨hv, hrest⟩ := h.owner t ht
    exact ⟨hvalue.trans hv, hrest⟩

/-- A step inside the lock's code takes a call from one phase to the next. -/
theorem advance_phase {l l' : LockState} (h : LockInv psema l) {c : Tid}
    (hc : l.kernel.runningThread = c) {call : Call β} (hphase : Phase (l.pc c) (l.depth c) call)
    (hpc : l.pc c ≠ .outside) (hstep : advance psema l = .ok l') :
    Moves c l l' ∧
    Phase (l'.pc c) (l'.depth c) (if l'.pc c = .outside then call.passed else call) := by
  cases call with
  | idle => exact absurd hphase.1 hpc
  | inside b => exact absurd hphase.1 hpc
  | entering b =>
    obtain ⟨hn, hp | hp | hp | hp | hp⟩ := hphase
    · have hown : ¬ Owns (l.pc c) (l.depth c) :=
        not_owns hn (by simp [hp]) (by simp [hp]) (by simp [hp]) (by simp [hp])
      simp only [advance, hc, hp, h.holder_ne hown, ne_eq, not_false_eq_true, if_true] at hstep
      obtain rfl := Except.ok.inj hstep
      exact ⟨moves_goto _ _ _ _ _, by simp [Phase, hn]⟩
    · simp only [advance, hc, hp] at hstep
      obtain ⟨k, -, hk⟩ := of_bind_eq_ok hstep
      obtain rfl := Except.ok.inj hk
      refine ⟨moves_goto _ _ _ _ _, ?_⟩
      rcases h.value with hv | hv <;> simp [Phase, hn, hv]
    · simp only [advance, hc, hp] at hstep
      obtain rfl := Except.ok.inj hstep
      exact ⟨moves_goto _ _ _ _ _, by simp [Phase, hn]⟩
    · simp only [advance, hc, hp] at hstep
      obtain ⟨-, hk⟩ := of_ensure_eq_ok hstep
      obtain rfl := Except.ok.inj hk
      exact ⟨moves_goto _ _ _ _ _, by simp [Phase, hn]⟩
    · simp only [advance, hc, hp] at hstep
      obtain rfl := Except.ok.inj hstep
      exact ⟨moves_count _ _ _ _ _, by simp [Phase, Call.passed]⟩
  | leaving =>
    rcases hphase with ⟨hn, hp | hp | hp | hp | hp⟩ | ⟨hn, hp⟩
    · simp only [advance, hc, hp] at hstep
      obtain ⟨-, hk⟩ := of_ensure_eq_ok hstep
      obtain rfl := Except.ok.inj hk
      exact ⟨moves_goto _ _ _ _ _, by simp [Phase, hn]⟩
    · have hnr : ¬ l.holderRepeatNr > 1 := by
        rw [(h.owner c (Or.inl (by omega))).2.2.1, hn]
        decide
      simp only [advance, hc, hp, hnr, if_false] at hstep
      obtain rfl := Except.ok.inj hstep
      exact ⟨moves_goto _ _ _ _ _, by simp [Phase, hn]⟩
    · simp only [advance, hc, hp] at hstep
      obtain ⟨-, hk⟩ := of_ensure_eq_ok hstep
      obtain rfl := Except.ok.inj hk
      exact ⟨moves_goto _ _ _ _ _, by simp [Phase, hn]⟩
    · simp only [advance, hc, hp] at hstep
      obtain rfl := Except.ok.inj hstep
      exact ⟨moves_goto _ _ _ _ _, by simp [Phase, hn]⟩
    · simp only [advance, hc, hp] at hstep
      obtain rfl := Except.ok.inj hstep
      exact ⟨moves_count _ _ _ _ _, by simp [Phase, hn]⟩
    · simp only [advance, hc, hp] at hstep
      obtain ⟨k, -, hk⟩ := of_bind_eq_ok hstep
      obtain rfl := Except.ok.inj hk
      exact ⟨moves_goto _ _ _ _ _, by simp [Phase, Call.passed, hn]⟩

theorem CallInv.of_lock (h : CallInv psema s) {l : LockState} (hl : LockInv psema l)
    (hm : Moves s.cur s.lock l) {c : Call β} (hc : Phase (l.pc s.cur) (l.depth s.cur) c) (x : σ) :
    CallInv psema { s.setCall c with lock := l, shared := x } := by
  refine ⟨hl, fun t => ?_⟩
  by_cases ht : t = s.cur
  · simpa [CallState.setCall, ht] using hc
  · obtain ⟨hpc, hdepth⟩ := hm t ht
    simpa [CallState.setCall, ht, hpc, hdepth] using h.phase t

theorem CallInv.step (h : CallInv psema s) (hC : C.Sound psema) (hstep : CallStep psema C s e t) :
    CallInv psema t := by
  cases hstep with
  | call b hidle hcall henters =>
    have hphase := h.phase s.cur
    rw [hcall] at hphase
    refine h.of_lock (h.lock.enters hphase.1 (Or.inl ⟨rfl, ?_⟩)) (moves_goto _ _ _ _ _) ?_ s.shared
    · rw [hphase.2]
      decide
    · simpa [Phase] using hphase.2
  | lock hidle hpc hadvance =>
    obtain ⟨hm, hphase⟩ := advance_phase h.lock rfl (h.phase s.cur) hpc hadvance
    obtain ⟨l', he, hl⟩ := advance_spec h.lock hidle
    obtain rfl := Except.ok.inj (he.symm.trans hadvance)
    exact h.of_lock hl hm hphase s.shared
  | @work _ b' _ x hidle hcall hwork =>
    obtain ⟨hk, hvalue⟩ := hC.work h.lock.scheduled hidle hwork
    have hphase := h.phase s.cur
    rw [hcall] at hphase
    exact h.of_lock (c := .inside b') (h.lock.withKernel hk hvalue) (fun u _ => ⟨rfl, rfl⟩) hphase x
  | finish hidle hcall hfinished =>
    have hphase := h.phase s.cur
    rw [hcall] at hphase
    refine h.of_lock (h.lock.enters hphase.1 (Or.inr ⟨rfl, ?_⟩)) (moves_goto _ _ _ _ _) ?_ s.shared
    · rw [hphase.2]
      decide
    · exact Or.inl ⟨by simpa using hphase.2, Or.inl (goto_pc _ _ _)⟩
  | handler hhandler =>
    obtain ⟨hk, hvalue⟩ := hC.handler h.lock.scheduled hhandler
    exact ⟨h.lock.withKernel hk hvalue, h.phase⟩
  | other henabled hdown hup hadmits hfree hperform =>
    exact ⟨other_spec h.lock henabled hdown hup hperform, h.phase⟩

theorem callInv_of_start (h : (callSystem psema C).start s) : CallInv psema s := by
  obtain ⟨hlock, -, hcall⟩ := h
  refine ⟨lockInit_inv hlock, fun t => ?_⟩
  rw [hcall t]
  exact ⟨hlock.2.2.2.2.1 t, hlock.2.2.2.2.2 t⟩

theorem reachable_callInv (hC : C.Sound psema) (h : (callSystem psema C).Reachable s) :
    CallInv psema s :=
  h.invariant (I := CallInv psema) (fun _ hs => callInv_of_start hs) fun _ _ _ hs hstep =>
    hs.step hC hstep

/-- No thread gets stuck in the lock's code: its next step trips no assertion. -/
theorem CallInv.advances (h : CallInv psema s) (hidle : s.cur ≠ s.lock.kernel.idleThread)
    (hpc : s.lock.pc s.cur ≠ .outside) : ∃ t, CallStep psema C s .lock t := by
  obtain ⟨l, he, -⟩ := advance_spec h.lock hidle
  exact ⟨_, .lock hidle hpc he⟩

end Phases

end X86System.Thread
