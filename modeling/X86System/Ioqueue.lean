import X86System.Parking
import X86System.Library.Ring

/-!
# I/O queues

The keyboard and the pipes hand bytes over in a ring of 64 cells. The calls run with
interrupts off, so a thread keeps the processor in a call until it waits for the
queue's lock or sleeps in one of the two slots, `producer` and `consumer`. The lock's
semaphore has the number of the queue; what the keyboard handler puts never waits.
-/
namespace X86System.Thread
open Exec Transition

def bufsize : ℕ := 64

inductive IoqCall
  | getchar
  | putchar (byte : UInt8)
  deriving DecidableEq, Repr

/-- Where a thread stands in a call. -/
inductive IoqPc
  | outside
  /-- At the condition of the loop. -/
  | test (c : IoqCall)
  /-- In `lock_acquire`, before a pass of `sema_down`. -/
  | down (c : IoqCall)
  /-- In `ioq_wait`, behind `thread_block`. -/
  | waiting (c : IoqCall)
  deriving DecidableEq, Repr

/-- A queue, the threads that call it, and the bytes that completed calls have stored
and fetched so far. -/
structure IoqState where
  kernel : Kernel
  holder : Option Tid
  holderRepeatNr : UInt32
  ring : Ring UInt8 bufsize
  pc : Tid → IoqPc
  stored : List UInt8
  fetched : List UInt8

/-- `next_pos`. -/
def nextPos (pos : Fin bufsize) : Fin bufsize := Ring.next pos

/-- `ioq_full`. -/
def ioqFull (ring : Ring UInt8 bufsize) : Prop := nextPos ring.head = ring.tail

/-- `ioq_empty`. -/
def ioqEmpty (ring : Ring UInt8 bufsize) : Prop := ring.head = ring.tail

instance (ring : Ring UInt8 bufsize) : Decidable (ioqFull ring) := inferInstanceAs (Decidable (_ = _))

instance (ring : Ring UInt8 bufsize) : Decidable (ioqEmpty ring) :=
  inferInstanceAs (Decidable (_ = _))

/-- `ioq_length`. -/
def ioqLength (ring : Ring UInt8 bufsize) : ℕ :=
  if ring.tail ≤ ring.head then ring.head.val - ring.tail.val
  else bufsize - (ring.tail.val - ring.head.val)

/-- `ioq->producer` and `ioq->consumer` of queue `q`. -/
def producer (q : ℕ) : ℕ := 2 * q

def consumer (q : ℕ) : ℕ := 2 * q + 1

/-- The slot in which a call waits. -/
def IoqCall.slot (q : ℕ) : IoqCall → ℕ
  | .getchar => consumer q
  | .putchar _ => producer q

/-- The condition of the loop in which a call waits. -/
def IoqCall.mustWait (ring : Ring UInt8 bufsize) : IoqCall → Prop
  | .getchar => ioqEmpty ring
  | .putchar _ => ioqFull ring

instance (ring : Ring UInt8 bufsize) (c : IoqCall) : Decidable (c.mustWait ring) :=
  match c with
  | .getchar => inferInstanceAs (Decidable (ioqEmpty ring))
  | .putchar _ => inferInstanceAs (Decidable (ioqFull ring))

/-- Thread `t` goes on to `p`. -/
def IoqState.goto (s : IoqState) (t : Tid) (p : IoqPc) : IoqState :=
  { s with pc := Function.update s.pc t p }

/-- `if (slot != NULL) wakeup(&slot)` -/
def wakeSlot (s : Kernel) (waiter : ℕ) : Except Site Kernel :=
  if s.waiter waiter ≠ none then wakeup s waiter else pure s

variable (q : ℕ)

/-- What `ioq_getchar` does behind its loop. -/
def fetch (s : IoqState) : Except Site IoqState := do
  let byte := s.ring.front
  let ring := { s.ring with tail := nextPos s.ring.tail }
  let kernel ← wakeSlot s.kernel (producer q)
  pure { s with kernel := kernel, ring := ring, fetched := s.fetched ++ [byte] }

/-- What `ioq_putchar` does behind its loop. -/
def store (s : IoqState) (byte : UInt8) : Except Site IoqState := do
  let ring := { s.ring with
    cells := s.ring.cells.set s.ring.head byte, head := nextPos s.ring.head }
  let kernel ← wakeSlot s.kernel (consumer q)
  pure { s with kernel := kernel, ring := ring, stored := s.stored ++ [byte] }

def IoqCall.finish (s : IoqState) : IoqCall → Except Site IoqState
  | .getchar => fetch q s
  | .putchar byte => store q s byte

/-- `ioq_wait` in the slot of the call. -/
def beginWait (s : IoqState) (c : IoqCall) : Except Site IoqState := do
  let cur := s.kernel.runningThread
  let kernel ← ioqWait s.kernel (c.slot q)
  pure ({ s with kernel := kernel }.goto cur (.waiting c))

/-- `lock_release`, the last call of the loop's body. -/
def ioqRelease (s : IoqState) : Except Site IoqState := do
  ensure .lockRelease (s.holder = some s.kernel.runningThread)
  if s.holderRepeatNr > 1 then pure { s with holderRepeatNr := s.holderRepeatNr - 1 }
  else
    ensure .lockRelease (s.holderRepeatNr = 1)
    let kernel ← semaUp s.kernel q
    pure { s with kernel := kernel, holder := none, holderRepeatNr := 0 }

/-- The next step of the running thread in its call. -/
def ioqAdvance (s : IoqState) : Except Site IoqState :=
  let cur := s.kernel.runningThread
  match s.pc cur with
  | .outside => .ok s
  | .test c =>
    if c.mustWait s.ring then
      if s.holder ≠ some cur then .ok (s.goto cur (.down c))
      else beginWait q { s with holderRepeatNr := s.holderRepeatNr + 1 } c
    else do
      let s ← c.finish q s
      pure (s.goto cur .outside)
  | .down c => do
    let kernel ← semaDown s.kernel q
    if (s.kernel.sema q).value = 0 then pure { s with kernel := kernel }
    else
      ensure .lockAcquire (s.holderRepeatNr = 0)
      beginWait q { s with kernel := kernel, holder := some cur, holderRepeatNr := 1 } c
  | .waiting c => do
    let s ← ioqRelease q s
    pure (s.goto cur (.test c))

inductive IoqAction
  /-- The running thread calls `ioq_getchar` or `ioq_putchar`. -/
  | call (c : IoqCall)
  | advance
  /-- The keyboard handler has a character for the queue. -/
  | key (byte : UInt8)
  /-- Any other action of the kernel. -/
  | other (on : Bool) (a : Action)
  deriving DecidableEq, Repr

/-- A thread that is in a call has the processor for itself. The queue's lock and slots
belong to the queue. -/
def IoqAction.Enabled (s : IoqState) : IoqAction → Prop
  | .call _ => s.kernel.runningThread ≠ s.kernel.idleThread ∧
      s.pc s.kernel.runningThread = .outside
  | .advance => s.pc s.kernel.runningThread ≠ .outside
  | .key _ => s.pc s.kernel.runningThread = .outside
  | .other _ a => a.Enabled s.kernel ∧ s.pc s.kernel.runningThread = .outside ∧
      a.place ≠ some (.inl q) ∧ a.place ≠ some (.inr (producer q)) ∧
      a.place ≠ some (.inr (consumer q))

def ioqPerform (s : IoqState) : IoqAction → Except Site IoqState
  | .call c => .ok (s.goto s.kernel.runningThread (.test c))
  | .advance => ioqAdvance q s
  | .key byte => if ioqFull s.ring then .ok s else store q s byte
  | .other on a => do
    let (kernel, _) ← perform { s.kernel with intrOn := on } a
    pure { s with kernel := kernel }

/-- Boot, and then `ioqueue_init`; the page of a ring comes with any bytes. -/
def IoqState.Init (s : IoqState) : Prop :=
  Booted s.kernel ∧ (s.kernel.sema q).value = 1 ∧ s.holder = none ∧ s.holderRepeatNr = 0 ∧
    s.ring.head.val = 0 ∧ s.ring.tail.val = 0 ∧ (∀ t, s.pc t = .outside) ∧
    s.stored = [] ∧ s.fetched = []

def ioqSystem : System IoqState IoqAction where
  start := IoqState.Init q
  step s a t := a.Enabled q s ∧ ioqPerform q s a = .ok t

section Effects

/-- What a step does to the ring, its history and the two slots. -/
inductive IoqEffect (s t : IoqState) : Prop
  | quiet (ring : t.ring = s.ring) (stored : t.stored = s.stored) (fetched : t.fetched = s.fetched)
      (slots : ∀ c : IoqCall, t.kernel.waiter (c.slot q) = s.kernel.waiter (c.slot q))
  /-- The running thread goes to sleep in the slot of its call. -/
  | waits (c : IoqCall) (ring : t.ring = s.ring) (stored : t.stored = s.stored)
      (fetched : t.fetched = s.fetched)
      (cause : c.mustWait s.ring ∨
        s.pc s.kernel.runningThread = .down c ∧ (s.kernel.sema q).value ≠ 0)
      (slots : ∀ d : IoqCall, d.slot q ≠ c.slot q →
        t.kernel.waiter (d.slot q) = s.kernel.waiter (d.slot q))
  | fetched (some : ¬ ioqEmpty s.ring) (ring : t.ring = s.ring.pop) (stored : t.stored = s.stored)
      (fetched : t.fetched = s.fetched ++ [s.ring.front])
      (woken : t.kernel.waiter (producer q) = none)
      (slot : t.kernel.waiter (consumer q) = s.kernel.waiter (consumer q))
  | stored (byte : UInt8) (room : ¬ ioqFull s.ring) (ring : t.ring = s.ring.push byte)
      (stored : t.stored = s.stored ++ [byte]) (fetched : t.fetched = s.fetched)
      (woken : t.kernel.waiter (consumer q) = none)
      (slot : t.kernel.waiter (producer q) = s.kernel.waiter (producer q))

variable {q} {s t : IoqState}

theorem IoqEffect.goto (h : IoqEffect q s t) (c : Tid) (p : IoqPc) : IoqEffect q s (t.goto c p) := by
  cases h with
  | quiet h1 h2 h3 h4 => exact .quiet h1 h2 h3 h4
  | waits c h1 h2 h3 h4 h5 => exact .waits c h1 h2 h3 h4 h5
  | fetched h0 h1 h2 h3 h4 h5 => exact .fetched h0 h1 h2 h3 h4 h5
  | stored b h0 h1 h2 h3 h4 h5 => exact .stored b h0 h1 h2 h3 h4 h5

theorem wakeSlot_spec (k : Kernel) (w : ℕ) :
    Returns (wakeSlot k w) fun k' => k'.waiter w = none ∧ ∀ v ≠ w, k'.waiter v = k.waiter v := by
  refine returns_ite (fun _ => Returns.intro fun k' h => ?_) fun h => ?_
  · refine ⟨wakeup_waiter h, fun v hv => (wakeup_place (x := .inr v) ?_ k).waiter h⟩
    exact fun he => hv (Sum.inr.inj he).symm
  · exact ⟨not_not.mp h, fun _ _ => rfl⟩

theorem fetch_effect (h : ¬ ioqEmpty s.ring) : Returns (fetch q s) fun t => IoqEffect q s t :=
  Returns.bind (wakeSlot_spec s.kernel (producer q)) fun k hk =>
    .fetched h rfl rfl rfl hk.1 (hk.2 _ (by unfold consumer producer; omega))

theorem store_effect (h : ¬ ioqFull s.ring) (byte : UInt8) :
    Returns (store q s byte) fun t => IoqEffect q s t :=
  Returns.bind (wakeSlot_spec s.kernel (consumer q)) fun k hk =>
    .stored byte h rfl rfl rfl hk.1 (hk.2 _ (by unfold consumer producer; omega))

theorem finish_effect {c : IoqCall} (h : ¬ c.mustWait s.ring) :
    Returns (c.finish q s) fun t => IoqEffect q s t := by
  cases c with
  | getchar => exact fetch_effect h
  | putchar byte => exact store_effect h byte

/-- Going to sleep, after the steps from `s` to `u` that only concern the lock. -/
theorem beginWait_effect {c : IoqCall} {u : IoqState}
    (cause : c.mustWait s.ring ∨
      s.pc s.kernel.runningThread = .down c ∧ (s.kernel.sema q).value ≠ 0)
    (hring : u.ring = s.ring) (hstored : u.stored = s.stored) (hfetched : u.fetched = s.fetched)
    (hslots : ∀ d : IoqCall, u.kernel.waiter (d.slot q) = s.kernel.waiter (d.slot q)) :
    Returns (beginWait q u c) fun t => IoqEffect q s t := by
  refine returns_bind fun k hk => ?_
  have hsame : ∀ d : IoqCall, d.slot q ≠ c.slot q →
      k.waiter (d.slot q) = s.kernel.waiter (d.slot q) := by
    intro d hd
    have hplace : Sum.inr (c.slot q) ≠ (Sum.inr (d.slot q) : ℕ ⊕ ℕ) :=
      fun he => hd (Sum.inr.inj he).symm
    exact ((ioqWait_place hplace _).waiter hk).trans (hslots d)
  exact IoqEffect.waits c hring hstored hfetched cause hsame

theorem ioqRelease_effect : Returns (ioqRelease q s) fun t => IoqEffect q s t := by
  refine returns_ensure fun _ => returns_ite (fun _ => ?_) fun _ => returns_ensure fun _ => ?_
  · exact IoqEffect.quiet rfl rfl rfl fun _ => rfl
  · refine returns_bind fun k hk => IoqEffect.quiet rfl rfl rfl fun c => ?_
    exact (semaUp_place (x := .inr (c.slot q)) Sum.inl_ne_inr s.kernel).waiter hk

theorem ioqAdvance_effect : Returns (ioqAdvance q s) fun t => IoqEffect q s t := by
  unfold ioqAdvance
  cases hpc : s.pc s.kernel.runningThread with
  | outside =>
    simp only [hpc]
    exact IoqEffect.quiet rfl rfl rfl fun _ => rfl
  | test c =>
    simp only [hpc]
    refine returns_ite (fun hwait => returns_ite (fun _ => ?_) fun _ => ?_) fun hgo => ?_
    · exact IoqEffect.quiet rfl rfl rfl fun _ => rfl
    · exact beginWait_effect (.inl hwait) rfl rfl rfl fun _ => rfl
    · exact Returns.bind (finish_effect hgo) fun t ht => ht.goto _ _
  | down c =>
    simp only [hpc]
    refine returns_bind fun k hk => ?_
    have hslots : ∀ d : IoqCall, k.waiter (d.slot q) = s.kernel.waiter (d.slot q) := fun d =>
      (semaDown_place (x := .inr (d.slot q)) Sum.inl_ne_inr s.kernel).waiter hk
    refine returns_ite (fun _ => IoqEffect.quiet rfl rfl rfl hslots) fun hvalue => ?_
    exact returns_ensure fun _ => beginWait_effect (.inr ⟨hpc, hvalue⟩) rfl rfl rfl hslots
  | waiting c =>
    simp only [hpc]
    exact Returns.bind ioqRelease_effect fun t ht => ht.goto _ _

/-- Every step of a run has one of the four effects. -/
theorem ioqueue_step {a : IoqAction} (h : (ioqSystem q).step s a t) : IoqEffect q s t := by
  obtain ⟨ha, hstep⟩ := h
  cases a with
  | call c =>
    obtain rfl := Except.ok.inj hstep
    exact .quiet rfl rfl rfl fun _ => rfl
  | advance => exact ioqAdvance_effect.of_ok hstep
  | key byte =>
    have hspec : Returns (ioqPerform q s (.key byte)) fun t => IoqEffect q s t :=
      returns_ite (fun _ => IoqEffect.quiet rfl rfl rfl fun _ => rfl) fun hroom =>
        store_effect hroom byte
    exact hspec.of_ok hstep
  | other on a =>
    have hspec : Returns (ioqPerform q s (.other on a)) fun t => IoqEffect q s t := by
      refine returns_bind fun ⟨k, e⟩ hk => IoqEffect.quiet rfl rfl rfl fun c => ?_
      have hplace : a.place ≠ some (.inr (c.slot q)) := by
        cases c with
        | getchar => exact ha.2.2.2.2
        | putchar byte => exact ha.2.2.2.1
      exact Sum.inr.inj ((perform_place hplace { s.kernel with intrOn := on }).of_ok hk)
    exact hspec.of_ok hstep

end Effects

end X86System.Thread
