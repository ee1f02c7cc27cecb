import X86System.ScriptedCalls
import X86System.SectorTransfers

/-!
# An IDE channel

`ide_read` and `ide_write` work under the channel's lock, and sleep on `disk_done` until the
interrupt of their command. What the interrupt handler does depends on `expecting_intr`. Nothing
is assumed of the disk: it may interrupt at any time and any number of times.
-/
namespace X86System.Ide
open Exec Transition Logged Thread
open FileSystem (maxLba)

section Source

/-- What a transfer does while it holds the channel's lock. `expect` sets `expecting_intr`, as
`cmd_out` does first, and a `semaDown` is on `disk_done`. Behind a failed `ASSERT` is `panic`. -/
inductive ChannelOp
  | expect
  | busyWait
  | event (e : PortEvent)
  | panic
  deriving DecidableEq, Repr

/-- The operations for what the driver does at the ports: `busy_wait` stands in front of the
transfer of the data. -/
def channelOps (hd : Drive) : PortEvent → List ChannelOp
  | .outb port data =>
    if port = hd.regCmd then [.expect, .event (.outb port data)] else [.event (.outb port data)]
  | .insw port addr wordCnt => [.busyWait, .event (.insw port addr wordCnt)]
  | .outsw port addr wordCnt => [.busyWait, .event (.outsw port addr wordCnt)]
  | .semaDown => [.event .semaDown]

/-- A call of `ide_read` or of `ide_write`. -/
structure IdeCall where
  hd : Drive
  write : Bool
  lba : UInt32
  buf : UInt32
  secCnt : UInt32

def IdeCall.driver (c : IdeCall) : Driver Unit :=
  if c.write then ideWrite (fun _ => true) c.hd c.lba c.buf c.secCnt
  else ideRead (fun _ => true) c.hd c.lba c.buf c.secCnt

def IdeCall.ops (c : IdeCall) : List ChannelOp :=
  c.driver.log.flatMap (channelOps c.hd) ++ if c.driver.result.isOk then [] else [.panic]

/-- `struct ide_channel`, but for the lock and the semaphore. -/
structure Channel where
  expectingIntr : Bool

variable (base : UInt16) (diskDone : ℕ)

/-- A `busy_wait` that finds the disk ready is through; one that sleeps yields the processor. There
is no step out of one that gives up, which is a panic. -/
def Channel.exec (k : Kernel) (x : Channel) (o : ChannelOp) (k' : Kernel) (x' : Channel)
    (done : Bool) : Prop :=
  match o with
  | .expect => k' = k ∧ x' = { x with expectingIntr := true } ∧ done = true
  | .busyWait => x' = x ∧ (k' = k ∧ done = true ∨
      (∃ on e, perform { k with intrOn := on } .threadYield = .ok (k', e)) ∧ done = false)
  | .event .semaDown => x' = x ∧
      (∃ on e, perform { k with intrOn := on } (.semaDown diskDone) = .ok (k', e)) ∧
      done = decide ((k.sema diskDone).value ≠ 0)
  | .event _ => k' = k ∧ x' = x ∧ done = true
  | .panic => False

/-- The handler runs with interrupts off. -/
def intrHdHandler (k : Kernel) (x : Channel) (k' : Kernel) (x' : Channel) : Prop :=
  if x.expectingIntr then
    x' = { x with expectingIntr := false } ∧
      ∃ e, perform { k with intrOn := false } (.semaUp diskDone) = .ok (k', e)
  else k' = k ∧ x' = x

def ideChannel : Device Channel ChannelOp where
  start k x := x.expectingIntr = false ∧ (k.sema diskDone).value = 0
  calls ops := ∃ c : IdeCall, c.hd.portBase = base ∧ ops = c.ops
  exec := Channel.exec diskDone
  handler := intrHdHandler diskDone
  admits a := a ≠ .semaDown diskDone ∧ a ≠ .semaUp diskDone

abbrev ChannelState := CallState (Recorded Channel ChannelOp) (Script ChannelOp)

/-- The lock of the channel stands on the semaphore `psema`. -/
def channel (psema : ℕ) : System ChannelState (CallEvent (Script ChannelOp)) :=
  callSystem psema (ideChannel base diskDone).client

end Source

section Turns

/-- Commands and waits take turns: whether a command is still to be waited for. -/
def turn : Bool → ChannelOp → Option Bool
  | due, .expect => if due then none else some true
  | due, .event .semaDown => if due then some false else none
  | due, _ => some due

/-- Each command of the operations is waited for before the next. -/
def Alternate (ops : List ChannelOp) : Prop := ops.foldlM turn false = some false

theorem alternate_nil : Alternate [] := rfl

theorem Alternate.append {l l' : List ChannelOp} (h : Alternate l) (h' : Alternate l') :
    Alternate (l ++ l') := by
  unfold Alternate at *
  rw [List.foldlM_append, h]
  exact h'

variable {ready : UInt32 → Bool} {hd : Drive} {lba buf secCnt secsDone secsOp : UInt32}

theorem regs_ne_cmd (hd : Drive) : hd.regSectCnt ≠ hd.regCmd ∧ hd.regLbaL ≠ hd.regCmd ∧
    hd.regLbaM ≠ hd.regCmd ∧ hd.regLbaH ≠ hd.regCmd ∧ hd.regDev ≠ hd.regCmd := by
  simp [Drive.regSectCnt, Drive.regLbaL, Drive.regLbaM, Drive.regLbaH, Drive.regDev, Drive.regCmd]

/-- A chunk that the disk has not got stops before its first access. -/
theorem readChunk_out (hlba : ¬ (lba + secsDone).toNat ≤ maxLba) :
    (readChunk ready hd lba buf secsDone secsOp).log = [] := by
  unfold readChunk selectSector
  rw [ensure_of_not hlba]
  rfl

theorem writeChunk_out (hlba : ¬ (lba + secsDone).toNat ≤ maxLba) :
    (writeChunk ready hd lba buf secsDone secsOp).log = [] := by
  unfold writeChunk selectSector
  rw [ensure_of_not hlba]
  rfl

theorem readChunk_alternates (hready : ready secsDone = true) :
    Alternate ((readChunk ready hd lba buf secsDone secsOp).log.flatMap (channelOps hd)) := by
  obtain ⟨h1, h2, h3, h4, h5⟩ := regs_ne_cmd hd
  by_cases hlba : (lba + secsDone).toNat ≤ maxLba
  · rw [readChunk_eq hlba hready]
    simp [selectEvents, channelOps, Alternate, turn, h1, h2, h3, h4, h5]
  · rw [readChunk_out hlba]
    exact alternate_nil

theorem writeChunk_alternates (hready : ready secsDone = true) :
    Alternate ((writeChunk ready hd lba buf secsDone secsOp).log.flatMap (channelOps hd)) := by
  obtain ⟨h1, h2, h3, h4, h5⟩ := regs_ne_cmd hd
  by_cases hlba : (lba + secsDone).toNat ≤ maxLba
  · rw [writeChunk_eq hlba hready]
    simp [selectEvents, channelOps, Alternate, turn, h1, h2, h3, h4, h5]
  · rw [writeChunk_out hlba]
    exact alternate_nil

theorem sectorLoop_alternates {chunk : UInt32 → UInt32 → Driver Unit}
    (hchunk : ∀ n op, Alternate ((chunk n op).log.flatMap (channelOps hd))) (fuel : ℕ) :
    ∀ secsDone, Alternate ((sectorLoop chunk secCnt fuel secsDone).log.flatMap (channelOps hd)) := by
  induction fuel with
  | zero => exact fun _ => alternate_nil
  | succ fuel ih =>
    intro secsDone
    unfold sectorLoop
    by_cases hlt : secsDone < secCnt
    · rw [if_pos hlt]
      dsimp only
      generalize (if secsDone + 256 ≤ secCnt then 256 else secCnt - secsDone : UInt32) = op
      cases hres : (chunk secsDone op).result with
      | error e =>
        rw [log_bind_error hres]
        exact hchunk secsDone op
      | ok =>
        rw [log_bind hres, List.flatMap_append]
        exact (hchunk secsDone op).append (ih (secsDone + op))
    · rw [if_neg hlt]
      exact alternate_nil

theorem transfer_alternates {chunk : UInt32 → UInt32 → Driver Unit}
    (hchunk : ∀ n op, Alternate ((chunk n op).log.flatMap (channelOps hd))) :
    Alternate ((do
      liftM (ensure Fault.assert (lba.toNat ≤ maxLba))
      liftM (ensure Fault.assert (0 < secCnt))
      selectDisk hd
      sectorLoop chunk secCnt (secCnt.toNat + 1) 0 : Driver Unit).log.flatMap (channelOps hd)) := by
  by_cases hlba : lba.toNat ≤ maxLba
  · by_cases hcnt : 0 < secCnt
    · rw [lift_bind (ensure_of hlba), lift_bind (ensure_of hcnt)]
      unfold selectDisk
      rw [event_bind, List.flatMap_cons, channelOps, if_neg (regs_ne_cmd hd).2.2.2.2]
      exact Alternate.append rfl (sectorLoop_alternates hchunk _ 0)
    · rw [lift_bind (ensure_of hlba), ensure_of_not hcnt]
      exact alternate_nil
  · rw [ensure_of_not hlba]
    exact alternate_nil

theorem ops_alternate (c : IdeCall) : Alternate c.ops := by
  have hdriver : Alternate (c.driver.log.flatMap (channelOps c.hd)) := by
    unfold IdeCall.driver
    split_ifs
    · exact transfer_alternates fun _ _ => writeChunk_alternates rfl
    · exact transfer_alternates fun _ _ => readChunk_alternates rfl
  refine hdriver.append ?_
  split_ifs <;> rfl

end Turns

section Signals

variable {psema diskDone : ℕ} {base : UInt16} {k k' : Kernel} {x x' : Channel}

/-- A command has still to be waited for: its interrupt is to come, or the semaphore is up. -/
def Channel.due (x : Channel) (value : UInt8) : Bool := x.expectingIntr || value ≠ 0

/-- The interrupt of a command ups the semaphore once. -/
def Channel.Signal (x : Channel) (value : UInt8) : Prop :=
  value = 0 ∨ value = 1 ∧ x.expectingIntr = false

/-- What the kernel does elsewhere leaves a semaphore alone. -/
theorem perform_value {i : ℕ} {on : Bool} {a : Action} {e : Thread.Event}
    (ha : a.place ≠ some (.inl i)) (h : perform { k with intrOn := on } a = .ok (k', e)) :
    (k'.sema i).value = (k.sema i).value :=
  congrArg Semaphore.value (Sum.inl.inj ((perform_place ha { k with intrOn := on }).of_ok h))

theorem scheduled_intrOn (h : k.Scheduled) (on : Bool) : Kernel.Scheduled { k with intrOn := on } :=
  ⟨h.settled, h.pending, h.pending_unique⟩

/-- One operation: the semaphore and `expecting_intr` take their turn when it is done. -/
theorem exec_signal (hk : k.Scheduled) (hidle : k.runningThread ≠ k.idleThread) {o : ChannelOp}
    {done due : Bool} (hexec : Channel.exec diskDone k x o k' x' done)
    (hsignal : x.Signal (k.sema diskDone).value)
    (hturn : turn (x.due (k.sema diskDone).value) o = some due) :
    x'.Signal (k'.sema diskDone).value ∧
      x'.due (k'.sema diskDone).value = if done then due else x.due (k.sema diskDone).value := by
  cases o with
  | expect =>
    obtain ⟨rfl, rfl, rfl⟩ := hexec
    have hnot : x.due (k'.sema diskDone).value = false := by
      by_contra hdue
      simp [turn, hdue] at hturn
    have hvalue : (k'.sema diskDone).value = 0 := by
      simpa [Channel.due] using (Bool.or_eq_false_iff.mp hnot).2
    simp only [turn, hnot, Bool.false_eq_true, if_false, Option.some.injEq] at hturn
    exact ⟨Or.inl hvalue, by simp [Channel.due, hturn]⟩
  | busyWait =>
    obtain ⟨rfl, ⟨rfl, rfl⟩ | ⟨⟨on, e, hyield⟩, rfl⟩⟩ := hexec
    · exact ⟨hsignal, by simpa [turn] using hturn⟩
    · rw [perform_value (by simp [Action.place]) hyield]
      exact ⟨hsignal, rfl⟩
  | panic => exact hexec.elim
  | event ev =>
    cases ev with
    | outb port data =>
      obtain ⟨rfl, rfl, rfl⟩ := hexec
      exact ⟨hsignal, by simpa [turn] using hturn⟩
    | insw port addr wordCnt =>
      obtain ⟨rfl, rfl, rfl⟩ := hexec
      exact ⟨hsignal, by simpa [turn] using hturn⟩
    | outsw port addr wordCnt =>
      obtain ⟨rfl, rfl, rfl⟩ := hexec
      exact ⟨hsignal, by simpa [turn] using hturn⟩
    | semaDown =>
      obtain ⟨rfl, ⟨on, e, hdown⟩, rfl⟩ := hexec
      obtain ⟨k₁, he, -, hzero⟩ := @semaDown_lock diskDone _ (scheduled_intrOn hk on) hidle
        (hsignal.imp id And.left)
      have hk' : k₁ = k' := Except.ok.inj (he.symm.trans (quietly_eq_ok hdown))
      rw [hk'] at hzero
      refine ⟨Or.inl hzero, ?_⟩
      rcases hsignal with hv | ⟨hv, hexpecting⟩
      · simp [Channel.due, hzero, hv]
      · simp only [turn, Channel.due, hv] at hturn
        simp [Channel.due, hzero, hv, hexpecting] at hturn ⊢
        exact hturn

/-- The handler ups the semaphore at most once for each command. -/
theorem handler_signal (hk : k.Scheduled) (hhandler : intrHdHandler diskDone k x k' x')
    (hsignal : x.Signal (k.sema diskDone).value) :
    x'.Signal (k'.sema diskDone).value ∧
      x'.due (k'.sema diskDone).value = x.due (k.sema diskDone).value := by
  unfold intrHdHandler at hhandler
  split_ifs at hhandler with hexpecting
  · obtain ⟨rfl, e, hup⟩ := hhandler
    have hzero : (k.sema diskDone).value = 0 := by
      rcases hsignal with hv | ⟨-, hnot⟩
      · exact hv
      · simp [hexpecting] at hnot
    obtain ⟨k₁, he, -, hone⟩ := @semaUp_lock diskDone _ (scheduled_intrOn hk false) hzero
    have hk' : k₁ = k' := Except.ok.inj (he.symm.trans (quietly_eq_ok hup))
    rw [hk'] at hone
    exact ⟨Or.inr ⟨hone, rfl⟩, by simp [Channel.due, hone, hexpecting]⟩
  · obtain ⟨rfl, rfl⟩ := hhandler
    exact ⟨hsignal, rfl⟩

/-- The channel's semaphore is not the lock's, so the lock can rely on its own. -/
theorem ideChannel_sound (hne : diskDone ≠ psema) :
    (ideChannel base diskDone).client.Sound psema where
  work {k x b k' x' b'} hk hidle hwork := by
    obtain ⟨o, rest, d, done, -, hexec, -⟩ := hwork
    have hrun {a : Action} {on : Bool} {e : Thread.Event} (ha : a.Enabled k)
        (hplace : a.place ≠ some (.inl psema))
        (he : perform { k with intrOn := on } a = .ok (k', e)) :
        k'.Scheduled ∧ (k'.sema psema).value = (k.sema psema).value :=
      ⟨(perform_scheduling hk ha on).of_ok he, perform_value hplace he⟩
    cases o with
    | expect =>
      obtain ⟨rfl, -⟩ := hexec
      exact ⟨hk, rfl⟩
    | busyWait =>
      obtain ⟨-, ⟨rfl, -⟩ | ⟨⟨on, e, hyield⟩, -⟩⟩ := hexec
      · exact ⟨hk, rfl⟩
      · exact hrun (a := .threadYield) hidle (by simp [Action.place]) hyield
    | panic => exact hexec.elim
    | event ev =>
      cases ev with
      | semaDown =>
        obtain ⟨-, ⟨on, e, hdown⟩, -⟩ := hexec
        exact hrun (a := .semaDown diskDone) hidle (by simpa [Action.place] using hne) hdown
      | outb _ _ | insw _ _ _ | outsw _ _ _ =>
        obtain ⟨rfl, -⟩ := hexec
        exact ⟨hk, rfl⟩
  handler {k x k' x'} hk hhandler := by
    obtain ⟨hhandler, -⟩ := hhandler
    dsimp only [ideChannel, intrHdHandler] at hhandler
    split_ifs at hhandler
    · obtain ⟨-, e, hup⟩ := hhandler
      exact ⟨(perform_scheduling hk (a := .semaUp diskDone) trivial false).of_ok hup,
        perform_value (by simpa [Action.place] using hne) hup⟩
    · obtain ⟨rfl, -⟩ := hhandler
      exact ⟨hk, rfl⟩

end Signals

section Runs

variable {psema diskDone : ℕ} {base : UInt16} {s₀ s t : ChannelState}
  {l : List (CallEvent (Script ChannelOp))} {e : CallEvent (Script ChannelOp)}

/-- The value of `disk_done`. -/
def diskDoneValue (diskDone : ℕ) (s : ChannelState) : UInt8 := (s.lock.kernel.sema diskDone).value

def due (diskDone : ℕ) (s : ChannelState) : Bool :=
  s.shared.device.due (diskDoneValue diskDone s)

/-- How many commands were sent, and how many were waited for. -/
def commands (ops : List ChannelOp) : ℕ := ops.count .expect
def waits (ops : List ChannelOp) : ℕ := ops.count (.event .semaDown)

structure ChannelInv (psema diskDone : ℕ) (base : UInt16) (l : List (CallEvent (Script ChannelOp)))
    (s : ChannelState) : Prop where
  serial : Serial psema (ideChannel base diskDone) l s
  signal : s.shared.device.Signal (diskDoneValue diskDone s)
  quiet : (∀ t b, s.call t ≠ .inside b) → due diskDone s = false
  turns : ∀ t b, s.call t = .inside b → b.rest.foldlM turn (due diskDone s) = some false
  answers : commands s.shared.log = waits s.shared.log + (due diskDone s).toNat

/-- A step inside the lock's code leaves the other semaphores alone. -/
theorem advance_value (hne : diskDone ≠ psema) {l l' : LockState} (h : advance psema l = .ok l') :
    (l'.kernel.sema diskDone).value = (l.kernel.sema diskDone).value := by
  have hj : (Sum.inl psema : ℕ ⊕ ℕ) ≠ .inl diskDone := by simpa using hne.symm
  have hsema {r : Except Thread.Site Kernel} {k : Kernel}
      (hr : Thread.SamePlace (.inl diskDone) l.kernel r) (hk : r = .ok k) :
      (k.sema diskDone).value = (l.kernel.sema diskDone).value :=
    congrArg Semaphore.value (Sum.inl.inj (hr.of_ok hk))
  unfold advance at h
  dsimp only at h
  split at h
  case h_3 =>
    obtain ⟨k, hk, h⟩ := of_bind_eq_ok h
    obtain rfl := Except.ok.inj h
    exact hsema (semaDown_place hj _) hk
  case h_16 =>
    obtain ⟨k, hk, h⟩ := of_bind_eq_ok h
    obtain rfl := Except.ok.inj h
    exact hsema (semaUp_place hj _) hk
  all_goals
    first
    | obtain rfl := Except.ok.inj h
      rfl
    | obtain ⟨-, h⟩ := of_ensure_eq_ok h
      obtain rfl := Except.ok.inj h
      rfl

/-- A step after which the same calls work and the channel stands as before. -/
theorem ChannelInv.congr (h : ChannelInv psema diskDone base l s)
    (hserial : Serial psema (ideChannel base diskDone) (l ++ [e]) t)
    (hcall : ∀ u b, t.call u = .inside b ↔ s.call u = .inside b)
    (hlog : t.shared.log = s.shared.log)
    (hsignal : t.shared.device.Signal (diskDoneValue diskDone t))
    (hdue : due diskDone t = due diskDone s) : ChannelInv psema diskDone base (l ++ [e]) t := by
  refine ⟨hserial, hsignal, fun hnone => ?_, fun u b hu => ?_, ?_⟩
  · rw [hdue]
    exact h.quiet fun u b hu => hnone u b ((hcall u b).mpr hu)
  · rw [hdue]
    exact h.turns u b ((hcall u b).mp hu)
  · rw [hlog, hdue]
    exact h.answers

theorem commands_append (ops : List ChannelOp) (o : ChannelOp) :
    commands (ops ++ [o]) = commands ops + if o = .expect then 1 else 0 := by
  simp [commands, List.count_append, List.count_singleton]

theorem waits_append (ops : List ChannelOp) (o : ChannelOp) :
    waits (ops ++ [o]) = waits ops + if o = .event .semaDown then 1 else 0 := by
  simp [waits, List.count_append, List.count_singleton]

/-- An operation keeps count when it takes its turn. -/
theorem turn_counts {d d' : Bool} {o : ChannelOp} (h : turn d o = some d') {m n : ℕ}
    (hcount : m = n + d.toNat) :
    m + (if o = .expect then 1 else 0) =
      n + (if o = .event .semaDown then 1 else 0) + d'.toNat := by
  cases o with
  | expect => cases d <;> simp_all [turn]
  | busyWait | panic => simp_all [turn]
  | event ev => cases ev <;> cases d <;> simp_all [turn]

/-- The thread that gets the lock finds no command left to wait for. -/
theorem ChannelInv.lock (h : ChannelInv psema diskDone base l s)
    (hserial : Serial psema (ideChannel base diskDone) (l ++ [.lock]) t)
    (hshared : t.shared = s.shared) (hothers : ∀ u, u ≠ s.cur → t.call u = s.call u)
    (hcur : t.call s.cur = s.call s.cur ∨ t.call s.cur = (s.call s.cur).passed)
    (hvalue : diskDoneValue diskDone t = diskDoneValue diskDone s) :
    ChannelInv psema diskDone base (l ++ [.lock]) t := by
  have hdue : due diskDone t = due diskDone s := by rw [due, due, hshared, hvalue]
  have hsignal : t.shared.device.Signal (diskDoneValue diskDone t) := by
    rw [hshared, hvalue]
    exact h.signal
  by_cases hentering : ∃ b, s.call s.cur = .entering b ∧ t.call s.cur = .inside b
  · obtain ⟨b, hold, hnew⟩ := hentering
    have hquiet := h.quiet (hserial.inv.entered hothers hold hnew)
    refine ⟨hserial, hsignal, fun hnone => absurd hnew (hnone s.cur b), fun u b' hu => ?_, ?_⟩
    · obtain rfl := hserial.inv.inside_unique hnew hu
      obtain rfl := Call.inside.inj (hnew.symm.trans hu)
      obtain ⟨⟨c, -, hops⟩, hrest⟩ := h.serial.fresh _ b hold
      rw [hdue, hquiet, hrest, hops]
      exact ops_alternate c
    · rw [hshared, hdue]
      exact h.answers
  · refine h.congr hserial (fun u b => ?_) (by rw [hshared]) hsignal hdue
    by_cases hu : u = s.cur
    · subst hu
      rcases hcur with hc | hc
      · rw [hc]
      · cases hold : s.call s.cur <;> simp_all [Call.passed]
    · rw [hothers u hu]

theorem ChannelInv.step (hne : diskDone ≠ psema) (h : ChannelInv psema diskDone base l s)
    (hstep : CallStep psema (ideChannel base diskDone).client s e t) :
    ChannelInv psema diskDone base (l ++ [e]) t := by
  have hserial := h.serial.step (ideChannel_sound hne) hstep
  have hscheduled := h.serial.inv.lock.scheduled
  cases hstep with
  | call b hidle hcall henters =>
    refine h.congr hserial (fun u b' => ?_) rfl h.signal rfl
    by_cases hcur : u = s.cur <;> simp [hcur, hcall]
  | lock hidle hpc hadvance =>
    refine h.lock hserial rfl (fun u hu => by simp [hu]) ?_ (advance_value hne hadvance)
    simp only [setCall_call, if_true]
    split
    · exact Or.inr rfl
    · exact Or.inl rfl
  | @work b b' k x hidle hcall hwork =>
    obtain ⟨o, rest, d, done, hrest, hexec, rfl, rfl⟩ := hwork
    have hturns := h.turns s.cur b hcall
    rw [hrest, List.foldlM_cons] at hturns
    obtain ⟨d', hturn, hlater⟩ := Option.bind_eq_some_iff.mp hturns
    obtain ⟨hsignal, hdue⟩ := exec_signal hscheduled hidle hexec h.signal hturn
    refine ⟨hserial, hsignal, fun hnone => ?_, fun u b'' hu => ?_, ?_⟩
    · exact absurd (by simp) (hnone s.cur ⟨b.whole, if done then rest else b.rest⟩)
    · have hu' : u = s.cur := by
        by_contra hcur
        exact hcur (h.serial.inv.inside_unique (by simpa [hcur] using hu) hcall)
      obtain rfl : ⟨b.whole, if done then rest else b.rest⟩ = b'' := by
        simpa [hu'] using hu
      change List.foldlM turn (d.due (k.sema diskDone).value) _ = _
      rw [hdue]
      cases done
      · exact h.turns s.cur b hcall
      · exact hlater
    · change commands (if done then s.shared.log ++ [o] else s.shared.log) =
        waits (if done then s.shared.log ++ [o] else s.shared.log) +
          (d.due (k.sema diskDone).value).toNat
      rw [hdue]
      cases done
      · exact h.answers
      · simp only [if_true, commands_append, waits_append]
        exact turn_counts hturn h.answers
  | @finish b hidle hcall hfinished =>
    have hturns := h.turns s.cur b hcall
    rw [show b.rest = [] from hfinished, List.foldlM_nil] at hturns
    have hdue : due diskDone s = false := Option.some.inj hturns
    refine ⟨hserial, h.signal, fun _ => hdue, fun u b' hu => ?_, h.answers⟩
    by_cases hcur : u = s.cur
    · simp [hcur] at hu
    · exact absurd (h.serial.inv.inside_unique (by simpa [hcur] using hu) hcall) hcur
  | handler hhandler =>
    obtain ⟨hhandler, hlog⟩ := hhandler
    obtain ⟨hsignal, hdue⟩ := handler_signal hscheduled hhandler h.signal
    exact h.congr hserial (fun _ _ => Iff.rfl) hlog hsignal hdue
  | @other on a k e henabled hdown hup hadmits hfree hperform =>
    have hplace : a.place ≠ some (.inl diskDone) := by
      intro hplace
      cases a <;> simp_all [Action.place, ideChannel, Device.client]
    have hvalue : (k.sema diskDone).value = (s.lock.kernel.sema diskDone).value :=
      perform_value hplace hperform
    refine h.congr hserial (fun _ _ => Iff.rfl) rfl ?_ ?_
    · change s.shared.device.Signal (k.sema diskDone).value
      rw [hvalue]
      exact h.signal
    · change s.shared.device.due (k.sema diskDone).value = _
      rw [hvalue]
      rfl

theorem channelInv_nil (hstart : (channel base diskDone psema).start s) :
    ChannelInv psema diskDone base [] s := by
  have hserial := serial_nil hstart
  obtain ⟨-, ⟨⟨hexpecting, hzero⟩, hlog⟩, hcall⟩ := hstart
  have hdue : due diskDone s = false := by
    simp [due, Channel.due, diskDoneValue, hexpecting, hzero]
  refine ⟨hserial, Or.inl hzero, fun _ => hdue, fun u b hu => ?_, ?_⟩
  · simp [hcall u] at hu
  · simp [hlog, hdue, commands, waits]

theorem channelInv_run (hne : diskDone ≠ psema) (hstart : (channel base diskDone psema).start s₀)
    (hrun : (channel base diskDone psema).Run s₀ l s) : ChannelInv psema diskDone base l s :=
  hrun.history (fun _ _ _ _ hs hstep => hs.step hne hstep) (channelInv_nil hstart)

/-- The handler trips none of its assertions. -/
theorem ChannelInv.handles (h : ChannelInv psema diskDone base l s) :
    ∃ t, CallStep psema (ideChannel base diskDone).client s .handler t := by
  have hscheduled := h.serial.inv.lock.scheduled
  by_cases hexpecting : s.shared.device.expectingIntr = true
  · have hzero : (s.lock.kernel.sema diskDone).value = 0 := by
      rcases h.signal with hv | ⟨-, hnot⟩
      · exact hv
      · simp [hexpecting] at hnot
    obtain ⟨k, he, -⟩ := @semaUp_lock diskDone _ (scheduled_intrOn hscheduled false) hzero
    have hup : perform { s.lock.kernel with intrOn := false } (.semaUp diskDone) =
        .ok (k, .quiet) := by
      simp only [perform, quietly, he]
      rfl
    exact ⟨_, .handler (k := k) (x := ⟨⟨false⟩, s.shared.log⟩) ⟨by
      simpa [ideChannel, intrHdHandler, hexpecting] using ⟨_, hup⟩, rfl⟩⟩
  · exact ⟨_, .handler (k := s.lock.kernel) (x := s.shared) ⟨by
      simp [ideChannel, intrHdHandler, hexpecting], rfl⟩⟩

/-- So does the operation that comes next. -/
theorem ChannelInv.works (h : ChannelInv psema diskDone base l s)
    (hidle : s.cur ≠ s.lock.kernel.idleThread) {b : Script ChannelOp} {o : ChannelOp}
    {rest : List ChannelOp} (hcall : s.call s.cur = .inside b) (hrest : b.rest = o :: rest)
    (ho : o ≠ .panic) : ∃ t, CallStep psema (ideChannel base diskDone).client s .work t := by
  obtain ⟨k, d, done, hexec⟩ : ∃ k d done,
      Channel.exec diskDone s.lock.kernel s.shared.device o k d done := by
    cases o with
    | expect => exact ⟨_, _, _, rfl, rfl, rfl⟩
    | busyWait => exact ⟨_, _, _, rfl, Or.inl ⟨rfl, rfl⟩⟩
    | panic => exact absurd rfl ho
    | event ev =>
      cases ev with
      | semaDown =>
        obtain ⟨k, he, -⟩ := @semaDown_lock diskDone _ h.serial.inv.lock.scheduled hidle
          (h.signal.imp id And.left)
        have hdown : perform { s.lock.kernel with intrOn := s.lock.kernel.intrOn }
            (.semaDown diskDone) = .ok (k, .quiet) := by
          simp only [perform, quietly, he]
          rfl
        exact ⟨k, _, _, rfl, ⟨_, _, hdown⟩, rfl⟩
      | outb _ _ | insw _ _ _ | outsw _ _ _ => exact ⟨_, _, _, rfl, rfl, rfl⟩
  exact ⟨_, .work hidle hcall ⟨o, rest, d, done, hrest, hexec, rfl, rfl⟩⟩

/-- In every run what is done at a channel is one whole call after another, whoever sleeps or is
interrupted in between. Each command's interrupt is still to come, or it has upped `disk_done`, or
a wait has used it up: none is lost and none counts twice. Whoever is about to wait has a command
to wait for, and neither the handler nor an operation of a call trips an assertion. -/
theorem channel_answers (hne : diskDone ≠ psema) (hstart : (channel base diskDone psema).start s₀)
    (hrun : (channel base diskDone psema).Run s₀ l s) :
    (∃ part, s.shared.log = (finished l).flatten ++ part ∧ DonePart s part) ∧
    (∀ t, calledBy t l = finishedBy t l ++ (s.call t).pending) ∧
    commands s.shared.log = waits s.shared.log + s.shared.device.expectingIntr.toNat +
      (diskDoneValue diskDone s).toNat ∧
    (∀ t b rest, s.call t = .inside b → b.rest = .event .semaDown :: rest →
      s.shared.device.expectingIntr = true ∨ diskDoneValue diskDone s = 1) ∧
    (∃ t, (channel base diskDone psema).step s .handler t) ∧
    ∀ b o rest, s.cur ≠ s.lock.kernel.idleThread → s.call s.cur = .inside b →
      b.rest = o :: rest → o ≠ .panic → ∃ t, (channel base diskDone psema).step s .work t := by
  have h := channelInv_run hne hstart hrun
  refine ⟨h.serial.log, h.serial.balance, ?_, fun u b rest hu hrest => ?_, h.handles,
    fun b o rest hidle hcall hrest ho => h.works hidle hcall hrest ho⟩
  · rw [h.answers]
    rcases h.signal with hv | ⟨hv, hexpecting⟩
    · simp [due, Channel.due, hv]
    · simp [due, Channel.due, hv, hexpecting]
  · have hturns := h.turns u b hu
    rw [hrest, List.foldlM_cons] at hturns
    obtain ⟨d, hturn, -⟩ := Option.bind_eq_some_iff.mp hturns
    have hdue : due diskDone s = true := by
      by_contra hnot
      simp [turn, hnot] at hturn
    rcases h.signal with hv | ⟨hv, -⟩
    · simp only [due, Channel.due, hv] at hdue
      exact Or.inl (by simpa using hdue)
    · exact Or.inr hv

/-- The boot sector of the second disk. -/
def bootSector : IdeCall := ⟨⟨0x1f0, 1⟩, false, 0, 0x10000, 1⟩

def bootSectorEvents : List (CallEvent (Script ChannelOp)) :=
  [.call 2 ⟨bootSector.ops, bootSector.ops⟩, .lock, .lock, .lock, .lock, .lock, .work]

/-- Main, after boot, reads it and has selected the disk. -/
theorem bootSector_run : ∃ s₀ s, (channel 0x1f0 1 0).start s₀ ∧
    (channel 0x1f0 1 0).Run s₀ bootSectorEvents s ∧
    s.shared.log = [.event (.outb 0x1f6 0xf0)] := by
  obtain ⟨k, hk⟩ : ∃ k, threadInit 1 2 3 (fun i => if i = 0 then 1 else 0) = .ok k := ⟨_, rfl⟩
  obtain ⟨s₀, hs₀⟩ : ∃ s₀ : ChannelState, s₀ = ⟨lockBoot k, ⟨⟨false⟩, []⟩, fun _ => .idle⟩ :=
    ⟨_, rfl⟩
  have hstart : (channel 0x1f0 1 0).start s₀ := by
    subst hs₀
    refine ⟨⟨⟨1, 2, 3, _, by decide, by decide, by decide, hk⟩, ?_, rfl, rfl, fun _ => rfl,
      fun _ => rfl⟩, ⟨⟨rfl, ?_⟩, rfl⟩, fun _ => rfl⟩ <;>
    · obtain rfl := Except.ok.inj hk
      rfl
  obtain ⟨s, l, hrun, hl, hlog⟩ : ∃ s l, (channel 0x1f0 1 0).Run s₀ l s ∧ l = bootSectorEvents ∧
      s.shared.log = [.event (.outb 0x1f6 0xf0)] := by
    subst hs₀
    obtain rfl := Except.ok.inj hk
    refine ⟨_, _, .snoc (.snoc (.snoc (.snoc (.snoc (.snoc (.snoc .nil
      (.call ⟨bootSector.ops, bootSector.ops⟩ ?_ rfl ⟨⟨bootSector, rfl, rfl⟩, rfl⟩))
      (.lock ?_ ?_ rfl)) (.lock ?_ ?_ rfl)) (.lock ?_ ?_ rfl)) (.lock ?_ ?_ rfl)) (.lock ?_ ?_ rfl))
      (.work ?_ rfl ⟨.event (.outb _ _), _, _, _, rfl, ⟨rfl, rfl, rfl⟩, rfl, rfl⟩), ?_, ?_⟩ <;>
    decide
  exact ⟨s₀, s, hstart, hl ▸ hrun, hlog⟩

theorem channel_answers_select : ∃ s₀ s, (channel 0x1f0 1 0).start s₀ ∧
    (channel 0x1f0 1 0).Run s₀ bootSectorEvents s ∧ s.shared.log = [.event (.outb 0x1f6 0xf0)] ∧
    (∃ part, s.shared.log = (finished bootSectorEvents).flatten ++ part ∧ DonePart s part) := by
  obtain ⟨s₀, s, hstart, hrun, hlog⟩ := bootSector_run
  exact ⟨s₀, s, hstart, hrun, hlog, (channel_answers (by decide) hstart hrun).1⟩

end Runs

section Commands

variable {base : UInt16}

/-- The accesses to the ports. -/
def ports (ops : List ChannelOp) : List PortEvent :=
  ops.filterMap fun
    | .event e => some e
    | _ => none

theorem ports_append (l l' : List ChannelOp) : ports (l ++ l') = ports l ++ ports l' :=
  List.filterMap_append

theorem ports_channelOps (hd : Drive) (e : PortEvent) : ports (channelOps hd e) = [e] := by
  cases e with
  | outb port data =>
    rw [channelOps]
    split_ifs <;> rfl
  | insw | outsw | semaDown => rfl

theorem ports_flatMap (hd : Drive) (log : List PortEvent) :
    ports (log.flatMap (channelOps hd)) = log := by
  induction log with
  | nil => rfl
  | cons e log ih => rw [List.flatMap_cons, ports_append, ports_channelOps, ih, List.singleton_append]

theorem ports_ops (c : IdeCall) : ports c.ops = c.driver.log := by
  unfold IdeCall.ops
  rw [ports_append, ports_flatMap]
  split_ifs <;> simp [ports]

def IdeCall.cmd (c : IdeCall) : UInt8 := if c.write then cmdWriteSector else cmdReadSector

/-- The disk has all its sectors. -/
def IdeCall.InRange (c : IdeCall) : Prop :=
  0 < c.secCnt ∧ c.lba.toNat + c.secCnt.toNat ≤ maxLba + 1

/-- What the commands of a call are for. -/
def IdeCall.Done (c : IdeCall) (ts : List Transfer) : Prop :=
  Covers ts c.cmd (!c.write) (decide (c.hd.devNo = 1)) c.lba c.buf c.secCnt

variable {chunk : UInt32 → UInt32 → Driver Unit} {hd : Drive} {lba buf secCnt : UInt32} {cmd : UInt8}
  {toMemory : Bool}

theorem covers_of_chunks (hmax : lba.toNat + secCnt.toNat ≤ maxLba + 1) {ts : List Transfer}
    (hsectors : (ts.flatMap fun t => (List.range t.sectors).map (t.lba + ·)) =
      (List.range secCnt.toNat).map (lba.toNat + ·))
    (hts : ∀ t ∈ ts, ∃ d o : UInt32, d.toNat < secCnt.toNat ∧
      t = chunkTransfer hd cmd toMemory lba buf d o) :
    Covers ts cmd toMemory (decide (hd.devNo = 1)) lba buf secCnt := by
  refine ⟨hsectors, fun t ht => ?_⟩
  obtain ⟨d, o, hlt, rfl⟩ := hts t ht
  have hsum : (lba + d).toNat = lba.toNat + d.toNat := by
    have hmax : lba.toNat + secCnt.toNat ≤ 163840 := hmax
    rw [UInt32.toNat_add]
    omega
  have haddr : UInt32.ofNat ((lba + d).toNat - lba.toNat) = d := by
    rw [hsum, Nat.add_sub_cancel_left, UInt32.ofNat_toNat]
  have hle : lba.toNat ≤ (lba + d).toNat := hsum ▸ Nat.le_add_right _ _
  refine ⟨rfl, rfl, rfl, hle, ?_⟩
  simp only [chunkTransfer, haddr, UInt32.mul_comm]

/-- Whatever stands in the registers before, and whatever the commands before were. -/
theorem transfer_done (hchunk : Chunks chunk hd cmd toMemory lba buf secCnt) (hpos : 0 < secCnt)
    (hmax : lba.toNat + secCnt.toNat ≤ maxLba + 1) (s : Ata) :
    let call : Driver Unit := do
      liftM (ensure Fault.assert (lba.toNat ≤ maxLba))
      liftM (ensure Fault.assert (0 < secCnt))
      selectDisk hd
      sectorLoop chunk secCnt (secCnt.toNat + 1) 0
    ∃ ts, (call.log.foldl (Ata.step hd.portBase) s).done = ts.reverse ++ s.done ∧
      Covers ts cmd toMemory (decide (hd.devNo = 1)) lba buf secCnt := by
  have hlba : lba.toNat ≤ maxLba := by
    have hpos : 0 < secCnt.toNat := hpos
    omega
  obtain ⟨-, hrun⟩ := sectorLoop_covers hchunk hmax (secCnt.toNat + 1) 0
    (Nat.zero_le _) (Nat.lt_succ_of_le (Nat.sub_le _ _))
  obtain ⟨ts, hdone, hsectors, hts⟩ := hrun (Ata.step hd.portBase s
    (.outb hd.regDev (bitDevMbs ||| bitDevLba ||| devBit hd).toUInt8))
  dsimp only
  rw [lift_bind (ensure_of hlba), lift_bind (ensure_of hpos)]
  refine ⟨ts, ?_, covers_of_chunks hmax (by simpa using hsectors) hts⟩
  unfold selectDisk
  rw [event_bind, List.foldl_cons, hdone]
  simp [Ata.step, Drive.regDev]

theorem IdeCall.done (c : IdeCall) (hin : c.InRange) (s : Ata) :
    ∃ ts, (c.driver.log.foldl (Ata.step c.hd.portBase) s).done = ts.reverse ++ s.done ∧
      c.Done ts := by
  unfold IdeCall.driver IdeCall.Done IdeCall.cmd
  cases c.write with
  | true => exact transfer_done (chunks_write (fun _ => rfl) hin.2) hin.1 hin.2 s
  | false => exact transfer_done (chunks_read (fun _ => rfl) hin.2) hin.1 hin.2 s

/-- One call after the other. -/
theorem calls_done (cs : List IdeCall) (hcs : ∀ c ∈ cs, c.hd.portBase = base ∧ c.InRange) :
    ∀ s : Ata, ∃ ts : List (List Transfer), List.Forall₂ IdeCall.Done cs ts ∧
      ((cs.flatMap fun c => c.driver.log).foldl (Ata.step base) s).done =
        ts.flatten.reverse ++ s.done := by
  induction cs with
  | nil => exact fun s => ⟨[], .nil, rfl⟩
  | cons c cs ih =>
    intro s
    obtain ⟨rfl, hin⟩ := hcs c List.mem_cons_self
    obtain ⟨t, hdone, ht⟩ := c.done hin s
    obtain ⟨ts, hts, hrest⟩ := ih (fun c' hc' => hcs c' (List.mem_cons_of_mem _ hc'))
      (c.driver.log.foldl (Ata.step c.hd.portBase) s)
    refine ⟨t :: ts, .cons ht hts, ?_⟩
    rw [List.flatMap_cons, List.foldl_append, hrest, hdone, List.flatten_cons, List.reverse_append,
      List.append_assoc]

end Commands

section Coverage

variable {psema diskDone : ℕ} {base : UInt16} {s₀ s : ChannelState}
  {l : List (CallEvent (Script ChannelOp))}

theorem mem_calledBy_of_finished (hbalance : ∀ t, calledBy t l = finishedBy t l ++ (s.call t).pending)
    {ops : List ChannelOp} (h : ops ∈ finished l) : ∃ t, ops ∈ calledBy t l := by
  obtain ⟨e, he, hops⟩ := List.mem_filterMap.mp h
  cases e with
  | finish t b =>
    refine ⟨t, ?_⟩
    rw [hbalance t]
    refine List.mem_append_left _ (List.mem_filterMap.mpr ⟨_, he, ?_⟩)
    simpa using hops
  | call | lock | work | handler | other => simp at hops

/-- In every run whose calls stay on the disk, the commands that the disk gets up to the last call
that is through are those of the calls, one call after the other: each call's cover its own
sectors, in order and each once, and move its data to or from its own buffer. -/
theorem channel_commands (hne : diskDone ≠ psema) (hstart : (channel base diskDone psema).start s₀)
    (hrun : (channel base diskDone psema).Run s₀ l s)
    (hin : ∀ t, ∀ ops ∈ calledBy t l, ∃ c : IdeCall, c.hd.portBase = base ∧ c.InRange ∧ ops = c.ops)
    (regs : Ata) :
    ∃ (cs : List IdeCall) (ts : List (List Transfer)) (part : List ChannelOp),
      finished l = cs.map IdeCall.ops ∧ s.shared.log = cs.flatMap IdeCall.ops ++ part ∧
      DonePart s part ∧ List.Forall₂ IdeCall.Done cs ts ∧
      regs.commands base (ports (cs.flatMap IdeCall.ops)) = ts.flatten := by
  have h := channelInv_run hne hstart hrun
  obtain ⟨part, hlog, hpart⟩ := h.serial.log
  obtain ⟨cs, hcs, hfinished⟩ : ∃ cs : List IdeCall, (∀ c ∈ cs, c.hd.portBase = base ∧ c.InRange) ∧
      finished l = cs.map IdeCall.ops := by
    have hall : ∀ ops ∈ finished l, ∃ c : IdeCall, (c.hd.portBase = base ∧ c.InRange) ∧
        ops = c.ops := by
      intro ops hops
      obtain ⟨t, ht⟩ := mem_calledBy_of_finished h.serial.balance hops
      obtain ⟨c, hbase, hrange, heq⟩ := hin t ops ht
      exact ⟨c, ⟨hbase, hrange⟩, heq⟩
    generalize finished l = opss at hall
    induction opss with
    | nil => exact ⟨[], by simp, rfl⟩
    | cons ops opss ih =>
      obtain ⟨c, hc, rfl⟩ := hall ops List.mem_cons_self
      obtain ⟨cs, hcs, rfl⟩ := ih fun ops' h' => hall ops' (List.mem_cons_of_mem _ h')
      exact ⟨c :: cs, by simpa using ⟨hc, hcs⟩, rfl⟩
  obtain ⟨ts, hts, hdone⟩ := calls_done cs hcs { regs with done := [] }
  refine ⟨cs, ts, part, hfinished, ?_, hpart, hts, ?_⟩
  · rw [hlog, hfinished, List.flatMap_def]
  · have hports : ports (cs.flatMap IdeCall.ops) = cs.flatMap fun c => c.driver.log := by
      clear hcs hfinished hts hdone
      induction cs with
      | nil => rfl
      | cons c cs ih => rw [List.flatMap_cons, ports_append, ports_ops, ih, List.flatMap_cons]
    rw [Ata.commands, hports, hdone]
    simp

theorem channel_commands_select : ∃ s₀ s, (channel 0x1f0 1 0).start s₀ ∧
    (channel 0x1f0 1 0).Run s₀ bootSectorEvents s ∧
    ∃ (cs : List IdeCall) (ts : List (List Transfer)) (part : List ChannelOp),
      finished bootSectorEvents = cs.map IdeCall.ops ∧
      s.shared.log = cs.flatMap IdeCall.ops ++ part ∧ DonePart s part ∧
      List.Forall₂ IdeCall.Done cs ts ∧
      Ata.commands 0x1f0 ⟨0, 0, 0, 0, 0, []⟩ (ports (cs.flatMap IdeCall.ops)) = ts.flatten := by
  obtain ⟨s₀, s, hstart, hrun, -⟩ := bootSector_run
  refine ⟨s₀, s, hstart, hrun, channel_commands (by decide) hstart hrun (fun t ops hops => ?_) _⟩
  have hcalled : calledBy t bootSectorEvents = if 2 = t then [bootSector.ops] else [] := by
    unfold calledBy bootSectorEvents
    split_ifs with ht <;> simp [ht]
  rw [hcalled] at hops
  split_ifs at hops
  · exact ⟨bootSector, rfl, ⟨by decide, by decide⟩, by simpa using hops⟩
  · simp at hops

end Coverage

end X86System.Ide
