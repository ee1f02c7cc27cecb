import X86System.IoqueueRuns
import X86System.Keyboard
import X86System.Readline

/-!
# A typed line

What is typed comes to the shell through the keyboard's interrupt handler, the ring of the
keyboard and `readline`. Interrupts come at any time, while the shell waits for a character or
other threads run.
-/
namespace X86System.Thread
open Exec Transition
open Keyboard (Status intrKeyboardHandler)
open Shell (IsEnter edit LeavesRoom readline HoldsString)

/-- The keyboard's handler and its ring `kbd_buf`. -/
structure Terminal where
  status : Status
  io : IoqState

inductive TerminalEvent
  /-- An interrupt of the keyboard, for one byte. -/
  | scan (byte : UInt8)
  /-- What else happens: nobody but the handler puts a character into `kbd_buf`. -/
  | ring (a : IoqAction)
  deriving DecidableEq, Repr

section Source

variable (q : ℕ)

/-- The ring behind the handler. -/
def Terminal.deliver (s : Terminal) : Keyboard.Output → Except Site IoqState
  | .key curChar => ioqPerform q s.io (.key curChar)
  | _ => .ok s.io

inductive TerminalStep : Terminal → TerminalEvent → Terminal → Prop
  | scan {s : Terminal} {io : IoqState} (byte : UInt8)
      (henabled : s.io.pc s.io.kernel.runningThread = .outside)
      (hdeliver : s.deliver q (intrKeyboardHandler s.status byte).2 = .ok io) :
      TerminalStep s (.scan byte) ⟨(intrKeyboardHandler s.status byte).1, io⟩
  | ring {s : Terminal} {io : IoqState} {a : IoqAction} (hkey : ∀ c, a ≠ .key c)
      (hput : ∀ c, a ≠ .call (.putchar c)) (hstep : (ioqSystem q).step s.io a io) :
      TerminalStep s (.ring a) ⟨s.status, io⟩

def terminal : System Terminal TerminalEvent where
  start s := s.status = {} ∧ IoqState.Init q s.io
  step := TerminalStep q

end Source

section Typing

/-- The bytes of the keyboard's interrupts. -/
def scans (l : List TerminalEvent) : List UInt8 :=
  l.filterMap fun
    | .scan byte => some byte
    | .ring _ => none

/-- The character of an interrupt, if it has one. -/
def output (s : Status) (byte : UInt8) : List UInt8 :=
  match (intrKeyboardHandler s byte).2 with
  | .key c => [c]
  | _ => []

/-- What is typed with some bytes. -/
def typed : Status → List UInt8 → List UInt8
  | _, [] => []
  | s, byte :: bytes => output s byte ++ typed (intrKeyboardHandler s byte).1 bytes

theorem typed_append (bytes : List UInt8) (byte : UInt8) : ∀ s : Status,
    typed s (bytes ++ [byte]) = typed s bytes ++ output (Keyboard.feed s bytes) byte := by
  induction bytes with
  | nil => simp [typed]
  | cons b bytes ih =>
    intro s
    simp [typed, ih]

theorem output_ne_zero (s : Status) (byte : UInt8) : 0 ∉ output s byte := by
  unfold output
  split
  case h_1 c hc =>
    have hne : c ≠ 0 := by
      unfold intrKeyboardHandler at hc
      dsimp only at hc
      generalize (if Keyboard.isSymbol (Keyboard.merge s.extScancode byte) then s.shiftStatus
        else s.shiftStatus ^^ s.capsLockStatus) = shift at hc
      split_ifs at hc with _ _ _ _ _ _ hchar hctrl
      · rcases hctrl.2 with h | h <;> rw [← Keyboard.Output.key.inj hc, h] <;> decide
      · exact Keyboard.Output.key.inj hc ▸ hchar
    simpa using hne.symm
  case h_2 => simp

theorem typed_ne_zero (bytes : List UInt8) : ∀ s : Status, 0 ∉ typed s bytes := by
  induction bytes with
  | nil => exact fun _ => List.not_mem_nil
  | cons byte bytes ih =>
    intro s hmem
    rcases List.mem_append.mp hmem with hzero | hzero
    · exact output_ne_zero s byte hzero
    · exact ih _ hzero

end Typing

section Getchar

variable {q : ℕ} {s t : IoqState} {c : IoqCall}

/-- The call that a thread is in. -/
def IoqPc.asks : IoqPc → Option IoqCall
  | .outside => none
  | .test c | .down c | .waiting c => some c

theorem store_eq {byte : UInt8} (h : store q s byte = .ok t) :
    t.stored = s.stored ++ [byte] ∧ t.pc = s.pc := by
  obtain ⟨k, -, h⟩ := of_bind_eq_ok h
  obtain rfl := Except.ok.inj h
  exact ⟨rfl, rfl⟩

theorem fetch_eq (h : fetch q s = .ok t) : t.stored = s.stored ∧ t.pc = s.pc := by
  obtain ⟨k, -, h⟩ := of_bind_eq_ok h
  obtain rfl := Except.ok.inj h
  exact ⟨rfl, rfl⟩

theorem beginWait_eq (h : beginWait q s c = .ok t) : t.stored = s.stored ∧
    t.pc = Function.update s.pc s.kernel.runningThread (.waiting c) := by
  obtain ⟨k, -, h⟩ := of_bind_eq_ok h
  obtain rfl := Except.ok.inj h
  exact ⟨rfl, rfl⟩

theorem ioqRelease_eq (h : ioqRelease q s = .ok t) : t.stored = s.stored ∧ t.pc = s.pc := by
  obtain ⟨-, h⟩ := of_ensure_eq_ok h
  split_ifs at h
  · obtain rfl := Except.ok.inj h
    exact ⟨rfl, rfl⟩
  · obtain ⟨-, h⟩ := of_ensure_eq_ok h
    obtain ⟨k, -, h⟩ := of_bind_eq_ok h
    obtain rfl := Except.ok.inj h
    exact ⟨rfl, rfl⟩

/-- All calls are of `ioq_getchar`. -/
def OnlyGetchar (s : IoqState) : Prop := ∀ u c, (s.pc u).asks = some c → c = .getchar

theorem OnlyGetchar.goto (h : OnlyGetchar s) {cur : Tid} {p : IoqPc}
    (hpc : t.pc = Function.update s.pc cur p) (hp : ∀ c, p.asks = some c → c = .getchar) :
    OnlyGetchar t := by
  intro u c hu
  rw [hpc] at hu
  by_cases hcur : u = cur
  · subst hcur
    exact hp c (by simpa using hu)
  · exact h u c (by simpa [hcur] using hu)

/-- A thread in such a call stores nothing. -/
theorem advance_getchar (h : OnlyGetchar s) (hstep : ioqAdvance q s = .ok t) :
    t.stored = s.stored ∧ OnlyGetchar t := by
  have hcall := h s.kernel.runningThread
  unfold ioqAdvance at hstep
  dsimp only at hstep
  split at hstep
  case h_1 =>
    obtain rfl := Except.ok.inj hstep
    exact ⟨rfl, h⟩
  case h_2 c hp =>
    rw [hp] at hcall
    split_ifs at hstep
    · obtain rfl := Except.ok.inj hstep
      exact ⟨rfl, h.goto rfl hcall⟩
    · obtain ⟨hstored, hpc⟩ := beginWait_eq hstep
      exact ⟨hstored, h.goto hpc hcall⟩
    · obtain ⟨s₁, hfinish, hstep⟩ := of_bind_eq_ok hstep
      obtain rfl := Except.ok.inj hstep
      rw [hcall c rfl] at hfinish
      obtain ⟨hstored, hpc⟩ := fetch_eq hfinish
      exact ⟨hstored, h.goto (congrArg (Function.update · _ _) hpc) (by simp [IoqPc.asks])⟩
  case h_3 c hp =>
    rw [hp] at hcall
    obtain ⟨k, -, hstep⟩ := of_bind_eq_ok hstep
    split_ifs at hstep
    · obtain rfl := Except.ok.inj hstep
      exact ⟨rfl, h⟩
    · obtain ⟨-, hstep⟩ := of_ensure_eq_ok hstep
      obtain ⟨hstored, hpc⟩ := beginWait_eq hstep
      exact ⟨hstored, h.goto hpc hcall⟩
  case h_4 c hp =>
    rw [hp] at hcall
    obtain ⟨s₁, hrelease, hstep⟩ := of_bind_eq_ok hstep
    obtain rfl := Except.ok.inj hstep
    obtain ⟨hstored, hpc⟩ := ioqRelease_eq hrelease
    exact ⟨hstored, h.goto (congrArg (Function.update · _ _) hpc) hcall⟩

end Getchar

section Lines

variable {q : ℕ} {s₀ s t : Terminal} {l : List TerminalEvent} {e : TerminalEvent}

/-- The ring has room for the character of an interrupt. -/
def Room (s : Terminal) : TerminalEvent → Prop
  | .scan _ => ¬ ioqFull s.io.ring
  | .ring _ => True

instance (s : Terminal) (e : TerminalEvent) : Decidable (Room s e) :=
  match e with
  | .scan _ => inferInstanceAs (Decidable (¬ ioqFull s.io.ring))
  | .ring _ => inferInstanceAs (Decidable True)

/-- The line fits when Enter comes. -/
theorem leavesRoom_fits {count : ℕ} {enter : UInt8} {pre : List UInt8}
    (hpre : ∀ e ∈ pre, ¬ IsEnter e) : ∀ {text : List UInt8},
    LeavesRoom count text (pre ++ [enter]) → (pre.foldl edit text).length < count := by
  induction pre with
  | nil => exact fun h => h.1
  | cons e pre ih =>
    intro text h
    have hrest := h.2.resolve_left (hpre e List.mem_cons_self)
    exact ih (fun d hd => hpre d (List.mem_cons_of_mem e hd)) hrest

structure Typed (l : List TerminalEvent) (s : Terminal) : Prop where
  status : s.status = Keyboard.feed {} (scans l)
  fifo : s.io.stored = s.io.fetched ++ s.io.ring.items
  stored : s.io.stored = typed {} (scans l)
  getchar : OnlyGetchar s.io

theorem Typed.scan (h : Typed l s) {byte : UInt8} (hroom : ¬ ioqFull s.io.ring)
    (henabled : s.io.pc s.io.kernel.runningThread = .outside) {io : IoqState}
    (hdeliver : s.deliver q (intrKeyboardHandler s.status byte).2 = .ok io) :
    Typed (l ++ [.scan byte]) ⟨(intrKeyboardHandler s.status byte).1, io⟩ := by
  have hscans : scans (l ++ [.scan byte]) = scans l ++ [byte] := by simp [scans]
  have hstatus : (intrKeyboardHandler s.status byte).1 = Keyboard.feed {} (scans l ++ [byte]) := by
    rw [h.status]
    simp [Keyboard.feed]
  have htyped : typed {} (scans l ++ [byte]) = s.io.stored ++ output s.status byte := by
    rw [typed_append, h.stored, h.status]
  cases hout : (intrKeyboardHandler s.status byte).2 with
  | key c =>
    rw [hout] at hdeliver
    have hstep : (ioqSystem q).step s.io (.key c) io := ⟨henabled, hdeliver⟩
    have hfifo := fifo_step h.fifo (ioqueue_step hstep)
    simp only [Terminal.deliver, ioqPerform, hroom, if_false] at hdeliver
    obtain ⟨hstored, hpc⟩ := store_eq hdeliver
    refine ⟨by rw [hscans]; exact hstatus, hfifo, ?_, fun u d hu => ?_⟩
    · rw [hscans, htyped]
      simpa [output, hout] using hstored
    · exact h.getchar u d (by rw [← hpc]; exact hu)
  | nothing | putStr text =>
    rw [hout] at hdeliver
    obtain rfl : s.io = io := Except.ok.inj hdeliver
    refine ⟨by rw [hscans]; exact hstatus, h.fifo, ?_, h.getchar⟩
    rw [hscans, htyped]
    simp [output, hout]

theorem Typed.ring (h : Typed l s) {a : IoqAction} (hkey : ∀ c, a ≠ .key c)
    (hput : ∀ c, a ≠ .call (.putchar c)) {io : IoqState} (hstep : (ioqSystem q).step s.io a io) :
    Typed (l ++ [.ring a]) ⟨s.status, io⟩ := by
  have hscans : scans (l ++ [.ring a]) = scans l := by simp [scans]
  have hfifo := fifo_step h.fifo (ioqueue_step hstep)
  obtain ⟨hstored, hgetchar⟩ : io.stored = s.io.stored ∧ OnlyGetchar io := by
    obtain ⟨-, hstep⟩ := hstep
    cases a with
    | call c =>
      obtain rfl := Except.ok.inj hstep
      refine ⟨rfl, h.getchar.goto rfl fun d hd => ?_⟩
      cases c with
      | getchar => exact (Option.some.inj hd).symm
      | putchar byte => exact absurd rfl (hput byte)
    | advance => exact advance_getchar h.getchar hstep
    | key c => exact absurd rfl (hkey c)
    | other on a =>
      obtain ⟨⟨k, e⟩, -, hstep⟩ := of_bind_eq_ok hstep
      obtain rfl := Except.ok.inj hstep
      exact ⟨rfl, h.getchar⟩
  exact ⟨by rw [hscans]; exact h.status, hfifo, by rw [hscans, hstored, h.stored], hgetchar⟩

theorem typed_nil (h : (terminal q).start s) : Typed [] s := by
  obtain ⟨hstatus, hinit⟩ := h
  have hitems := init_items hinit
  obtain ⟨-, -, -, -, -, -, hpc, hstored, hfetched⟩ := hinit
  refine ⟨hstatus, by rw [hstored, hfetched, hitems]; rfl, hstored, fun u c hu => ?_⟩
  simp [hpc u, IoqPc.asks] at hu

theorem typed_run (hstart : (terminal q).start s₀)
    (hrun : (terminal q).RunWhere Room s₀ l s) : Typed l s := by
  induction hrun with
  | nil => exact typed_nil hstart
  | snoc _ hroom hstep ih =>
    cases hstep with
    | scan byte henabled hdeliver => exact ih.scan hroom henabled hdeliver
    | ring hkey hput hstep => exact ih.ring hkey hput hstep

end Lines

end X86System.Thread
