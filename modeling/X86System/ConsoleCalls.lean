import X86System.ScriptedCalls
import X86System.NumberPrinters

/-!
# The console

`console_put_str`, `console_put_char` and `console_put_int` print under the console's lock, one
character after the other with interrupts on. Whatever threads and interrupts come in between,
what the screen is given is one whole string after the other.
-/
namespace X86System.Thread
open Bytes Exec Transition

/-- The calls of `put_char` under the console's lock. -/
def consoleDevice : Device Unit UInt8 where
  start _ _ := True
  calls _ := True
  exec k _ _ k' _ done := k' = k ∧ done = true
  handler _ _ _ _ := False
  admits _ := True

abbrev ConsoleState := CallState (Recorded Unit UInt8) (Script UInt8)

def console (psema : ℕ) : System ConsoleState (CallEvent (Script UInt8)) :=
  callSystem psema consoleDevice.client

def consolePutStr (str : List UInt8) : Script UInt8 := ⟨str, str⟩

def consolePutChar (charAscii : UInt8) : Script UInt8 := ⟨[charAscii], [charAscii]⟩

def consolePutInt (putIntBuffer : Image) (num : UInt32) : Except Fault (Script UInt8) := do
  let (digits, _) ← Stdio.putInt putIntBuffer num
  .ok ⟨digits, digits⟩

/-- What `put_char` was called with under the lock. -/
def screen (s : ConsoleState) : List UInt8 := s.shared.log

theorem consoleDevice_sound (psema : ℕ) : consoleDevice.client.Sound psema where
  work hk _ hwork := by
    obtain ⟨o, rest, d, done, -, ⟨rfl, -⟩, -⟩ := hwork
    exact ⟨hk, rfl⟩
  handler _ hhandler := hhandler.1.elim

section Printing

variable {psema : ℕ} {s₀ s : ConsoleState} {l : List (CallEvent (Script UInt8))}

/-- In every run the screen shows the strings of the calls that are through, each whole and
in the order in which they gave the lock back, and behind them what the one call that works
has printed so far. Each thread's strings are shown in the order of its calls, none twice and
none left out. -/
theorem console_strings_whole (hstart : (console psema).start s₀)
    (hrun : (console psema).Run s₀ l s) :
    (∃ part, screen s = (finished l).flatten ++ part ∧ DonePart s part) ∧
    ∀ t, calledBy t l = finishedBy t l ++ (s.call t).pending := by
  have hserial := serial_run (consoleDevice_sound psema) hstart hrun
  exact ⟨hserial.log, hserial.balance⟩

/-- Main, after boot, has printed the first character of "no". -/
theorem console_strings_whole_main : ∃ s₀ s l, (console 0).start s₀ ∧ (console 0).Run s₀ l s ∧
    screen s = [110] ∧ calledBy 2 l = [[110, 111]] ∧
    (∃ part, screen s = (finished l).flatten ++ part ∧ DonePart s part) := by
  obtain ⟨k, hk⟩ : ∃ k, threadInit 1 2 3 (fun _ => 1) = .ok k := ⟨_, rfl⟩
  obtain ⟨s₀, hs₀⟩ : ∃ s₀ : ConsoleState, s₀ = ⟨lockBoot k, ⟨(), []⟩, fun _ => .idle⟩ := ⟨_, rfl⟩
  have hstart : (console 0).start s₀ := by
    subst hs₀
    exact ⟨lockBoot_start hk, ⟨trivial, rfl⟩, fun _ => rfl⟩
  obtain ⟨s, l, hrun, hscreen, hcalled⟩ : ∃ s l, (console 0).Run s₀ l s ∧ screen s = [110] ∧
      calledBy 2 l = [[110, 111]] := by
    subst hs₀
    obtain rfl := Except.ok.inj hk
    refine ⟨_, _, .snoc (.snoc (.snoc (.snoc (.snoc (.snoc (.snoc .nil
      (.call (consolePutStr [110, 111]) ?_ rfl ⟨trivial, rfl⟩)) (.lock ?_ ?_ rfl)) (.lock ?_ ?_ rfl))
      (.lock ?_ ?_ rfl)) (.lock ?_ ?_ rfl)) (.lock ?_ ?_ rfl))
      (.work ?_ rfl ⟨110, [111], (), true, rfl, ⟨rfl, rfl⟩, rfl, rfl⟩), rfl, rfl⟩ <;> decide
  exact ⟨s₀, s, l, hstart, hrun, hscreen, hcalled, (console_strings_whole hstart hrun).1⟩

end Printing

end X86System.Thread
