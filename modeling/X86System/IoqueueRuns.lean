import X86System.Ioqueue

/-!
# Runs of an I/O queue

Whatever producers and consumers do, the ring is a queue: what was stored and not yet
fetched is what the ring holds. Sleeping is another matter. A thread that had to wait
for the queue's lock does not look at the ring again before it goes to sleep, so it may
sleep in its slot although the ring has what it waits for.
-/
namespace X86System.Thread
open Exec Transition

variable {q : ℕ} {s s₀ t : IoqState} {as : List IoqAction}

section Executing

instance (s : IoqState) (a : IoqAction) : Decidable (a.Enabled q s) :=
  match a with
  | .call _ => inferInstanceAs (Decidable (_ ∧ _))
  | .advance => inferInstanceAs (Decidable (_ ≠ _))
  | .key _ => inferInstanceAs (Decidable (_ = _))
  | .other _ a => inferInstanceAs (Decidable (a.Enabled s.kernel ∧ _ ∧ _ ∧ _ ∧ _))

/-- Execute a list of actions. -/
def ioqAll (q : ℕ) (s : IoqState) : List IoqAction → Except Site IoqState
  | [] => .ok s
  | a :: as => do
    ensure .ioqWait (a.Enabled q s)
    let t ← ioqPerform q s a
    ioqAll q t as

theorem ioqAll_run : ∀ {s t : IoqState}, ioqAll q s as = .ok t → (ioqSystem q).Run s as t := by
  induction as with
  | nil =>
    intro s t h
    obtain rfl := Except.ok.inj h
    exact .nil
  | cons a as ih =>
    intro s t h
    have hspec : Returns (ioqAll q s (a :: as)) fun t => (ioqSystem q).Run s (a :: as) t :=
      returns_ensure fun ha => returns_bind fun u hu => Returns.intro fun t ht =>
        System.Run.cons ⟨ha, hu⟩ (ih ht)
    exact hspec.of_ok h

/-- An empty queue at boot. -/
def ioqBoot (k : Kernel) : IoqState :=
  { kernel := k
    holder := none
    holderRepeatNr := 0
    ring := ⟨Vector.replicate 64 0, ⟨0, by decide⟩, ⟨0, by decide⟩⟩
    pc := fun _ => .outside
    stored := []
    fetched := [] }

theorem ioqBoot_start {k : Kernel} (hk : threadInit 1 2 3 (fun _ => 1) = .ok k) :
    (ioqSystem 0).start (ioqBoot k) := by
  have hv : (k.sema 0).value = 1 := by
    rw [← Except.ok.inj hk]
    rfl
  exact ⟨⟨1, 2, 3, fun _ => 1, by decide, by decide, by decide, hk⟩, hv, rfl, rfl, rfl, rfl,
    fun _ => rfl, rfl, rfl⟩

end Executing

section Fifo

theorem ioqLength_eq (ring : Ring UInt8 bufsize) : ioqLength ring = ring.items.length :=
  (Ring.length_items ring).symm

/-- A step keeps what the ring holds in line with the history. -/
theorem fifo_step (h : s.stored = s.fetched ++ s.ring.items) (hstep : IoqEffect q s t) :
    t.stored = t.fetched ++ t.ring.items := by
  cases hstep with
  | quiet hring hstored hfetched _ => rw [hring, hstored, hfetched, h]
  | waits c hring hstored hfetched _ _ => rw [hring, hstored, hfetched, h]
  | fetched hsome hring hstored hfetched _ _ =>
    rw [hring, hstored, hfetched, h, Ring.items_pop hsome, List.append_assoc, List.singleton_append]
  | stored byte hroom hring hstored hfetched _ _ =>
    rw [hring, hstored, hfetched, h, Ring.items_push hroom, List.append_assoc]

theorem init_items (h : IoqState.Init q s) : s.ring.items = [] := by
  obtain ⟨-, -, -, -, hhead, htail, -⟩ := h
  have hempty : s.ring.empty := Fin.ext (hhead.trans htail.symm)
  rw [← List.length_eq_zero_iff, Ring.length_items]
  exact s.ring.length_eq_zero.mpr hempty

theorem reachable_fifo (h : (ioqSystem q).Reachable s) :
    s.stored = s.fetched ++ s.ring.items := by
  refine h.invariant (fun s hs => ?_) fun s a t hs hstep => fifo_step hs (ioqueue_step hstep)
  rw [init_items hs]
  obtain ⟨-, -, -, -, -, -, -, hstored, hfetched⟩ := hs
  rw [hstored, hfetched, List.append_nil]

/-- What completed calls of `ioq_getchar` returned is the beginning of what completed calls
of `ioq_putchar` stored, and `ioq_length` counts the rest, of at most 63 bytes. -/
theorem ioqueue_fifo (h : (ioqSystem q).Reachable s) :
    s.fetched <+: s.stored ∧ ioqLength s.ring = s.stored.length - s.fetched.length ∧
      ioqLength s.ring ≤ bufsize - 1 := by
  have hfifo := reachable_fifo h
  refine ⟨⟨s.ring.items, hfifo.symm⟩, ?_, Nat.le_sub_one_of_lt s.ring.length_lt⟩
  rw [hfifo, List.length_append, Nat.add_sub_cancel_left, ioqLength_eq]

/-- Main fetches the byte that the keyboard has stored. -/
theorem ioqueue_fifo_key : ∃ s, (ioqSystem 0).Reachable s ∧ s.stored = [0x61, 0x62] ∧
    s.fetched = [0x61] ∧ s.fetched <+: s.stored ∧ ioqLength s.ring = 1 := by
  obtain ⟨k, hk, s, hs, hstored, hfetched⟩ : ∃ k, threadInit 1 2 3 (fun _ => 1) = .ok k ∧
      ∃ s, ioqAll 0 (ioqBoot k) [.key 0x61, .key 0x62, .call .getchar, .advance] = .ok s ∧
        s.stored = [0x61, 0x62] ∧ s.fetched = [0x61] := by decide
  have hreach : (ioqSystem 0).Reachable s := ⟨_, _, ioqBoot_start hk, ioqAll_run hs⟩
  obtain ⟨hpre, hlength, -⟩ := ioqueue_fifo hreach
  refine ⟨s, hreach, hstored, hfetched, hpre, ?_⟩
  rw [hlength, hstored, hfetched]
  rfl

end Fifo

section Sleeping

/-- A thread that is blocked in a slot of the queue waits for what the ring lacks. -/
def IoqState.WaitersBelong (q : ℕ) (s : IoqState) : Prop :=
  ∀ t c, s.pc t = .waiting c → s.kernel.status t = .blocked →
    s.kernel.waiter (c.slot q) = some t → c.mustWait s.ring

/-- A thread that gets the lock for which it had to wait finds the ring as it left it. -/
def StillWaits (q : ℕ) (s : IoqState) (a : IoqAction) : Prop :=
  a = .advance → ∀ c, s.pc s.kernel.runningThread = .down c → (s.kernel.sema q).value ≠ 0 →
    c.mustWait s.ring

/-- Whoever is recorded in a slot waits for what the ring lacks. -/
def SlotsBelong (q : ℕ) (s : IoqState) : Prop :=
  ∀ c : IoqCall, s.kernel.waiter (c.slot q) ≠ none → c.mustWait s.ring

/-- Calls that wait in one slot wait for the same. -/
theorem mustWait_of_slot {c d : IoqCall} (h : d.slot q = c.slot q) {ring : Ring UInt8 bufsize}
    (hc : c.mustWait ring) : d.mustWait ring := by
  unfold IoqCall.slot producer consumer at h
  cases c <;> cases d <;> dsimp only at h
  · exact hc
  · omega
  · omega
  · exact hc

theorem slotsBelong_step {a : IoqAction} (h : SlotsBelong q s) (hwait : StillWaits q s a)
    (hstep : (ioqSystem q).step s a t) : SlotsBelong q t := by
  intro d hd
  cases ioqueue_step hstep with
  | quiet hring _ _ hslots =>
    rw [hslots] at hd
    rw [hring]
    exact h d hd
  | waits c hring _ _ hcause hslots =>
    rw [hring]
    by_cases hslot : d.slot q = c.slot q
    · refine mustWait_of_slot hslot (hcause.elim id fun hdown => ?_)
      refine hwait ?_ c hdown.1 hdown.2
      have hne : s.pc s.kernel.runningThread ≠ .outside := by simp [hdown.1]
      cases a with
      | advance => rfl
      | call => exact absurd hstep.1.2 hne
      | key => exact absurd hstep.1 hne
      | other => exact absurd hstep.1.2.1 hne
    · rw [hslots d hslot] at hd
      exact h d hd
  | fetched hsome _ _ _ hwoken hslot =>
    cases d with
    | getchar =>
      have hd : t.kernel.waiter (consumer q) ≠ none := hd
      rw [hslot] at hd
      exact absurd (h .getchar hd) hsome
    | putchar byte => exact absurd hwoken hd
  | stored byte hroom _ _ _ hwoken hslot =>
    cases d with
    | getchar => exact absurd hwoken hd
    | putchar byte' =>
      have hd : t.kernel.waiter (producer q) ≠ none := hd
      rw [hslot] at hd
      exact absurd (h (.putchar byte') hd) hroom

/-- In a run in which every thread that had to wait for the lock finds the ring still
empty, or full, nobody sleeps for nothing. -/
theorem ioqueue_waiters (h₀ : (ioqSystem q).start s₀)
    (hrun : (ioqSystem q).RunWhere (StillWaits q) s₀ as s) : s.WaitersBelong q := by
  have hinit : SlotsBelong q s₀ := by
    obtain ⟨⟨init, main, idle, value, him, hid, hmd, hboot⟩, -⟩ := h₀
    exact fun c hc => absurd ((threadInit_atBoot him hid hmd hboot).waiter _) hc
  have hslots := hrun.keeps (fun s a t hs hg hst => slotsBelong_step hs hg hst) hinit
  intro t c _ _ hslot
  exact hslots c (by simp [hslot])

/-- Main goes to sleep in the slot of the consumers of the empty ring. -/
theorem ioqueue_waiters_main : ∃ s, (ioqSystem 0).Reachable s ∧
    s.kernel.waiter (consumer 0) = some 2 ∧ s.WaitersBelong 0 := by
  obtain ⟨k, hk, s, hs, t, ht, u, hu, hens, hent, hpcs, hpct, hempty, hslot⟩ :
      ∃ k, threadInit 1 2 3 (fun _ => 1) = .ok k ∧
        ∃ s, ioqAll 0 (ioqBoot k) [.call .getchar] = .ok s ∧
          ∃ t, ioqPerform 0 s .advance = .ok t ∧ ∃ u, ioqPerform 0 t .advance = .ok u ∧
            IoqAction.advance.Enabled 0 s ∧ IoqAction.advance.Enabled 0 t ∧
            s.pc s.kernel.runningThread = .test .getchar ∧
            t.pc t.kernel.runningThread = .down .getchar ∧ ioqEmpty t.ring ∧
            u.kernel.waiter (consumer 0) = some 2 := by decide
  have hcall : (ioqSystem 0).RunWhere (StillWaits 0) (ioqBoot k) [.call .getchar] s :=
    (ioqAll_run hs).where fun a ha u hadv => by simp_all
  have htest := hcall.snoc (fun _ c hc => by simp [hpcs] at hc) ⟨hens, ht⟩
  have hdown := htest.snoc (fun _ c hc _ => by
    obtain rfl : IoqCall.getchar = c := IoqPc.down.inj (hpct.symm.trans hc)
    exact hempty) ⟨hent, hu⟩
  exact ⟨u, ⟨_, _, ioqBoot_start hk, hdown.run⟩, hslot,
    ioqueue_waiters (ioqBoot_start hk) hdown⟩

/-- Main sleeps as the consumer and init waits for the lock. The keyboard stores two bytes,
main fetches one of them, and init goes to sleep over the other. -/
theorem ioqueue_sleeper_over_byte : ∃ s, (ioqSystem 0).Reachable s ∧ ¬ s.WaitersBelong 0 := by
  obtain ⟨k, hk, s, hs, hpc, hblocked, hslot, hsome⟩ :
      ∃ k, threadInit 1 2 3 (fun _ => 1) = .ok k ∧
        ∃ s, ioqAll 0 (ioqBoot k) [.call .getchar, .advance, .advance, .call .getchar, .advance,
          .advance, .key 0x61, .key 0x62, .other false .idle, .advance, .advance,
          .other false .threadYield, .advance] = .ok s ∧
          s.pc 1 = .waiting .getchar ∧ s.kernel.status 1 = .blocked ∧
          s.kernel.waiter (consumer 0) = some 1 ∧ ¬ ioqEmpty s.ring := by decide
  exact ⟨s, ⟨_, _, ioqBoot_start hk, ioqAll_run hs⟩, fun h => hsome (h 1 .getchar hpc hblocked hslot)⟩

end Sleeping

end X86System.Thread
