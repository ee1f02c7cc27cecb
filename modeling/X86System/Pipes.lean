import X86System.IoqueueRuns

/-!
# Transfers through a pipe

`pipe_read` and `pipe_write` cut their count so that no byte has to wait: to `ioq_length`
bytes, and to `bufsize - ioq_length` bytes. A ring of `bufsize` cells holds one byte less
than that, so a write that is cut fills the ring and then waits for a reader.
-/
namespace X86System.Thread
open Exec

variable (q : ℕ)

section Calls

/-- The call of thread `cur` after its first step: it is over, or the thread goes to sleep,
at the latest when it has the lock. -/
def settle (cur : Tid) (s : IoqState) : Except Site (Bool × IoqState) :=
  match s.pc cur with
  | .outside => .ok (true, s)
  | .down _ => do
    let s ← ioqAdvance q s
    .ok (false, s)
  | _ => .ok (false, s)

/-- A call of the running thread up to where it returns, or goes to sleep in it. -/
def ioqCall (s : IoqState) (c : IoqCall) : Except Site (Bool × IoqState) := do
  let cur := s.kernel.runningThread
  let s ← ioqAdvance q (s.goto cur (.test c))
  settle q cur s

/-- The loop of a transfer, a call for each byte. -/
def transfer : List IoqCall → IoqState → Except Site (Bool × IoqState)
  | [], s => .ok (true, s)
  | c :: cs, s => do
    let (done, s) ← ioqCall q s c
    if done then transfer cs s else .ok (false, s)

/-- `pipe_read` from the ring `q`: how many bytes it has fetched, or `none` if it sleeps. -/
def pipeRead (s : IoqState) (count : UInt32) : Except Site (Option ℕ × IoqState) := do
  let ioqLen := ioqLength s.ring
  let size := if ioqLen > count.toNat then count.toNat else ioqLen
  let (done, s) ← transfer q (List.replicate size .getchar) s
  .ok (if done then some size else none, s)

/-- `pipe_write` of `count` bytes of `buf` to the ring `q`. -/
def pipeWrite (s : IoqState) (buf : ℕ → UInt8) (count : UInt32) :
    Except Site (Option ℕ × IoqState) := do
  let ioqLeft := bufsize - ioqLength s.ring
  let size := if ioqLeft > count.toNat then count.toNat else ioqLeft
  let (done, s) ← transfer q (((List.range size).map buf).map .putchar) s
  .ok (if done then some size else none, s)

variable {q} {s : IoqState} {c : IoqCall}

/-- Nobody waits for a byte, or for room, in the ring. -/
def NoWaiter (q : ℕ) (s : IoqState) : Prop :=
  s.kernel.waiter (producer q) = none ∧ s.kernel.waiter (consumer q) = none

theorem wakeSlot_none {k : Kernel} {w : ℕ} (h : k.waiter w = none) : wakeSlot k w = .ok k :=
  if_neg fun hne => hne h

theorem store_none (h : s.kernel.waiter (consumer q) = none) (byte : UInt8) :
    store q s byte =
      .ok { s with ring := s.ring.push byte, stored := s.stored ++ [byte] } := by
  unfold store
  rw [wakeSlot_none h]
  rfl

theorem fetch_none (h : s.kernel.waiter (producer q) = none) :
    fetch q s = .ok { s with ring := s.ring.pop, fetched := s.fetched ++ [s.ring.front] } := by
  unfold fetch
  rw [wakeSlot_none h]
  rfl

theorem IoqState.goto_pc (s : IoqState) (t : Tid) (p : IoqPc) : (s.goto t p).pc t = p :=
  Function.update_self ..

/-- A call that need not wait does what is behind its loop. -/
theorem ioqAdvance_go (hpc : s.pc s.kernel.runningThread = .test c) (hgo : ¬ c.mustWait s.ring) :
    ioqAdvance q s = (do
      let t ← c.finish q s
      .ok (t.goto s.kernel.runningThread .outside)) := by
  unfold ioqAdvance
  simp only [hpc, if_neg hgo]
  rfl

/-- A call that has to wait is not over after its next step. -/
theorem ioqAdvance_wait (hpc : s.pc s.kernel.runningThread = .test c) (hwait : c.mustWait s.ring) :
    Returns (ioqAdvance q s) fun t => t.pc s.kernel.runningThread ≠ .outside := by
  unfold ioqAdvance
  simp only [hpc, if_pos hwait]
  refine returns_ite (fun _ => ?_) fun _ => returns_skip fun k => ?_
  · change (s.goto _ _).pc _ ≠ _
    rw [IoqState.goto_pc]
    exact IoqPc.noConfusion
  · change (IoqState.goto _ _ _).pc _ ≠ _
    rw [IoqState.goto_pc]
    exact IoqPc.noConfusion

theorem settle_outside {cur : Tid} (h : s.pc cur = .outside) : settle q cur s = .ok (true, s) := by
  unfold settle
  rw [h]

theorem ioqCall_go (hgo : ¬ c.mustWait s.ring) {t : IoqState}
    (hfinish : c.finish q (s.goto s.kernel.runningThread (.test c)) = .ok t) :
    ioqCall q s c = .ok (true, t.goto s.kernel.runningThread .outside) := by
  have hpc := s.goto_pc s.kernel.runningThread (.test c)
  unfold ioqCall
  dsimp only
  rw [ioqAdvance_go hpc hgo, hfinish, ok_bind, ok_bind]
  exact settle_outside (t.goto_pc _ _)

/-- A call that has to wait does not return. -/
theorem ioqCall_wait (hwait : c.mustWait s.ring) : Returns (ioqCall q s c) fun r => r.1 = false := by
  have hpc := s.goto_pc s.kernel.runningThread (.test c)
  refine returns_bind fun t ht => ?_
  have hinside : t.pc s.kernel.runningThread ≠ .outside := (ioqAdvance_wait hpc hwait).of_ok ht
  unfold settle
  cases ht : t.pc s.kernel.runningThread with
  | outside => exact absurd ht hinside
  | test d => rfl
  | down d => exact returns_skip fun u => rfl
  | waiting d => rfl

theorem ioqCall_putchar (hw : NoWaiter q s) (hroom : ¬ s.ring.full) (byte : UInt8) :
    ∃ t, ioqCall q s (.putchar byte) = .ok (true, t) ∧ NoWaiter q t ∧
      t.ring = s.ring.push byte ∧ t.stored = s.stored ++ [byte] ∧ t.fetched = s.fetched := by
  have hgo : ¬ (IoqCall.putchar byte).mustWait s.ring := hroom
  have hstore := store_none (s := s.goto s.kernel.runningThread (.test (.putchar byte))) hw.2 byte
  exact ⟨_, ioqCall_go hgo hstore, hw, rfl, rfl, rfl⟩

theorem ioqCall_getchar (hw : NoWaiter q s) (hsome : ¬ s.ring.empty) :
    ∃ t, ioqCall q s .getchar = .ok (true, t) ∧ NoWaiter q t ∧
      t.ring = s.ring.pop ∧ t.stored = s.stored ∧ t.fetched = s.fetched ++ [s.ring.front] := by
  have hgo : ¬ IoqCall.getchar.mustWait s.ring := hsome
  have hfetch := fetch_none (s := s.goto s.kernel.runningThread (.test .getchar)) hw.1
  exact ⟨_, ioqCall_go hgo hfetch, hw, rfl, rfl, rfl⟩

end Calls

section Transfers

variable {q} {s : IoqState}

/-- Bytes for which there is room are stored one after the other. -/
theorem transfer_putchar : ∀ (bs : List UInt8) {s : IoqState}, NoWaiter q s →
    s.ring.length + bs.length < bufsize → ∃ t, transfer q (bs.map .putchar) s = .ok (true, t) ∧
      t.ring.items = s.ring.items ++ bs ∧ t.stored = s.stored ++ bs ∧ t.fetched = s.fetched := by
  intro bs
  induction bs with
  | nil =>
    intro s _ _
    exact ⟨s, rfl, (List.append_nil _).symm, (List.append_nil _).symm, rfl⟩
  | cons b bs ih =>
    intro s hw hlen
    rw [List.length_cons] at hlen
    have hroom : ¬ s.ring.full := by
      rw [Ring.full_iff]
      omega
    obtain ⟨u, hcall, hwu, hring, hstored, hfetched⟩ := ioqCall_putchar hw hroom b
    have hlenu : u.ring.length = s.ring.length + 1 := by rw [hring, Ring.length_push hroom]
    obtain ⟨t, hrun, hitems, hst, hft⟩ := ih hwu (by omega)
    refine ⟨t, ?_, ?_, ?_, hft.trans hfetched⟩
    · rw [List.map_cons, transfer, hcall, ok_bind]
      exact hrun
    · rw [hitems, hring, Ring.items_push hroom, List.append_assoc, List.singleton_append]
    · rw [hst, hstored, List.append_assoc, List.singleton_append]

/-- With a byte too many, the thread goes to sleep in the ring that it has filled. -/
theorem transfer_putchar_full : ∀ (bs : List UInt8) {s : IoqState}, NoWaiter q s →
    bufsize ≤ s.ring.length + bs.length →
      Returns (transfer q (bs.map .putchar) s) fun r => r.1 = false := by
  intro bs
  induction bs with
  | nil =>
    intro s _ hlen
    have hlt := s.ring.length_lt
    rw [List.length_nil] at hlen
    omega
  | cons b bs ih =>
    intro s hw hlen
    rw [List.length_cons] at hlen
    rw [List.map_cons, transfer]
    by_cases hfull : s.ring.full
    · have hgo : (IoqCall.putchar b).mustWait s.ring := hfull
      refine Returns.bind (ioqCall_wait hgo) fun r hr => ?_
      dsimp only at hr ⊢
      rw [if_neg (by rw [hr]; exact Bool.false_ne_true)]
      rfl
    · obtain ⟨u, hcall, hwu, hring, -, -⟩ := ioqCall_putchar hw hfull b
      have hlenu : u.ring.length = s.ring.length + 1 := by rw [hring, Ring.length_push hfull]
      rw [hcall, ok_bind]
      exact ih hwu (by omega)

/-- As many bytes as there are can be fetched. -/
theorem transfer_getchar (n : ℕ) : ∀ {s : IoqState}, NoWaiter q s → n ≤ s.ring.length →
    ∃ t, transfer q (List.replicate n .getchar) s = .ok (true, t) ∧
      t.ring.items = s.ring.items.drop n ∧ t.fetched = s.fetched ++ s.ring.items.take n ∧
      t.stored = s.stored := by
  induction n with
  | zero =>
    intro s _ _
    exact ⟨s, rfl, rfl, (List.append_nil _).symm, rfl⟩
  | succ n ih =>
    intro s hw hlen
    have hsome : ¬ s.ring.empty := by
      rw [← Ring.length_eq_zero]
      omega
    obtain ⟨u, hcall, hwu, hring, hstored, hfetched⟩ := ioqCall_getchar hw hsome
    have hlenu := Ring.length_pop hsome
    obtain ⟨t, hrun, hitems, hft, hst⟩ := ih hwu (by rw [hring]; omega)
    refine ⟨t, ?_, ?_, ?_, hst.trans hstored⟩
    · rw [List.replicate_succ, transfer, hcall, ok_bind]
      exact hrun
    · rw [hitems, hring, Ring.items_pop hsome, List.drop_succ_cons]
    · rw [hft, hfetched, hring, Ring.items_pop hsome, List.take_succ_cons, List.append_assoc,
        List.singleton_append]

/-- What `pipe_write` is for: it returns, with as many bytes stored as there is room for. -/
def WritesUpTo (q : ℕ) (s : IoqState) (buf : ℕ → UInt8) (count : UInt32) : Prop :=
  ∃ n t, n = min count.toNat (bufsize - 1 - ioqLength s.ring) ∧
    pipeWrite q s buf count = .ok (some n, t) ∧
    t.ring.items = s.ring.items ++ (List.range n).map buf ∧
    t.stored = s.stored ++ (List.range n).map buf ∧ t.fetched = s.fetched

/-- What `pipe_read` is for: it returns, with as many bytes fetched as there are. -/
def ReadsUpTo (q : ℕ) (s : IoqState) (count : UInt32) : Prop :=
  ∃ n t, n = min count.toNat (ioqLength s.ring) ∧ pipeRead q s count = .ok (some n, t) ∧
    t.ring.items = s.ring.items.drop n ∧ t.fetched = s.fetched ++ s.ring.items.take n ∧
    t.stored = s.stored

theorem pipeWrite_returns (hw : NoWaiter q s) (buf : ℕ → UInt8) {count : UInt32}
    (hcount : count.toNat ≤ bufsize - 1 - ioqLength s.ring) : WritesUpTo q s buf count := by
  have hlen : ioqLength s.ring = s.ring.length := rfl
  have hlt := s.ring.length_lt
  have hsize : (if bufsize - ioqLength s.ring > count.toNat then count.toNat
      else bufsize - ioqLength s.ring) = count.toNat := if_pos (by omega)
  obtain ⟨t, hrun, hitems, hstored, hfetched⟩ :=
    transfer_putchar ((List.range count.toNat).map buf) hw (by
      rw [List.length_map, List.length_range]
      omega)
  refine ⟨count.toNat, t, (Nat.min_eq_left hcount).symm, ?_, hitems, hstored, hfetched⟩
  unfold pipeWrite
  dsimp only
  rw [hsize, hrun, ok_bind]
  rfl

/-- A write of more than fits does not come back. -/
theorem pipeWrite_sleeps (hw : NoWaiter q s) (buf : ℕ → UInt8) {count : UInt32}
    (hcount : bufsize - 1 - ioqLength s.ring < count.toNat) :
    Returns (pipeWrite q s buf count) fun r => r.1 = none := by
  have hlen : ioqLength s.ring = s.ring.length := rfl
  have hlt := s.ring.length_lt
  unfold pipeWrite
  refine Returns.bind (transfer_putchar_full _ hw ?_) fun r hr => ?_
  · rw [List.length_map, List.length_range]
    split_ifs <;> omega
  · change (if r.1 = true then some _ else none) = none
    rw [hr]
    rfl

theorem pipeRead_returns (hw : NoWaiter q s) (count : UInt32) : ReadsUpTo q s count := by
  have hlen : ioqLength s.ring = s.ring.length := rfl
  have hsize : (if ioqLength s.ring > count.toNat then count.toNat else ioqLength s.ring) =
      min count.toNat (ioqLength s.ring) := by
    split_ifs <;> omega
  obtain ⟨t, hrun, hitems, hfetched, hstored⟩ :=
    transfer_getchar (min count.toNat (ioqLength s.ring)) hw (Nat.min_le_right _ _)
  refine ⟨_, t, rfl, ?_, hitems, hfetched, hstored⟩
  unfold pipeRead
  dsimp only
  rw [hsize, hrun, ok_bind]
  rfl

/-- Where nobody waits, `pipe_read` always does what it is for, and `pipe_write` does if and only
if it is given no more than there is room for. -/
theorem pipe_transfers_iff (hw : NoWaiter q s) (buf : ℕ → UInt8) (count : UInt32) :
    (WritesUpTo q s buf count ↔ count.toNat ≤ bufsize - 1 - ioqLength s.ring) ∧
      ReadsUpTo q s count := by
  refine ⟨⟨fun hwrites => ?_, pipeWrite_returns hw buf⟩, pipeRead_returns hw count⟩
  by_contra hcount
  obtain ⟨n, t, -, hrun, -⟩ := hwrites
  exact absurd ((pipeWrite_sleeps hw buf (Nat.not_le.mp hcount)).of_ok hrun) (Option.some_ne_none n)

theorem ioqBoot_noWaiter : ∃ k, threadInit 1 2 3 (fun _ => 1) = .ok k ∧ NoWaiter 0 (ioqBoot k) := by
  unfold NoWaiter
  decide

/-- Two bytes are written to a ring that was just made. -/
theorem pipe_transfers_two : ∃ k, threadInit 1 2 3 (fun _ => 1) = .ok k ∧
    WritesUpTo 0 (ioqBoot k) (fun _ => 97) 2 ∧ ReadsUpTo 0 (ioqBoot k) 5 := by
  obtain ⟨k, hk, hw⟩ := ioqBoot_noWaiter
  have hboth := pipe_transfers_iff hw (fun _ => 97) 2
  exact ⟨k, hk, hboth.1.mpr (show 2 ≤ 63 by decide), (pipe_transfers_iff hw (fun _ => 97) 5).2⟩

/-- Writing 64 bytes to the empty ring: main goes to sleep with 63 of them stored. -/
theorem pipe_write_sleeps : ∃ s, (ioqSystem 0).Reachable s ∧ NoWaiter 0 s ∧
    ¬ WritesUpTo 0 s (fun _ => 97) 64 ∧ ∃ t, pipeWrite 0 s (fun _ => 97) 64 = .ok (none, t) ∧
      t.kernel.status s.kernel.runningThread = .blocked ∧ ioqLength t.ring = 63 := by
  obtain ⟨k, hk, hw, r, hr, hnone, hblocked, hlen⟩ : ∃ k, threadInit 1 2 3 (fun _ => 1) = .ok k ∧
      NoWaiter 0 (ioqBoot k) ∧ ∃ r, pipeWrite 0 (ioqBoot k) (fun _ => 97) 64 = .ok r ∧
        r.1 = none ∧ r.2.kernel.status k.runningThread = .blocked ∧ ioqLength r.2.ring = 63 := by
    unfold NoWaiter
    decide
  obtain ⟨n, t⟩ := r
  obtain rfl : n = none := hnone
  refine ⟨ioqBoot k, ⟨_, _, ioqBoot_start hk, .nil⟩, hw, ?_, t, hr, hblocked, hlen⟩
  rintro ⟨n, u, -, hrun, -⟩
  exact absurd (hr.symm.trans hrun) (by simp)

end Transfers

end X86System.Thread
