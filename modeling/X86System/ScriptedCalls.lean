import X86System.LockedCalls

/-!
# Calls that do one operation after the other

Between any two operations of a call other threads and interrupt handlers run. Since the calls
work under one lock, what they do is nevertheless one whole call after the other.
-/
namespace X86System.Thread
open Exec Transition

/-- The operations of a call, and those that it has still to do. -/
structure Script (α : Type) where
  whole : List α
  rest : List α
  deriving DecidableEq, Repr

/-- What the operations do. One that is not done with is tried again. -/
structure Device (σ α : Type) where
  start : Kernel → σ → Prop
  calls : List α → Prop
  exec : Kernel → σ → α → Kernel → σ → Bool → Prop
  handler : Kernel → σ → Kernel → σ → Prop
  admits : Action → Prop

/-- A device, and the operations that were done on it. -/
structure Recorded (σ α : Type) where
  device : σ
  log : List α

section Histories

variable {α : Type}

/-- The operations of the calls that are through, in the order in which they give the lock
back. -/
def finished (l : List (CallEvent (Script α))) : List (List α) :=
  l.filterMap fun
    | .finish _ b => some b.whole
    | _ => none

/-- The calls of a thread. -/
def calledBy (t : Tid) (l : List (CallEvent (Script α))) : List (List α) :=
  l.filterMap fun
    | .call u b => if u = t then some b.whole else none
    | _ => none

/-- The calls that a thread is through with. -/
def finishedBy (t : Tid) (l : List (CallEvent (Script α))) : List (List α) :=
  l.filterMap fun
    | .finish u b => if u = t then some b.whole else none
    | _ => none

/-- The call that a thread is in. -/
def Call.pending : Call (Script α) → List (List α)
  | .entering b | .inside b => [b.whole]
  | _ => []

theorem pending_passed (c : Call (Script α)) : c.passed.pending = c.pending := by
  cases c <;> rfl

end Histories

section Serial

variable {σ α : Type}

def Device.client (D : Device σ α) : Client (Recorded σ α) (Script α) where
  start k x := D.start k x.device ∧ x.log = []
  enters b := D.calls b.whole ∧ b.rest = b.whole
  work k x b k' x' b' := ∃ o rest d done, b.rest = o :: rest ∧ D.exec k x.device o k' d done ∧
    x' = ⟨d, if done then x.log ++ [o] else x.log⟩ ∧ b' = ⟨b.whole, if done then rest else b.rest⟩
  finished b := b.rest = []
  handler k x k' x' := D.handler k x.device k' x'.device ∧ x'.log = x.log
  admits := D.admits

/-- The call that works has done this much. -/
def DonePart (s : CallState (Recorded σ α) (Script α)) (part : List α) : Prop :=
  (∃ t b, s.call t = .inside b ∧ b.whole = part ++ b.rest) ∨
    (∀ t b, s.call t ≠ .inside b) ∧ part = []

structure Serial (psema : ℕ) (D : Device σ α) (l : List (CallEvent (Script α)))
    (s : CallState (Recorded σ α) (Script α)) : Prop where
  inv : CallInv psema s
  fresh : ∀ t b, s.call t = .entering b → D.client.enters b
  log : ∃ part, s.shared.log = (finished l).flatten ++ part ∧ DonePart s part
  balance : ∀ t, calledBy t l = finishedBy t l ++ (s.call t).pending

variable {psema : ℕ} {D : Device σ α} {s t : CallState (Recorded σ α) (Script α)}
  {l : List (CallEvent (Script α))} {e : CallEvent (Script α)}

theorem DonePart.of_inside (h : CallInv psema s) {u : Tid} {b : Script α} {part : List α}
    (hpart : DonePart s part) (hu : s.call u = .inside b) : b.whole = part ++ b.rest := by
  rcases hpart with ⟨v, b', hv, hwhole⟩ | ⟨hnone, -⟩
  · obtain rfl := h.inside_unique hu hv
    obtain rfl := Call.inside.inj (hu.symm.trans hv)
    exact hwhole
  · exact absurd hu (hnone u b)

/-- A step that changes nothing of which call works and what it has still to do. -/
theorem DonePart.congr {part : List α} (hpart : DonePart s part)
    (hcall : ∀ u b, t.call u = .inside b ↔ s.call u = .inside b) : DonePart t part := by
  rcases hpart with ⟨u, b, hu, hwhole⟩ | ⟨hnone, hnil⟩
  · exact Or.inl ⟨u, b, (hcall u b).mpr hu, hwhole⟩
  · exact Or.inr ⟨fun u b hu => hnone u b ((hcall u b).mp hu), hnil⟩

/-- Who comes out of the lock's code is the only one that works. -/
theorem CallInv.entered (hinv : CallInv psema t) (hothers : ∀ u, u ≠ s.cur → t.call u = s.call u)
    {b : Script α} (hold : s.call s.cur = .entering b) (hnew : t.call s.cur = .inside b) :
    ∀ u b', s.call u ≠ .inside b' := by
  intro u b' hu
  have hne : u ≠ s.cur := by
    intro hcur
    rw [hcur, hold] at hu
    cases hu
  exact hne (hinv.inside_unique ((hothers u hne).trans hu) hnew)

/-- A thread that goes on in the lock's code changes only its own call. -/
theorem Serial.lock (h : Serial psema D l s) (hinv : CallInv psema t)
    (hshared : t.shared = s.shared) (hothers : ∀ u, u ≠ s.cur → t.call u = s.call u)
    (hcur : t.call s.cur = s.call s.cur ∨ t.call s.cur = (s.call s.cur).passed) :
    Serial psema D (l ++ [.lock]) t := by
  obtain ⟨part, hlog, hpart⟩ := h.log
  have hpending : ∀ u, (t.call u).pending = (s.call u).pending := by
    intro u
    by_cases hu : u = s.cur
    · rw [hu]
      rcases hcur with hc | hc <;> rw [hc]
      exact pending_passed _
    · rw [hothers u hu]
  refine ⟨hinv, fun u b hu => ?_, ⟨part, by simpa [finished, hshared] using hlog, ?_⟩, fun u => ?_⟩
  · refine h.fresh u b ?_
    by_cases hcur' : u = s.cur
    · subst hcur'
      rcases hcur with hc | hc
      · exact hc ▸ hu
      · cases hold : s.call s.cur <;> simp_all [Call.passed]
    · rwa [← hothers u hcur']
  · by_cases hentering : ∃ b, s.call s.cur = .entering b ∧ t.call s.cur = .inside b
    · obtain ⟨b, hold, hnew⟩ := hentering
      rcases hpart with ⟨u, b', hu, -⟩ | ⟨-, rfl⟩
      · exact absurd hu (hinv.entered hothers hold hnew u b')
      · exact Or.inl ⟨s.cur, b, hnew, (h.fresh _ b hold).2.symm⟩
    · refine hpart.congr fun u b => ?_
      by_cases hu : u = s.cur
      · subst hu
        rcases hcur with hc | hc
        · rw [hc]
        · cases hold : s.call s.cur <;> simp_all [Call.passed]
      · rw [hothers u hu]
  · simpa [calledBy, finishedBy, hpending u] using h.balance u

theorem Serial.step (h : Serial psema D l s) (hD : D.client.Sound psema)
    (hstep : CallStep psema D.client s e t) : Serial psema D (l ++ [e]) t := by
  have hinv := h.inv.step hD hstep
  obtain ⟨part, hlog, hpart⟩ := h.log
  cases hstep with
  | call b hidle hcall henters =>
    refine ⟨hinv, fun u b' hu => ?_, ⟨part, by simpa [finished] using hlog, ?_⟩, fun u => ?_⟩
    · by_cases hcur : u = s.cur
      · obtain rfl := Call.entering.inj (by simpa [hcur] using hu)
        exact henters
      · exact h.fresh u b' (by simpa [hcur] using hu)
    · refine hpart.congr fun u b' => ?_
      by_cases hcur : u = s.cur <;> simp [hcur, hcall]
    · have hbalance := h.balance u
      by_cases hcur : u = s.cur
      · simp_all [calledBy, finishedBy, Call.pending]
      · simpa [calledBy, finishedBy, hcur, Ne.symm hcur] using hbalance
  | lock hidle hpc hadvance =>
    refine h.lock hinv rfl (fun u hu => by simp [hu]) ?_
    simp only [setCall_call, if_true]
    split
    · exact Or.inr rfl
    · exact Or.inl rfl
  | @work b b' k x hidle hcall hwork =>
    obtain ⟨o, rest, d, done, hrest, -, rfl, rfl⟩ := hwork
    have hold := hpart.of_inside h.inv hcall
    refine ⟨hinv, fun u b'' hu => ?_, ⟨if done then part ++ [o] else part, ?_, ?_⟩, fun u => ?_⟩
    · by_cases hcur : u = s.cur
      · simp [hcur] at hu
      · exact h.fresh u b'' (by simpa [hcur] using hu)
    · cases done <;> simp [finished, hlog]
    · refine Or.inl ⟨s.cur, ⟨b.whole, if done then rest else b.rest⟩, by simp, ?_⟩
      cases done
      · exact hold
      · simpa [hrest] using hold
    · have hbalance := h.balance u
      by_cases hcur : u = s.cur
      · simpa [calledBy, finishedBy, hcur, hcall, Call.pending] using hbalance
      · simpa [calledBy, finishedBy, hcur] using hbalance
  | @finish b hidle hcall hfinished =>
    have hold := hpart.of_inside h.inv hcall
    have hrest : b.rest = [] := hfinished
    refine ⟨hinv, fun u b' hu => ?_, ⟨[], ?_, ?_⟩, fun u => ?_⟩
    · by_cases hcur : u = s.cur
      · simp [hcur] at hu
      · exact h.fresh u b' (by simpa [hcur] using hu)
    · simpa [finished, hold, hrest] using hlog
    · refine Or.inr ⟨fun u b' hu => ?_, rfl⟩
      by_cases hcur : u = s.cur
      · simp [hcur] at hu
      · exact hcur (h.inv.inside_unique (by simpa [hcur] using hu) hcall)
    · have hbalance := h.balance u
      by_cases hcur : u = s.cur
      · simp_all [calledBy, finishedBy, Call.pending]
      · simpa [calledBy, finishedBy, hcur, Ne.symm hcur] using hbalance
  | handler hhandler =>
    obtain ⟨-, hsame⟩ := hhandler
    exact ⟨hinv, h.fresh, ⟨part, by simpa [finished, hsame] using hlog, hpart⟩,
      fun u => by simpa [calledBy, finishedBy] using h.balance u⟩
  | other henabled hdown hup hadmits hfree hperform =>
    exact ⟨hinv, h.fresh, ⟨part, by simpa [finished] using hlog, hpart⟩,
      fun u => by simpa [calledBy, finishedBy] using h.balance u⟩

theorem serial_nil (hstart : (callSystem psema D.client).start s) : Serial psema D [] s := by
  have hinv := callInv_of_start hstart
  obtain ⟨-, ⟨-, hlog⟩, hcall⟩ := hstart
  refine ⟨hinv, fun t b ht => ?_, ⟨[], hlog, Or.inr ⟨fun t b => ?_, rfl⟩⟩, fun t => ?_⟩
  · simp [hcall t] at ht
  · simp [hcall t]
  · simp [calledBy, finishedBy, hcall t, Call.pending]

theorem serial_run {s₀ : CallState (Recorded σ α) (Script α)} (hD : D.client.Sound psema)
    (hstart : (callSystem psema D.client).start s₀)
    (hrun : (callSystem psema D.client).Run s₀ l s) : Serial psema D l s :=
  hrun.history (fun _ _ _ _ hs hstep => hs.step hD hstep) (serial_nil hstart)

end Serial

end X86System.Thread
