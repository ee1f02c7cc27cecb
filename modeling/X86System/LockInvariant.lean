import X86System.Lock

/-!
# Mutual exclusion

A thread owns the lock from the moment its `sema_down` succeeds to the moment its
`sema_up` is done. What the fields of the lock hold is a function of where the owner
stands and how deep it is, so that a step of a thread that is not the owner leaves
them alone, whatever it is and whenever it comes.
-/
namespace X86System.Thread
open Exec Transition

variable {psema : ℕ} {s t : LockState}

/-- The thread holds the semaphore. -/
def Owns (pc : Pc) (n : ℕ) : Prop :=
  0 < n ∨ pc = .setHolder ∨ pc = .checkNr ∨ pc = .setNr ∨ pc = .up

/-- The holder that is recorded while `t` owns the lock. -/
def recordedHolder (t : Tid) : Pc → Option Tid
  | .setHolder | .clearNr | .up => none
  | _ => some t

/-- What a thread knows of its own depth from where it stands. -/
def PcOk (n : ℕ) : Pc → Prop
  | .outside => True
  | .testHolder => n + 1 < 2 ^ 32
  | .down | .setHolder | .checkNr | .setNr | .up => n = 0
  | .incLoad => 0 < n ∧ n + 1 < 2 ^ 32
  | .incStore nr => 0 < n ∧ n + 1 < 2 ^ 32 ∧ nr = UInt32.ofNat n
  | .assertHolder | .testNr => 0 < n
  | .decLoad => 1 < n
  | .decStore nr => 1 < n ∧ nr = UInt32.ofNat n
  | .assertNr | .clearHolder | .clearNr => n = 1

/-- The lock's fields tell where its owner stands. -/
structure LockInv (psema : ℕ) (s : LockState) : Prop where
  scheduled : s.kernel.Scheduled
  value : s.value psema = 0 ∨ s.value psema = 1
  pc_ok : ∀ t, PcOk (s.depth t) (s.pc t)
  bound : ∀ t, s.depth t < 2 ^ 32
  owner : ∀ t, Owns (s.pc t) (s.depth t) → s.value psema = 0 ∧
    s.holder = recordedHolder t (s.pc t) ∧ s.holderRepeatNr = UInt32.ofNat (s.depth t) ∧
    ∀ u, Owns (s.pc u) (s.depth u) → u = t
  free : (∀ t, ¬ Owns (s.pc t) (s.depth t)) → s.holder = none ∧ s.holderRepeatNr = 0

/-- Only `c` moves: the points and depths of all others stay. -/
def Moves (c : Tid) (s t : LockState) : Prop :=
  ∀ u, u ≠ c → t.pc u = s.pc u ∧ t.depth u = s.depth u

theorem Moves.ok {c : Tid} (h : LockInv psema s) (hm : Moves c s t)
    (hok : PcOk (t.depth c) (t.pc c)) (hbound : t.depth c < 2 ^ 32) :
    (∀ u, PcOk (t.depth u) (t.pc u)) ∧ ∀ u, t.depth u < 2 ^ 32 := by
  refine ⟨fun u => ?_, fun u => ?_⟩ <;> by_cases huc : u = c
  · rwa [huc]
  · rw [(hm u huc).1, (hm u huc).2]
    exact h.pc_ok u
  · rwa [huc]
  · rw [(hm u huc).2]
    exact h.bound u

section Moves

variable {c : Tid} (h : LockInv psema s) (hm : Moves c s t) (hk : t.kernel.Scheduled)
  (hok : PcOk (t.depth c) (t.pc c)) (hbound : t.depth c < 2 ^ 32)
include h hm hk hok hbound

/-- The owner moves and remains the owner. -/
theorem LockInv.ownerMoves (hown : Owns (s.pc c) (s.depth c)) (hvalue : t.value psema = s.value psema)
    (hholder : t.holder = recordedHolder c (t.pc c))
    (hnr : t.holderRepeatNr = UInt32.ofNat (t.depth c)) (hown' : Owns (t.pc c) (t.depth c)) :
    LockInv psema t := by
  obtain ⟨hv, -, -, hunique⟩ := h.owner c hown
  have honly : ∀ u, Owns (t.pc u) (t.depth u) → u = c := by
    intro u hu
    by_contra hne
    rw [(hm u hne).1, (hm u hne).2] at hu
    exact hne (hunique u hu)
  obtain ⟨hoks, hbounds⟩ := hm.ok h hok hbound
  refine ⟨hk, by rw [hvalue]; exact h.value, hoks, hbounds, ?_, ?_⟩
  · intro u hu
    obtain rfl := honly u hu
    exact ⟨hvalue.trans hv, hholder, hnr, honly⟩
  · intro hfree
    exact absurd hown' (hfree c)

/-- A thread that does not own the lock moves and still does not. -/
theorem LockInv.otherMoves (hown : ¬ Owns (s.pc c) (s.depth c))
    (hvalue : t.value psema = s.value psema) (hholder : t.holder = s.holder)
    (hnr : t.holderRepeatNr = s.holderRepeatNr) (hown' : ¬ Owns (t.pc c) (t.depth c)) :
    LockInv psema t := by
  have hsame : ∀ u, Owns (t.pc u) (t.depth u) → u ≠ c ∧ Owns (s.pc u) (s.depth u) := by
    intro u hu
    have hne : u ≠ c := by
      rintro rfl
      exact hown' hu
    rw [(hm u hne).1, (hm u hne).2] at hu
    exact ⟨hne, hu⟩
  obtain ⟨hoks, hbounds⟩ := hm.ok h hok hbound
  refine ⟨hk, by rw [hvalue]; exact h.value, hoks, hbounds, ?_, ?_⟩
  · intro u hu
    obtain ⟨hne, hu'⟩ := hsame u hu
    obtain ⟨h1, h2, h3, h4⟩ := h.owner u hu'
    refine ⟨hvalue.trans h1, ?_, ?_, fun v hv => h4 v (hsame v hv).2⟩
    · rw [hholder, (hm u hne).1, h2]
    · rw [hnr, (hm u hne).2, h3]
  · intro hfree
    have hfree' : ∀ u, ¬ Owns (s.pc u) (s.depth u) := by
      intro u hu
      by_cases huc : u = c
      · exact hown (huc ▸ hu)
      · refine hfree u ?_
        rwa [(hm u huc).1, (hm u huc).2]
    rw [hholder, hnr]
    exact h.free hfree'

/-- The semaphore is raised and `c` takes it. -/
theorem LockInv.takes (hone : s.value psema = 1) (hzero : t.value psema = 0)
    (hholder : t.holder = s.holder) (hnr : t.holderRepeatNr = s.holderRepeatNr)
    (hpc : t.pc c = .setHolder) (hdepth : t.depth c = 0) : LockInv psema t := by
  have hfree : ∀ u, ¬ Owns (s.pc u) (s.depth u) := by
    intro u hu
    have := (h.owner u hu).1
    rw [hone] at this
    exact absurd this (by decide)
  obtain ⟨h1, h2⟩ := h.free hfree
  have honly : ∀ u, Owns (t.pc u) (t.depth u) → u = c := by
    intro u hu
    by_contra hne
    rw [(hm u hne).1, (hm u hne).2] at hu
    exact hfree u hu
  obtain ⟨hoks, hbounds⟩ := hm.ok h hok hbound
  refine ⟨hk, Or.inl hzero, hoks, hbounds, ?_, ?_⟩
  · intro u hu
    obtain rfl := honly u hu
    refine ⟨hzero, ?_, ?_, honly⟩
    · rw [hholder, h1, hpc]
      rfl
    · rw [hnr, h2, hdepth]
      rfl
  · intro hfree'
    exact absurd (Or.inr (Or.inl hpc)) (hfree' c)

/-- The owner has cleared the fields and raises the semaphore. -/
theorem LockInv.gives (hown : Owns (s.pc c) (s.depth c)) (hone : t.value psema = 1)
    (hholder : t.holder = none) (hnr : t.holderRepeatNr = 0)
    (hown' : ¬ Owns (t.pc c) (t.depth c)) : LockInv psema t := by
  obtain ⟨-, -, -, hunique⟩ := h.owner c hown
  have hfree : ∀ u, ¬ Owns (t.pc u) (t.depth u) := by
    intro u hu
    by_cases huc : u = c
    · exact hown' (huc ▸ hu)
    · rw [(hm u huc).1, (hm u huc).2] at hu
      exact huc (hunique u hu)
  obtain ⟨hoks, hbounds⟩ := hm.ok h hok hbound
  exact ⟨hk, Or.inr hone, hoks, hbounds, fun u hu => absurd hu (hfree u),
    fun _ => ⟨hholder, hnr⟩⟩

end Moves

@[simp] theorem goto_pc (s : LockState) (c : Tid) (p : Pc) : (s.goto c p).pc c = p := by
  simp [LockState.goto]

@[simp] theorem goto_depth (s : LockState) (c : Tid) (p : Pc) : (s.goto c p).depth = s.depth := rfl

@[simp] theorem goto_holder (s : LockState) (c : Tid) (p : Pc) :
    (s.goto c p).holder = s.holder := rfl

@[simp] theorem count_holder (s : LockState) (c : Tid) (nr : UInt32) (n : ℕ) :
    (s.count c nr n).holder = s.holder := rfl

@[simp] theorem goto_value (s : LockState) (c : Tid) (p : Pc) :
    (s.goto c p).value psema = s.value psema := rfl

@[simp] theorem count_depth (s : LockState) (c : Tid) (nr : UInt32) (n : ℕ) :
    (s.count c nr n).depth c = n := by
  simp [LockState.count]

@[simp] theorem count_value (s : LockState) (c : Tid) (nr : UInt32) (n : ℕ) :
    (s.count c nr n).value psema = s.value psema := rfl

theorem moves_goto (s : LockState) (c : Tid) (p : Pc) (k : Kernel) (holder : Option Tid) :
    Moves c s ({ s with kernel := k, holder := holder }.goto c p) := by
  intro u hu
  simp [LockState.goto, hu]

theorem moves_count (s : LockState) (c : Tid) (nr : UInt32) (n : ℕ) (p : Pc) :
    Moves c s ((s.count c nr n).goto c p) := by
  intro u hu
  simp [LockState.goto, LockState.count, hu]

/-- A nesting count below `2 ^ 32` is read back as it was written. -/
theorem nr_toNat {n : ℕ} (h : n < 2 ^ 32) : (UInt32.ofNat n).toNat = n := by
  simpa using h

theorem nr_gt_one {n : ℕ} (h : n < 2 ^ 32) : UInt32.ofNat n > 1 ↔ 1 < n := by
  rw [gt_iff_lt, UInt32.lt_iff_toNat_lt, nr_toNat h]
  rfl

/-- A thread that is not the owner does not find itself in `holder`. -/
theorem LockInv.holder_ne (h : LockInv psema s) {c : Tid} (hown : ¬ Owns (s.pc c) (s.depth c)) :
    s.holder ≠ some c := by
  by_cases hfree : ∀ u, ¬ Owns (s.pc u) (s.depth u)
  · rw [(h.free hfree).1]
    simp
  · obtain ⟨u, hu⟩ := not_forall_not.mp hfree
    have hne : u ≠ c := by
      rintro rfl
      exact hown hu
    rw [(h.owner u hu).2.1]
    cases s.pc u <;> simp [recordedHolder, hne]

/-- `sema_down` on the lock: the thread sleeps, or takes the semaphore. -/
theorem semaDown_lock {k : Kernel} (h : k.Scheduled) (hidle : k.runningThread ≠ k.idleThread)
    (hvalue : (k.sema psema).value = 0 ∨ (k.sema psema).value = 1) :
    ∃ k', semaDown k psema = .ok k' ∧ k'.Scheduled ∧ (k'.sema psema).value = 0 := by
  have hcur : k.queues.status k.queues.current = .running := h.current_running
  rcases hvalue with hv | hv
  · have hmem : k.runningThread ∉ (k.sema psema).waiters :=
      h.settled.not_parked (t := k.queues.current) (by simp [hcur]) (.inl psema)
    obtain ⟨k', he, hs, hf⟩ := block_spec h.settled hidle (.inl psema)
      (u := { k with intrOn := false }.setSema psema
        { k.sema psema with waiters := (k.sema psema).waiters ++ [k.runningThread] }) rfl
      (queues_setSema _ _ _) ((Kernel.Frame.refl k).lists _ _ _ _ _ _)
    refine ⟨k', ?_, h.frame hs hf, ?_⟩
    · simp only [semaDown]
      rw [if_pos hv, ensure_of hmem, ok_bind]
      exact he
    · have hsame := (threadBlock_place (x := .inl psema) ({ k with intrOn := false }.setSema psema
        { k.sema psema with waiters := (k.sema psema).waiters ++ [k.runningThread] })
          .blocked).sema.of_ok he
      rw [hsame]
      simpa [Kernel.setSema] using hv
  · have hone : (k.sema psema).value - 1 = 0 := by rw [hv]; rfl
    refine ⟨k.setSema psema { k.sema psema with value := 0 }, ?_, ?_, ?_⟩
    · simp only [semaDown, hv]
      rfl
    · exact h.frame (setValue_settled h.settled psema 0)
        ((Kernel.Frame.refl k).lists _ _ _ _ _ _)
    · simp [Kernel.setSema]

/-- `sema_up` on the lock. -/
theorem semaUp_lock {k : Kernel} (h : k.Scheduled) (hvalue : (k.sema psema).value = 0) :
    ∃ k', semaUp k psema = .ok k' ∧ k'.Scheduled ∧ (k'.sema psema).value = 1 := by
  obtain ⟨k₁, he, hs, hf⟩ := wakeWaiter_spec h.settled psema
  have hv : (k₁.sema psema).value = 0 := by
    cases hw : (k.sema psema).waiters with
    | nil =>
      simp only [wakeWaiter, hw] at he
      rw [← Except.ok.inj he]
      exact hvalue
    | cons p rest =>
      simp only [wakeWaiter, hw] at he
      have hsame := (threadUnblock_place (x := .inl psema) _ p).sema.of_ok he
      rw [hsame]
      simpa [Kernel.setSema] using hvalue
  have hone : (k₁.sema psema).value + 1 = 1 := by rw [hv]; rfl
  refine ⟨k₁.setSema psema { k₁.sema psema with value := 1 }, ?_, ?_, ?_⟩
  · simp only [semaUp, ensure_of hvalue, ok_bind, he, ensure_of hone]
    rw [hone]
    rfl
  · exact h.frame (setValue_settled hs psema 1) (hf.lists _ _ _ _ _ _)
  · simp [Kernel.setSema]

/-- No thread starts an acquisition that would be its `2 ^ 32`-th. -/
def Nests (s : LockState) (a : LockAction) : Prop :=
  a = .acquire → s.depth s.kernel.runningThread + 1 < 2 ^ 32

theorem not_owns {pc : Pc} {n : ℕ} (hn : n = 0) (h1 : pc ≠ .setHolder) (h2 : pc ≠ .checkNr)
    (h3 : pc ≠ .setNr) (h4 : pc ≠ .up) : ¬ Owns pc n := by
  simp [Owns, hn, h1, h2, h3, h4]

/-- The owner goes on without touching the lock. -/
theorem LockInv.ownerGoto (h : LockInv psema s) {c : Tid} {p : Pc}
    (hown : Owns (s.pc c) (s.depth c)) (hrec : recordedHolder c p = recordedHolder c (s.pc c))
    (hok : PcOk (s.depth c) p) (hown' : Owns p (s.depth c)) : LockInv psema (s.goto c p) := by
  obtain ⟨-, hholder, hnr, -⟩ := h.owner c hown
  refine h.ownerMoves (moves_goto s c p s.kernel s.holder) h.scheduled (by simpa using hok)
    (h.bound c) hown rfl ?_ hnr (by simpa using hown')
  rw [goto_pc, hrec]
  exact hholder

/-- The owner writes the holder. -/
theorem LockInv.ownerHolds (h : LockInv psema s) {c : Tid} {p : Pc}
    (hown : Owns (s.pc c) (s.depth c)) (hok : PcOk (s.depth c) p) (hown' : Owns p (s.depth c)) :
    LockInv psema ({ s with holder := recordedHolder c p }.goto c p) := by
  obtain ⟨-, -, hnr, -⟩ := h.owner c hown
  exact h.ownerMoves (moves_goto s c p s.kernel _) h.scheduled (by simpa using hok) (h.bound c)
    hown rfl (by simp) hnr (by simpa using hown')

/-- The owner writes the nesting count. -/
theorem LockInv.ownerCounts (h : LockInv psema s) {c : Tid} {p : Pc} {nr : UInt32} {n : ℕ}
    (hown : Owns (s.pc c) (s.depth c)) (hrec : recordedHolder c p = recordedHolder c (s.pc c))
    (hnr : nr = UInt32.ofNat n) (hok : PcOk n p) (hbound : n < 2 ^ 32) (hown' : Owns p n) :
    LockInv psema ((s.count c nr n).goto c p) := by
  obtain ⟨-, hholder, -, -⟩ := h.owner c hown
  refine h.ownerMoves (moves_count s c nr n p) h.scheduled (by simpa using hok) (by simpa using hbound)
    hown rfl ?_ ?_ (by simpa using hown')
  · rw [goto_pc, hrec]
    exact hholder
  · simpa [LockState.goto, LockState.count] using hnr

/-- One step of a thread that runs inside the lock's code. -/
def Advances (psema : ℕ) (s : LockState) : Prop :=
  ∃ t, advance psema s = .ok t ∧ LockInv psema t

section Advance

variable {c : Tid} (h : LockInv psema s) (hc : s.kernel.runningThread = c)
include h hc

theorem testHolder_advances (hp : s.pc c = .testHolder) : Advances psema s := by
  have hok := h.pc_ok c
  rw [hp] at hok
  by_cases hn : 0 < s.depth c
  · have hown : Owns (s.pc c) (s.depth c) := Or.inl hn
    obtain ⟨-, hholder, -, -⟩ := h.owner c hown
    rw [hp] at hholder
    refine ⟨s.goto c .incLoad, ?_, h.ownerGoto hown (by rw [hp]; rfl) ⟨hn, hok⟩ (Or.inl hn)⟩
    simp [advance, hc, hp, hholder, recordedHolder]
  · have hzero : s.depth c = 0 := by omega
    have hown : ¬ Owns (s.pc c) (s.depth c) := not_owns hzero (by simp [hp]) (by simp [hp])
      (by simp [hp]) (by simp [hp])
    refine ⟨s.goto c .down, by simp [advance, hc, hp, h.holder_ne hown], ?_⟩
    exact h.otherMoves (moves_goto s c _ s.kernel s.holder) h.scheduled
      (by simpa [PcOk] using hzero) (h.bound c) hown rfl rfl rfl
      (not_owns hzero (by simp) (by simp) (by simp) (by simp))

theorem down_advances (hidle : s.kernel.runningThread ≠ s.kernel.idleThread)
    (hp : s.pc c = .down) : Advances psema s := by
  have hok := h.pc_ok c
  rw [hp] at hok
  have hzero : s.depth c = 0 := hok
  have hown : ¬ Owns (s.pc c) (s.depth c) := not_owns hzero (by simp [hp]) (by simp [hp])
    (by simp [hp]) (by simp [hp])
  obtain ⟨k', he, hs, hv⟩ := semaDown_lock h.scheduled hidle h.value
  refine ⟨{ s with kernel := k' }.goto c (if s.value psema = 0 then .down else .setHolder), ?_, ?_⟩
  · simp only [advance, hc, hp, he]
    rfl
  · rcases h.value with hval | hval
    · rw [if_pos hval]
      exact h.otherMoves (moves_goto s c _ k' s.holder) hs (by simpa [PcOk] using hzero)
        (h.bound c) hown (hv.trans hval.symm) rfl rfl
        (not_owns hzero (by simp) (by simp) (by simp) (by simp))
    · rw [if_neg (by rw [hval]; decide)]
      exact h.takes (moves_goto s c _ k' s.holder) hs (by simpa [PcOk] using hzero) (h.bound c)
        hval hv rfl rfl (by simp) hzero

theorem acquired_advances
    (hp : s.pc c = .setHolder ∨ s.pc c = .checkNr ∨ s.pc c = .setNr) : Advances psema s := by
  have hok := h.pc_ok c
  have hown : Owns (s.pc c) (s.depth c) := by
    rcases hp with hp | hp | hp <;> simp [Owns, hp]
  have hzero : s.depth c = 0 := by
    rcases hp with hp | hp | hp <;> simpa [hp, PcOk] using hok
  obtain ⟨-, -, hnr, -⟩ := h.owner c hown
  rcases hp with hp | hp | hp
  · refine ⟨{ s with holder := some c }.goto c .checkNr, by simp only [advance, hc, hp], ?_⟩
    exact h.ownerHolds (p := .checkNr) hown hzero (by simp [Owns])
  · have hnr0 : s.holderRepeatNr = 0 := by rw [hnr, hzero]; rfl
    refine ⟨s.goto c .setNr, by simp only [advance, hc, hp, ensure_of hnr0]; rfl, ?_⟩
    exact h.ownerGoto hown (by rw [hp]; rfl) hzero (by simp [Owns])
  · refine ⟨(s.count c 1 1).goto c .outside, by simp only [advance, hc, hp], ?_⟩
    exact h.ownerCounts hown (by rw [hp]; rfl) rfl trivial (by decide) (by simp [Owns])

theorem incLoad_advances (hp : s.pc c = .incLoad) : Advances psema s := by
  have hok := h.pc_ok c
  rw [hp] at hok
  have hown : Owns (s.pc c) (s.depth c) := Or.inl hok.1
  obtain ⟨-, -, hnr, -⟩ := h.owner c hown
  refine ⟨s.goto c (.incStore s.holderRepeatNr), by simp only [advance, hc, hp], ?_⟩
  exact h.ownerGoto hown (by rw [hp]; rfl) ⟨hok.1, hok.2, hnr⟩ (Or.inl hok.1)

theorem incStore_advances {nr : UInt32} (hp : s.pc c = .incStore nr) : Advances psema s := by
  have hok := h.pc_ok c
  rw [hp] at hok
  obtain ⟨hpos, hlt, hval⟩ := hok
  refine ⟨(s.count c (nr + 1) (s.depth c + 1)).goto c .outside,
    by simp only [advance, hc, hp], ?_⟩
  exact h.ownerCounts (Or.inl hpos) (by rw [hp]; rfl) (by simp [hval, UInt32.ofNat_add]) trivial
    hlt (Or.inl (by omega))

theorem assertHolder_advances (hp : s.pc c = .assertHolder) : Advances psema s := by
  have hok := h.pc_ok c
  rw [hp] at hok
  have hpos : 0 < s.depth c := hok
  have hown : Owns (s.pc c) (s.depth c) := Or.inl hpos
  obtain ⟨-, hholder, -, -⟩ := h.owner c hown
  rw [hp] at hholder
  have hheld : s.holder = some c := hholder
  refine ⟨s.goto c .testNr, by simp only [advance, hc, hp, ensure_of hheld]; rfl, ?_⟩
  exact h.ownerGoto hown (by rw [hp]; rfl) hpos (Or.inl hpos)

theorem testNr_advances (hp : s.pc c = .testNr) : Advances psema s := by
  have hok := h.pc_ok c
  rw [hp] at hok
  have hpos : 0 < s.depth c := hok
  have hown : Owns (s.pc c) (s.depth c) := Or.inl hpos
  obtain ⟨-, -, hnr, -⟩ := h.owner c hown
  have htest : s.holderRepeatNr > 1 ↔ 1 < s.depth c := by
    rw [hnr]
    exact nr_gt_one (h.bound c)
  refine ⟨s.goto c (if s.holderRepeatNr > 1 then .decLoad else .assertNr),
    by simp only [advance, hc, hp], ?_⟩
  by_cases hgt : 1 < s.depth c
  · rw [if_pos (htest.mpr hgt)]
    exact h.ownerGoto hown (by rw [hp]; rfl) hgt (Or.inl hpos)
  · rw [if_neg (fun hx => hgt (htest.mp hx))]
    have hone : s.depth c = 1 := by omega
    exact h.ownerGoto hown (by rw [hp]; rfl) hone (Or.inl hpos)

theorem decLoad_advances (hp : s.pc c = .decLoad) : Advances psema s := by
  have hok := h.pc_ok c
  rw [hp] at hok
  have hgt : 1 < s.depth c := hok
  have hown : Owns (s.pc c) (s.depth c) := Or.inl (by omega)
  obtain ⟨-, -, hnr, -⟩ := h.owner c hown
  refine ⟨s.goto c (.decStore s.holderRepeatNr), by simp only [advance, hc, hp], ?_⟩
  exact h.ownerGoto hown (by rw [hp]; rfl) ⟨hgt, hnr⟩ (Or.inl (by omega))

theorem decStore_advances {nr : UInt32} (hp : s.pc c = .decStore nr) : Advances psema s := by
  have hok := h.pc_ok c
  have hbound := h.bound c
  rw [hp] at hok
  obtain ⟨hgt, hval⟩ := hok
  have hsub : nr - 1 = UInt32.ofNat (s.depth c - 1) := by
    rw [hval]
    exact (UInt32.ofNat_sub (Nat.le_of_lt hgt)).symm
  refine ⟨(s.count c (nr - 1) (s.depth c - 1)).goto c .outside,
    by simp only [advance, hc, hp], ?_⟩
  exact h.ownerCounts (Or.inl (by omega)) (by rw [hp]; rfl) hsub trivial (by omega)
    (Or.inl (by omega))

theorem released_advances
    (hp : s.pc c = .assertNr ∨ s.pc c = .clearHolder ∨ s.pc c = .clearNr) :
    Advances psema s := by
  have hok := h.pc_ok c
  have hone : s.depth c = 1 := by
    rcases hp with hp | hp | hp <;> simpa [hp, PcOk] using hok
  have hpos : 0 < s.depth c := by omega
  have hown : Owns (s.pc c) (s.depth c) := Or.inl hpos
  obtain ⟨-, -, hnr, -⟩ := h.owner c hown
  rcases hp with hp | hp | hp
  · have hnr1 : s.holderRepeatNr = 1 := by rw [hnr, hone]; rfl
    refine ⟨s.goto c .clearHolder, by simp only [advance, hc, hp, ensure_of hnr1]; rfl, ?_⟩
    exact h.ownerGoto hown (by rw [hp]; rfl) hone (Or.inl hpos)
  · refine ⟨{ s with holder := none }.goto c .clearNr, by simp only [advance, hc, hp], ?_⟩
    exact h.ownerHolds (p := .clearNr) hown hone (Or.inl hpos)
  · refine ⟨(s.count c 0 (s.depth c - 1)).goto c .up, by simp only [advance, hc, hp], ?_⟩
    rw [hone]
    exact h.ownerCounts hown (by rw [hp]; rfl) rfl rfl (by decide) (by simp [Owns])

theorem up_advances (hp : s.pc c = .up) : Advances psema s := by
  have hok := h.pc_ok c
  rw [hp] at hok
  have hzero : s.depth c = 0 := hok
  have hown : Owns (s.pc c) (s.depth c) := by simp [Owns, hp]
  obtain ⟨hv, hholder, hnr, -⟩ := h.owner c hown
  rw [hp] at hholder
  obtain ⟨k', he, hs, hone⟩ := semaUp_lock h.scheduled hv
  refine ⟨{ s with kernel := k' }.goto c .outside, by simp only [advance, hc, hp, he]; rfl, ?_⟩
  exact h.gives (moves_goto s c _ k' s.holder) hs (by simp [PcOk]) (h.bound c) hown hone hholder
    (by rw [hzero] at hnr; exact hnr) (not_owns hzero (by simp) (by simp) (by simp) (by simp))

end Advance

/-- Every step inside the lock's code succeeds and keeps the invariant. -/
theorem advance_spec (h : LockInv psema s)
    (hidle : s.kernel.runningThread ≠ s.kernel.idleThread) : Advances psema s := by
  cases hp : s.pc s.kernel.runningThread with
  | outside => exact ⟨s, by simp only [advance, hp], h⟩
  | testHolder => exact testHolder_advances h rfl hp
  | down => exact down_advances h rfl hidle hp
  | setHolder => exact acquired_advances h rfl (Or.inl hp)
  | checkNr => exact acquired_advances h rfl (Or.inr (Or.inl hp))
  | setNr => exact acquired_advances h rfl (Or.inr (Or.inr hp))
  | incLoad => exact incLoad_advances h rfl hp
  | incStore nr => exact incStore_advances h rfl hp
  | assertHolder => exact assertHolder_advances h rfl hp
  | testNr => exact testNr_advances h rfl hp
  | decLoad => exact decLoad_advances h rfl hp
  | decStore nr => exact decStore_advances h rfl hp
  | assertNr => exact released_advances h rfl (Or.inl hp)
  | clearHolder => exact released_advances h rfl (Or.inr (Or.inl hp))
  | clearNr => exact released_advances h rfl (Or.inr (Or.inr hp))
  | up => exact up_advances h rfl hp

/-- Calling `lock_acquire` or `lock_release` is a step that touches nothing. -/
theorem LockInv.enters (h : LockInv psema s) {c : Tid} {p : Pc} (hpc : s.pc c = .outside)
    (hp : p = .testHolder ∧ s.depth c + 1 < 2 ^ 32 ∨ p = .assertHolder ∧ 0 < s.depth c) :
    LockInv psema (s.goto c p) := by
  by_cases hn : 0 < s.depth c
  · have hown : Owns (s.pc c) (s.depth c) := Or.inl hn
    refine h.ownerGoto hown ?_ ?_ (Or.inl hn)
    · rw [hpc]
      rcases hp with ⟨rfl, -⟩ | ⟨rfl, -⟩ <;> rfl
    · rcases hp with ⟨rfl, hlt⟩ | ⟨rfl, -⟩
      · exact hlt
      · exact hn
  · have hzero : s.depth c = 0 := by omega
    obtain ⟨rfl, hlt⟩ : p = .testHolder ∧ s.depth c + 1 < 2 ^ 32 := by
      rcases hp with hp | ⟨-, hpos⟩
      · exact hp
      · exact absurd hpos hn
    exact h.otherMoves (moves_goto s c _ s.kernel s.holder) h.scheduled
      (by simpa [PcOk] using hlt) (h.bound c)
      (not_owns hzero (by simp [hpc]) (by simp [hpc]) (by simp [hpc]) (by simp [hpc])) rfl rfl rfl
      (not_owns hzero (by simp) (by simp) (by simp) (by simp))

/-- Nothing else in the kernel touches the lock. -/
theorem other_spec (h : LockInv psema s) {on : Bool} {a : Action} {k : Kernel} {e : Event}
    (ha : a.Enabled s.kernel) (hdown : a ≠ .semaDown psema) (hup : a ≠ .semaUp psema)
    (hstep : perform { s.kernel with intrOn := on } a = .ok (k, e)) :
    LockInv psema { s with kernel := k } := by
  have hs := (perform_scheduling h.scheduled ha on).of_ok hstep
  have hplace : a.place ≠ some (.inl psema) := by
    intro hplace
    cases a <;> simp_all [Action.place]
  have hsema := Sum.inl.inj ((perform_place hplace { s.kernel with intrOn := on }).of_ok hstep)
  have hvalue : (k.sema psema).value = s.value psema := congrArg Semaphore.value hsema
  refine ⟨hs, ?_, h.pc_ok, h.bound, ?_, h.free⟩
  · change (k.sema psema).value = 0 ∨ (k.sema psema).value = 1
    rw [hvalue]
    exact h.value
  · intro t ht
    obtain ⟨h1, h2, h3, h4⟩ := h.owner t ht
    exact ⟨hvalue.trans h1, h2, h3, h4⟩

theorem lockPerform_keeps (h : LockInv psema s) {a : LockAction} (ha : a.Enabled psema s)
    (hn : Nests s a) (hstep : lockPerform psema s a = .ok t) : LockInv psema t := by
  cases a with
  | acquire =>
    rw [← Except.ok.inj hstep]
    exact h.enters ha.2 (Or.inl ⟨rfl, hn rfl⟩)
  | release =>
    rw [← Except.ok.inj hstep]
    exact h.enters ha.2.1 (Or.inr ⟨rfl, ha.2.2⟩)
  | advance =>
    obtain ⟨u, he, hu⟩ := advance_spec h ha.1
    have hut : u = t := Except.ok.inj (he.symm.trans hstep)
    exact hut ▸ hu
  | other on a =>
    cases hk : perform { s.kernel with intrOn := on } a with
    | error site => simp [lockPerform, hk] at hstep
    | ok r =>
      simp only [lockPerform, hk, ok_bind, pure_eq_ok, Except.ok.injEq] at hstep
      rw [← hstep]
      exact other_spec h ha.1 ha.2.1 ha.2.2.1 hk

theorem lockInit_inv (h : LockState.Init psema s) : LockInv psema s := by
  obtain ⟨⟨init, main, idle, value, him, hid, hmd, hboot⟩, hv, hholder, hnr, hpc, hdepth⟩ := h
  have hfree : ∀ t, ¬ Owns (s.pc t) (s.depth t) := fun t =>
    not_owns (hdepth t) (by simp [hpc]) (by simp [hpc]) (by simp [hpc]) (by simp [hpc])
  exact ⟨(threadInit_atBoot him hid hmd hboot).scheduled him hid hmd, Or.inr hv,
    fun t => by simp [hpc, PcOk], fun t => by simp [hdepth], fun t ht => absurd ht (hfree t),
    fun _ => ⟨hholder, hnr⟩⟩

/-- Boot, the lock free. -/
def lockBoot (k : Kernel) : LockState := ⟨k, none, 0, fun _ => .outside, fun _ => 0⟩

theorem lockBoot_start {k : Kernel} (hk : threadInit 1 2 3 (fun _ => 1) = .ok k) :
    (lockSystem 0).start (lockBoot k) := by
  have hv : (k.sema 0).value = 1 := by
    rw [← Except.ok.inj hk]
    rfl
  exact ⟨⟨1, 2, 3, fun _ => 1, by decide, by decide, by decide, hk⟩, hv, rfl, rfl, fun _ => rfl,
    fun _ => rfl⟩

/-- In every run in which no thread nests `2 ^ 32` acquisitions: at most one thread is
inside, the nesting count is its depth, the semaphore is 0 or 1, and no step of the
lock's code trips an assertion. -/
theorem lock_mutual_exclusion {psema : ℕ} {s₀ s : LockState} {as : List LockAction}
    (hinit : (lockSystem psema).start s₀) (hrun : (lockSystem psema).RunWhere Nests s₀ as s) :
    (∀ t u, 0 < s.depth t → 0 < s.depth u → t = u) ∧
    (∀ t, 0 < s.depth t → s.holderRepeatNr.toNat = s.depth t) ∧
    (s.value psema = 0 ∨ s.value psema = 1) ∧
    (LockAction.advance.Enabled psema s → ∃ t, lockPerform psema s .advance = .ok t) := by
  have h : LockInv psema s := System.RunWhere.keeps (T := lockSystem psema)
    (fun s a t hs hn hstep => lockPerform_keeps hs hstep.1 hn hstep.2) hrun (lockInit_inv hinit)
  refine ⟨?_, ?_, h.value, ?_⟩
  · intro t u ht hu
    exact (h.owner u (Or.inl hu)).2.2.2 t (Or.inl ht)
  · intro t ht
    rw [(h.owner t (Or.inl ht)).2.2.1, nr_toNat (h.bound t)]
  · rintro ⟨hidle, -⟩
    obtain ⟨t, he, -⟩ := advance_spec h hidle
    exact ⟨t, he⟩

/-- main has called `lock_acquire` and can go on. -/
theorem lock_mutual_exclusion_acquire : ∃ s₀ s, (lockSystem 0).start s₀ ∧
    (lockSystem 0).RunWhere Nests s₀ [.acquire] s ∧ s.pc 2 = .testHolder ∧
    (s.value 0 = 0 ∨ s.value 0 = 1) ∧ ∃ t, lockPerform 0 s .advance = .ok t := by
  obtain ⟨k, hk⟩ : ∃ k, threadInit 1 2 3 (fun _ => 1) = .ok k := ⟨_, rfl⟩
  have hboot := threadInit_atBoot (by decide) (by decide) (by decide) hk
  have hcur : (lockBoot k).kernel.runningThread = 2 := hboot.running
  have hidle : (lockBoot k).kernel.idleThread = 3 := hboot.idleThread
  have hrun : (lockSystem 0).RunWhere Nests (lockBoot k) [.acquire]
      ((lockBoot k).goto 2 .testHolder) := by
    refine .snoc (l := []) .nil (fun _ => ?_) ⟨⟨?_, rfl⟩, ?_⟩
    · simp [lockBoot]
    · rw [hcur, hidle]
      decide
    · rw [lockPerform, hcur]
  obtain ⟨-, -, hvalue, hadvance⟩ := lock_mutual_exclusion (lockBoot_start hk) hrun
  refine ⟨_, _, lockBoot_start hk, hrun, goto_pc _ _ _, hvalue, hadvance ⟨?_, ?_⟩⟩
  · change (lockBoot k).kernel.runningThread ≠ (lockBoot k).kernel.idleThread
    rw [hcur, hidle]
    decide
  · change ((lockBoot k).goto 2 .testHolder).pc (lockBoot k).kernel.runningThread ≠ _
    rw [hcur, goto_pc]
    decide

/-- Main runs and stands outside the lock's code, at this depth. -/
def Nested (s : LockState) (n : ℕ) : Prop :=
  s.kernel.runningThread = 2 ∧ s.kernel.idleThread = 3 ∧ s.pc 2 = .outside ∧
  s.holder = some 2 ∧ s.holderRepeatNr = UInt32.ofNat n ∧ s.depth 2 = n

theorem advance_reachable (h : (lockSystem psema).Reachable s) (hc : s.kernel.runningThread = 2)
    (hidle : s.kernel.idleThread = 3) (hin : s.pc 2 ≠ .outside)
    (hstep : advance psema s = .ok t) : (lockSystem psema).Reachable t := by
  refine h.step (a := .advance) ⟨⟨?_, ?_⟩, hstep⟩
  · rw [hc, hidle]
    decide
  · rwa [hc]

theorem acquire_reachable (h : (lockSystem psema).Reachable s) (hc : s.kernel.runningThread = 2)
    (hidle : s.kernel.idleThread = 3) (hpc : s.pc 2 = .outside) :
    (lockSystem psema).Reachable (s.goto 2 .testHolder) := by
  refine h.step (a := .acquire) ⟨⟨?_, ?_⟩, ?_⟩
  · rw [hc, hidle]
    decide
  · rwa [hc]
  · rw [lockPerform, hc]

/-- The holder acquires the lock once more. -/
theorem nest_reachable {n : ℕ} (h : (lockSystem psema).Reachable s) (hn : Nested s n) :
    ∃ t, (lockSystem psema).Reachable t ∧ Nested t (n + 1) := by
  obtain ⟨hc, hidle, hpc, hholder, hnr, hdepth⟩ := hn
  have h₁ := acquire_reachable h hc hidle hpc
  have h₂ : (lockSystem psema).Reachable ((s.goto 2 .testHolder).goto 2 .incLoad) := by
    refine advance_reachable h₁ hc hidle (by simp) ?_
    have hc' : (s.goto 2 .testHolder).kernel.runningThread = 2 := hc
    simp [advance, hc', hholder]
  have h₃ := advance_reachable (t := ((s.goto 2 .testHolder).goto 2 .incLoad).goto 2
      (.incStore s.holderRepeatNr)) h₂ hc hidle (by simp) (by
    have hc' : ((s.goto 2 .testHolder).goto 2 .incLoad).kernel.runningThread = 2 := hc
    simp only [advance, hc', goto_pc]
    rfl)
  obtain ⟨u, hu⟩ : ∃ u, u = ((s.goto 2 .testHolder).goto 2 .incLoad).goto 2
    (.incStore s.holderRepeatNr) := ⟨_, rfl⟩
  rw [← hu] at h₃
  have hcu : u.kernel.runningThread = 2 := by rw [hu]; exact hc
  have hpu : u.pc 2 = .incStore s.holderRepeatNr := by rw [hu, goto_pc]
  have hdu : u.depth 2 = n := by rw [hu]; exact hdepth
  refine ⟨(u.count 2 (s.holderRepeatNr + 1) (u.depth 2 + 1)).goto 2 .outside,
    advance_reachable h₃ hcu (by rw [hu]; exact hidle) (by simp [hpu])
      (by simp only [advance, hcu, hpu]), hcu, by rw [hu]; exact hidle, goto_pc _ _ _,
    by rw [hu]; exact hholder, ?_, ?_⟩
  · change s.holderRepeatNr + 1 = _
    rw [hnr, UInt32.ofNat_add n 1]
    rfl
  · rw [goto_depth, count_depth, hdu]

/-- Main stands at `p` in its first acquisition. -/
def Acquiring (s : LockState) (p : Pc) (holder : Option Tid) : Prop :=
  s.kernel.runningThread = 2 ∧ s.kernel.idleThread = 3 ∧ s.pc 2 = p ∧ s.holder = holder ∧
  s.holderRepeatNr = 0

theorem acquiring_down (h : (lockSystem psema).Reachable s) (hs : Acquiring s .testHolder none) :
    Acquiring (s.goto 2 .down) .down none ∧ (lockSystem psema).Reachable (s.goto 2 .down) := by
  obtain ⟨hc, hidle, hpc, hholder, hnr⟩ := hs
  refine ⟨⟨hc, hidle, goto_pc _ _ _, hholder, hnr⟩,
    advance_reachable h hc hidle (by simp [hpc]) ?_⟩
  simp [advance, hc, hpc, hholder]

theorem acquiring_take (h : (lockSystem psema).Reachable s) (hs : Acquiring s .down none)
    (hv : s.value psema = 1) : ∃ t, Acquiring t .setHolder none ∧ (lockSystem psema).Reachable t := by
  obtain ⟨hc, hidle, hpc, hholder, hnr⟩ := hs
  set k := s.kernel.setSema psema { s.kernel.sema psema with value := 0 } with hk
  have hdown : semaDown s.kernel psema = .ok k := by
    have hv' : (s.kernel.sema psema).value = 1 := hv
    simp only [semaDown, hv']
    rfl
  refine ⟨{ s with kernel := k }.goto 2 .setHolder, ⟨hc, hidle, goto_pc _ _ _, hholder, hnr⟩,
    advance_reachable h hc hidle (by simp [hpc]) ?_⟩
  simp only [advance, hc, hpc, hdown, ok_bind, hv]
  rfl

theorem acquiring_done (h : (lockSystem psema).Reachable s) (hs : Acquiring s .setHolder none) :
    ∃ t, (lockSystem psema).Reachable t ∧ Nested t 1 := by
  obtain ⟨hc, hidle, hpc, -, hnr⟩ := hs
  have h₁ := advance_reachable (t := { s with holder := some 2 }.goto 2 .checkNr) h hc hidle
    (by simp [hpc]) (by simp only [advance, hc, hpc])
  obtain ⟨u, hu⟩ : ∃ u, u = { s with holder := some 2 }.goto 2 .checkNr := ⟨_, rfl⟩
  rw [← hu] at h₁
  have hcu : u.kernel.runningThread = 2 := by rw [hu]; exact hc
  have hpu : u.pc 2 = .checkNr := by rw [hu, goto_pc]
  have hnu : u.holderRepeatNr = 0 := by rw [hu]; exact hnr
  have hdu : u.kernel.idleThread = 3 := by rw [hu]; exact hidle
  have h₂ := advance_reachable (t := u.goto 2 .setNr) h₁ hcu hdu (by simp [hpu])
    (by simp only [advance, hcu, hpu, ensure_of hnu]; rfl)
  have hcv : (u.goto 2 .setNr).kernel.runningThread = 2 := hcu
  refine ⟨((u.goto 2 .setNr).count 2 1 1).goto 2 .outside,
    advance_reachable h₂ hcv hdu (by simp) (by simp only [advance, hcv, goto_pc]), hcu, hdu,
    goto_pc _ _ _, ?_, rfl, ?_⟩
  · rw [goto_holder, count_holder, goto_holder, hu]
    rfl
  · rw [goto_depth, count_depth]

/-- main acquires the free lock. -/
theorem first_reachable : ∃ s, (lockSystem 0).Reachable s ∧ Nested s 1 := by
  obtain ⟨k, hk⟩ : ∃ k, threadInit 1 2 3 (fun _ => 1) = .ok k := ⟨_, rfl⟩
  have hboot := threadInit_atBoot (by decide) (by decide) (by decide) hk
  have hstart := lockBoot_start hk
  have h₀ : (lockSystem 0).Reachable (lockBoot k) := ⟨_, [], hstart, .nil⟩
  have h₁ := acquire_reachable h₀ hboot.running hboot.idleThread rfl
  have h₂ := acquiring_down h₁ ⟨hboot.running, hboot.idleThread, goto_pc _ _ _, rfl, rfl⟩
  obtain ⟨s, hs, h₃⟩ := acquiring_take h₂.2 h₂.1 hstart.2.1
  exact acquiring_done h₃ hs

/-- main acquires the lock `n + 1` times. -/
theorem nested_reachable (n : ℕ) : ∃ s, (lockSystem 0).Reachable s ∧ Nested s (n + 1) := by
  induction n with
  | zero => exact first_reachable
  | succ n ih =>
    obtain ⟨s, hs, hn⟩ := ih
    exact nest_reachable hs hn

/-- At the `2 ^ 32`-th nested acquisition the 32-bit count has wrapped to 0. -/
theorem lock_nesting_wraps : ∃ s, (lockSystem 0).Reachable s ∧ s.pc 2 = .outside ∧
    s.depth 2 = 2 ^ 32 ∧ s.holderRepeatNr.toNat ≠ s.depth 2 := by
  obtain ⟨s, hs, -, -, hpc, -, hnr, hdepth⟩ := nested_reachable (2 ^ 32 - 1)
  refine ⟨s, hs, hpc, hdepth, ?_⟩
  rw [hnr, hdepth]
  decide

end X86System.Thread
