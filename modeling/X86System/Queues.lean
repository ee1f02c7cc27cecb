import X86System.Thread

/-!
# The scheduler's queues

What the scheduler keeps is stated over its queues alone: who is on which list,
the status of each thread and the thread on the processor. Each primitive acts on
the queues by one of a few elementary moves, and every move keeps them sound.
-/
namespace X86System.Thread

/-- The lists, the statuses and the thread on the processor. A thread is parked on
the waiters list of a semaphore or in the slot of an I/O queue. -/
structure Queues where
  all : List Tid
  ready : List Tid
  current : Tid
  idle : Tid
  status : Tid → TaskStatus
  parked : ℕ ⊕ ℕ → List Tid

def Kernel.queues (s : Kernel) : Queues where
  all := s.threadAllList
  ready := s.threadReadyList
  current := s.runningThread
  idle := s.idleThread
  status := s.status
  parked := Sum.elim (fun i => (s.sema i).waiters) (fun w => (s.waiter w).toList)

/-- The queues while the current thread may already be blocked or requeued. -/
structure Queues.Sound (q : Queues) : Prop where
  all_nodup : q.all.Nodup
  ready_nodup : q.ready.Nodup
  mem_ready : ∀ t, t ∈ q.ready ↔ t ∈ q.all ∧ q.status t = .ready
  current_mem : q.current ∈ q.all
  running_current : ∀ t ∈ q.all, q.status t = .running → t = q.current
  parked_blocked : ∀ x, ∀ t ∈ q.parked x, t ∈ q.all ∧ q.status t = .blocked ∧ t ≠ q.idle
  parked_nodup : ∀ x, (q.parked x).Nodup
  parked_unique : ∀ x y t, t ∈ q.parked x → t ∈ q.parked y → x = y
  idle_mem : q.idle ∈ q.all
  idle_status : q.status q.idle = .running ∨ q.status q.idle = .ready ∨
    q.status q.idle = .blocked

/-- Between two actions the current thread runs. -/
structure Queues.Settled (q : Queues) : Prop extends Queues.Sound q where
  current_running : q.status q.current = .running

namespace Queues

variable {q : Queues}

def setStatus (q : Queues) (t : Tid) (stat : TaskStatus) : Queues :=
  { q with status := Function.update q.status t stat }

def park (q : Queues) (x : ℕ ⊕ ℕ) (l : List Tid) : Queues :=
  { q with parked := Function.update q.parked x l }

theorem Sound.not_parked (h : q.Sound) {t : Tid} (ht : q.status t ≠ .blocked) (x : ℕ ⊕ ℕ) :
    t ∉ q.parked x :=
  fun hmem => ht (h.parked_blocked x t hmem).2.1

theorem Sound.not_ready (h : q.Sound) {t : Tid} (ht : q.status t ≠ .ready) : t ∉ q.ready :=
  fun hmem => ht ((h.mem_ready t).mp hmem).2

/-- A sleeping thread that is parked nowhere becomes ready at the head. -/
theorem Sound.wake (h : q.Sound) {p : Tid} (hp : p ∈ q.all) (hready : q.status p ≠ .ready)
    (hpark : ∀ x, p ∉ q.parked x) :
    Sound { q.setStatus p .ready with ready := p :: q.ready } := by
  have hpark' : ∀ x, ∀ t ∈ q.parked x, t ≠ p := fun x t ht he => hpark x (he ▸ ht)
  constructor
  · exact h.all_nodup
  · exact List.nodup_cons.mpr ⟨h.not_ready hready, h.ready_nodup⟩
  · intro t
    by_cases ht : t = p
    · subst ht
      simp [setStatus, hp]
    · simp [setStatus, ht, h.mem_ready t]
  · exact h.current_mem
  · intro t ht hrun
    by_cases he : t = p
    · subst he
      simp [setStatus] at hrun
    · exact h.running_current t ht (by simpa [setStatus, he] using hrun)
  · intro x t ht
    have hne := hpark' x t ht
    simpa [setStatus, hne] using h.parked_blocked x t ht
  · exact h.parked_nodup
  · exact h.parked_unique
  · exact h.idle_mem
  · by_cases he : q.idle = p
    · simp [setStatus, he]
    · simpa [setStatus, he] using h.idle_status

/-- The running thread goes to the tail of the ready list. -/
theorem Settled.requeue (h : q.Settled) :
    Sound { q.setStatus q.current .ready with ready := q.ready ++ [q.current] } := by
  have hcur := h.current_running
  have hw := h.toSound.wake h.current_mem (by simp [hcur])
    (h.toSound.not_parked (by simp [hcur]))
  constructor
  · exact hw.all_nodup
  · exact (List.nodup_append_comm.mp hw.ready_nodup)
  · intro t
    rw [← hw.mem_ready t]
    simp [or_comm]
  · exact hw.current_mem
  · exact hw.running_current
  · exact hw.parked_blocked
  · exact hw.parked_nodup
  · exact hw.parked_unique
  · exact hw.idle_mem
  · exact hw.idle_status

/-- The running thread goes to sleep. -/
theorem Settled.sleep (h : q.Settled) (stat : TaskStatus)
    (hstat : stat = .blocked ∨ stat = .waiting ∨ stat = .hanging)
    (hidle : q.current = q.idle → stat = .blocked) :
    (q.setStatus q.current stat).Sound := by
  have hcur := h.current_running
  constructor
  · exact h.all_nodup
  · exact h.ready_nodup
  · intro t
    by_cases ht : t = q.current
    · subst ht
      rcases hstat with rfl | rfl | rfl <;> simp [setStatus, h.mem_ready, hcur]
    · simp [setStatus, ht, h.mem_ready t]
  · exact h.current_mem
  · intro t ht hrun
    by_cases he : t = q.current
    · exact he
    · exact h.running_current t ht (by simpa [setStatus, he] using hrun)
  · intro x t ht
    have hne : t ≠ q.current := by
      rintro rfl
      exact h.toSound.not_parked (by simp [hcur]) x ht
    simpa [setStatus, hne] using h.parked_blocked x t ht
  · exact h.parked_nodup
  · exact h.parked_unique
  · exact h.idle_mem
  · by_cases he : q.idle = q.current
    · simp [setStatus, he, hidle he.symm]
    · simpa [setStatus, he] using h.idle_status

/-- A blocked thread that is parked nowhere joins the tail of a waiting list. -/
theorem Sound.enter (h : q.Sound) {t : Tid} (x : ℕ ⊕ ℕ) (hmem : t ∈ q.all)
    (ht : q.status t = .blocked) (hidle : t ≠ q.idle) (hpark : ∀ y, t ∉ q.parked y) :
    (q.park x (q.parked x ++ [t])).Sound := by
  have hin : ∀ y u, u ∈ (q.park x (q.parked x ++ [t])).parked y →
      u ∈ q.parked y ∨ (u = t ∧ y = x) := by
    intro y u hu
    by_cases hy : y = x
    · subst hy
      simpa [park] using hu
    · exact Or.inl (by simpa [park, hy] using hu)
  constructor
  · exact h.all_nodup
  · exact h.ready_nodup
  · exact h.mem_ready
  · exact h.current_mem
  · exact h.running_current
  · intro y u hu
    rcases hin y u hu with hu | ⟨rfl, -⟩
    · exact h.parked_blocked y u hu
    · exact ⟨hmem, ht, hidle⟩
  · intro y
    by_cases hy : y = x
    · subst hy
      simp only [park, Function.update_self]
      exact List.nodup_append_comm.mp
        (List.nodup_cons.mpr ⟨hpark y, h.parked_nodup y⟩)
    · simpa [park, hy] using h.parked_nodup y
  · intro y z u hy hz
    rcases hin y u hy with hy' | ⟨hut, hyx⟩ <;> rcases hin z u hz with hz' | ⟨hut', hzx⟩
    · exact h.parked_unique y z u hy' hz'
    · exact absurd (hut' ▸ hy') (hpark y)
    · exact absurd (hut ▸ hz') (hpark z)
    · rw [hyx, hzx]
  · exact h.idle_mem
  · exact h.idle_status

/-- Threads leave a waiting list. -/
theorem Sound.leave (h : q.Sound) (x : ℕ ⊕ ℕ) {l : List Tid} (hl : l.Sublist (q.parked x)) :
    (q.park x l).Sound := by
  have hin : ∀ y u, u ∈ (q.park x l).parked y → u ∈ q.parked y := by
    intro y u hu
    by_cases hy : y = x
    · subst hy
      exact hl.subset (by simpa [park] using hu)
    · simpa [park, hy] using hu
  constructor
  · exact h.all_nodup
  · exact h.ready_nodup
  · exact h.mem_ready
  · exact h.current_mem
  · exact h.running_current
  · exact fun y u hu => h.parked_blocked y u (hin y u hu)
  · intro y
    by_cases hy : y = x
    · subst hy
      simpa [park] using (h.parked_nodup y).sublist hl
    · simpa [park, hy] using h.parked_nodup y
  · exact fun y z u hy hz => h.parked_unique y z u (hin y u hy) (hin z u hz)
  · exact h.idle_mem
  · exact h.idle_status

/-- The head of the ready list gets the processor when nobody runs. -/
theorem Sound.dispatch (h : q.Sound) {next : Tid} {rest : List Tid}
    (hready : q.ready = next :: rest) (hnone : q.status q.current ≠ .running) :
    Settled { q.setStatus next .running with ready := rest, current := next } := by
  have hnext : next ∈ q.all ∧ q.status next = .ready :=
    (h.mem_ready next).mp (by simp [hready])
  have hnodup : next ∉ rest ∧ rest.Nodup := by
    have := h.ready_nodup
    rwa [hready, List.nodup_cons] at this
  have hin : ∀ t, t ≠ next → (t ∈ rest ↔ t ∈ q.all ∧ q.status t = .ready) := by
    intro t ht
    rw [← h.mem_ready t, hready]
    simp [ht]
  refine ⟨?_, by simp [setStatus]⟩
  constructor
  · exact h.all_nodup
  · exact hnodup.2
  · intro t
    by_cases ht : t = next
    · subst ht
      simp [setStatus, hnodup.1]
    · simp [setStatus, ht, hin t ht]
  · exact hnext.1
  · intro t ht hrun
    by_contra he
    have hrun' : q.status t = .running := by simpa [setStatus, he] using hrun
    have := h.running_current t ht hrun'
    exact hnone (this ▸ hrun')
  · intro x t ht
    have hne : t ≠ next := by
      rintro rfl
      have := (h.parked_blocked x t ht).2.1
      simp [hnext.2] at this
    simpa [setStatus, hne] using h.parked_blocked x t ht
  · exact h.parked_nodup
  · exact h.parked_unique
  · exact h.idle_mem
  · by_cases he : q.idle = next
    · simp [setStatus, he]
    · simpa [setStatus, he] using h.idle_status

/-- A new thread joins both lists. -/
theorem Settled.add (h : q.Settled) {t : Tid} (ht : t ∉ q.all) :
    Settled { q.setStatus t .ready with ready := q.ready ++ [t], all := q.all ++ [t] } := by
  have hne : ∀ u ∈ q.all, u ≠ t := fun u hu he => ht (he ▸ hu)
  have hready : t ∉ q.ready := fun hmem => ht ((h.mem_ready t).mp hmem).1
  have hcur := hne _ h.current_mem
  have hidle := hne _ h.idle_mem
  refine ⟨?_, by simpa [setStatus, hcur] using h.current_running⟩
  constructor
  · exact List.nodup_append_comm.mp (List.nodup_cons.mpr ⟨ht, h.all_nodup⟩)
  · exact List.nodup_append_comm.mp (List.nodup_cons.mpr ⟨hready, h.ready_nodup⟩)
  · intro u
    by_cases hu : u = t
    · subst hu
      simp [setStatus]
    · simp [setStatus, hu, h.mem_ready u]
  · exact List.mem_append_left _ h.current_mem
  · intro u hu hrun
    by_cases he : u = t
    · subst he
      simp [setStatus] at hrun
    · exact h.running_current u (by simpa [he] using hu) (by simpa [setStatus, he] using hrun)
  · intro x u hu
    obtain ⟨h1, h2, h3⟩ := h.parked_blocked x u hu
    exact ⟨List.mem_append_left _ h1, by simpa [setStatus, hne u h1] using h2, h3⟩
  · exact h.parked_nodup
  · exact h.parked_unique
  · exact List.mem_append_left _ h.idle_mem
  · simpa [setStatus, hidle] using h.idle_status

/-- The status of a page that holds no thread does not matter. -/
theorem Settled.outside (h : q.Settled) {t : Tid} (ht : t ∉ q.all) (stat : TaskStatus) :
    (q.setStatus t stat).Settled := by
  have hsame : ∀ u ∈ q.all, (q.setStatus t stat).status u = q.status u := by
    intro u hu
    have hne : u ≠ t := fun he => ht (he ▸ hu)
    simp [setStatus, hne]
  refine ⟨?_, (hsame _ h.current_mem).trans h.current_running⟩
  constructor
  · exact h.all_nodup
  · exact h.ready_nodup
  · intro u
    change u ∈ q.ready ↔ u ∈ q.all ∧ _
    rw [h.mem_ready u]
    exact and_congr_right (fun hu => by rw [hsame u hu])
  · exact h.current_mem
  · intro u hu hrun
    exact h.running_current u hu ((hsame u hu).symm.trans hrun)
  · intro x u hu
    obtain ⟨h1, h2, h3⟩ := h.parked_blocked x u hu
    exact ⟨h1, (hsame u h1).trans h2, h3⟩
  · exact h.parked_nodup
  · exact h.parked_unique
  · exact h.idle_mem
  · have := hsame _ h.idle_mem
    change (q.setStatus t stat).status q.idle = _ ∨ (q.setStatus t stat).status q.idle = _ ∨
      (q.setStatus t stat).status q.idle = _
    rw [this]
    exact h.idle_status

/-- A hanging thread is taken off the lists. -/
theorem Settled.remove (h : q.Settled) {t : Tid} (ht : q.status t = .hanging) :
    Settled { q.setStatus t .died with ready := q.ready.erase t, all := q.all.erase t } := by
  have hready : q.ready.erase t = q.ready :=
    List.erase_of_not_mem (h.toSound.not_ready (by simp [ht]))
  have hcur : q.current ≠ t := by
    intro he
    have := h.current_running
    simp [he, ht] at this
  have hidle : q.idle ≠ t := by
    intro he
    have := h.idle_status
    simp [he, ht] at this
  have hall : ∀ u, u ∈ q.all.erase t ↔ u ≠ t ∧ u ∈ q.all := fun u => h.all_nodup.mem_erase_iff
  rw [hready]
  refine ⟨?_, by simpa [setStatus, hcur] using h.current_running⟩
  constructor
  · exact h.all_nodup.erase t
  · exact h.ready_nodup
  · intro u
    by_cases hu : u = t
    · subst hu
      simp [setStatus, h.mem_ready, ht]
    · simp [setStatus, hu, h.mem_ready u, hall]
  · exact (hall _).mpr ⟨hcur, h.current_mem⟩
  · intro u hu hrun
    obtain ⟨h1, h2⟩ := (hall u).mp hu
    exact h.running_current u h2 (by simpa [setStatus, h1] using hrun)
  · intro x u hu
    obtain ⟨h1, h2, h3⟩ := h.parked_blocked x u hu
    have hne : u ≠ t := by
      rintro rfl
      simp [ht] at h2
    exact ⟨(hall u).mpr ⟨hne, h1⟩, by simpa [setStatus, hne] using h2, h3⟩
  · exact h.parked_nodup
  · exact h.parked_unique
  · exact (hall _).mpr ⟨hidle, h.idle_mem⟩
  · simpa [setStatus, hidle] using h.idle_status

end Queues

end X86System.Thread
