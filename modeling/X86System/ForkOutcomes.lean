import X86System.FirstProcess

/-!
# What a fork leaves

The child sees the user pages of its parent, each in a frame of its own, and has a copy of the
bitmap of addresses in a buffer of its own; the parent goes on with what it had. A fork that has
all it needs ends so, and every fork that ends so had it. A fork that returns -1 has taken a pid
and does not give it back.
-/
namespace X86System.Memory
open Exec Paging

/-- Page `x` of the address space `d` is mapped to frame `f`. -/
def Machine.Shows (m : Machine) (d x f : ℕ) : Prop := walk m.ram d (x * 4096) = some (f, 0)

/-- The child `p` with directory `d` has the memory of the running task of `m` as its own. -/
structure PrivateCopy (m m' : Machine) (p d : ℕ) : Prop where
  /-- The directory of the child, as the parent reaches it in the kernel heap. -/
  dir : ∃ v, (m'.tasks p).pgdir = some v ∧ walk m'.ram m'.cr3 v = some (d, 0)
  pages : ∀ x < 0xc0000, ∀ f, m.Shows m.cr3 x f →
    ∃ g, m'.Shows d x g ∧ ∀ j < 1024, m'.ram g j = m.ram f j
  only : ∀ x < 0xc0000, ∀ g, m'.Shows d x g → ∃ f, m.Shows m.cr3 x f
  inj : ∀ x < 0xc0000, ∀ y < 0xc0000, ∀ g, m'.Shows d x g → m'.Shows d y g → x = y
  apart : ∀ x < 0xc0000, ∀ g, m'.Shows d x g →
    ∀ v < 2 ^ 32, ∀ i, walk m'.ram m'.cr3 v ≠ some (g, i)
  bitmap : (m'.tasks p).userprocVaddr.vaddrBitmap = (m.tasks m.running).userprocVaddr.vaddrBitmap ∧
    (m'.tasks p).userprocVaddr.vaddrStart = (m.tasks m.running).userprocVaddr.vaddrStart
  buffer : ∀ i < bitmapPgCnt, ∀ j < bitmapPgCnt, (m'.tasks p).userprocVaddr.bits / 4096 + i ≠
    (m.tasks m.running).userprocVaddr.bits / 4096 + j
  parentPages : ∀ x < 0xc0000, ∀ f, m'.Shows m'.cr3 x f ↔ m.Shows m.cr3 x f
  parentWords : ∀ x < 0xc0000, ∀ f, m.Shows m.cr3 x f → ∀ j, m'.ram f j = m.ram f j
  parentTask : m'.running = m.running ∧ m'.cr3 = m.cr3 ∧ m'.tasks m.running = m.tasks m.running

/-- `sys_fork` returns a child that has the memory of its parent as its own. -/
def ForkCopies (m : Machine) : Prop :=
  ∃ p m' d, sysFork m = .ok (some p, m') ∧ PrivateCopy m m' p d

/-- `sys_fork` returns -1 and pids, pools, addresses and the memory of the parent are as before. -/
def ForkUndone (m : Machine) : Prop :=
  ∃ m', sysFork m = .ok (none, m') ∧ m'.pidBitmap = m.pidBitmap ∧ m'.pools = m.pools ∧
    m'.kernelVaddr = m.kernelVaddr ∧ m'.tasks m.running = m.tasks m.running ∧
    ∀ x < 0xc0000, ∀ f, m.Shows m.cr3 x f →
      m'.Shows m'.cr3 x f ∧ ∀ j, m'.ram f j = m.ram f j

section Copies

variable {s : State} {m m' : Machine} {G G' : Layout} {p d x f : ℕ}

/-- An address space shows the user pages that it owns. -/
theorem Coherent.shows_iff (hc : Coherent m G) (hd : d ∈ G.spaces) (hx : x < 0xc0000) :
    m.Shows d x f ↔ G.owns (.user d x) = some f := by
  unfold Machine.Shows
  rw [hc.walk_user hd hx]
  cases G.owns (.user d x) with
  | none => simp
  | some g => simp

/-- The directory of a process is an address space in use. -/
theorem Sound.space_mem (hs : Sound s G) (hp : p ∈ s.threads) (hhang : p ∉ s.hanging)
    (hproc : (s.machine.tasks p).pgdir ≠ none) (hd : DirOf s.machine G p d) : d ∈ G.spaces := by
  obtain ⟨d', hd', -, hspace⟩ := hs.user p hp hhang
  rw [hd.unique hd']
  exact (hspace hproc).1

/-- The child has a directory of its own. -/
theorem Forked.pgdir (h : Forked s G p d m' G') (hs : Sound s G) :
    ∃ v, (m'.tasks p).pgdir = some v ∧ v % 4096 = 0 ∧ G'.owns (.kernel (v / 4096)) = some d := by
  have hdir := h.dirOf
  unfold DirOf at hdir
  cases hv : (m'.tasks p).pgdir with
  | none =>
    rw [hv] at hdir
    have := h.notMem
    rw [hdir] at this
    exact absurd hs.coherent.encoded.kernelDir_mem this
  | some v =>
    rw [hv] at hdir
    exact ⟨v, rfl, hdir⟩

/-- What a finished fork left is a private copy. -/
theorem Forked.privateCopy (hs : Sound s G) (h : Forked s G p d m' G')
    (hs' : Sound ⟨m', insert p s.threads, s.hanging⟩ G')
    (hproc : (s.machine.tasks s.machine.running).pgdir ≠ none) :
    PrivateCopy s.machine m' p d := by
  obtain ⟨v, hv, halign, hown⟩ := h.pgdir hs
  have hmem : p ∈ insert p s.threads := Finset.mem_insert_self ..
  have hhang : p ∉ s.hanging := fun hp => h.fresh (hs.hanging_sub hp)
  have hd : d ∈ G'.spaces := hs'.space_mem hmem hhang (by simp [hv]) h.dirOf
  have hcr3 : s.machine.cr3 ∈ G.spaces :=
    hs.space_mem hs.running_mem hs.running_notMem hproc hs.cr3
  have htask := h.tasks _ hs.running_mem
  have hcr3' : m'.cr3 ∈ G'.spaces := by
    apply hs'.space_mem hs'.running_mem hs'.running_notMem _ hs'.cr3
    change (m'.tasks m'.running).pgdir ≠ none
    rwa [h.running, htask]
  have hne : m'.cr3 ≠ d := by
    rintro heq
    have := h.notMem
    rw [← heq, h.cr3] at this
    exact this (hs.coherent.encoded.spaces_subset hcr3)
  have hparent {x f : ℕ} (hx : x < 0xc0000) := hs.coherent.shows_iff (f := f) hcr3 hx
  have hchild {x f : ℕ} (hx : x < 0xc0000) := hs'.coherent.shows_iff (f := f) hd hx
  exact {
    dir := by
      refine ⟨v, hv, ?_⟩
      have hwalk := @Coherent.walk_page_start m' G' .kernel _ _ hs'.coherent hs'.cr3_mem hown
      rwa [Nat.div_mul_cancel (Nat.dvd_of_mod_eq_zero halign)] at hwalk
    pages := fun x hx f hf => by
      rw [hparent hx] at hf
      obtain ⟨g, hg⟩ := Option.ne_none_iff_exists'.mp ((h.pages x).mpr (by simp [hf]))
      exact ⟨g, (hchild hx).mpr hg, h.words x g f hg hf⟩
    only := fun x hx g hg => by
      rw [hchild hx] at hg
      obtain ⟨f, hf⟩ := Option.ne_none_iff_exists'.mp ((h.pages x).mp (by simp [hg]))
      exact ⟨f, (hparent hx).mpr hf⟩
    inj := fun x hx y hy g hgx hgy => by
      have heq := G'.ledger.inj ((hchild hx).mp hgx) ((hchild hy).mp hgy)
      simp only [Owner.user.injEq] at heq
      exact heq.2
    apart := fun x hx g hg w hw i hwalk =>
      hne (hs'.coherent.walk_apart hcr3' hw hwalk ((hchild hx).mp hg)).symm
    bitmap := by
      rw [h.userprocVaddr]
      exact ⟨rfl, rfl⟩
    buffer := fun i hi j hj heq => by
      have hp := hs'.uses_inj (.bitmap p) (.bitmap s.machine.running)
        ((m'.tasks p).userprocVaddr.bits / 4096 + i)
        ⟨hmem, hhang, by simp [hv], Nat.le_add_right .., Nat.add_lt_add_left hi _⟩
        ⟨Finset.mem_insert_of_mem hs.running_mem, hs.running_notMem, by
          change (m'.tasks s.machine.running).pgdir ≠ none
          rwa [htask], by
          change (m'.tasks s.machine.running).userprocVaddr.bits / 4096 ≤ _
          rw [htask, heq]
          exact Nat.le_add_right .., by
          change _ < (m'.tasks s.machine.running).userprocVaddr.bits / 4096 + _
          rw [htask, heq]
          exact Nat.add_lt_add_left hj _⟩
      rw [Use.bitmap.injEq] at hp
      exact h.fresh (hp ▸ hs.running_mem)
    parentPages := fun x hx f => by
      rw [hparent hx, hs'.coherent.shows_iff hcr3' hx, h.others _ hne, h.cr3]
    parentWords := fun x hx f hf => by
      rw [hparent hx] at hf
      have hnot : ¬ Structural G f := hs.coherent.not_structural hf
        (hs.coherent.user_not_dir hf) (by simp)
      exact congrFun (h.kept _ f hf hnot)
    parentTask := ⟨h.running, h.cr3, htask⟩ }

/-- A fork copies exactly where it has all that it needs. -/
theorem Sound.forkCopies_iff (hs : Sound s G) : ForkCopies s.machine ↔ ForkReady s.machine := by
  constructor
  · rintro ⟨p, m', d, hfork, -⟩
    obtain ⟨_, _, _, _, _, -, -, -, -, hr⟩ | ⟨_, _, _, _, _, _, _, _, _, _, -, hsteps⟩ :=
      sysFork_cases hfork
    · cases hr
    · exact hsteps.ready hs
  · intro h
    obtain ⟨p, m', hfork⟩ := h.sysFork hs
    obtain ⟨hr, -⟩ | ⟨p', d, G', hr, hs', hforked⟩ := hs.sysFork hfork
    · cases hr
    · obtain rfl := Option.some.inj hr
      exact ⟨p, m', d, hfork, hforked.privateCopy hs hs' h.process⟩

end Copies

section Failures

variable {s : State} {m' : Machine} {G : Layout}

/-- A fork that returns -1 has taken a pid. -/
theorem Sound.sysFork_pid (hs : Sound s G) (h : Memory.sysFork s.machine = .ok (none, m')) :
    ∃ i ∈ s.machine.pidBitmap.free, m'.pidBitmap = bitmapSet s.machine.pidBitmap i true := by
  obtain ⟨child, m₁, buf, m₂, i, h₁, h₂, hscan, hbits, -⟩ | ⟨_, _, _, _, _, _, _, _, _, _, hr, -⟩ :=
    sysFork_cases h
  · obtain ⟨n, b, L₁, L₂, rfl, rfl, hseed⟩ := hs.seeded h₁ h₂ i
    have hpid : m₂.pidBitmap = s.machine.pidBitmap :=
      hseed.buf.only.pidBitmap.trans hseed.pcb.only.pidBitmap
    obtain ⟨j, hj, hfree, -⟩ := bitmapScan_one hscan
    obtain rfl := Option.some.inj hj
    rw [hpid] at hfree
    refine ⟨i, hfree, ?_⟩
    obtain ⟨-, rfl⟩ | ⟨_, _, hr, -⟩ := hseed.sound.getKernelPages hbits
    · rw [← hpid]
      rfl
    · cases hr
  · cases hr

theorem Sound.not_forkUndone (hs : Sound s G) : ¬ ForkUndone s.machine := by
  rintro ⟨m', hfork, hpid, -⟩
  obtain ⟨i, hfree, hset⟩ := hs.sysFork_pid hfork
  have hbit := ((Bitmap.mem_free _ _).mp hfree).2
  rw [hpid] at hset
  rw [hset, bitmapScanTest_set, if_pos rfl] at hbit
  cases hbit

/-- No fork that cannot be completed is undone. -/
theorem fork_never_undone (h : memoryCalls.Reachable s) : ¬ ForkUndone s.machine := by
  obtain ⟨G, hs⟩ := memoryCalls_sound h
  exact hs.not_forkUndone

/-- The first process has frames for itself, but not for a child. -/
theorem fork_never_undone_init :
    ∃ s, Started [0x69, 0x6e, 0x69, 0x74] 32 s ∧ ¬ ForkUndone s.machine := by
  obtain ⟨s, hs⟩ := @exists_started 32 [0x69, 0x6e, 0x69, 0x74] 0x240000 rfl (by decide)
  exact ⟨s, hs, fork_never_undone hs.reachable⟩

/-- Where the kernel pool has too few frames for the child the fork is not undone. -/
theorem fork_not_always_undone :
    ¬ ∀ s, memoryCalls.Reachable s → (s.machine.tasks s.machine.running).pgdir ≠ none →
      s.machine.room .kernel < bitmapPgCnt + 3 → ForkUndone s.machine := by
  intro hall
  obtain ⟨s, h⟩ := @exists_started 32 [0x69, 0x6e, 0x69, 0x74] 0x240000 rfl (by decide)
  obtain ⟨pid, v, bits, htask⟩ := h.task
  have hkernel := h.kernel
  rw [bitmapPgCnt_eq] at hkernel
  obtain ⟨G, hs⟩ := memoryCalls_sound h.reachable
  apply hs.not_forkUndone
  apply hall s h.reachable
  · simp [htask]
  · rw [bitmapPgCnt_eq]
    omega

end Failures

end X86System.Memory
