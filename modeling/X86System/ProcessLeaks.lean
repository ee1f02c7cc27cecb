import X86System.ForkOutcomes
import X86System.PageRequests

/-!
# What a process gives back

A fork takes 23 pages of the kernel heap for the bitmap of the child, and the exit gives
back as many whole pages as the bitmap has bytes for: 22. The last page stays taken when
the parent has waited, and its frame with it.
-/
namespace X86System.Memory
open Exec Paging

/-- The frames that the bitmap of a pool marks. -/
def Pool.taken (p : Pool) : Set ℕ :=
  {f | p.base ≤ f ∧ f < p.base + p.frames ∧ bitmapScanTest p.poolBitmap (f - p.base) = true}

/-- The pages that a bitmap of virtual addresses marks. -/
def VirtualAddr.taken (va : VirtualAddr) : Set ℕ :=
  {n | va.base ≤ n ∧ n < va.base + va.pages ∧ bitmapScanTest va.vaddrBitmap (n - va.base) = true}

/-- The bits that are set in the bitmap of the pids. -/
def Machine.pidsTaken (m : Machine) : Set ℕ :=
  {i | i < 8 * m.pidBitmap.btmpBytesLen ∧ bitmapScanTest m.pidBitmap i = true}

/-- The bitmaps of the two pools, of the kernel heap and of the pids mark what they did. -/
structure GivenBack (m m' : Machine) : Prop where
  pools : ∀ pf, (m'.pools pf).taken = (m.pools pf).taken
  heap : m'.kernelVaddr.taken = m.kernelVaddr.taken
  pids : m'.pidsTaken = m.pidsTaken

/-- Calls that allocate and free nothing. -/
def MemoryCall.Quiet : MemoryCall → Prop
  | .schedule _ | .store _ _ | .sysExecv _ => True
  | _ => False

/-- Only process `p` allocates and frees, with the calls that a process has. -/
def Alone (p : ℕ) (s : State) : MemoryCall → Prop
  | .threadStart _ | .processExecute _ => False
  | call => s.machine.running = p ∨ call.Quiet

/-- Process `p` has its bitmap from page `nb` on, and frame `f` behind the last page of it. -/
structure Keeps (s : State) (G : Layout) (p nb f : ℕ) : Prop where
  owned : G.owns (.kernel (nb + 22)) = some f
  mem : p ∈ s.threads
  process : (s.machine.tasks p).pgdir ≠ none
  bits : (s.machine.tasks p).userprocVaddr.bits = nb * 4096
  pcb : p ≠ mainThread → p / 4096 ≠ nb + 22
  pgdir : ∀ v, (s.machine.tasks p).pgdir = some v → v / 4096 ≠ nb + 22

section Lifetimes

variable {s t : State} {m m' : Machine} {G G' : Layout} {p nb f : ℕ} {call : MemoryCall}

/-- A call that leaves the frame and what the task is kept in. -/
theorem Keeps.of_tasks (h : Keeps s G p nb f) (howned : G'.owns (.kernel (nb + 22)) = some f)
    (hmem : p ∈ t.threads) (htask : (t.machine.tasks p).pgdir = (s.machine.tasks p).pgdir ∧
      (t.machine.tasks p).userprocVaddr.bits = (s.machine.tasks p).userprocVaddr.bits) :
    Keeps t G' p nb f where
  owned := howned
  mem := hmem
  process := by
    rw [htask.1]
    exact h.process
  bits := htask.2.trans h.bits
  pcb := h.pcb
  pgdir := by
    rw [htask.1]
    exact h.pgdir

/-- The last page of the bitmap is in use while the process is not over. -/
theorem Keeps.uses (h : Keeps s G p nb f) (hlive : p ∉ s.hanging) :
    s.Uses (.bitmap p) (nb + 22) := by
  have hbits := h.bits
  refine ⟨h.mem, hlive, h.process, ?_⟩
  rw [hbits, bitmapPgCnt_eq]
  omega

/-- One bitmap of virtual pages was changed. -/
theorem Keeps.sameTasks (h : Keeps s G p nb f) (howned : G'.owns (.kernel (nb + 22)) = some f)
    {pf : PoolFlags} {btmp : Bitmap} (hsame : SameTasks (s.machine.setVaddrs pf btmp) m') :
    Keeps { s with machine := m' } G' p nb f := by
  obtain ⟨h1, h2, -⟩ := setVaddrs_task s.machine pf btmp p
  apply h.of_tasks (t := { s with machine := m' }) howned h.mem
  dsimp only
  rw [hsame.tasks]
  exact ⟨h1, h2⟩

/-- The call of another process is a quiet one. -/
theorem Alone.quiet (h : Alone p s call) (hne : s.machine.running ≠ p) : call.Quiet := by
  cases call <;> first | exact h.resolve_left hne | exact h.elim

theorem Alone.running (h : Alone p s call) (hloud : ¬ call.Quiet) : s.machine.running = p := by
  by_contra hne
  exact hloud (h.quiet hne)

/-- What is mapped at a page of the kernel heap does not depend on the layout. -/
theorem Coherent.kernel_owns_unique (h : Coherent m G) (h' : Coherent m G') {n g g' : ℕ}
    (hg : G.owns (.kernel n) = some g) (hg' : G'.owns (.kernel n) = some g') : g = g' := by
  have hword := (h.encoded.kernelPage n g hg).2
  rw [(h'.encoded.kernelPage n g' hg').2] at hword
  exact (entry_injective hword).symm

/-- As long as process `p` acts alone, the last page of its bitmap keeps its frame. -/
theorem Keeps.step (h : Keeps s G p nb f) (hs : Sound s G) (hstep : Step s call t)
    (halone : Alone p s call) : ∃ G', Sound t G' ∧ Keeps t G' p nb f := by
  cases hstep with
  | mallocPage hproc hmal =>
    obtain ⟨-, rfl⟩ | ⟨i, L', -, -, hs', hg, hsame, -⟩ := hs.mallocPage hproc hmal
    · exact ⟨G, hs, h⟩
    · exact ⟨_, hs', h.sameTasks (hg.owned h.owned) hsame⟩
  | @mfreePage pf vaddr cnt m hfreeable hfree =>
    obtain ⟨L', hs', hsh, hsame⟩ := hs.mfreePage_freeable hfreeable hfree
    have hrun := halone.running fun h => h
    have huse := h.uses (by rw [← hrun]; exact hs.running_notMem)
    refine ⟨_, hs', h.sameTasks ?_ hsame⟩
    rw [withLedger_owns, hsh.kept]
    · exact h.owned
    · rintro ⟨i, hi, heq⟩
      cases pf with
      | kernel =>
        obtain hn := Owner.kernel.inj heq
        rw [hn] at huse
        exact (hfreeable i hi).2.2.2 _ huse
      | user => cases heq
  | @getAPage vaddr r m halign hlo hhi hget =>
    obtain ⟨L', hs'⟩ := hs.getAPage halign hlo hhi hget
    have hrun := halone.running fun h => h
    have huse := h.uses (by rw [← hrun]; exact hs.running_notMem)
    obtain ⟨v, hv⟩ := Option.ne_none_iff_exists'.mp h.process
    rw [← hrun] at hv
    have hpage : vaddr = vaddr / 4096 * 4096 := by omega
    rw [hpage] at hlo hhi hget
    obtain ⟨_, rfl, -, -, L₁, hc, hsame, hg⟩ := hs.getAPage_step hv hlo hhi hget
    have hkeeps : Keeps { s with machine := m } (G.withLedger L₁) p nb f :=
      h.sameTasks (hg.owned h.owned) hsame
    obtain ⟨g, hg'⟩ := hs'.owned _ _ (hkeeps.uses huse.2.1)
    obtain rfl := hc.kernel_owns_unique hs'.coherent hkeeps.owned hg'
    exact ⟨_, hs', h.sameTasks hg' hsame⟩
  | store hv hwalk hdir hstore =>
    have hs' := hs.store hv hwalk hdir hstore
    rw [Machine.store, hwalk] at hstore
    obtain rfl := Except.ok.inj hstore
    exact ⟨G, hs', h.of_tasks h.owned h.mem ⟨rfl, rfl⟩⟩
  | threadStart hstart => exact halone.elim
  | processExecute hexec => exact halone.elim
  | @sysExecv name hname =>
    refine ⟨G, hs.rename name, h.of_tasks h.owned h.mem ?_⟩
    unfold Machine.rename Machine.setTask
    by_cases hp : p = s.machine.running
    · subst hp
      simp
    · simp [hp]
  | sysFork hfork =>
    obtain ⟨hr, -⟩ | ⟨q, d, G', hr, hs', hforked⟩ := hs.sysFork hfork
    · cases hr
    · obtain rfl := Option.some.inj hr
      refine ⟨G', hs', h.of_tasks (hforked.owned _ _ h.owned) (Finset.mem_insert_of_mem h.mem) ?_⟩
      dsimp only
      rw [hforked.tasks p h.mem]
      exact ⟨rfl, rfl⟩
  | sysForkFails hfork =>
    obtain ⟨child, m₁, buf, m₂, i, h₁, h₂, -, hbits, -⟩ |
      ⟨_, _, _, _, _, _, _, _, _, _, hr, -⟩ := sysFork_cases hfork
    · obtain ⟨n, b, L₁, L₂, rfl, rfl, hseed⟩ := hs.seeded h₁ h₂ i
      obtain ⟨-, rfl⟩ | ⟨_, _, hr, -⟩ := hseed.sound.getKernelPages hbits
      · refine ⟨_, hseed.sound, h.of_tasks
          (hseed.buf.grown.owned (hseed.pcb.grown.owned h.owned)) h.mem ?_⟩
        dsimp only
        rw [hseed.tasks p h.mem, hseed.buf.only.tasks, hseed.pcb.only.tasks]
        exact ⟨rfl, rfl⟩
      · cases hr
    · cases hr
  | schedule hnext hlive hswitch =>
    have hs' := hs.schedule hnext hlive hswitch
    obtain ⟨d, -, hswitch'⟩ := hs.switches hnext
    obtain rfl := Except.ok.inj (hswitch.symm.trans hswitch')
    exact ⟨G, hs', h.of_tasks h.owned h.mem ⟨rfl, rfl⟩⟩
  | sysExit hrel hnext hlive hne hswitch =>
    have hrun := halone.running fun h => h
    have hproc := h.process
    rw [← hrun] at hproc
    obtain ⟨m₁, m₂, G', hrel', hswitch', hleaves, hkept⟩ := hs.exits hproc hnext hlive hne
    obtain rfl := Except.ok.inj (hrel.symm.trans hrel')
    obtain rfl := Except.ok.inj (hswitch.symm.trans hswitch')
    refine ⟨G', hs.leave hleaves, h.of_tasks ?_ h.mem ?_⟩
    · rw [hkept _ (notMem_userHalf (by simp) (by simp))]
      · exact h.owned
      · intro i hi heq
        have hn := Owner.kernel.inj heq
        rw [hrun, h.bits] at hn
        omega
    · rw [hleaves.tasks p h.mem]
      exact ⟨rfl, rfl⟩
  | @sysWait child m hhang hchild hexit =>
    have hrun := halone.running fun h => h
    have hlive : p ∉ s.hanging := by
      rw [← hrun]
      exact hs.running_notMem
    have huse := h.uses hlive
    obtain ⟨m₁, G', hexit', hleaves, hkept⟩ := hs.waits hchild hhang
    obtain rfl := Except.ok.inj (hexit.symm.trans hexit')
    have hmem : p ∈ s.threads.erase child := by
      refine Finset.mem_erase.mpr ⟨?_, h.mem⟩
      rintro rfl
      exact hlive hhang
    refine ⟨G', hs.leave hleaves, h.of_tasks ?_ hmem ?_⟩
    · rw [hkept]
      · exact h.owned
      · rintro n hn heq
        obtain rfl := Owner.kernel.inj heq
        cases hs.uses_inj _ _ _ huse hn
      · rintro n hn heq
        obtain rfl := Owner.kernel.inj heq
        cases hs.uses_inj _ _ _ huse hn
    · rw [hleaves.tasks p hmem]
      exact ⟨rfl, rfl⟩

/-- A child starts with 23 pages for its bitmap, and no frame behind them was in use. -/
theorem Sound.keeps_of_fork (hs : Sound s G) (hfork : Memory.sysFork s.machine = .ok (some p, m)) :
    ∃ G' nb f, Sound ⟨m, insert p s.threads, s.hanging⟩ G' ∧
      Keeps ⟨m, insert p s.threads, s.hanging⟩ G' p nb f ∧ p ∉ s.threads ∧
      ∀ o, G.owns o ≠ some f := by
  obtain ⟨_, _, _, _, _, -, -, -, -, hr⟩ | ⟨child, _, _, _, _, _, _, _, _, _, hr, hsteps⟩ :=
    sysFork_cases hfork
  · cases hr
  obtain rfl := Option.some.inj hr
  obtain ⟨d, G', nb, hs', hforked, hproc, hbits, hfree⟩ := hs.forks hsteps
  have hlive : p ∉ s.hanging := fun h => hforked.fresh (hs.hanging_sub h)
  have huse : (⟨m, insert p s.threads, s.hanging⟩ : State).Uses (.bitmap p) (nb + 22) := by
    refine ⟨Finset.mem_insert_self .., hlive, hproc, ?_⟩
    dsimp only
    rw [hbits, bitmapPgCnt_eq]
    omega
  obtain ⟨f, hf⟩ := hs'.owned _ _ huse
  refine ⟨G', nb, f, hs', ⟨hf, Finset.mem_insert_self .., hproc, hbits, fun hmain heq => ?_,
    fun v hv heq => ?_⟩, hforked.fresh, fun o ho => ?_⟩
  · cases hs'.uses_inj (.pcb p) _ _ ⟨Finset.mem_insert_self .., hmain, heq.symm⟩ huse
  · cases hs'.uses_inj (.pgdir p) _ _ ⟨Finset.mem_insert_self .., v, hv, heq.symm⟩ huse
  · obtain rfl := G'.ledger.inj (hforked.owned o f ho) hf
    have hnone := hfree 22 (by rw [bitmapPgCnt_eq]; norm_num)
    rw [hnone] at ho
    cases ho

/-- The pools mark the frames that are owned. -/
theorem Coherent.taken_iff (h : Coherent m G) {pf : PoolFlags} :
    f ∈ (m.pools pf).taken ↔ ∃ o, o.pool = pf ∧ G.owns o = some f := by
  constructor
  · rintro ⟨hlo, hhi, hset⟩
    obtain ⟨o, ho, hown⟩ := (h.marked.marked pf _ (by omega)).mp hset
    rw [Nat.add_sub_cancel' hlo] at hown
    exact ⟨o, ho, hown⟩
  · rintro ⟨o, rfl, hown⟩
    obtain ⟨hlo, hhi⟩ := h.marked.inPool o f hown
    refine ⟨hlo, hhi, (h.marked.marked _ _ (by omega)).mpr ⟨o, rfl, ?_⟩⟩
    rwa [Nat.add_sub_cancel' hlo]

/-- The frame is still taken when the process was waited for. -/
theorem Keeps.waited (h : Keeps s G p nb f) (hs : Sound s G) (hstep : Step s (.sysWait p) t) :
    f ∈ (t.machine.pools .kernel).taken := by
  cases hstep with
  | sysWait hhang hchild hexit =>
    obtain ⟨m₁, G', hexit', hleaves, hkept⟩ := hs.waits hchild hhang
    obtain rfl := Except.ok.inj (hexit.symm.trans hexit')
    apply hleaves.addressed.coherent.taken_iff.mpr ⟨.kernel (nb + 22), rfl, _⟩
    rw [hkept]
    · exact h.owned
    · rintro n ⟨-, v, hv, rfl⟩ heq
      exact h.pgdir v hv (Owner.kernel.inj heq).symm
    · rintro n ⟨-, hmain, rfl⟩ heq
      exact h.pcb hmain (Owner.kernel.inj heq).symm

/-- From the fork to the wait a process takes more than it gives back. -/
theorem Sound.not_givenBack (hs : Sound s G)
    (hfork : Memory.sysFork s.machine = .ok (some p, m)) {calls : List MemoryCall} {u : State}
    (hrun : memoryCalls.RunWhere (Alone p) ⟨m, insert p s.threads, s.hanging⟩ calls t)
    (hwait : Step t (.sysWait p) u) : ¬ GivenBack s.machine u.machine := by
  intro hback
  obtain ⟨G₁, nb, f, hs₁, hk₁, -, hfree⟩ := hs.keeps_of_fork hfork
  obtain ⟨G₂, hs₂, hk₂⟩ : ∃ G, Sound t G ∧ Keeps t G p nb f := by
    apply hrun.keeps _ ⟨G₁, hs₁, hk₁⟩
    rintro s call t ⟨G, hs, hk⟩ halone hstep
    exact hk.step hs hstep halone
  have htaken := hk₂.waited hs₂ hwait
  rw [hback.pools, hs.coherent.taken_iff] at htaken
  obtain ⟨o, -, ho⟩ := htaken
  exact hfree o ho

/-- A child that exits as soon as it runs, and its parent waits. -/
theorem Sound.lifetime (hs : Sound s G)
    (hfork : Memory.sysFork s.machine = .ok (some p, m)) : ∃ calls t u,
      memoryCalls.RunWhere (Alone p) ⟨m, insert p s.threads, s.hanging⟩ calls t ∧
      Step t (.sysWait p) u := by
  obtain ⟨G₁, nb, f, hs₁, hk, hnew, -⟩ := hs.keeps_of_fork hfork
  have hlive : p ∉ s.hanging := fun h => hnew (hs.hanging_sub h)
  obtain ⟨d, -, hswitch⟩ := hs₁.switches hk.mem
  have hs₂ := hs₁.schedule hk.mem hlive hswitch
  have hne : s.machine.running ≠ p := by
    rintro rfl
    exact hnew hs.running_mem
  have hparent : s.machine.running ∈ insert p s.threads := Finset.mem_insert_of_mem hs.running_mem
  obtain ⟨m₁, m₂, G₂, hrel, hswitch', hleaves, -⟩ :=
    hs₂.exits hk.process hparent hs.running_notMem hne
  have hs₃ := hs₂.leave hleaves
  obtain ⟨m₃, G₃, hexit, -⟩ := hs₃.waits hk.mem (Finset.mem_insert_self ..)
  have hquiet : Alone p ⟨m, insert p s.threads, s.hanging⟩ (.schedule p) := Or.inr trivial
  have hloud : Alone p ⟨{ m with cr3 := d, running := p }, insert p s.threads, s.hanging⟩
      (.sysExit s.machine.running) := Or.inl rfl
  have hrun := Transition.System.RunWhere.snoc (T := memoryCalls) (g := Alone p) .nil hquiet
    (.schedule hk.mem hlive hswitch)
  exact ⟨_, _, _, hrun.snoc hloud (.sysExit hrel hparent hs.running_notMem hne hswitch'),
    .sysWait (Finset.mem_insert_self ..) hk.mem hexit⟩

/-- In every run the bitmaps mark more than before the fork when the process was waited for. -/
theorem process_never_given_back (h : memoryCalls.Reachable s)
    (hfork : Memory.sysFork s.machine = .ok (some p, m)) {calls : List MemoryCall} {u : State}
    (hrun : memoryCalls.RunWhere (Alone p) ⟨m, insert p s.threads, s.hanging⟩ calls t)
    (hwait : Step t (.sysWait p) u) : ¬ GivenBack s.machine u.machine := by
  obtain ⟨G, hs⟩ := memoryCalls_sound h
  exact hs.not_givenBack hfork hrun hwait

/-- The first process forks, the child exits, and its parent waits. -/
theorem process_never_given_back_init :
    ∃ s u, Started [0x69, 0x6e, 0x69, 0x74] 256 s ∧ memoryCalls.Reachable u ∧
      ¬ GivenBack s.machine u.machine := by
  obtain ⟨s, h⟩ := @exists_started 256 [0x69, 0x6e, 0x69, 0x74] 0x400000 rfl (by decide)
  obtain ⟨G, hs⟩ := memoryCalls_sound h.reachable
  obtain ⟨p, m, hfork⟩ := (h.forkReady (by norm_num) (by decide)).sysFork hs
  obtain ⟨calls, t, u, hrun, hwait⟩ := hs.lifetime hfork
  obtain ⟨s₀, before, hstart, hbefore⟩ := h.reachable.step (.sysFork hfork)
  have hover : memoryCalls.Reachable t := ⟨s₀, _, hstart, hbefore.append hrun.run⟩
  exact ⟨s, u, h, hover.step hwait, process_never_given_back h.reachable hfork hrun hwait⟩

/-- Not every process gives back what it took. -/
theorem process_not_given_back :
    ¬ ∀ s p m calls t u, memoryCalls.Reachable s → Memory.sysFork s.machine = .ok (some p, m) →
      memoryCalls.RunWhere (Alone p) ⟨m, insert p s.threads, s.hanging⟩ calls t →
      Step t (.sysWait p) u → GivenBack s.machine u.machine := by
  intro hall
  obtain ⟨s, h⟩ := @exists_started 256 [0x69, 0x6e, 0x69, 0x74] 0x400000 rfl (by decide)
  obtain ⟨G, hs⟩ := memoryCalls_sound h.reachable
  obtain ⟨p, m, hfork⟩ := (h.forkReady (by norm_num) (by decide)).sysFork hs
  obtain ⟨calls, t, u, hrun, hwait⟩ := hs.lifetime hfork
  exact hs.not_givenBack hfork hrun hwait (hall s p m calls t u h.reachable hfork hrun hwait)

end Lifetimes

end X86System.Memory
