import X86System.AddressSpaces
import X86System.PageRuns

/-!
# The invariant of all address spaces

Every task has a directory whose kernel half is the loader's. The bitmap of a task
marks the pages of its own address space, the kernel's bitmap the pages of the heap
that all of them share, and no page of the heap serves two uses. What a call of one
task changes leaves the address spaces of the others alone.
-/
namespace X86System.Memory
open Exec Paging

/-- The directory frame of a task. -/
def DirOf (m : Machine) (G : Layout) (p d : ℕ) : Prop :=
  match (m.tasks p).pgdir with
  | none => d = kernelDir
  | some v => v % 4096 = 0 ∧ G.owns (.kernel (v / 4096)) = some d

/-- The bitmap of a task marks its user pages; a task without a directory has none. -/
def UserSpace (m : Machine) (G : Layout) (p : ℕ) : Prop :=
  ∃ d, DirOf m G p d ∧ Tracked (m.tasks p).userprocVaddr (Owner.user d) G.ledger ∧
    ((m.tasks p).pgdir ≠ none → d ∈ G.spaces ∧
      (m.tasks p).userprocVaddr.vaddrStart = userVaddrStart ∧
      (m.tasks p).userprocVaddr.vaddrBitmap.btmpBytesLen = userBitmapLen)

/-- Tables, pools, bitmaps and tasks agree with one layout. -/
structure Sound (s : State) (G : Layout) : Prop where
  coherent : Coherent s.machine G
  held : ∀ pf, G.owns (.held pf) = none
  kernel : Tracked s.machine.kernelVaddr Owner.kernel G.ledger
  kernelBase : s.machine.kernelVaddr.base = 0xc0100
  kernelPages : s.machine.kernelVaddr.pages ≤ 8 * 4095
  running_mem : s.machine.running ∈ s.threads
  running_notMem : s.machine.running ∉ s.hanging
  hanging_sub : s.hanging ⊆ s.threads
  cr3 : DirOf s.machine G s.machine.running s.machine.cr3
  dir : ∀ p ∈ s.threads, ∃ d ∈ G.dirs, DirOf s.machine G p d
  user : ∀ p ∈ s.threads, p ∉ s.hanging → UserSpace s.machine G p
  dirs : ∀ d ∈ G.dirs, d ≠ kernelDir →
    ∃ p ∈ s.threads, (s.machine.tasks p).pgdir ≠ none ∧ DirOf s.machine G p d
  closed : ∀ p ∈ s.hanging, (s.machine.tasks p).pgdir ≠ none →
    ∀ d, DirOf s.machine G p d → d ∉ G.spaces
  owned : ∀ u n, s.Uses u n → ∃ f, G.owns (.kernel n) = some f
  uses_inj : ∀ u u' n, s.Uses u n → s.Uses u' n → u = u'
  aligned : ∀ p ∈ s.threads, p % 4096 = 0 ∧
    (p ∉ s.hanging → (s.machine.tasks p).userprocVaddr.bits % 4096 = 0)
  bare : ∀ p ∈ s.threads, (s.machine.tasks p).pgdir = none →
    (s.machine.tasks p).userprocVaddr.vaddrBitmap.btmpBytesLen = 0

section Directories

variable {s : State} {m : Machine} {G : Layout} {p q d d' n : ℕ}

theorem DirOf.unique (h : DirOf m G p d) (h' : DirOf m G p d') : d = d' := by
  unfold DirOf at h h'
  cases hv : (m.tasks p).pgdir with
  | none =>
    rw [hv] at h h'
    rw [h, h']
  | some v =>
    rw [hv] at h h'
    exact Option.some.inj (h.2.symm.trans h'.2)

/-- The user pages of a frame that is no address space. -/
theorem Coherent.user_none_of_notMem (h : Coherent m G) (hd : d ∉ G.spaces) (n : ℕ) :
    G.owns (.user d n) = none := by
  cases ht : G.owns (.table d (n / 1024)) with
  | none => exact h.user_none_of_table ht
  | some t => exact absurd (h.encoded.tableEntry _ _ _ ht).1 hd

/-- The directory in use is the kernel's or that of an address space in use. -/
theorem Sound.cr3_cases (h : Sound s G) :
    (s.machine.tasks s.machine.running).pgdir = none ∧ s.machine.cr3 = kernelDir ∨
    (s.machine.tasks s.machine.running).pgdir ≠ none ∧ s.machine.cr3 ∈ G.spaces := by
  obtain ⟨d, hd, -, hsize⟩ := h.user _ h.running_mem h.running_notMem
  obtain rfl := h.cr3.unique hd
  by_cases hproc : (s.machine.tasks s.machine.running).pgdir = none
  · unfold DirOf at hd
    rw [hproc] at hd
    exact .inl ⟨hproc, hd⟩
  · exact .inr ⟨hproc, (hsize hproc).1⟩

theorem Sound.cr3_mem (h : Sound s G) : s.machine.cr3 ∈ G.dirs := by
  obtain ⟨d, hd, hdir⟩ := h.dir _ h.running_mem
  rwa [h.cr3.unique hdir]

theorem userSpace_end : userVaddrStart / 4096 + 8 * userBitmapLen = 0xc0000 := by
  decide

/-- What the page allocator needs to know about the running task. -/
theorem Sound.addressed (h : Sound s G) : Addressed .univ s.machine G := by
  obtain ⟨d, hdir, htrack, hsize⟩ := h.user _ h.running_mem h.running_notMem
  obtain rfl := h.cr3.unique hdir
  refine ⟨h.coherent, h.cr3_mem, h.held, ?_, h.kernelBase, h.kernelPages, ?_⟩
  · intro pf _
    cases pf
    · exact h.kernel
    · exact htrack
  · intro hspace
    obtain ⟨-, hk⟩ | ⟨hproc, -⟩ := h.cr3_cases
    · rw [hk] at hspace
      exact absurd hspace h.coherent.encoded.kernelDir_notMem
    · obtain ⟨-, hstart, hlen⟩ := hsize hproc
      have := userSpace_end
      simp only [Machine.vaddrs, VirtualAddr.base, VirtualAddr.pages, hstart, hlen]
      omega

/-- The directory of a process is a page in use. -/
theorem pgdir_uses (hp : p ∈ s.threads)
    (hproc : (s.machine.tasks p).pgdir ≠ none) (hd : DirOf s.machine G p d) :
    ∃ n, s.Uses (.pgdir p) n ∧ G.owns (.kernel n) = some d := by
  obtain ⟨v, hv⟩ := Option.ne_none_iff_exists'.mp hproc
  unfold DirOf at hd
  rw [hv] at hd
  exact ⟨v / 4096, ⟨hp, v, hv, rfl⟩, hd.2⟩

/-- The directory of a process is not the kernel's. -/
theorem Sound.ne_kernelDir (h : Sound s G) (hp : p ∈ s.threads)
    (hproc : (s.machine.tasks p).pgdir ≠ none) (hd : DirOf s.machine G p d) : d ≠ kernelDir := by
  obtain ⟨n, -, hn⟩ := pgdir_uses hp hproc hd
  have := h.coherent.marked.kernel_ge hn
  unfold kernelDir
  omega

/-- Two processes have two directories. -/
theorem Sound.dir_inj (h : Sound s G) (hp : p ∈ s.threads) (hq : q ∈ s.threads)
    (hproc : (s.machine.tasks p).pgdir ≠ none) (hd : DirOf s.machine G p d)
    (hd' : DirOf s.machine G q d) : p = q := by
  by_cases hproc' : (s.machine.tasks q).pgdir = none
  · unfold DirOf at hd'
    rw [hproc'] at hd'
    exact absurd hd' (h.ne_kernelDir hp hproc hd)
  · obtain ⟨n, hn, ho⟩ := pgdir_uses hp hproc hd
    obtain ⟨n', hn', ho'⟩ := pgdir_uses hq hproc' hd'
    obtain rfl : n = n' := by simpa using G.ledger.inj ho ho'
    simpa using h.uses_inj _ _ _ hn hn'

/-- A page of the heap that no task is kept in holds no directory. -/
theorem Sound.not_dir (h : Sound s G) {f : ℕ} (hn : ∀ u, ¬ s.Uses u n)
    (hf : G.owns (.kernel n) = some f) : f ∉ G.dirs := by
  intro hd
  have hk := h.coherent.marked.kernel_ge hf
  obtain ⟨p, hp, hproc, hdir⟩ := h.dirs f hd (by unfold kernelDir; omega)
  obtain ⟨n', hn', ho'⟩ := pgdir_uses hp hproc hdir
  obtain rfl : n = n' := by simpa using G.ledger.inj hf ho'
  exact hn _ hn'

/-- The frames of user pages are no directories. -/
theorem Coherent.user_not_dir (h : Coherent m G) {f : ℕ} (hf : G.owns (.user d n) = some f) :
    f ∉ G.dirs := by
  intro hd
  obtain rfl | ⟨n', hn'⟩ := h.encoded.dirOwned f hd
  · have := h.marked.kernel_ge hf
    unfold kernelDir at this
    omega
  · cases G.ledger.inj hf hn'

end Directories

/-- What a call of one task may change: pages that no task is kept in, and user pages of one
address space. -/
structure Local (s : State) (G : Layout) (m' : Machine) (L' : Ledger Owner ℕ) (dir : ℕ) : Prop where
  running : m'.running = s.machine.running
  tasks : ∀ p ∈ s.threads, (m'.tasks p).pgdir = (s.machine.tasks p).pgdir ∧
    (m'.tasks p).userprocVaddr.bits = (s.machine.tasks p).userprocVaddr.bits
  uses : ∀ u n, s.Uses u n → L'.owns (.kernel n) = G.owns (.kernel n)
  others : ∀ d, d ≠ dir → ∀ n, L'.owns (.user d n) = G.owns (.user d n)

section Steps

variable {s : State} {m' : Machine} {G : Layout} {L' : Ledger Owner ℕ} {dir p d n : ℕ}

theorem Local.uses_iff (h : Local s G m' L' dir) (u : Use) (n : ℕ) :
    ({ s with machine := m' } : State).Uses u n ↔ s.Uses u n := by
  cases u with
  | pcb p => rfl
  | pgdir p =>
    refine and_congr_right fun hp => ?_
    rw [(h.tasks p hp).1]
  | bitmap p =>
    refine and_congr_right fun hp => ?_
    rw [(h.tasks p hp).1, (h.tasks p hp).2]

theorem Local.dirOf_iff (h : Local s G m' L' dir) (hp : p ∈ s.threads) :
    DirOf m' (G.withLedger L') p d ↔ DirOf s.machine G p d := by
  unfold DirOf
  rw [(h.tasks p hp).1]
  cases hv : (s.machine.tasks p).pgdir with
  | none => rfl
  | some v =>
    dsimp only
    rw [withLedger_owns, h.uses (.pgdir p) _ ⟨hp, v, hv, rfl⟩]

/-- The address space of another task is as before. -/
theorem Local.userSpace (h : Local s G m' L' dir) (hs : Sound s G)
    (hc : Coherent m' (G.withLedger L')) (hp : p ∈ s.threads)
    (htask : (m'.tasks p).userprocVaddr = (s.machine.tasks p).userprocVaddr)
    (hdir : ∀ d, DirOf s.machine G p d → d ∈ G.spaces → d ≠ dir)
    (hu : UserSpace s.machine G p) : UserSpace m' (G.withLedger L') p := by
  obtain ⟨d, hd, htrack, hsize⟩ := hu
  refine ⟨d, (h.dirOf_iff hp).mpr hd, ?_, by rwa [htask, (h.tasks p hp).1]⟩
  have heq (n : ℕ) : L'.owns (.user d n) = G.owns (.user d n) := by
    by_cases hspace : d ∈ G.spaces
    · exact h.others d (hdir d hd hspace) n
    · rw [hs.coherent.user_none_of_notMem hspace]
      exact hc.user_none_of_notMem hspace n
  rw [htask]
  exact (show Tracked _ (Owner.ofPage .user d) _ from htrack).other heq

/-- A call that changes the bitmaps of the kernel and of the running task along with the ledger. -/
theorem Sound.call (hs : Sound s G) (h : Local s G m' L' s.machine.cr3)
    (ha : Addressed .univ m' (G.withLedger L')) (hcr3 : m'.cr3 = s.machine.cr3)
    (htasks : ∀ p ∈ s.threads, p ≠ s.machine.running →
      (m'.tasks p).userprocVaddr = (s.machine.tasks p).userprocVaddr)
    (hrun : (m'.tasks s.machine.running).userprocVaddr.vaddrStart =
        (s.machine.tasks s.machine.running).userprocVaddr.vaddrStart ∧
      (m'.tasks s.machine.running).userprocVaddr.vaddrBitmap.btmpBytesLen =
        (s.machine.tasks s.machine.running).userprocVaddr.vaddrBitmap.btmpBytesLen) :
    Sound { s with machine := m' } (G.withLedger L') where
  coherent := ha.coherent
  held := ha.held
  kernel := ha.tracked .kernel trivial
  kernelBase := ha.kernelBase
  kernelPages := ha.kernelPages
  running_mem := by
    rw [h.running]
    exact hs.running_mem
  running_notMem := by
    rw [h.running]
    exact hs.running_notMem
  hanging_sub := hs.hanging_sub
  cr3 := by
    rw [h.running, hcr3]
    exact (h.dirOf_iff hs.running_mem).mpr hs.cr3
  dir := fun p hp => by
    obtain ⟨d, hd, hdir⟩ := hs.dir p hp
    exact ⟨d, hd, (h.dirOf_iff hp).mpr hdir⟩
  user := fun p hp hh => by
    by_cases hpr : p = s.machine.running
    · subst hpr
      obtain ⟨d, hd, -, hsize⟩ := hs.user _ hp hh
      obtain rfl := hs.cr3.unique hd
      have htrack := ha.tracked .user trivial
      rw [hcr3] at htrack
      unfold Machine.vaddrs at htrack
      rw [h.running] at htrack
      refine ⟨_, (h.dirOf_iff hp).mpr hd, htrack, ?_⟩
      rw [hrun.1, hrun.2, (h.tasks _ hp).1]
      exact hsize
    · refine h.userSpace hs ha.coherent hp (htasks p hp hpr) ?_ (hs.user p hp hh)
      rintro d hd hspace rfl
      have hproc : (s.machine.tasks p).pgdir ≠ none := by
        intro hnone
        unfold DirOf at hd
        rw [hnone] at hd
        rw [hd] at hspace
        exact hs.coherent.encoded.kernelDir_notMem hspace
      exact hpr (hs.dir_inj hp hs.running_mem hproc hd hs.cr3)
  dirs := fun d hd hne => by
    obtain ⟨p, hp, hproc, hdir⟩ := hs.dirs d hd hne
    exact ⟨p, hp, by rwa [(h.tasks p hp).1], (h.dirOf_iff hp).mpr hdir⟩
  closed := fun p hp hproc d hd => by
    have hmem := hs.hanging_sub hp
    rw [(h.tasks p hmem).1] at hproc
    exact hs.closed p hp hproc d ((h.dirOf_iff hmem).mp hd)
  owned := fun u n hu => by
    rw [h.uses_iff] at hu
    rw [withLedger_owns, h.uses u n hu]
    exact hs.owned u n hu
  uses_inj := fun u u' n hu hu' => by
    rw [h.uses_iff] at hu hu'
    exact hs.uses_inj u u' n hu hu'
  aligned := fun p hp => by
    rw [(h.tasks p hp).2]
    exact hs.aligned p hp
  bare := fun p hp hnone => by
    rw [(h.tasks p hp).1] at hnone
    by_cases hpr : p = s.machine.running
    · subst hpr
      rw [hrun.2]
      exact hs.bare _ hp hnone
    · rw [htasks p hp hpr]
      exact hs.bare p hp hnone

end Steps

section Pages

variable {s : State} {m m' : Machine} {G : Layout} {pf : PoolFlags} {n cnt : ℕ}

/-- Replacing a bitmap of virtual pages changes nothing else of a task. -/
theorem setVaddrs_task (m : Machine) (pf : PoolFlags) (btmp : Bitmap) (p : ℕ) :
    ((m.setVaddrs pf btmp).tasks p).pgdir = (m.tasks p).pgdir ∧
    ((m.setVaddrs pf btmp).tasks p).userprocVaddr.bits = (m.tasks p).userprocVaddr.bits ∧
    ((m.setVaddrs pf btmp).tasks p).userprocVaddr.vaddrStart =
      (m.tasks p).userprocVaddr.vaddrStart ∧
    (p ≠ m.running →
      ((m.setVaddrs pf btmp).tasks p).userprocVaddr = (m.tasks p).userprocVaddr) := by
  cases pf with
  | kernel => exact ⟨rfl, rfl, rfl, fun _ => rfl⟩
  | user =>
    by_cases hp : p = m.running
    · subst hp
      simp [Machine.setVaddrs, Machine.setTask]
    · simp [Machine.setVaddrs, Machine.setTask, hp]

theorem setVaddrs_running_len (m : Machine) (pf : PoolFlags) {btmp : Bitmap}
    (hlen : btmp.btmpBytesLen = (m.vaddrs pf).vaddrBitmap.btmpBytesLen) :
    ((m.setVaddrs pf btmp).tasks m.running).userprocVaddr.vaddrBitmap.btmpBytesLen =
      (m.tasks m.running).userprocVaddr.vaddrBitmap.btmpBytesLen := by
  cases pf with
  | kernel => rfl
  | user => simpa [Machine.setVaddrs, Machine.setTask, Machine.vaddrs] using hlen

/-- A call that changes one bitmap of virtual pages, the tables and the pools. -/
theorem Sound.resized (hs : Sound s G) {btmp : Bitmap} {L' : Ledger Owner ℕ}
    (hlen : btmp.btmpBytesLen = (s.machine.vaddrs pf).vaddrBitmap.btmpBytesLen)
    (hsame : SameTasks (s.machine.setVaddrs pf btmp) m') (ha : Addressed .univ m' (G.withLedger L'))
    (huses : ∀ u n, s.Uses u n → L'.owns (.kernel n) = G.owns (.kernel n))
    (hothers : ∀ d, d ≠ s.machine.cr3 → ∀ n, L'.owns (.user d n) = G.owns (.user d n)) :
    Sound { s with machine := m' } (G.withLedger L') := by
  have htask := setVaddrs_task s.machine pf btmp
  apply hs.call ⟨?_, ?_, huses, hothers⟩ ha
  · rw [hsame.cr3, setVaddrs_cr3]
  · intro p _ hp
    rw [hsame.tasks]
    exact (htask p).2.2.2 hp
  · rw [hsame.tasks]
    exact ⟨(htask _).2.2.1, setVaddrs_running_len _ _ hlen⟩
  · rw [hsame.running, setVaddrs_running]
  · intro p _
    rw [hsame.tasks]
    exact ⟨(htask p).1, (htask p).2.1⟩

/-- The pages of a run that grew belong to the address space or to the shared heap. -/
theorem Grown.others {dir d : ℕ} {L L' : Ledger Owner ℕ} (h : Grown dir L L' (pages pf dir n cnt))
    (hd : d ≠ dir) (n' : ℕ) : L'.owns (.user d n') = L.owns (.user d n') := by
  apply h.kept _ _ (by simp)
  rintro ⟨i, -, heq⟩
  cases pf <;> cases heq
  exact hd rfl

/-- What somebody owns already does not grow. -/
theorem Shrunk.others {dir d : ℕ} {L L' : Ledger Owner ℕ} (h : Shrunk L L' (pages pf dir n cnt))
    (hd : d ≠ dir) (n' : ℕ) : L'.owns (.user d n') = L.owns (.user d n') := by
  apply h.kept
  rintro ⟨i, -, heq⟩
  cases pf <;> cases heq
  exact hd rfl

/-- A run of pages of the running task has frames now, and its bits are set. -/
theorem Sound.grow (hs : Sound s G) {i : ℕ} {L' : Ledger Owner ℕ}
    (hsame : SameTasks (s.machine.setVaddrs pf
      (setBits (s.machine.vaddrs pf).vaddrBitmap i true cnt)) m')
    (hc : Coherent m' (G.withLedger L'))
    (hg : Grown s.machine.cr3 G.ledger L'
      (pages pf s.machine.cr3 ((s.machine.vaddrs pf).base + i) cnt)) :
    Sound { s with machine := m' } (G.withLedger L') := by
  apply hs.resized (setBits_len ..) hsame (hs.addressed.grow trivial hsame hc hg)
  · intro u n hu
    obtain ⟨f, hf⟩ := hs.owned u n hu
    exact hg.of_owned hf (by simp)
  · exact fun d hd n => hg.others hd n

/-- `malloc_page` keeps the invariant; what was in use is still owned as before. -/
theorem Sound.mallocPage (hs : Sound s G)
    (hproc : pf = .user → (s.machine.tasks s.machine.running).pgdir ≠ none) {r : Option ℕ}
    (hmal : mallocPage s.machine pf cnt = .ok (r, m')) :
    (r = none ∧ m' = s.machine) ∨
    ∃ i L', r = some (((s.machine.vaddrs pf).base + i) * 4096) ∧ 0 < cnt ∧
      Sound { s with machine := m' } (G.withLedger L') ∧
      Grown s.machine.cr3 G.ledger L'
        (pages pf s.machine.cr3 ((s.machine.vaddrs pf).base + i) cnt) ∧
      SameTasks (s.machine.setVaddrs pf
        (setBits (s.machine.vaddrs pf).vaddrBitmap i true cnt)) m' ∧ Kept G s.machine m' := by
  obtain h | ⟨i, L', rfl, hcnt, -, ha, hg, hsame, hk⟩ := mallocPage_addressed hs.addressed trivial
    (fun hpf => (hs.cr3_cases.resolve_left fun h => hproc hpf h.1).2) hmal
  · exact .inl h
  exact .inr ⟨i, L', rfl, hcnt, hs.grow hsame ha.coherent hg, hg, hsame, hk⟩

/-- `mfree_page` of mapped pages that no task is kept in keeps the invariant. -/
theorem Sound.mfreePage (hs : Sound s G) (hcnt : 0 < cnt)
    (hrun : ∀ i < cnt, ∃ f, G.owns (Owner.ofPage pf s.machine.cr3 (n + i)) = some f)
    (huses : pf = .kernel → ∀ i < cnt, ∀ u, ¬ s.Uses u (n + i)) :
    ∃ m' L', mfreePage s.machine pf (n * 4096) cnt = .ok m' ∧
      Sound { s with machine := m' } (G.withLedger L') ∧
      Shrunk G.ledger L' (pages pf s.machine.cr3 n cnt) ∧
      SameTasks (s.machine.setVaddrs pf
        (setBits (s.machine.vaddrs pf).vaddrBitmap (n - (s.machine.vaddrs pf).base) false cnt)) m' ∧
      Untouched G s.machine m' := by
  obtain ⟨m', L', hfree, ha, hsh, hsame, hu⟩ := mfreePage_addressed hs.addressed trivial hcnt (by
    intro i hi
    obtain ⟨f, hf⟩ := hrun i hi
    refine ⟨f, hf, ?_⟩
    cases pf with
    | kernel => exact hs.not_dir (huses rfl i hi) hf
    | user => exact hs.coherent.user_not_dir hf)
  refine ⟨m', L', hfree, hs.resized (setBits_len ..) hsame ha ?_ ?_, hsh, hsame, hu⟩
  · intro u n' hu
    apply hsh.kept
    rintro ⟨i, hi, heq⟩
    cases pf with
    | kernel =>
      obtain rfl : n' = n + i := by simpa [Owner.ofPage] using heq
      exact huses rfl i hi u hu
    | user => cases heq
  · exact fun d hd n => hsh.others hd n

end Pages

end X86System.Memory
