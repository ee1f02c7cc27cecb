import X86System.Directories
import X86System.SpaceInvariant

/-!
# Calls that keep the invariant of all address spaces

Writing to memory, mapping one user page, taking zeroed pages of the kernel heap and
making a page directory out of one of them.
-/
namespace X86System.Memory
open Exec Paging

section Calls

variable {s : State} {m m' : Machine} {G : Layout} {n cnt : ℕ}

/-- Writing words that are no entries. -/
theorem Sound.setRam (hs : Sound s G) {ram : Ram}
    (heq : ∀ g, Structural G g → ∀ i, ram g i = s.machine.ram g i) :
    Sound { s with machine := s.machine.setRam ram } G :=
  ⟨hs.coherent.setRam heq, hs.held, hs.kernel, hs.kernelBase, hs.kernelPages, hs.running_mem,
    hs.running_notMem, hs.hanging_sub, hs.cr3, hs.dir, hs.user, hs.dirs, hs.closed, hs.owned,
    hs.uses_inj, hs.aligned, hs.bare⟩

/-- An entry of a kernel table points to the first megabyte or to a page of the heap. -/
theorem Coherent.kernel_entry (hc : Coherent m G) {e j : ℕ} (he : 768 ≤ e) (he' : e < 1023)
    (hj : j < 1024) (hpte : present (m.ram (kernelTable e) j)) :
    frame (m.ram (kernelTable e) j) < 0x100 ∨
      ∃ n, G.owns (.kernel n) = some (frame (m.ram (kernelTable e) j)) := by
  have hdiv : (e * 1024 + j) / 1024 = e := by omega
  have hmod : (e * 1024 + j) % 1024 = j := by omega
  by_cases hheap : HeapPage (e * 1024 + j)
  · cases ho : G.owns (.kernel (e * 1024 + j)) with
    | none =>
      have := hc.encoded.vacant _ hheap ho
      rw [hdiv, hmod] at this
      exact absurd hpte this
    | some f =>
      have hr := (hc.encoded.kernelPage _ f ho).2
      rw [hdiv, hmod] at hr
      rw [hr, frame_entry]
      exact .inr ⟨_, ho⟩
  · unfold HeapPage at hheap
    obtain rfl : e = 768 := by omega
    rw [hc.encoded.lowMapped _ (by omega), frame_entry]
    exact .inl (by omega)

/-- An entry of a table of the user half points to the frame of its page. -/
theorem Coherent.user_entry (hc : Coherent m G) {d e j : ℕ} (hd : d ∈ G.spaces) (he : e < 768)
    (hj : j < 1024) (hp : present (m.ram d e)) (hpte : present (m.ram (frame (m.ram d e)) j)) :
    G.owns (.user d (e * 1024 + j)) = some (frame (m.ram (frame (m.ram d e)) j)) := by
  have hdiv : (e * 1024 + j) / 1024 = e := by omega
  have hmod : (e * 1024 + j) % 1024 = j := by omega
  cases htab : G.owns (.table d e) with
  | none => exact absurd hp (hc.encoded.noTable _ hd _ he htab)
  | some t =>
    rw [(hc.encoded.tableEntry _ _ _ htab).2.2, frame_entry] at hpte ⊢
    cases ho : G.owns (.user d (e * 1024 + j)) with
    | none =>
      have := hc.encoded.noUserPage d _ t (by rw [hdiv]; exact htab) ho
      rw [hmod] at this
      exact absurd hpte this
    | some f =>
      obtain ⟨t', ht', hr⟩ := hc.encoded.userPage _ _ f ho
      rw [hdiv] at ht'
      obtain rfl := Option.some.inj (htab.symm.trans ht')
      rw [hmod] at hr
      rw [hr, frame_entry]

/-- What a mapped address below the window reaches: the first megabyte or an owned frame. -/
theorem Coherent.walk_cases (hc : Coherent m G) (hcr3 : m.cr3 = kernelDir ∨ m.cr3 ∈ G.spaces)
    {vaddr f i : ℕ} (hv : vaddr < 0xffc00000) (hwalk : walk m.ram m.cr3 vaddr = some (f, i)) :
    f < 0x100 ∨ (∃ n, G.owns (.kernel n) = some f) ∨ ∃ d n, G.owns (.user d n) = some f := by
  obtain ⟨hp, ht, rfl, -⟩ := walk_eq_some hwalk
  have hmem : m.cr3 ∈ G.dirs := by
    obtain h | h := hcr3
    · rw [h]
      exact hc.encoded.kernelDir_mem
    · exact hc.encoded.spaces_subset h
  have hidx := tableIndex_lt vaddr
  have hlt : dirIndex vaddr < 1023 := by
    unfold dirIndex
    omega
  by_cases he : 768 ≤ dirIndex vaddr
  · rw [hc.encoded.kernelHalf _ hmem _ he hlt, frame_entry] at ht ⊢
    exact (hc.kernel_entry he hlt hidx ht).imp_right .inl
  · obtain hk | hspace := hcr3
    · rw [hk] at hp ht ⊢
      by_cases h0 : dirIndex vaddr = 0
      · rw [h0, hc.encoded.kernelLow, frame_entry] at ht ⊢
        exact (hc.kernel_entry (by norm_num) (by norm_num) hidx ht).imp_right .inl
      · exact absurd hp (hc.encoded.kernelBare _ (by omega) (by omega))
    · exact .inr (.inr ⟨_, _, hc.user_entry hspace (by omega) hidx hp ht⟩)

/-- The user half of an address space shows the pages that it owns. -/
theorem Coherent.walk_user (hc : Coherent m G) {d : ℕ} (hd : d ∈ G.spaces) (hn : n < 0xc0000) :
    walk m.ram d (n * 4096) = (G.owns (.user d n)).map (·, 0) := by
  have hdir := dirIndex_page n
  have hidx := tableIndex_page n
  cases ho : G.owns (.user d n) with
  | none =>
    rw [Option.map_none, walk_eq_none, hdir, hidx]
    rintro ⟨hp, ht⟩
    have := hc.user_entry hd (by omega) (by omega) hp ht
    rw [show n / 1024 * 1024 + n % 1024 = n by omega, ho] at this
    cases this
  | some f =>
    exact @Coherent.walk_page_start { m with cr3 := d } G .user n f ⟨hc.marked, hc.encoded⟩
      (hc.encoded.spaces_subset hd) ho

/-- No address of another address space reaches the frame of a user page. -/
theorem Coherent.walk_apart (hc : Coherent m G) {d d' v f i : ℕ} (hd : d ∈ G.spaces)
    (hv : v < 2 ^ 32) (hwalk : walk m.ram d v = some (f, i)) (hf : G.owns (.user d' n) = some f) :
    d' = d := by
  obtain ⟨hp, ht, rfl, -⟩ := walk_eq_some hwalk
  have hmem := hc.encoded.spaces_subset hd
  have hge := hc.marked.kernel_ge hf
  have hidx := tableIndex_lt v
  have hkernel (e : ℕ) (he : 768 ≤ e) (he' : e < 1023)
      (hpe : present (m.ram (kernelTable e) (tableIndex v)))
      (hfe : G.owns (.user d' n) = some (frame (m.ram (kernelTable e) (tableIndex v)))) : False := by
    obtain h | ⟨x, hx⟩ := hc.kernel_entry he he' hidx hpe
    · have := hc.marked.kernel_ge hfe
      omega
    · cases G.ledger.inj hx hfe
  by_cases he : dirIndex v < 768
  · have := G.ledger.inj hf (hc.user_entry hd he hidx hp ht)
    simp only [Owner.user.injEq] at this
    exact this.1
  by_cases he' : dirIndex v < 1023
  · rw [hc.encoded.kernelHalf _ hmem _ (by omega) he', frame_entry] at ht hf
    exact (hkernel _ (by omega) he' ht hf).elim
  -- the window shows tables and the directory
  have hlast : dirIndex v = 1023 := by
    have := dirIndex_lt hv
    omega
  rw [hlast, hc.encoded.selfMapped _ hmem, frame_entry] at ht hf
  by_cases hu : tableIndex v < 768
  · cases htab : G.owns (.table d (tableIndex v)) with
    | none => exact absurd ht (hc.encoded.noTable _ hd _ hu htab)
    | some t =>
      rw [(hc.encoded.tableEntry _ _ _ htab).2.2, frame_entry] at hf
      cases G.ledger.inj htab hf
  by_cases hk : tableIndex v < 1023
  · rw [hc.encoded.kernelHalf _ hmem _ (by omega) hk, frame_entry] at hf
    have hb := kernelTable_bounds (e := tableIndex v) (by omega) hk
    have := hc.marked.kernel_ge hf
    omega
  · rw [show tableIndex v = 1023 by omega, hc.encoded.selfMapped _ hmem, frame_entry] at hf
    exact (hc.user_not_dir hf hmem).elim

/-- The page directory of a process is mapped at its address. -/
theorem Sound.walk_pgdir (hs : Sound s G) {p v d : ℕ} (hv : (s.machine.tasks p).pgdir = some v)
    (hd : DirOf s.machine G p d) : walk s.machine.ram s.machine.cr3 v = some (d, 0) := by
  unfold DirOf at hd
  rw [hv] at hd
  have hpage : v = v / 4096 * 4096 := by omega
  rw [hpage]
  exact @Coherent.walk_page_start s.machine G .kernel _ _ hs.coherent hs.cr3_mem hd.2

/-- Writing a word that is no entry. -/
theorem Sound.store (hs : Sound s G) {vaddr w f i : ℕ} (hv : vaddr < 0xffc00000)
    (hwalk : walk s.machine.ram s.machine.cr3 vaddr = some (f, i))
    (hdir : ∀ p ∈ s.threads, ∀ v, (s.machine.tasks p).pgdir = some v →
      walk s.machine.ram s.machine.cr3 v ≠ some (f, 0))
    (hstore : s.machine.store vaddr w = .ok m') : Sound { s with machine := m' } G := by
  rw [Machine.store, hwalk] at hstore
  obtain rfl := Except.ok.inj hstore
  apply hs.setRam
  intro g hg j
  apply poke_of_frame_ne
  rintro rfl
  obtain hlow | ho := hs.coherent.walk_cases (hs.cr3_cases.imp And.right And.right) hv hwalk
  · obtain h1 | h1 | ⟨d, e, h1⟩ := hg
    · obtain rfl | h2 := hs.coherent.encoded.dir_ge hs.coherent.marked h1
      · unfold kernelDir at hlow
        omega
      · omega
    · omega
    · have := hs.coherent.marked.kernel_ge h1
      omega
  · have hnot : g ∉ G.dirs := by
      intro hmem
      have hge : 0x200 ≤ g := by
        obtain ⟨n, hn⟩ | ⟨d, n, hn⟩ := ho
        · exact hs.coherent.marked.kernel_ge hn
        · exact hs.coherent.marked.kernel_ge hn
      obtain ⟨p, hp, hproc, hd⟩ := hs.dirs g hmem (by unfold kernelDir; omega)
      obtain ⟨v, hpv⟩ := Option.ne_none_iff_exists'.mp hproc
      exact hdir p hp v hpv (hs.walk_pgdir hpv hd)
    obtain ⟨n, hn⟩ | ⟨d, n, hn⟩ := ho
    · exact hs.coherent.not_structural hn hnot (by simp) hg
    · exact hs.coherent.not_structural hn hnot (by simp) hg

/-- One page, as a run. -/
theorem pages_one (pf : PoolFlags) (dir n : ℕ) : pages pf dir n 1 = {Owner.ofPage pf dir n} := by
  ext o
  constructor
  · rintro ⟨i, hi, rfl⟩
    obtain rfl : i = 0 := by omega
    rfl
  · rintro rfl
    exact ⟨0, by norm_num, rfl⟩

/-- For a process `get_a_page` sets the bit of the page and maps it. -/
theorem getAPage_user {vaddr pgdir : ℕ} (hproc : (m.tasks m.running).pgdir = some pgdir) :
    getAPage m .user vaddr =
      ensure .assert (sub32 vaddr (m.vaddrs .user).vaddrStart / pgSize > 0) >>= fun _ =>
        getAPageWithoutOpvaddrbitmap (m.setVaddrs .user (setBits (m.vaddrs .user).vaddrBitmap
          (sub32 vaddr (m.vaddrs .user).vaddrStart / pgSize) true 1)) .user vaddr := by
  unfold getAPage getAPageWithoutOpvaddrbitmap Machine.setVaddrs Machine.vaddrs
  simp only [hproc, setBits]
  by_cases hidx : sub32 vaddr (m.tasks m.running).userprocVaddr.vaddrStart / pgSize > 0
  · rw [ensure_of hidx, ok_bind, ok_bind, pure_eq_ok, ok_bind]
    rfl
  · rw [ensure_of_not hidx]
    rfl

/-- `get_a_page_without_opvaddrbitmap` maps one user page of the directory in use. -/
theorem getAPageWithoutOpvaddrbitmap_coherent (hc : Coherent m G) (hspace : m.cr3 ∈ G.spaces)
    (hheld : G.owns (.held .user) = none) (hn : n ≤ 0xc0000) {r : Option ℕ}
    (h : getAPageWithoutOpvaddrbitmap m .user (n * 4096) = .ok (r, m')) :
    ∃ L', Coherent m' (G.withLedger L') ∧ SameTasks m m' ∧
      Grown m.cr3 G.ledger L' (pages .user m.cr3 n 1) ∧ Kept G m m' := by
  unfold getAPageWithoutOpvaddrbitmap at h
  cases hpm : pmalloc (m.pools .user) with
  | error e =>
    rw [hpm] at h
    cases h
  | ok q =>
    obtain ⟨x, pool⟩ := q
    obtain ⟨a, rfl, hstep⟩ := mapPage_coherent hc (hc.encoded.spaces_subset hspace) hheld
      (show Mappable G m.cr3 .user n from ⟨hspace, hn⟩) hpm
    rw [hpm, ok_bind] at h
    dsimp only at h
    cases hadd : pageTableAdd (m.setPool .user pool) (n * 4096) a with
    | error e =>
      rw [hadd] at h
      cases h
    | ok m₁ =>
      obtain ⟨L', hc', hs, hg, hk⟩ := hstep m₁ hadd
      rw [hadd] at h
      obtain ⟨-, rfl⟩ : some _ = r ∧ m₁ = m' := by simpa using h
      exact ⟨L', hc', hs, by rwa [pages_one], hk⟩

/-- `get_a_page` of a process keeps the invariant. -/
theorem Sound.getAPage (hs : Sound s G) {vaddr : ℕ} {r : Option ℕ} (halign : vaddr % 4096 = 0)
    (hlo : userVaddrStart ≤ vaddr) (hhi : vaddr < 0xc0000000)
    (h : getAPage s.machine .user vaddr = .ok (r, m')) :
    ∃ L', Sound { s with machine := m' } (G.withLedger L') := by
  obtain ⟨d, hd, htrack, hsize⟩ := hs.user _ hs.running_mem hs.running_notMem
  obtain rfl := hs.cr3.unique hd
  by_cases hproc : (s.machine.tasks s.machine.running).pgdir = none
  · unfold Memory.getAPage at h
    simp only [hproc] at h
    cases h
  obtain ⟨hspace, hstart, -⟩ := hsize hproc
  obtain ⟨v, hv⟩ := Option.ne_none_iff_exists'.mp hproc
  rw [getAPage_user hv] at h
  have hva : (s.machine.vaddrs .user).vaddrStart = userVaddrStart := hstart
  have hbase : (s.machine.vaddrs .user).base = 0x8048 := by
    unfold VirtualAddr.base
    rw [hva]
    rfl
  have hidx : sub32 vaddr (s.machine.vaddrs .user).vaddrStart / pgSize = vaddr / 4096 - 0x8048 := by
    rw [hva, sub32_eq hlo (by omega)]
    unfold userVaddrStart pgSize
    omega
  by_cases hpos : sub32 vaddr (s.machine.vaddrs .user).vaddrStart / pgSize > 0
  swap
  · rw [ensure_of_not hpos] at h
    cases h
  rw [ensure_of hpos, ok_bind, hidx] at h
  have hrun : (s.machine.vaddrs .user).base + (vaddr / 4096 - 0x8048) = vaddr / 4096 := by
    rw [hbase]
    unfold userVaddrStart at hlo
    omega
  obtain ⟨n, rfl⟩ : ∃ n, vaddr = n * 4096 := ⟨vaddr / 4096, by omega⟩
  rw [Nat.mul_div_cancel _ (by norm_num)] at h hrun
  obtain ⟨L', hc', hsame, hg, -⟩ := getAPageWithoutOpvaddrbitmap_coherent
    (hs.addressed.setVaddrs_coherent _) (by simpa using hspace) (hs.held _) (by omega) h
  rw [setVaddrs_cr3, ← hrun] at hg
  exact ⟨L', hs.grow hsame hc' hg⟩

/-- What `get_kernel_pages` leaves alone. -/
structure KernelOnly (m m' : Machine) : Prop where
  cr3 : m'.cr3 = m.cr3
  pidBitmap : m'.pidBitmap = m.pidBitmap
  tasks : m'.tasks = m.tasks
  running : m'.running = m.running

theorem KernelOnly.refl (m : Machine) : KernelOnly m m := ⟨rfl, rfl, rfl, rfl⟩

/-- Zeroed pages of the kernel heap, taken by the code that asked for them. -/
structure Fresh (s : State) (G : Layout) (m' : Machine) (L' : Ledger Owner ℕ) (n cnt : ℕ) : Prop where
  sound : Sound { s with machine := m' } (G.withLedger L')
  only : KernelOnly s.machine m'
  grown : Grown s.machine.cr3 G.ledger L' (pages .kernel s.machine.cr3 n cnt)
  zero : ∀ i < cnt, ∀ f, L'.owns (.kernel (n + i)) = some f → ∀ j, m'.ram f j = 0
  kept : Kept G s.machine m'

/-- No task is kept in a page that was not owned. -/
theorem Sound.not_uses (hs : Sound s G) (hn : G.owns (.kernel n) = none) (u : Use) :
    ¬ s.Uses u n := by
  intro hu
  obtain ⟨f, hf⟩ := hs.owned u n hu
  rw [hn] at hf
  cases hf

/-- What tasks are kept in depends on their directories and bitmaps only. -/
theorem uses_of_spaces (h : ∀ q ∈ s.threads, (m'.tasks q).pgdir = (s.machine.tasks q).pgdir ∧
    (m'.tasks q).userprocVaddr = (s.machine.tasks q).userprocVaddr) (u : Use) (n : ℕ) :
    ({ s with machine := m' } : State).Uses u n ↔ s.Uses u n := by
  cases u with
  | pcb q => rfl
  | pgdir q => exact and_congr_right fun hq => by rw [(h q hq).1]
  | bitmap q => exact and_congr_right fun hq => by rw [(h q hq).1, (h q hq).2]

theorem uses_of_tasks (h : ∀ q ∈ s.threads, m'.tasks q = s.machine.tasks q) (u : Use) (n : ℕ) :
    ({ s with machine := m' } : State).Uses u n ↔ s.Uses u n :=
  uses_of_spaces (fun q hq => by
    rw [h q hq]
    exact ⟨rfl, rfl⟩) u n

/-- `get_kernel_pages` clears the pages that it got. -/
theorem Sound.clearRun (hs : Sound s G) {v : ℕ} {m₁ : Machine}
    (hmal : Memory.mallocPage s.machine .kernel cnt = .ok (some v, m₁)) :
    ∃ n L' ram, v = n * 4096 ∧ 0 < cnt ∧
      Memory.getKernelPages s.machine cnt = .ok (some v, m₁.setRam ram) ∧
      Fresh s G (m₁.setRam ram) L' n cnt := by
  obtain ⟨hr, -⟩ | ⟨i, L', hr, hcnt, hs₁, hg, hsame, hk⟩ := hs.mallocPage (by simp) hmal
  · cases hr
  obtain rfl := Option.some.inj hr
  generalize (s.machine.vaddrs .kernel).base + i = n at hmal hg
  have hrun (i : ℕ) (hi : i < cnt) : ∃ f, L'.owns (.kernel (n + i)) = some f ∧ f ∉ G.dirs := by
    have hmem : Owner.ofPage .kernel s.machine.cr3 (n + i) ∈
        pages .kernel s.machine.cr3 n cnt := mem_pages.mpr ⟨by omega, by omega⟩
    obtain ⟨hnone, f, hf⟩ := hg.new _ hmem
    refine ⟨f, hf, hs₁.not_dir (fun u => ?_) hf⟩
    rw [uses_of_tasks fun q _ => congrFun hsame.tasks q]
    exact hs.not_uses hnone u
  obtain ⟨ram, hclear, hkept, hzero⟩ := hs₁.coherent.clearPages hs₁.cr3_mem hrun
  change m₁.clearPages (n * 4096) cnt = _ at hclear
  refine ⟨n, L', ram, rfl, hcnt, ?_, hs₁.setRam ?_, ⟨?_, ?_, ?_, ?_⟩, hg, hzero, ?_⟩
  · unfold Memory.getKernelPages
    rw [hmal, ok_bind]
    dsimp only
    rw [hclear]
    rfl
  · intro g hg' j
    change ram g j = m₁.ram g j
    have hram : ram g = m₁.ram g := by
      apply hkept
      intro i hi ho
      obtain ⟨f, hf, hdir⟩ := hrun i hi
      obtain rfl : g = f := Option.some.inj (ho.symm.trans hf)
      exact hs₁.coherent.not_structural ho hdir (by simp) hg'
    rw [hram]
  · exact hsame.cr3
  · exact hsame.pidBitmap
  · exact hsame.tasks
  · exact hsame.running
  · intro o g ho hnot
    rw [← hk o g ho hnot]
    apply hkept
    intro i hi ho'
    obtain rfl := L'.inj (hg.owned ho) ho'
    have hnone := (hg.new (.kernel (n + i)) ⟨i, hi, rfl⟩).1
    rw [Layout.owns, hnone] at ho
    cases ho

/-- `get_kernel_pages` keeps the invariant. -/
theorem Sound.getKernelPages (hs : Sound s G) {r : Option ℕ}
    (h : getKernelPages s.machine cnt = .ok (r, m')) :
    (r = none ∧ m' = s.machine) ∨
    ∃ n L', r = some (n * 4096) ∧ 0 < cnt ∧ Fresh s G m' L' n cnt := by
  have hrun := h
  unfold Memory.getKernelPages at hrun
  obtain ⟨⟨r', m₁⟩, hmal, hrest⟩ := of_bind_eq_ok hrun
  cases r' with
  | none =>
    obtain ⟨rfl, rfl⟩ := Prod.mk.inj (Except.ok.inj hrest)
    obtain ⟨-, rfl⟩ | ⟨_, _, hr, -⟩ := hs.mallocPage (by simp) hmal
    · exact .inl ⟨rfl, rfl⟩
    · cases hr
  | some v =>
    obtain ⟨n, L', ram, rfl, hcnt, hget, hf⟩ := hs.clearRun hmal
    obtain ⟨rfl, rfl⟩ := Prod.mk.inj (Except.ok.inj (h.symm.trans hget))
    exact .inr ⟨n, L', rfl, hcnt, hf⟩

/-- One page of the kernel heap is never refused. -/
theorem getKernelPages_ne_none {r : Option ℕ} (h : getKernelPages m 1 = .ok (r, m')) :
    r ≠ none := by
  unfold getKernelPages at h
  obtain ⟨⟨v, m₁⟩, hmal, h⟩ := of_bind_eq_ok h
  cases v with
  | none => exact absurd rfl (mallocPage_none hmal).2
  | some v =>
    obtain ⟨m₂, -, h⟩ := of_bind_eq_ok h
    obtain ⟨rfl, -⟩ := Prod.mk.inj (Except.ok.inj h)
    exact Option.some_ne_none _

theorem createPageDir_ne_none {r : Option ℕ} (h : createPageDir m = .ok (r, m')) : r ≠ none := by
  unfold createPageDir at h
  obtain ⟨⟨v, m₁⟩, hget, h⟩ := of_bind_eq_ok h
  cases v with
  | none => exact absurd rfl (getKernelPages_ne_none hget)
  | some v =>
    obtain ⟨m₂, -, h⟩ := of_bind_eq_ok h
    obtain ⟨a, -, h⟩ := of_bind_eq_ok h
    obtain ⟨m₃, -, h⟩ := of_bind_eq_ok h
    obtain ⟨rfl, -⟩ := Prod.mk.inj (Except.ok.inj h)
    exact Option.some_ne_none _

/-- A new page directory: a page of the heap that shows the kernel half and itself. -/
structure NewDir (s : State) (G : Layout) (m' : Machine) (L' : Ledger Owner ℕ) (n d : ℕ) : Prop where
  coherent : Coherent m' ((G.withLedger L').addDir d)
  sound : Sound { s with machine := m' } (G.withLedger L')
  only : KernelOnly s.machine m'
  grown : Grown s.machine.cr3 G.ledger L' (pages .kernel s.machine.cr3 n 1)
  dir : L'.owns (.kernel n) = some d
  notMem : d ∉ G.dirs
  kept : Kept G s.machine m'

/-- `create_page_dir` once it has its page: the kernel half is the one of the directory in use. -/
theorem Fresh.newDir (hs : Sound s G) {L' : Ledger Owner ℕ} {m₁ : Machine}
    (hf : Fresh s G m₁ L' n 1) (hget : Memory.getKernelPages s.machine 1 = .ok (some (n * 4096), m₁)) :
    ∃ d ram, Memory.createPageDir s.machine = .ok (some (n * 4096), m₁.setRam ram) ∧
      NewDir s G (m₁.setRam ram) L' n d := by
  unfold Memory.createPageDir
  rw [hget, ok_bind]
  dsimp only
  have hc := hf.sound.coherent
  have hcr3 := hf.sound.cr3_mem
  change Coherent m₁ (G.withLedger L') at hc
  change m₁.cr3 ∈ G.dirs at hcr3
  obtain ⟨hnone, d, hd⟩ := hf.grown.new (.kernel n) ⟨0, by norm_num, rfl⟩
  have hnot : d ∉ G.dirs := by
    refine hf.sound.not_dir (fun u => ?_) hd
    rw [uses_of_tasks fun q _ => congrFun hf.only.tasks q]
    exact hs.not_uses hnone u
  have hstruct := hc.not_structural hd hnot (by simp)
  have hne : m₁.cr3 ≠ d := by
    rintro rfl
    exact hnot hcr3
  -- whatever is written to the new frame, the entries in use stay as they are
  have hstable (ram : Ram) (hram : ∀ g, g ≠ d → ram g = m₁.ram g) :
      Coherent (m₁.setRam ram) (G.withLedger L') := by
    apply hc.setRam
    intro g hg i
    rw [hram g]
    rintro rfl
    exact hstruct hg
  have hcopy := @memcpy_eq m₁ 256 (n * 4096 + 0x300 * 4) (0xfffff000 + 0x300 * 4) d m₁.cr3 768 768
    hne
    (by
      intro ram hram j hj
      rw [show n * 4096 + 0x300 * 4 + j * 4 = n * 4096 + (768 + j) * 4 by omega]
      exact @Coherent.walk_page _ _ .kernel n d (hstable ram hram) hcr3 hd (768 + j) (by omega))
    (by
      intro ram hram j hj
      rw [show 0xfffff000 + 0x300 * 4 + j * 4 = 0xfffff000 + (768 + j) * 4 by omega]
      exact ((hstable ram hram).encoded.selfMapped _ hcr3).walk_dir (by omega))
  rw [hcopy, ok_bind]
  generalize hram₂ : (fun g j => if g = d ∧ 768 ≤ j ∧ j < 768 + 256
    then m₁.ram m₁.cr3 (768 + (j - 768)) else m₁.ram g j) = ram₂
  have hother (g : ℕ) (hg : g ≠ d) : ram₂ g = m₁.ram g := by
    rw [← hram₂]
    funext j
    exact if_neg (by simp [hg])
  have hc₂ := hstable ram₂ hother
  have haddr := @Coherent.addrV2p_page _ _ .kernel n d hc₂ hcr3 hd
  have hlast := @Coherent.walk_page _ _ .kernel n d hc₂ hcr3 hd 1023 (by norm_num)
  rw [haddr, ok_bind, or_pgAttr, Machine.store, hlast]
  refine ⟨d, poke ram₂ d 1023 (entry d), rfl, ⟨hc.marked, ?_⟩, hf.sound.setRam ?_,
    ⟨hf.only.cr3, hf.only.pidBitmap, hf.only.tasks, hf.only.running⟩, hf.grown, hd, hnot, ?_⟩
  · apply hc.encoded.addDir hc.marked hd hnot
    · intro g hg
      funext j
      rw [setRam_ram, poke_of_frame_ne hg, hother g hg]
    · intro e he
      rw [setRam_ram, poke_of_word_ne (by omega), ← hram₂]
      dsimp only
      rw [if_neg (by omega)]
      exact hf.zero 0 (by norm_num) d hd e
    · intro e he he'
      rw [setRam_ram, poke_of_word_ne (by omega), ← hram₂]
      dsimp only
      rw [if_pos (by omega), show 768 + (e - 768) = e by omega]
      exact hc.encoded.kernelHalf _ hcr3 e he he'
    · exact poke_self ..
  · intro g hg i
    have hgd : g ≠ d := by
      rintro rfl
      exact hstruct hg
    rw [poke_of_frame_ne hgd, hother g hgd]
  · intro o g ho hs'
    have hgd : g ≠ d := by
      rintro rfl
      obtain rfl := L'.inj (hf.grown.owned ho) hd
      rw [Layout.owns, hnone] at ho
      cases ho
    funext i
    rw [setRam_ram, poke_of_frame_ne hgd, hother g hgd, hf.kept o g ho hs']

/-- `create_page_dir` makes a directory. -/
theorem Sound.createPageDir (hs : Sound s G) {r : Option ℕ}
    (h : createPageDir s.machine = .ok (r, m')) :
    ∃ n d L', r = some (n * 4096) ∧ NewDir s G m' L' n d := by
  have hrun := h
  unfold Memory.createPageDir at hrun
  obtain ⟨⟨r', m₁⟩, hget, -⟩ := of_bind_eq_ok hrun
  obtain ⟨rfl, -⟩ | ⟨n, L', rfl, -, hf⟩ := hs.getKernelPages hget
  · exact absurd rfl (getKernelPages_ne_none hget)
  obtain ⟨d, ram, hok, hd⟩ := hf.newDir hs hget
  obtain ⟨rfl, rfl⟩ := Prod.mk.inj (Except.ok.inj (h.symm.trans hok))
  exact ⟨n, d, L', rfl, hd⟩

end Calls

end X86System.Memory
