import X86System.ForkCalls
import X86System.MallocPages
import X86System.MemoryPools
import X86System.SpaceExits

/-!
# All calls, in any order

The loader and `mem_pool_init` set up what the invariant of the address spaces says,
and every call of every task keeps it. So in every reachable state the directories,
the pools and the bitmaps agree on which frame stands behind which page.
-/
namespace X86System.Memory
open Exec Paging

section Start

variable {ram : Ram} {after : ℕ → UInt8} {allMem : ℕ}

/-- Nothing is owned yet, and the only directory is the kernel's. -/
def bootLayout : Layout where
  ledger := ⟨fun _ => none, fun h => by cases h⟩
  dirs := {kernelDir}
  spaces := ∅

@[simp] theorem bootLayout_owns (o : Owner) : bootLayout.owns o = none := rfl

theorem createPte_apply (ram : Ram) (cnt f i : ℕ) : createPte ram cnt f i =
    if f = 0x101 ∧ i < cnt then entry i else ram f i := by
  induction cnt with
  | zero => simp [createPte]
  | succ cnt ih =>
    rw [createPte, poke]
    by_cases hi : f = 0x101 ∧ i = cnt
    · rw [if_pos hi, if_pos ⟨hi.1, by omega⟩, hi.2]
    · rw [if_neg hi, ih]
      by_cases hlt : f = 0x101 ∧ i < cnt
      · rw [if_pos hlt, if_pos ⟨hlt.1, by omega⟩]
      · rw [if_neg hlt, if_neg (by omega)]

theorem createKernelPde_apply (ram : Ram) (cnt f i : ℕ) : createKernelPde ram cnt f i =
    if f = kernelDir ∧ 769 ≤ i ∧ i < 769 + cnt then entry (0x102 + (i - 769)) else ram f i := by
  induction cnt with
  | zero =>
    rw [createKernelPde, if_neg (by omega)]
  | succ cnt ih =>
    rw [createKernelPde, poke]
    by_cases hi : f = kernelDir ∧ i = 769 + cnt
    · rw [if_pos hi, if_pos ⟨hi.1, by omega⟩, hi.2, Nat.add_sub_cancel_left]
    · rw [if_neg hi, ih]
      by_cases hlt : f = kernelDir ∧ 769 ≤ i ∧ i < 769 + cnt
      · rw [if_pos hlt, if_pos ⟨hlt.1, by omega⟩]
      · rw [if_neg hlt, if_neg (by omega)]

/-- The words of the frames that the loader sets up. -/
theorem setupPage_apply (ram : Ram) (f i : ℕ) : setupPage ram f i =
    if f = kernelDir then
      if 769 ≤ i ∧ i < 1023 then entry (0x102 + (i - 769))
      else if i = 1023 then entry kernelDir
      else if i = 768 ∨ i = 0 then entry 0x101 else 0
    else if f = 0x101 ∧ i < 256 then entry i else ram f i := by
  unfold setupPage
  rw [createKernelPde_apply, createPte_apply]
  by_cases hf : f = kernelDir
  · subst hf
    rw [if_neg (show ¬ (kernelDir = 0x101 ∧ i < 256) by unfold kernelDir; omega)]
    simp only [true_and, poke, wipe_self, if_true]
    split_ifs <;> first | rfl | omega
  · have hne : ∀ e w r, poke r kernelDir e w f i = r f i := fun e w r => poke_of_frame_ne hf i
    simp only [hf, false_and, if_false, hne, wipe_of_ne hf]

theorem setupPage_kernelDir (ram : Ram) {e : ℕ} (h : 768 ≤ e) (h' : e < 1023) :
    setupPage ram kernelDir e = entry (kernelTable e) := by
  rw [setupPage_apply, if_pos rfl]
  unfold kernelTable
  by_cases he : 769 ≤ e
  · rw [if_pos ⟨he, h'⟩, show 0x102 + (e - 769) = 0x101 + (e - 768) by omega]
  · obtain rfl : e = 768 := by omega
    rw [if_neg (by omega), if_neg (by omega), if_pos (.inl rfl)]

/-- The tables of the loader map the first megabyte of the kernel half and nothing else. -/
theorem setupPage_kernelTable (hram : ∀ f, 0x101 ≤ f → f < 0x200 → ∀ i, ram f i = 0) {e : ℕ}
    (h : 768 ≤ e) (h' : e < 1023) (i : ℕ) : setupPage ram (kernelTable e) i =
      if e = 768 ∧ i < 256 then entry i else 0 := by
  have hk := kernelTable_bounds h h'
  rw [setupPage_apply, if_neg (by unfold kernelDir; omega), hram _ (by omega) hk.2]
  apply if_congr (and_congr_left fun _ => ?_) rfl rfl
  unfold kernelTable
  omega

theorem encoded_boot (hram : ∀ f, 0x101 ≤ f → f < 0x200 → ∀ i, ram f i = 0) :
    Encoded (setupPage ram) bootLayout where
  kernelDir_mem := rfl
  kernelDir_notMem := fun h => h
  spaces_subset := fun _ h => h.elim
  dirOwned := fun _ hd => .inl hd
  kernelHalf := by
    rintro d rfl e h1 h2
    exact setupPage_kernelDir ram h1 h2
  selfMapped := by
    rintro d rfl
    rw [SelfMapped, setupPage_apply, if_pos rfl, if_neg (by omega), if_pos rfl]
  kernelLow := by
    rw [setupPage_apply, if_pos rfl, if_neg (by omega), if_neg (by omega), if_pos (.inr rfl)]
    rfl
  kernelBare := fun e h1 h2 => by
    rw [setupPage_apply, if_pos rfl, if_neg (by omega), if_neg (by omega), if_neg (by omega)]
    exact not_present_zero
  lowMapped := fun i hi => by
    rw [setupPage_kernelTable hram (by norm_num) (by norm_num), if_pos ⟨rfl, hi⟩]
  kernelPage := fun _ _ h => by cases h
  tableEntry := fun _ _ _ h => by cases h
  noTable := fun _ hd => hd.elim
  userPage := fun _ _ _ h => by cases h
  noUserPage := fun _ _ _ h => by cases h
  vacant := fun n hn _ => by
    rw [setupPage_kernelTable hram hn.index.1 hn.index.2, if_neg]
    · exact not_present_zero
    · unfold HeapPage at hn
      omega

/-- A new bitmap has no bit set. -/
theorem bitmapInit_test (btmp : Bitmap) {i : ℕ} (hi : i < 8 * btmp.btmpBytesLen) :
    bitmapScanTest (bitmapInit btmp) i = false := by
  have hbyte : (bitmapInit btmp).bits (i / 8) = 0 := if_pos (by omega)
  rw [bitmapScanTest, hbyte]
  simp

theorem marked_boot : Marked (memPoolInit ram after allMem).pools bootLayout.ledger := by
  have hlt : allFreePages allMem < 2 ^ 16 := Nat.mod_lt _ (by norm_num)
  obtain ⟨⟨hks, hkl⟩, hus, hul⟩ := @memPoolInit_sizes ram after allMem _ rfl
  refine ⟨?_, ?_, ?_, ?_, ?_, fun o f h => by cases h⟩
  · intro pf
    cases pf <;> omega
  · rw [Pool.base, hks]
  · rw [Pool.base, Pool.base, Pool.frames, hks, hkl, hus]
    omega
  · rw [Pool.base, Pool.frames, hus, hul]
    omega
  · intro pf i hi
    have hclear : bitmapScanTest ((memPoolInit ram after allMem).pools pf).poolBitmap i = false := by
      cases pf <;> exact bitmapInit_test _ hi
    rw [hclear]
    simp [bootLayout]

/-- What the loader and `mem_pool_init` leave satisfies the invariant. -/
theorem sound_boot (hram : ∀ f, 0x101 ≤ f → f < 0x200 → ∀ i, ram f i = 0) :
    Sound ⟨memPoolInit (setupPage ram) after allMem, {mainThread}, ∅⟩ bootLayout := by
  have hlt : allFreePages allMem < 2 ^ 16 := Nat.mod_lt _ (by norm_num)
  obtain ⟨⟨-, hkl⟩, -⟩ := @memPoolInit_sizes ram after allMem _ rfl
  have hpages : (memPoolInit (setupPage ram) after allMem).kernelVaddr.pages ≤ 8 * 4095 := by
    change 8 * ((memPoolInit ram after allMem).pools .kernel).poolBitmap.btmpBytesLen ≤ _
    omega
  have hstart : (memPoolInit (setupPage ram) after allMem).kernelVaddr.vaddrStart = 0xc0100000 := rfl
  have htask (p : ℕ) : (memPoolInit (setupPage ram) after allMem).tasks p = emptyTask := rfl
  have hempty (va : VirtualAddr) (page : ℕ → Owner) (ha : va.vaddrStart % 4096 = 0)
      (hclear : ∀ i < va.pages, bitmapScanTest va.vaddrBitmap i = false) :
      Tracked va page bootLayout.ledger :=
    ⟨ha, fun _ h => absurd rfl h, fun i hi hset => by rw [hclear i hi] at hset; cases hset⟩
  exact {
    coherent := ⟨marked_boot, encoded_boot hram⟩
    held := fun _ => rfl
    kernel := hempty _ _ (by rw [hstart]) fun i hi => bitmapInit_test _ hi
    kernelBase := by rw [VirtualAddr.base, hstart]
    kernelPages := hpages
    running_mem := Finset.mem_singleton_self _
    running_notMem := Finset.notMem_empty _
    hanging_sub := Finset.empty_subset _
    cr3 := rfl
    dir := fun _ _ => ⟨kernelDir, rfl, rfl⟩
    user := fun p _ _ => by
      refine ⟨kernelDir, rfl, hempty _ _ rfl fun i hi => ?_, fun h => absurd rfl h⟩
      rw [htask] at hi
      exact absurd hi (Nat.not_lt_zero i)
    dirs := fun d hd hne => absurd hd hne
    closed := fun _ hq => absurd hq (Finset.notMem_empty _)
    owned := fun u n hu => by
      cases u with
      | pcb p => exact absurd (Finset.mem_singleton.mp hu.1) hu.2.1
      | pgdir p =>
        obtain ⟨-, v, hv, -⟩ := hu
        cases hv
      | bitmap p => exact absurd rfl hu.2.2.1
    uses_inj := fun u u' n hu => by
      cases u with
      | pcb p => exact absurd (Finset.mem_singleton.mp hu.1) hu.2.1
      | pgdir p =>
        obtain ⟨-, v, hv, -⟩ := hu
        cases hv
      | bitmap p => exact absurd rfl hu.2.2.1
    aligned := fun p hp => by
      obtain rfl := Finset.mem_singleton.mp hp
      exact ⟨rfl, fun _ => rfl⟩
    bare := fun _ _ _ => rfl }

end Start

section Runs

variable {s t : State} {call : MemoryCall} {G : Layout}

/-- `sys_execv` writes the name only. -/
theorem Sound.rename (hs : Sound s G) (name : List UInt8) :
    Sound { s with machine := s.machine.rename name } G := by
  refine hs.respace ⟨_, s.machine.pidBitmap, rfl⟩ fun q _ => ?_
  unfold Machine.rename Machine.setTask
  by_cases hq : q = s.machine.running
  · subst hq
    simp
  · simp [hq]

/-- A mapped page is owned, where the allocator hands pages out. -/
theorem Sound.owns_of_mapped (hs : Sound s G) {pf : PoolFlags} {n : ℕ}
    (hkernel : pf = .kernel → HeapPage n) (huser : pf = .user → 0x8048 ≤ n ∧ n < 0xc0000)
    (hwalk : walk s.machine.ram s.machine.cr3 (n * 4096) ≠ none) :
    ∃ f, G.owns (Owner.ofPage pf s.machine.cr3 n) = some f := by
  have hc := hs.coherent
  apply Option.ne_none_iff_exists'.mp
  intro hnone
  apply hwalk
  cases pf with
  | kernel =>
    have hn := hkernel rfl
    rw [walk_eq_none, dirIndex_page, tableIndex_page,
      (hc.kernel_pde hs.cr3_mem hn.index.1 hn.index.2).2]
    exact fun hp => hc.encoded.vacant n hn hnone hp.2
  | user =>
    obtain ⟨hlo, hhi⟩ := huser rfl
    rw [walk_eq_none, dirIndex_page, tableIndex_page]
    rintro ⟨hpde, hpte⟩
    obtain ⟨-, hk⟩ | ⟨-, hspace⟩ := hs.cr3_cases
    · rw [hk] at hpde
      exact hc.encoded.kernelBare _ (by omega) (by omega) hpde
    · obtain ⟨t, ht, hframe⟩ := hc.user_pde hspace hhi hpde
      rw [hframe] at hpte
      exact hc.encoded.noUserPage _ n t ht hnone hpte

theorem Sound.owns_of_freeable (hs : Sound s G) {pf : PoolFlags} {n : ℕ} (h : s.Freeable pf n) :
    ∃ f, G.owns (Owner.ofPage pf s.machine.cr3 n) = some f := by
  cases pf with
  | kernel => exact hs.owns_of_mapped (fun _ => ⟨h.1, h.2.1⟩) (by simp) h.2.2.1
  | user => exact hs.owns_of_mapped (by simp) (fun _ => ⟨h.1, h.2.1⟩) h.2.2

/-- Freeing pages that may be freed. -/
theorem Sound.mfreePage_freeable (hs : Sound s G) {pf : PoolFlags} {vaddr cnt : ℕ} {m : Machine}
    (hfreeable : ∀ i < cnt, s.Freeable pf (vaddr / 4096 + i))
    (hfree : Memory.mfreePage s.machine pf vaddr cnt = .ok m) :
    ∃ L', Sound { s with machine := m } (G.withLedger L') ∧
      Shrunk G.ledger L' (pages pf s.machine.cr3 (vaddr / 4096) cnt) ∧
      SameTasks (s.machine.setVaddrs pf (setBits (s.machine.vaddrs pf).vaddrBitmap
        (vaddr / 4096 - (s.machine.vaddrs pf).base) false cnt)) m := by
  obtain ⟨hcnt, halign⟩ : cnt ≥ 1 ∧ vaddr % pgSize = 0 := by
    unfold Memory.mfreePage at hfree
    exact (of_ensure_eq_ok hfree).1
  have hpage : vaddr / 4096 * 4096 = vaddr := by
    unfold pgSize at halign
    omega
  obtain ⟨m', L', hfree', hs', hsh, hsame, -⟩ := @Sound.mfreePage s G pf (vaddr / 4096) cnt hs hcnt
    (fun i hi => hs.owns_of_freeable (hfreeable i hi))
    (by
      rintro rfl i hi
      exact (hfreeable i hi).2.2.2)
  rw [hpage] at hfree'
  obtain rfl := Except.ok.inj (hfree.symm.trans hfree')
  exact ⟨L', hs', hsh, hsame⟩

/-- Every call keeps the invariant. -/
theorem Sound.step (hs : Sound s G) (h : Step s call t) : ∃ G', Sound t G' := by
  cases h with
  | mallocPage hproc hmal =>
    obtain ⟨-, rfl⟩ | ⟨i, L', -, -, hs', -⟩ := hs.mallocPage hproc hmal
    · exact ⟨G, hs⟩
    · exact ⟨_, hs'⟩
  | mfreePage hfreeable hfree =>
    obtain ⟨L', hs', -⟩ := hs.mfreePage_freeable hfreeable hfree
    exact ⟨_, hs'⟩
  | getAPage halign hlo hhi hget =>
    obtain ⟨L', hs'⟩ := hs.getAPage halign hlo hhi hget
    exact ⟨_, hs'⟩
  | store hv hwalk hdir hstore => exact ⟨G, hs.store hv hwalk hdir hstore⟩
  | threadStart hstart => exact hs.threadStart hstart
  | processExecute hexec => exact hs.processExecute hexec
  | sysExecv hname => exact ⟨G, hs.rename _⟩
  | sysFork hfork =>
    obtain ⟨hr, -⟩ | ⟨p, d, G', hr, hs', -⟩ := hs.sysFork hfork
    · cases hr
    · obtain rfl := Option.some.inj hr
      exact ⟨G', hs'⟩
  | sysForkFails hfork =>
    obtain ⟨-, G', hs'⟩ | ⟨p, d, G', hr, -⟩ := hs.sysFork hfork
    · exact ⟨G', hs'⟩
    · cases hr
  | schedule hnext hlive hswitch => exact ⟨G, hs.schedule hnext hlive hswitch⟩
  | sysExit hrel hnext hlive hne hswitch => exact hs.sysExit hrel hnext hlive hne hswitch
  | sysWait hhang hchild hexit => exact hs.sysWait hchild hhang hexit

/-- In every reachable state directories, pools and bitmaps agree. -/
theorem memoryCalls_sound (h : memoryCalls.Reachable s) : ∃ G, Sound s G := by
  obtain ⟨s₀, calls, hstart, hrun⟩ := h
  induction hrun with
  | nil =>
    obtain ⟨ram, after, allMem, hram, rfl⟩ := hstart
    exact ⟨bootLayout, sound_boot hram⟩
  | snoc _ hstep ih =>
    obtain ⟨G, hs⟩ := ih
    exact hs.step hstep

/-- The bitmap of the running task: of length 0 in a kernel thread, up to the kernel half else. -/
theorem Sound.running_bitmap (hs : Sound s G) : (s.machine.vaddrs .user).vaddrBitmap.free = ∅ ∨
    s.machine.cr3 ∈ G.spaces ∧
      (s.machine.vaddrs .user).base + (s.machine.vaddrs .user).pages = 0xc0000 := by
  obtain ⟨hnone, -⟩ | ⟨hproc, hspace⟩ := hs.cr3_cases
  · left
    have hlen : (s.machine.vaddrs .user).vaddrBitmap.btmpBytesLen = 0 :=
      hs.bare _ hs.running_mem hnone
    rw [Bitmap.free, hlen]
    rfl
  · right
    obtain ⟨d, -, -, hsize⟩ := hs.user _ hs.running_mem hs.running_notMem
    obtain ⟨-, hstart, hlen⟩ := hsize hproc
    refine ⟨hspace, ?_⟩
    have := userSpace_end
    simpa only [Machine.vaddrs, VirtualAddr.base, VirtualAddr.pages, hstart, hlen]

/-- In a reachable state `malloc_page` is all or nothing exactly where it is provided for. -/
theorem malloc_page_all_or_nothing_iff (h : memoryCalls.Reachable s) {pf : PoolFlags} {cnt : ℕ}
    (hcnt : 0 < cnt ∧ cnt < 3840) :
    AllOrNothing s.machine pf cnt ↔ Provided s.machine pf cnt := by
  obtain ⟨G, hs⟩ := memoryCalls_sound h
  exact hs.addressed.allOrNothing_iff trivial hcnt fun _ => hs.running_bitmap

/-- The machine with 4 MB after power on. -/
def boot4M : State :=
  ⟨memPoolInit (setupPage fun _ _ => 0) (fun _ => 0) 0x400000, {mainThread}, ∅⟩

theorem boot4M_reachable : memoryCalls.Reachable boot4M :=
  ⟨boot4M, [], ⟨_, _, _, fun _ _ _ _ => rfl, rfl⟩, .nil⟩

/-- The first page of the kernel heap. -/
theorem malloc_page_all_or_nothing_boot :
    AllOrNothing boot4M.machine .kernel 1 ↔ Provided boot4M.machine .kernel 1 :=
  malloc_page_all_or_nothing_iff boot4M_reachable (by norm_num)

/-- One page more than the pool has: the scan reads on behind the bitmap and sees a run. -/
theorem malloc_page_not_all_or_nothing :
    memoryCalls.Reachable boot4M ∧ ¬ AllOrNothing boot4M.machine .kernel 257 := by
  refine ⟨boot4M_reachable, fun h => ?_⟩
  have hs : Sound boot4M bootLayout := sound_boot fun _ _ _ _ => rfl
  have hlen : (boot4M.machine.vaddrs .kernel).vaddrBitmap.btmpBytesLen = 32 := by decide
  have hbyte (k : ℕ) : (boot4M.machine.vaddrs .kernel).vaddrBitmap.bits k = 0 := ite_self 0
  have hseen : 0 ∈ (boot4M.machine.vaddrs .kernel).vaddrBitmap.Seen 257 := by
    refine ⟨fun j _ _ => ?_, by rw [hlen]⟩
    rw [bitmapScanTest, hbyte]
    simp
  obtain ⟨-, hempty | ⟨i, hleast, hend, -⟩⟩ :=
    (hs.addressed.allOrNothing_iff trivial (by norm_num) (by simp)).mp h
  · rw [hempty] at hseen
    exact hseen
  · have := hleast.2 hseen
    rw [VirtualAddr.pages, hlen] at hend
    omega

end Runs

end X86System.Memory
