import X86System.PageRuns

/-!
# How many frames a run of pages takes

A page takes a frame of its pool, and a user page whose directory entry is empty takes
a frame of the kernel pool for the table as well. A run of pages is mapped if and only
if both pools have that many frames; one frame short, the scan trips its assertion.
-/
namespace X86System.Memory
open Exec Paging

/-- The frames of a pool that can be taken. -/
def Machine.room (m : Machine) (pf : PoolFlags) : ℕ := (m.pools pf).poolBitmap.free.card

/-- The directory entries that a run of pages needs and that point to no table. -/
def Machine.bare (m : Machine) (n cnt : ℕ) : Finset ℕ :=
  ((Finset.range cnt).image fun i => (n + i) / 1024).filter fun e =>
    ¬ present (m.ram m.cr3 e)

section Taking

variable {p p' : Pool} {m m' : Machine} {pf : PoolFlags} {i n v w : ℕ}

/-- A pool with a clear bit hands out a frame. -/
theorem pmalloc_of_free (ha : p.phyAddrStart % 4096 = 0) (h : p.poolBitmap.free.Nonempty) :
    ∃ i < p.frames, bitmapScanTest p.poolBitmap i = false ∧
      pmalloc p = .ok (some ((p.base + i) * 4096), p.mark i true) := by
  obtain ⟨i, hscan, -⟩ := bitmapScan_one_of_free h
  have hok : pmalloc p = .ok (some (i <<< 12 + p.phyAddrStart), p.mark i true) := by
    unfold pmalloc
    rw [hscan]
    rfl
  obtain ⟨j, hj, hclear, hr, hp⟩ := pmalloc_ok hok ha
  exact ⟨j, hj, hclear, by rw [hok, hr, hp]⟩

/-- A pool without a clear bit trips the assertion of the scan. -/
theorem pmalloc_of_full (h : p.poolBitmap.free = ∅) : pmalloc p = .error .assert := by
  unfold pmalloc
  rw [bitmapScan_one_of_full h]
  rfl

/-- Taking a frame leaves one frame less. -/
theorem card_free_mark (hi : i < p.frames) (hclear : bitmapScanTest p.poolBitmap i = false) :
    (p.mark i true).poolBitmap.free.card + 1 = p.poolBitmap.free.card := by
  have hmem : i ∈ p.poolBitmap.free := (Bitmap.mem_free _ _).mpr ⟨hi, hclear⟩
  change (bitmapSet p.poolBitmap i true).free.card + 1 = _
  rw [free_set_true, Finset.card_erase_add_one hmem]

/-- `page_table_add` in a table that is there. -/
theorem pageTableAdd_present (hself : SelfMapped m.ram m.cr3) (hv : v < 2 ^ 32)
    (hp : present (m.ram m.cr3 (dirIndex v)))
    (ht : ¬ present (m.ram (frame (m.ram m.cr3 (dirIndex v))) (tableIndex v))) :
    pageTableAdd m v w = .ok (m.setRam
      (poke m.ram (frame (m.ram m.cr3 (dirIndex v))) (tableIndex v) (w ||| pgAttr))) := by
  unfold pageTableAdd
  rw [load_pdePtr hself hv, ok_bind, if_pos (and_one_ne_zero.mpr hp), load_ptePtr hself hv hp,
    ok_bind, ensure_of (and_one_eq_zero.mpr ht), ok_bind, store_ptePtr hself hv hp]

/-- `page_table_add` takes a frame for the table that is missing. -/
theorem pageTableAdd_absent (hself : SelfMapped m.ram m.cr3) (hv : v < 0xffc00000)
    (hp : ¬ present (m.ram m.cr3 (dirIndex v))) {t : ℕ}
    (hpm : pmalloc (m.pools .kernel) = .ok (some (t * 4096), p)) (hne : t ≠ m.cr3) :
    pageTableAdd m v w = .ok ((m.setPool .kernel p).setRam
      (poke (wipe (poke m.ram m.cr3 (dirIndex v) (entry t)) t) t (tableIndex v) (w ||| pgAttr))) := by
  have hv32 : v < 2 ^ 32 := by omega
  have hd1 : dirIndex v ≠ 1023 := by
    unfold dirIndex
    omega
  have hself1 : SelfMapped (poke m.ram m.cr3 (dirIndex v) (entry t)) m.cr3 := by
    rw [SelfMapped, poke_of_word_ne hd1.symm, hself]
  have hself2 : SelfMapped (wipe (poke m.ram m.cr3 (dirIndex v) (entry t)) t) m.cr3 := by
    rw [SelfMapped, wipe_of_ne hne.symm, hself1]
  have hpde : wipe (poke m.ram m.cr3 (dirIndex v) (entry t)) t m.cr3 (dirIndex v) = entry t := by
    rw [wipe_of_ne hne.symm, poke_self]
  unfold pageTableAdd
  rw [load_pdePtr hself hv32, ok_bind, if_neg (by rwa [and_one_ne_zero]), hpm, ok_bind]
  dsimp only [Option.getD_some]
  rw [or_pgAttr, store_pdePtr (by exact hself) hv32, ok_bind,
    clearPages_ptePtr hself1 hv32 (by simp), ok_bind,
    load_ptePtr (by simpa using hself2) hv32 (by simp [hpde])]
  simp only [setRam_ram, setRam_cr3, setPool_ram, setPool_cr3, poke_self, frame_entry, hpde,
    wipe_self, ok_bind, setRam_setRam]
  rw [ensure_of (by decide), ok_bind, store_ptePtr hself2 hv32 (by simp [hpde])]
  simp [hpde]

/-- Without a frame for the table `page_table_add` does not return. -/
theorem pageTableAdd_full (hself : SelfMapped m.ram m.cr3) (hv : v < 2 ^ 32)
    (hp : ¬ present (m.ram m.cr3 (dirIndex v))) (hfull : (m.pools .kernel).poolBitmap.free = ∅) :
    pageTableAdd m v w = .error .assert := by
  unfold pageTableAdd
  rw [load_pdePtr hself hv, ok_bind, if_neg (by rwa [and_one_ne_zero]), pmalloc_of_full hfull,
    error_bind]

end Taking

section Runs

variable {m m₁ : Machine} {G : Layout} {pf : PoolFlags} {n cnt : ℕ}

@[simp] theorem mem_bare {e : ℕ} : e ∈ m.bare n cnt ↔
    (∃ i < cnt, (n + i) / 1024 = e) ∧ ¬ present (m.ram m.cr3 e) := by
  simp [Machine.bare]

/-- A page that can be mapped and is not. -/
structure Wanted (G : Layout) (dir : ℕ) (pf : PoolFlags) (n : ℕ) : Prop where
  mappable : Mappable G dir pf n
  low : pf = .user → n < 0xc0000
  free : G.owns (Owner.ofPage pf dir n) = none

theorem Wanted.lt {dir : ℕ} (h : Wanted G dir pf n) : n < 0xffc00 := by
  cases pf with
  | kernel => exact h.mappable.2
  | user => exact (h.low rfl).trans (by norm_num)

/-- The table of a wanted page is no directory. -/
theorem Coherent.table_notMem (h : Coherent m G) (hcr3 : m.cr3 ∈ G.dirs)
    (hn : Wanted G m.cr3 pf n) (hp : present (m.ram m.cr3 (n / 1024))) :
    frame (m.ram m.cr3 (n / 1024)) ∉ G.dirs := by
  cases pf with
  | kernel =>
    obtain ⟨h1, h2⟩ := HeapPage.index hn.mappable
    rw [(h.kernel_pde hcr3 h1 h2).2]
    exact fun hmem => h.encoded.dir_ne_kernelTable h.marked hmem h1 h2 rfl
  | user =>
    obtain ⟨t, ht, hframe⟩ := h.user_pde hn.mappable.1 (hn.low rfl) hp
    rw [hframe]
    exact h.encoded.table_notMem h.marked ht

/-- A wanted page has no entry in its table. -/
theorem Coherent.not_present (h : Coherent m G) (hcr3 : m.cr3 ∈ G.dirs)
    (hn : Wanted G m.cr3 pf n) (hp : present (m.ram m.cr3 (n / 1024))) :
    ¬ present (m.ram (frame (m.ram m.cr3 (n / 1024))) (n % 1024)) := by
  cases pf with
  | kernel =>
    obtain ⟨h1, h2⟩ := HeapPage.index hn.mappable
    rw [(h.kernel_pde hcr3 h1 h2).2]
    exact h.encoded.vacant n hn.mappable hn.free
  | user =>
    obtain ⟨t, ht, hframe⟩ := h.user_pde hn.mappable.1 (hn.low rfl) hp
    rw [hframe]
    exact h.encoded.noUserPage _ _ _ ht hn.free

/-- The kernel half has all its tables. -/
theorem Coherent.bare_kernel (h : Coherent m G) (hcr3 : m.cr3 ∈ G.dirs)
    (hn : ∀ i < cnt, HeapPage (n + i)) : m.bare n cnt = ∅ := by
  ext e
  simp only [mem_bare, Finset.notMem_empty, iff_false, not_and, not_not]
  rintro ⟨i, hi, rfl⟩
  exact (h.kernel_pde hcr3 (hn i hi).index.1 (hn i hi).index.2).1

/-- What mapping one page takes from the pools and does to the directory. -/
structure Supplied (m m₁ : Machine) (pf : PoolFlags) (n : ℕ) : Prop where
  pde : present (m₁.ram m.cr3 (n / 1024))
  others : ∀ e, e ≠ n / 1024 → m₁.ram m.cr3 e = m.ram m.cr3 e
  room : m₁.room pf + 1 = m.room pf
  kernel : pf = .user → m₁.room .kernel + (m.bare n 1).card = m.room .kernel
  user : pf = .kernel → m₁.room .user = m.room .user

theorem bare_one (hp : ¬ present (m.ram m.cr3 (n / 1024))) : m.bare n 1 = {n / 1024} := by
  ext e
  simp only [mem_bare, Finset.mem_singleton]
  constructor
  · rintro ⟨⟨i, hi, rfl⟩, -⟩
    obtain rfl : i = 0 := by omega
    rfl
  · rintro rfl
    exact ⟨⟨0, by norm_num, rfl⟩, hp⟩

theorem bare_one_of_present (hp : present (m.ram m.cr3 (n / 1024))) : m.bare n 1 = ∅ := by
  ext e
  simp only [mem_bare, Finset.notMem_empty, iff_false, not_and, not_not]
  rintro ⟨i, hi, rfl⟩
  obtain rfl : i = 0 := by omega
  exact hp

/-- One round of `malloc_page` returns if and only if there are frames for the page and for a
table that is missing. -/
theorem mapPage_runs_iff (h : Coherent m G) (hcr3 : m.cr3 ∈ G.dirs) (hn : Wanted G m.cr3 pf n) :
    (∃ a pool m₁, pmalloc (m.pools pf) = .ok (some a, pool) ∧
      pageTableAdd (m.setPool pf pool) (n * 4096) a = .ok m₁) ↔
    0 < m.room pf ∧ (m.bare n 1).card ≤ m.room .kernel := by
  have hself := h.encoded.selfMapped _ hcr3
  have hlt := hn.lt
  by_cases hroom : (m.pools pf).poolBitmap.free = ∅
  · have hzero : m.room pf = 0 := Finset.card_eq_zero.mpr hroom
    simp [pmalloc_of_full hroom, hzero]
  obtain ⟨i, hi, hclear, hpm⟩ :=
    pmalloc_of_free (h.marked.aligned pf) (Finset.nonempty_iff_ne_empty.mpr hroom)
  have hpos : 0 < m.room pf := Finset.card_pos.mpr (Finset.nonempty_iff_ne_empty.mpr hroom)
  simp only [hpm, Except.ok.injEq, Prod.mk.injEq, Option.some.injEq, hpos, true_and]
  by_cases hp : present (m.ram m.cr3 (n / 1024))
  · have hadd := @pageTableAdd_present (m.setPool pf ((m.pools pf).mark i true)) (n * 4096)
      (((m.pools pf).base + i) * 4096) hself (by omega) (by rwa [dirIndex_page])
      (by
        rw [dirIndex_page, tableIndex_page]
        exact h.not_present hcr3 hn hp)
    rw [bare_one_of_present hp, Finset.card_empty]
    exact ⟨fun _ => Nat.zero_le _, fun _ => ⟨_, _, _, ⟨rfl, rfl⟩, hadd⟩⟩
  rw [bare_one hp, Finset.card_singleton]
  cases pf with
  | kernel =>
    obtain ⟨h1, h2⟩ := HeapPage.index hn.mappable
    exact absurd (h.kernel_pde hcr3 h1 h2).1 hp
  | user =>
    have hpools : (m.setPool .user ((m.pools .user).mark i true)).pools .kernel =
        m.pools .kernel := by simp
    by_cases hfull : (m.pools .kernel).poolBitmap.free = ∅
    · have hzero : m.room .kernel = 0 := Finset.card_eq_zero.mpr hfull
      have hadd := @pageTableAdd_full (m.setPool .user ((m.pools .user).mark i true)) (n * 4096)
        (((m.pools .user).base + i) * 4096) hself (by omega) (by rwa [dirIndex_page])
        (by rwa [hpools])
      rw [hzero]
      constructor
      · rintro ⟨a, pool, m₁, ⟨rfl, rfl⟩, hok⟩
        rw [hadd] at hok
        cases hok
      · intro hle
        omega
    · obtain ⟨j, hj, hjclear, hpmk⟩ :=
        pmalloc_of_free (h.marked.aligned .kernel) (Finset.nonempty_iff_ne_empty.mpr hfull)
      rw [← hpools] at hpmk
      have hadd := @pageTableAdd_absent _ (m.setPool .user ((m.pools .user).mark i true))
        (n * 4096) (((m.pools .user).base + i) * 4096) hself (by omega) (by rwa [dirIndex_page]) _
        hpmk (by
          rw [hpools]
          exact h.free_ne_dir hcr3 hj hjclear)
      refine ⟨fun _ => ?_, fun _ => ⟨_, _, _, ⟨rfl, rfl⟩, hadd⟩⟩
      exact Finset.card_pos.mpr (Finset.nonempty_iff_ne_empty.mpr hfull)

/-- Mapping a page takes a frame for it and one for a table that is missing. -/
theorem mapPage_supplied (h : Coherent m G) (hcr3 : m.cr3 ∈ G.dirs) (hn : Wanted G m.cr3 pf n)
    {a : ℕ} {pool : Pool} (hpm : pmalloc (m.pools pf) = .ok (some a, pool))
    (hadd : pageTableAdd (m.setPool pf pool) (n * 4096) a = .ok m₁) : Supplied m m₁ pf n := by
  have hself := h.encoded.selfMapped _ hcr3
  have hlt := hn.lt
  obtain ⟨i, hi, hclear, ha, rfl⟩ := pmalloc_ok hpm (h.marked.aligned pf)
  obtain rfl := Option.some.inj ha
  have hcard := card_free_mark hi hclear
  by_cases hp : present (m.ram m.cr3 (n / 1024))
  · rw [@pageTableAdd_present (m.setPool pf ((m.pools pf).mark i true)) (n * 4096)
      (((m.pools pf).base + i) * 4096) hself (by omega) (by rwa [dirIndex_page])
      (by
        rw [dirIndex_page, tableIndex_page]
        exact h.not_present hcr3 hn hp)] at hadd
    obtain rfl := Except.ok.inj hadd
    have hne : m.cr3 ≠ frame (m.ram m.cr3 (n / 1024)) := by
      intro heq
      apply h.table_notMem hcr3 hn hp
      rwa [← heq]
    have hkept (e : ℕ) : poke m.ram (frame (m.ram m.cr3 (n / 1024))) (n % 1024)
        (((m.pools pf).base + i) * 4096 ||| pgAttr) m.cr3 e = m.ram m.cr3 e :=
      poke_of_frame_ne hne e
    simp only [dirIndex_page, tableIndex_page, setPool_ram, setPool_cr3]
    refine ⟨?_, fun e _ => hkept e, ?_, fun hpf => ?_, fun hpf => ?_⟩
    · rw [setRam_ram, hkept]
      exact hp
    · simpa [Machine.room] using hcard
    · subst hpf
      simp [Machine.room, bare_one_of_present hp]
    · subst hpf
      simp [Machine.room]
  cases pf with
  | kernel =>
    obtain ⟨h1, h2⟩ := HeapPage.index hn.mappable
    exact absurd (h.kernel_pde hcr3 h1 h2).1 hp
  | user =>
    have hpools : (m.setPool .user ((m.pools .user).mark i true)).pools .kernel =
        m.pools .kernel := by simp
    by_cases hfull : (m.pools .kernel).poolBitmap.free = ∅
    · rw [@pageTableAdd_full (m.setPool .user ((m.pools .user).mark i true)) (n * 4096)
        (((m.pools .user).base + i) * 4096) hself (by omega) (by rwa [dirIndex_page])
        (by rwa [hpools])] at hadd
      cases hadd
    obtain ⟨j, hj, hjclear, hpmk⟩ :=
      pmalloc_of_free (h.marked.aligned .kernel) (Finset.nonempty_iff_ne_empty.mpr hfull)
    have hne := h.free_ne_dir hcr3 hj hjclear
    rw [← hpools] at hpmk
    rw [@pageTableAdd_absent _ (m.setPool .user ((m.pools .user).mark i true))
      (n * 4096) (((m.pools .user).base + i) * 4096) hself (by omega) (by rwa [dirIndex_page]) _
      hpmk (by rwa [hpools])] at hadd
    obtain rfl := Except.ok.inj hadd
    have hcardk := card_free_mark hj hjclear
    simp only [dirIndex_page, tableIndex_page, setPool_ram, setPool_cr3, hpools]
    have hword (e : ℕ) : poke (wipe (poke m.ram m.cr3 (n / 1024)
        (entry ((m.pools .kernel).base + j))) ((m.pools .kernel).base + j))
        ((m.pools .kernel).base + j) (n % 1024) (((m.pools .user).base + i) * 4096 ||| pgAttr)
        m.cr3 e = if e = n / 1024 then entry ((m.pools .kernel).base + j) else m.ram m.cr3 e := by
      rw [poke_of_frame_ne hne.symm, wipe_of_ne hne.symm]
      simp [poke]
    refine ⟨?_, fun e he => ?_, ?_, fun _ => ?_, fun hpf => by cases hpf⟩
    · rw [setRam_ram, hword, if_pos rfl]
      exact present_entry _
    · rw [setRam_ram, hword, if_neg he]
    · simpa [Machine.room] using hcard
    · rw [bare_one hp, Finset.card_singleton]
      simpa [Machine.room] using hcardk

/-- The tables of a run: that of its first page and those of the rest. -/
theorem card_bare_succ (hs : Supplied m m₁ pf n) (hcr3 : m₁.cr3 = m.cr3) :
    (m.bare n (cnt + 1)).card = (m.bare n 1).card + (m₁.bare (n + 1) cnt).card := by
  have hdisj : Disjoint (m.bare n 1) (m₁.bare (n + 1) cnt) := by
    rw [Finset.disjoint_left]
    intro e he he'
    obtain ⟨⟨i, hi, rfl⟩, -⟩ := mem_bare.mp he
    obtain rfl : i = 0 := by omega
    rw [mem_bare, hcr3] at he'
    exact he'.2 hs.pde
  have hunion : m.bare n (cnt + 1) = m.bare n 1 ∪ m₁.bare (n + 1) cnt := by
    ext e
    simp only [Finset.mem_union, mem_bare, hcr3]
    constructor
    · rintro ⟨⟨i, hi, hie⟩, hp⟩
      by_cases he : e = n / 1024
      · exact .inl ⟨⟨0, by norm_num, he.symm⟩, hp⟩
      · refine .inr ⟨⟨i - 1, ?_, ?_⟩, by rwa [hs.others e he]⟩
        all_goals
          have : i ≠ 0 := by
            rintro rfl
            exact he hie.symm
          omega
    · rintro (⟨⟨i, hi, rfl⟩, hp⟩ | ⟨⟨i, hi, rfl⟩, hp⟩)
      · exact ⟨⟨i, by omega, rfl⟩, hp⟩
      · refine ⟨⟨i + 1, by omega, by congr 1; omega⟩, ?_⟩
        intro hpm
        apply hp
        by_cases he : (n + 1 + i) / 1024 = n / 1024
        · rw [he]
          exact hs.pde
        · rwa [hs.others _ he]
  rw [hunion, Finset.card_union_of_disjoint hdisj]

/-- After the first page of a run the rest of it is still wanted. -/
theorem mapPages_first (h : Coherent m G) (hcr3 : m.cr3 ∈ G.dirs)
    (hheld : G.owns (.held pf) = none) (hrun : ∀ i < cnt + 1, Wanted G m.cr3 pf (n + i)) {a : ℕ}
    {pool : Pool} (hpm : pmalloc (m.pools pf) = .ok (some a, pool))
    (hadd : pageTableAdd (m.setPool pf pool) (n * 4096) a = .ok m₁) :
    ∃ L₁, Coherent m₁ (G.withLedger L₁) ∧ m₁.cr3 = m.cr3 ∧ L₁.owns (.held pf) = none ∧
      (∀ i < cnt, Wanted (G.withLedger L₁) m₁.cr3 pf (n + 1 + i)) ∧ Supplied m m₁ pf n ∧
      mapPages pf (cnt + 1) (n * 4096) m = mapPages pf cnt ((n + 1) * 4096) m₁ := by
  have hfirst : Wanted G m.cr3 pf n := hrun 0 (by omega)
  have hnext : n * 4096 + pgSize = (n + 1) * 4096 := by
    unfold pgSize
    omega
  obtain ⟨a', ha', hcoh⟩ := mapPage_coherent h hcr3 hheld hfirst.mappable hpm
  obtain rfl := Option.some.inj ha'
  obtain ⟨L₁, hc₁, hsame, hg, -⟩ := hcoh m₁ hadd
  refine ⟨L₁, hc₁, hsame.cr3, ?_, ?_, mapPage_supplied h hcr3 hfirst hpm hadd, ?_⟩
  · rw [hg.kept _ (by cases pf <;> simp [Owner.ofPage]) (by simp)]
    exact hheld
  · intro i hi
    obtain ⟨h1, h2, h3⟩ := hrun (i + 1) (by omega)
    rw [hsame.cr3, show n + 1 + i = n + (i + 1) by omega]
    refine ⟨h1, h2, ?_⟩
    rw [withLedger_owns, hg.kept]
    · exact h3
    · intro heq
      have := ofPage_inj heq
      omega
    · cases pf <;> simp [Owner.ofPage]
  · conv_lhs => unfold mapPages
    rw [hpm, ok_bind]
    dsimp only
    rw [hadd, ok_bind, hnext]

/-- A run of pages is mapped if and only if there are enough frames. -/
theorem mapPages_runs_iff (h : Coherent m G) (hcr3 : m.cr3 ∈ G.dirs)
    (hheld : G.owns (.held pf) = none) (hrun : ∀ i < cnt, Wanted G m.cr3 pf (n + i)) :
    (∃ r, mapPages pf cnt (n * 4096) m = .ok r) ↔
      cnt ≤ m.room pf ∧ (m.bare n cnt).card ≤ m.room .kernel := by
  induction cnt generalizing n m G with
  | zero => simp [mapPages, Machine.bare]
  | succ cnt ih =>
    have hone := mapPage_runs_iff h hcr3 (hrun 0 (by omega))
    by_cases hstep : 0 < m.room pf ∧ (m.bare n 1).card ≤ m.room .kernel
    swap
    · constructor
      · rintro ⟨r, hr⟩
        unfold mapPages at hr
        obtain ⟨⟨r₁, pool⟩, hpm, hr⟩ := of_bind_eq_ok hr
        obtain ⟨i, -, -, rfl, -⟩ := pmalloc_ok hpm (h.marked.aligned pf)
        obtain ⟨m₁, hadd, -⟩ := of_bind_eq_ok hr
        exact absurd (hone.mp ⟨_, _, _, hpm, hadd⟩) hstep
      · rintro ⟨h1, h2⟩
        refine absurd ⟨by omega, le_trans (Finset.card_le_card ?_) h2⟩ hstep
        intro e he
        obtain ⟨⟨i, hi, rfl⟩, hp⟩ := mem_bare.mp he
        exact mem_bare.mpr ⟨⟨i, by omega, rfl⟩, hp⟩
    obtain ⟨a, pool, m₁, hpm, hadd⟩ := hone.mpr hstep
    obtain ⟨L₁, hc₁, hcr3₁, hheld₁, hrun₁, hs, hunfold⟩ :=
      mapPages_first h hcr3 hheld hrun hpm hadd
    have hrest := ih hc₁ (by rwa [hcr3₁]) hheld₁ hrun₁
    have hbare := @card_bare_succ m m₁ pf n cnt hs hcr3₁
    have hroom := hs.room
    rw [hunfold, hrest, hbare]
    cases pf with
    | kernel =>
      have hempty : m.bare n 1 = ∅ := h.bare_kernel hcr3 fun i hi => (hrun i (by omega)).mappable
      have hempty₁ : m₁.bare (n + 1) cnt = ∅ :=
        hc₁.bare_kernel (by rwa [hcr3₁]) fun i hi => (hrun₁ i hi).mappable
      rw [hempty, hempty₁, Finset.card_empty]
      omega
    | user =>
      have hkernel := hs.kernel rfl
      omega

/-- A run of kernel pages takes one frame for each page. -/
theorem mapPages_kernel_room (h : Coherent m G) (hcr3 : m.cr3 ∈ G.dirs)
    (hheld : G.owns (.held .kernel) = none) (hrun : ∀ i < cnt, Wanted G m.cr3 .kernel (n + i))
    {done : Bool} (hmap : mapPages .kernel cnt (n * 4096) m = .ok (done, m₁)) :
    m₁.room .kernel + cnt = m.room .kernel ∧ m₁.room .user = m.room .user := by
  induction cnt generalizing n m G with
  | zero =>
    obtain ⟨-, rfl⟩ : true = done ∧ m = m₁ := by simpa [mapPages] using hmap
    exact ⟨rfl, rfl⟩
  | succ cnt ih =>
    have hstep := (mapPages_runs_iff h hcr3 hheld hrun).mp ⟨_, hmap⟩
    have hbare : m.bare n 1 = ∅ := h.bare_kernel hcr3 fun i hi => (hrun i (by omega)).mappable
    obtain ⟨a, pool, m₂, hpm, hadd⟩ := (mapPage_runs_iff h hcr3 (hrun 0 (by omega))).mpr
      ⟨by omega, by simp [hbare]⟩
    obtain ⟨L₁, hc₁, hcr3₁, hheld₁, hrun₁, hs, hunfold⟩ :=
      mapPages_first h hcr3 hheld hrun hpm hadd
    rw [hunfold] at hmap
    obtain ⟨h1, h2⟩ := ih hc₁ (by rwa [hcr3₁]) hheld₁ hrun₁ hmap
    have hroom := hs.room
    exact ⟨by omega, h2.trans (hs.user rfl)⟩

end Runs

end X86System.Memory
