import X86System.PageMapping

/-!
# Allocating and freeing runs of pages

`malloc_page` reserves a run of virtual pages and puts a frame behind each of them;
`mfree_page` takes the frames back and clears the run. Between two calls the bitmap of
an address space marks exactly the pages that own a frame.
-/
namespace X86System.Memory
open Exec Paging

/-- The owners of a run of pages. -/
def pages (pf : PoolFlags) (dir n cnt : ℕ) : Set Owner :=
  {o | ∃ i < cnt, o = Owner.ofPage pf dir (n + i)}

theorem mem_pages {pf : PoolFlags} {dir n cnt n' : ℕ} :
    Owner.ofPage pf dir n' ∈ pages pf dir n cnt ↔ n ≤ n' ∧ n' < n + cnt := by
  constructor
  · intro ⟨i, hi, h⟩
    have := ofPage_inj h
    omega
  · intro ⟨h1, h2⟩
    exact ⟨n' - n, by omega, by rw [Nat.add_sub_cancel' h1]⟩

theorem table_notMem_pages {pf : PoolFlags} {dir n cnt d e : ℕ} :
    Owner.table d e ∉ pages pf dir n cnt := by
  rintro ⟨i, -, h⟩
  cases pf <;> cases h

theorem held_notMem_pages {pf pf' : PoolFlags} {dir n cnt : ℕ} :
    Owner.held pf' ∉ pages pf dir n cnt := by
  rintro ⟨i, -, h⟩
  cases pf <;> cases h

theorem pool_of_mem_pages {pf : PoolFlags} {dir n cnt : ℕ} {o : Owner}
    (h : o ∈ pages pf dir n cnt) : o.pool = pf := by
  obtain ⟨i, -, rfl⟩ := h
  exact pool_ofPage ..

section Bits

/-- Setting a run of bits changes the run and nothing else. -/
@[simp] theorem setBits_test (btmp : Bitmap) (start : ℕ) (value : Bool) (cnt j : ℕ) :
    bitmapScanTest (setBits btmp start value cnt) j =
      if start ≤ j ∧ j < start + cnt then value else bitmapScanTest btmp j := by
  induction cnt with
  | zero =>
    rw [setBits, if_neg (by omega)]
  | succ cnt ih =>
    rw [setBits, bitmapScanTest_set, ih]
    by_cases h : start + cnt = j
    · rw [if_pos h, if_pos (by omega)]
    · rw [if_neg h]
      exact if_congr (by omega) rfl rfl

@[simp] theorem setBits_len (btmp : Bitmap) (start : ℕ) (value : Bool) (cnt : ℕ) :
    (setBits btmp start value cnt).btmpBytesLen = btmp.btmpBytesLen := by
  induction cnt with
  | zero => rfl
  | succ cnt ih => exact ih

end Bits

/-- The pool of virtual addresses for a flag: the kernel's or the running task's. -/
def Machine.vaddrs (m : Machine) : PoolFlags → VirtualAddr
  | .kernel => m.kernelVaddr
  | .user => (m.tasks m.running).userprocVaddr

/-- Replace the bitmap of a pool of virtual addresses. -/
def Machine.setVaddrs (m : Machine) (pf : PoolFlags) (btmp : Bitmap) : Machine :=
  match pf with
  | .kernel => { m with kernelVaddr := { m.kernelVaddr with vaddrBitmap := btmp } }
  | .user =>
    m.setTask m.running { m.tasks m.running with
      userprocVaddr := { (m.tasks m.running).userprocVaddr with vaddrBitmap := btmp } }

section Fields

variable (m : Machine) (pf : PoolFlags) (btmp : Bitmap)

@[simp] theorem setVaddrs_self :
    (m.setVaddrs pf btmp).vaddrs pf = { m.vaddrs pf with vaddrBitmap := btmp } := by
  cases pf <;> simp [Machine.setVaddrs, Machine.vaddrs, Machine.setTask]

theorem setVaddrs_of_ne {pf' : PoolFlags} (h : pf' ≠ pf) :
    (m.setVaddrs pf btmp).vaddrs pf' = m.vaddrs pf' := by
  cases pf <;> cases pf' <;>
    first | exact absurd rfl h | simp [Machine.setVaddrs, Machine.vaddrs, Machine.setTask]

@[simp] theorem setVaddrs_ram : (m.setVaddrs pf btmp).ram = m.ram := by cases pf <;> rfl
@[simp] theorem setVaddrs_cr3 : (m.setVaddrs pf btmp).cr3 = m.cr3 := by cases pf <;> rfl
@[simp] theorem setVaddrs_pools : (m.setVaddrs pf btmp).pools = m.pools := by cases pf <;> rfl
@[simp] theorem setVaddrs_running : (m.setVaddrs pf btmp).running = m.running := by cases pf <;> rfl

end Fields

theorem SameTasks.vaddrs {m m' : Machine} (h : SameTasks m m') (pf : PoolFlags) :
    m'.vaddrs pf = m.vaddrs pf := by
  cases pf
  · exact h.kernelVaddr
  · rw [Machine.vaddrs, Machine.vaddrs, h.tasks, h.running]

/-- The first page of a pool of virtual addresses. -/
def VirtualAddr.base (va : VirtualAddr) : ℕ := va.vaddrStart / 4096

/-- How many pages its bitmap covers. -/
def VirtualAddr.pages (va : VirtualAddr) : ℕ := 8 * va.vaddrBitmap.btmpBytesLen

theorem setVaddrs_sizes (m : Machine) (pf : PoolFlags) {btmp : Bitmap}
    (hlen : btmp.btmpBytesLen = (m.vaddrs pf).vaddrBitmap.btmpBytesLen) (pf' : PoolFlags) :
    ((m.setVaddrs pf btmp).vaddrs pf').base = (m.vaddrs pf').base ∧
    ((m.setVaddrs pf btmp).vaddrs pf').pages = (m.vaddrs pf').pages := by
  by_cases hp : pf' = pf
  · subst hp
    rw [setVaddrs_self]
    exact ⟨rfl, congrArg (8 * ·) hlen⟩
  · rw [setVaddrs_of_ne _ _ _ hp]
    exact ⟨rfl, rfl⟩

/-- The bitmap marks the pages that own a frame. -/
structure Tracked (va : VirtualAddr) (page : ℕ → Owner) (L : Ledger Owner ℕ) : Prop where
  aligned : va.vaddrStart % 4096 = 0
  marks : ∀ n, L.owns (page n) ≠ none →
    va.base ≤ n ∧ bitmapScanTest va.vaddrBitmap (n - va.base) = true
  owned : ∀ i < va.pages, bitmapScanTest va.vaddrBitmap i = true → L.owns (page (va.base + i)) ≠ none

/-- The tables, the pools and the bitmaps of virtual pages for the flags in `F` agree. -/
structure Addressed (F : Set PoolFlags) (m : Machine) (G : Layout) : Prop where
  coherent : Coherent m G
  cr3_mem : m.cr3 ∈ G.dirs
  held : ∀ pf, G.owns (.held pf) = none
  tracked : ∀ pf ∈ F, Tracked (m.vaddrs pf) (Owner.ofPage pf m.cr3) G.ledger
  kernelBase : (m.vaddrs .kernel).base = 0xc0100
  kernelPages : (m.vaddrs .kernel).pages ≤ 8 * 4095
  userPages : m.cr3 ∈ G.spaces → (m.vaddrs .user).base + (m.vaddrs .user).pages ≤ 0xc0000

section Malloc

variable {F : Set PoolFlags} {m m' : Machine} {G : Layout} {pf : PoolFlags} {n cnt : ℕ}

/-- A page that grew a frame, then the rest of the run. -/
theorem Grown.cons {dir : ℕ} {L L₁ L₂ : Ledger Owner ℕ}
    (h : Grown dir L L₁ {Owner.ofPage pf dir n}) (h' : Grown dir L₁ L₂ (pages pf dir (n + 1) cnt)) :
    Grown dir L L₂ (pages pf dir n (cnt + 1)) := by
  have hne : Owner.ofPage pf dir n ∉ pages pf dir (n + 1) cnt := by
    rw [mem_pages]
    omega
  have htab (n' e : ℕ) : Owner.ofPage pf dir n' ≠ .table dir e := by
    cases pf <;> simp [Owner.ofPage]
  refine ⟨?_, ?_, fun e t ht => h'.tables e t (h.tables e t ht)⟩
  · rintro o ⟨i, hi, rfl⟩
    cases i with
    | zero =>
      obtain ⟨h1, h2⟩ := h.new _ rfl
      exact ⟨h1, by rw [Nat.add_zero, h'.kept _ hne (htab n)]; exact h2⟩
    | succ i =>
      have hmem : Owner.ofPage pf dir (n + (i + 1)) ∈ pages pf dir (n + 1) cnt :=
        mem_pages.mpr ⟨by omega, by omega⟩
      obtain ⟨h1, h2⟩ := h'.new _ hmem
      refine ⟨?_, h2⟩
      rw [← h.kept _ _ (htab _), h1]
      intro heq
      have := ofPage_inj heq
      omega
  · intro o ho ht
    rw [h'.kept o _ ht, h.kept o _ ht]
    · rintro rfl
      exact ho (mem_pages.mpr ⟨by omega, by omega⟩)
    · rintro ⟨i, hi, rfl⟩
      exact ho (mem_pages.mpr ⟨by omega, by omega⟩)

theorem Grown.of_owned {dir f : ℕ} {L L' : Ledger Owner ℕ} {news : Set Owner} {o : Owner}
    (h : Grown dir L L' news) (ho : L.owns o = some f) (ht : ∀ e, o ≠ .table dir e) :
    L'.owns o = L.owns o := by
  refine h.kept o (fun hmem => ?_) ht
  rw [(h.new o hmem).1] at ho
  cases ho

/-- What was owned is owned as before. -/
theorem Grown.owned {dir f : ℕ} {L L' : Ledger Owner ℕ} {news : Set Owner} {o : Owner}
    (h : Grown dir L L' news) (ho : L.owns o = some f) : L'.owns o = some f := by
  by_cases ht : ∃ e, o = .table dir e
  · obtain ⟨e, rfl⟩ := ht
    exact h.tables e f ho
  · exact (h.of_owned ho fun e he => ht ⟨e, he⟩).trans ho

/-- Frames that somebody owns and that hold no entries keep their words. -/
def Kept (G : Layout) (m m' : Machine) : Prop :=
  ∀ o g, G.owns o = some g → ¬ Structural G g → m'.ram g = m.ram g

/-- A frame in use that holds no entries is not made a table. -/
theorem Grown.not_structural {dir g : ℕ} {L' : Ledger Owner ℕ} {news : Set Owner} {o : Owner}
    (h : Grown dir G.ledger L' news) (ho : G.owns o = some g) (hs : ¬ Structural G g) :
    ¬ Structural (G.withLedger L') g := by
  rintro (hd | hlow | ⟨d, e, ht⟩)
  · exact hs (.inl hd)
  · exact hs (.inr (.inl hlow))
  · obtain rfl := L'.inj (h.owned ho) ht
    exact hs (.inr (.inr ⟨d, e, ho⟩))

theorem Kept.trans {dir : ℕ} {L' : Ledger Owner ℕ} {news : Set Owner} {m₁ m₂ : Machine}
    (h : Kept G m m₁) (hg : Grown dir G.ledger L' news) (h' : Kept (G.withLedger L') m₁ m₂) :
    Kept G m m₂ := by
  intro o g ho hs
  rw [h' o g (hg.owned ho) (hg.not_structural ho hs), h o g ho hs]

/-- `page_table_add` writes to no frame that is owned and holds no entries. -/
theorem pageTableAdd_kept (h : Coherent m G) (hcr3 : m.cr3 ∈ G.dirs) (hn : Mappable G m.cr3 pf n)
    {f : ℕ} (hadd : pageTableAdd m (n * 4096) (f * 4096) = .ok m') : Kept G m m' := by
  intro o g ho hg
  have hlt : n < 0xffc00 := by
    cases pf with
    | kernel => exact hn.2
    | user => exact Nat.lt_of_le_of_lt hn.2 (by norm_num)
  obtain ⟨hp, -, rfl⟩ | ⟨-, i, hi, hclear, t, rfl, rfl⟩ := h.pageTableAdd_cases hcr3 hlt hadd
  · have htable : Structural G (frame (m.ram m.cr3 (n / 1024))) := by
      by_cases hk : 768 ≤ n / 1024
      · rw [(h.kernel_pde hcr3 hk (by omega)).2]
        have := kernelTable_bounds hk (by omega)
        exact .inr (.inl ⟨by omega, by omega⟩)
      · cases pf with
        | kernel => exact absurd (HeapPage.index hn).1 hk
        | user =>
          obtain ⟨t, ht, hframe⟩ := h.user_pde hn.1 (by omega) hp
          rw [hframe]
          exact .inr (.inr ⟨_, _, ht⟩)
    funext j
    apply poke_of_frame_ne
    rintro rfl
    exact hg htable
  · have hfree : g ≠ (m.pools .kernel).base + i := by
      rintro rfl
      exact h.marked.unowned hi hclear o ho
    have hdir : g ≠ m.cr3 := by
      rintro rfl
      exact hg (.inl hcr3)
    funext j
    rw [setRam_ram, poke_of_frame_ne hfree, wipe_of_ne hfree, poke_of_frame_ne hdir]

/-- Taking a frame writes to none. -/
theorem Coherent.take_kept (h : Coherent m G) (hheld : G.owns (.held pf) = none) {i : ℕ}
    (hi : i < (m.pools pf).frames)
    (hclear : bitmapScanTest (m.pools pf).poolBitmap i = false)
    (hk : Kept (G.withLedger (G.ledger.give (.held pf) _ (h.marked.unowned hi hclear)))
      (m.setPool pf ((m.pools pf).mark i true)) m') : Kept G m m' := by
  intro o g ho hg
  have hgive (o' : Owner) (ho' : o' ≠ .held pf) :
      (G.ledger.give (.held pf) _ (h.marked.unowned hi hclear)).owns o' = G.owns o' :=
    Ledger.give_owns_of_ne _ _ ho'
  refine hk o g ?_ ?_
  · rw [withLedger_owns, hgive, ho]
    rintro rfl
    rw [hheld] at ho
    cases ho
  · rintro (hd | hlow | ⟨d, e, ht⟩)
    · exact hg (.inl hd)
    · exact hg (.inr (.inl hlow))
    · rw [withLedger_owns, hgive _ (by simp)] at ht
      exact hg (.inr (.inr ⟨d, e, ht⟩))

/-- One round of `malloc_page`: a frame from the pool, then its entry. -/
theorem mapPage_coherent (h : Coherent m G) (hcr3 : m.cr3 ∈ G.dirs)
    (hheld : G.owns (.held pf) = none) (hpage : Mappable G m.cr3 pf n) {r : Option ℕ} {pool : Pool}
    (hpm : pmalloc (m.pools pf) = .ok (r, pool)) :
    ∃ a, r = some a ∧ ∀ m', pageTableAdd (m.setPool pf pool) (n * 4096) a = .ok m' →
      ∃ L', Coherent m' (G.withLedger L') ∧ SameTasks m m' ∧
        Grown m.cr3 G.ledger L' {Owner.ofPage pf m.cr3 n} ∧ Kept G m m' := by
  obtain ⟨i, hi, hclear, rfl, rfl⟩ := pmalloc_ok hpm (h.marked.aligned pf)
  refine ⟨_, rfl, ?_⟩
  intro m' hadd
  have hfree := h.marked.unowned hi hclear
  have h1 := h.take hheld hi hclear
  have hheld1 := G.ledger.give_owns_self (a := .held pf) hfree
  obtain ⟨L', hc, hsame, hplaced⟩ : ∃ L', Coherent m' (G.withLedger L') ∧
      SameTasks (m.setPool pf ((m.pools pf).mark i true)) m' ∧
      Placed m.cr3 (G.ledger.give (.held pf) _ hfree) L' pf n ((m.pools pf).base + i) := by
    cases pf with
    | kernel => exact pageTableAdd_kernel h1 hcr3 hheld1 hpage hadd
    | user => exact pageTableAdd_user h1 hpage.1 hheld1 hpage.2 hadd
  refine ⟨L', hc, (sameTasks_mark m pf i true).trans hsame, ⟨?_, ?_, ?_⟩,
    h.take_kept hheld hi hclear (@pageTableAdd_kept _ _ _ pf _ h1 hcr3 hpage _ hadd)⟩
  · rintro o rfl
    have hne : Owner.ofPage pf m.cr3 n ≠ .held pf := by cases pf <;> simp [Owner.ofPage]
    exact ⟨by rw [← G.ledger.give_owns_of_ne hfree hne]; exact hplaced.before, _, hplaced.after⟩
  · intro o ho ht
    by_cases heq : o = .held pf
    · rw [heq, hplaced.held]
      exact hheld.symm
    · rw [hplaced.kept o heq ho ht, G.ledger.give_owns_of_ne hfree heq]
  · intro e t ht
    apply hplaced.tables
    rw [G.ledger.give_owns_of_ne hfree (by simp), ht]

/-- The loop of `malloc_page` never runs out of frames: the scan would fail first. -/
theorem mapPages_coherent (h : Coherent m G) (hcr3 : m.cr3 ∈ G.dirs)
    (hheld : G.owns (.held pf) = none) (hrun : ∀ i < cnt, Mappable G m.cr3 pf (n + i)) {done : Bool}
    (hmap : mapPages pf cnt (n * 4096) m = .ok (done, m')) :
    done = true ∧ ∃ L', Coherent m' (G.withLedger L') ∧ SameTasks m m' ∧
      Grown m.cr3 G.ledger L' (pages pf m.cr3 n cnt) ∧ Kept G m m' := by
  induction cnt generalizing n m G with
  | zero =>
    obtain ⟨rfl, rfl⟩ : true = done ∧ m = m' := by simpa [mapPages] using hmap
    refine ⟨rfl, G.ledger, h, .refl m, ⟨fun o ho => ?_, fun _ _ _ => rfl, fun _ _ ht => ht⟩,
      fun _ _ _ _ => rfl⟩
    obtain ⟨i, hi, -⟩ := ho
    omega
  | succ cnt ih =>
    unfold mapPages at hmap
    cases hpm : pmalloc (m.pools pf) with
    | error e =>
      rw [hpm] at hmap
      cases hmap
    | ok x =>
      obtain ⟨r, pool⟩ := x
      obtain ⟨a, rfl, hstep⟩ := mapPage_coherent h hcr3 hheld (hrun 0 (by omega)) hpm
      rw [hpm, ok_bind] at hmap
      dsimp only at hmap
      cases hadd : pageTableAdd (m.setPool pf pool) (n * 4096) a with
      | error e =>
        rw [hadd] at hmap
        cases hmap
      | ok m₁ =>
        obtain ⟨L₁, hc₁, hs₁, hg₁, hk₁⟩ := hstep m₁ hadd
        have hnext : (n + 1) * 4096 = n * 4096 + pgSize := by
          unfold pgSize
          omega
        rw [hadd, ok_bind, ← hnext] at hmap
        have hheld₁ : (G.withLedger L₁).owns (.held pf) = none := by
          rw [withLedger_owns, hg₁.kept _ _ (by simp)]
          · exact hheld
          · intro heq
            cases pf <;> cases heq
        obtain ⟨rfl, L₂, hc₂, hs₂, hg₂, hk₂⟩ := ih hc₁ (by rw [hs₁.cr3]; exact hcr3) hheld₁
          (fun i hi => by
            have := hrun (i + 1) (by omega)
            rw [hs₁.cr3, show n + 1 + i = n + (i + 1) by omega]
            exact this) hmap
        rw [hs₁.cr3] at hg₂
        exact ⟨rfl, L₂, hc₂, hs₁.trans hs₂, hg₁.cons hg₂, hk₁.trans hg₁ hk₂⟩

/-- `vaddr_get` for both flags: only a user address is checked against the stack. -/
theorem vaddrGet_eq (m : Machine) (pf : PoolFlags) (cnt : ℕ) : vaddrGet m pf cnt =
    bitmapScan (m.vaddrs pf).vaddrBitmap cnt >>= fun r =>
      match r with
      | none => .ok (none, m)
      | some i =>
        ensure .assert (pf = .user → (m.vaddrs pf).vaddrStart + i <<< 12 < 0xc0000000 - pgSize) >>=
          fun _ => .ok (some ((m.vaddrs pf).vaddrStart + i <<< 12),
            m.setVaddrs pf (setBits (m.vaddrs pf).vaddrBitmap i true cnt)) := by
  cases pf with
  | kernel =>
    unfold vaddrGet Machine.vaddrs
    dsimp only
    cases bitmapScan m.kernelVaddr.vaddrBitmap cnt with
    | error e => rfl
    | ok r =>
      cases r with
      | none => rfl
      | some i =>
        rw [ok_bind, ok_bind]
        dsimp only
        rw [ensure_of (by simp)]
        rfl
  | user =>
    unfold vaddrGet Machine.vaddrs
    dsimp only
    cases bitmapScan (m.tasks m.running).userprocVaddr.vaddrBitmap cnt with
    | error e => rfl
    | ok r =>
      cases r with
      | none => rfl
      | some i =>
        rw [ok_bind, ok_bind]
        simp only [true_imp_iff]
        rfl

/-- One page is always found where the scan returns. -/
theorem pmalloc_ne_none {p p' : Pool} {r : Option ℕ} (h : pmalloc p = .ok (r, p')) : r ≠ none := by
  unfold pmalloc at h
  obtain ⟨s, hscan, h⟩ := of_bind_eq_ok h
  obtain ⟨i, rfl, -⟩ := bitmapScan_one hscan
  obtain ⟨rfl, -⟩ := Prod.mk.inj (Except.ok.inj h)
  exact Option.some_ne_none _

/-- The loop of `malloc_page` maps all pages or does not return. -/
theorem mapPages_done {v : ℕ} {done : Bool} (h : mapPages pf cnt v m = .ok (done, m')) :
    done = true := by
  induction cnt generalizing v m with
  | zero => exact (Prod.mk.inj (Except.ok.inj h)).1.symm
  | succ cnt ih =>
    unfold mapPages at h
    obtain ⟨⟨r, pool⟩, hpm, h⟩ := of_bind_eq_ok h
    cases r with
    | none => exact absurd rfl (pmalloc_ne_none hpm)
    | some a =>
      obtain ⟨m₁, -, h⟩ := of_bind_eq_ok h
      exact ih h

/-- NULL means that the scan found no run of several pages. -/
theorem mallocPage_none (h : mallocPage m pf cnt = .ok (none, m')) : m' = m ∧ cnt ≠ 1 := by
  unfold mallocPage at h
  obtain ⟨-, h⟩ := of_ensure_eq_ok h
  rw [vaddrGet_eq, bind_assoc] at h
  obtain ⟨r, hscan, h⟩ := of_bind_eq_ok h
  cases r with
  | none =>
    refine ⟨(Prod.mk.inj (Except.ok.inj h)).2.symm, ?_⟩
    rintro rfl
    obtain ⟨i, hi, -⟩ := bitmapScan_one hscan
    cases hi
  | some i =>
    dsimp only at h
    rw [bind_assoc] at h
    obtain ⟨-, h⟩ := of_ensure_eq_ok h
    rw [ok_bind] at h
    obtain ⟨⟨done, m₁⟩, hmap, h⟩ := of_bind_eq_ok h
    obtain rfl := mapPages_done hmap
    cases (Prod.mk.inj (Except.ok.inj h)).1

/-- `vaddr_get` reserves a run of clear bits or does nothing. -/
theorem vaddrGet_ok {r : Option ℕ} {m₁ : Machine} (ha : (m.vaddrs pf).vaddrStart % 4096 = 0)
    (h : vaddrGet m pf cnt = .ok (r, m₁)) :
    (r = none ∧ m₁ = m) ∨ ∃ i, r = some (((m.vaddrs pf).base + i) * 4096) ∧
      i + cnt ≤ (m.vaddrs pf).pages + 1 ∧
      (∀ j, i ≤ j → j < i + cnt → bitmapScanTest (m.vaddrs pf).vaddrBitmap j = false) ∧
      m₁ = m.setVaddrs pf (setBits (m.vaddrs pf).vaddrBitmap i true cnt) := by
  rw [vaddrGet_eq] at h
  cases hscan : bitmapScan (m.vaddrs pf).vaddrBitmap cnt with
  | error e =>
    rw [hscan] at h
    cases h
  | ok r =>
    rw [hscan, ok_bind] at h
    cases r with
    | none =>
      dsimp only at h
      rw [Except.ok.injEq, Prod.mk.injEq] at h
      exact .inl ⟨h.1.symm, h.2.symm⟩
    | some i =>
      dsimp only at h
      obtain ⟨hend, hclear⟩ := bitmapScan_run hscan
      have hpage : (m.vaddrs pf).vaddrStart + i <<< 12 = ((m.vaddrs pf).base + i) * 4096 := by
        simp only [Nat.shiftLeft_eq, VirtualAddr.base]
        omega
      by_cases hstack : pf = .user → (m.vaddrs pf).vaddrStart + i <<< 12 < 0xc0000000 - pgSize
      · rw [ensure_of hstack, ok_bind, Except.ok.injEq, Prod.mk.injEq] at h
        exact .inr ⟨i, by rw [← h.1, hpage], hend, hclear, h.2.symm⟩
      · rw [ensure_of_not hstack] at h
        cases h

/-- The pages of a run that `vaddr_get` reserved may be mapped. -/
theorem Addressed.mappable (h : Addressed F m G) (hspace : pf = .user → m.cr3 ∈ G.spaces) {i : ℕ}
    (hend : i + cnt ≤ (m.vaddrs pf).pages + 1) {j : ℕ} (hj : j < cnt) :
    Mappable G m.cr3 pf ((m.vaddrs pf).base + i + j) := by
  cases pf with
  | kernel =>
    have hb := h.kernelBase
    have hp := h.kernelPages
    exact ⟨by omega, by omega⟩
  | user =>
    have htop := h.userPages (hspace rfl)
    exact ⟨hspace rfl, by omega⟩

theorem Addressed.setVaddrs_coherent (h : Addressed F m G) (btmp : Bitmap) :
    Coherent (m.setVaddrs pf btmp) G where
  marked := by
    rw [setVaddrs_pools]
    exact h.coherent.marked
  encoded := by
    rw [setVaddrs_ram]
    exact h.coherent.encoded

/-- A bitmap with the run set tracks the pages after the run was mapped. -/
theorem Tracked.grow {va : VirtualAddr} {L L' : Ledger Owner ℕ} {dir i : ℕ}
    (h : Tracked va (Owner.ofPage pf dir) L) (hg : Grown dir L L' (pages pf dir (va.base + i) cnt)) :
    Tracked { va with vaddrBitmap := setBits va.vaddrBitmap i true cnt } (Owner.ofPage pf dir) L' := by
  have hkept (n : ℕ) (hn : ¬ (va.base + i ≤ n ∧ n < va.base + i + cnt)) :
      L'.owns (Owner.ofPage pf dir n) = L.owns (Owner.ofPage pf dir n) :=
    hg.kept _ (by rwa [mem_pages]) (by cases pf <;> simp [Owner.ofPage])
  have hnew (n : ℕ) (hn : va.base + i ≤ n ∧ n < va.base + i + cnt) :
      L'.owns (Owner.ofPage pf dir n) ≠ none := by
    obtain ⟨-, f, hf⟩ := hg.new _ (mem_pages.mpr hn)
    rw [hf]
    simp
  refine ⟨h.aligned, ?_, ?_⟩
  · intro n hn
    rw [setBits_test]
    change va.base ≤ n ∧ _
    by_cases hin : va.base + i ≤ n ∧ n < va.base + i + cnt
    · exact ⟨by omega, if_pos (by change i ≤ n - va.base ∧ n - va.base < i + cnt; omega)⟩
    · rw [hkept n hin] at hn
      obtain ⟨h1, h2⟩ := h.marks n hn
      refine ⟨h1, ?_⟩
      rw [if_neg (by change ¬ (i ≤ n - va.base ∧ n - va.base < i + cnt); omega)]
      exact h2
  · intro j hj hset
    rw [setBits_test] at hset
    have hj' : j < va.pages := by simpa [VirtualAddr.pages] using hj
    change L'.owns (Owner.ofPage pf dir (va.base + j)) ≠ none
    by_cases hin : i ≤ j ∧ j < i + cnt
    · exact hnew _ (by omega)
    · rw [if_neg hin] at hset
      rw [hkept _ (by omega)]
      exact h.owned j hj' hset

/-- The other pool of virtual addresses does not see the run. -/
theorem Tracked.other {va : VirtualAddr} {L L' : Ledger Owner ℕ} {dir : ℕ} {pf' : PoolFlags}
    (h : Tracked va (Owner.ofPage pf' dir) L)
    (heq : ∀ n, L'.owns (Owner.ofPage pf' dir n) = L.owns (Owner.ofPage pf' dir n)) :
    Tracked va (Owner.ofPage pf' dir) L' := by
  refine ⟨h.aligned, ?_, ?_⟩
  · intro n hn
    exact h.marks n (by rwa [heq] at hn)
  · intro j hj hset
    rw [heq]
    exact h.owned j hj hset

/-- One bitmap of virtual pages was changed along with the ledger. -/
theorem Addressed.update (h : Addressed F m G) {btmp : Bitmap} {L' : Ledger Owner ℕ}
    (hlen : btmp.btmpBytesLen = (m.vaddrs pf).vaddrBitmap.btmpBytesLen)
    (hs : SameTasks (m.setVaddrs pf btmp) m') (hc : Coherent m' (G.withLedger L'))
    (hheld : ∀ pf', L'.owns (.held pf') = none)
    (hself : Tracked { m.vaddrs pf with vaddrBitmap := btmp } (Owner.ofPage pf m.cr3) L')
    (hother : ∀ pf', pf' ≠ pf → ∀ n,
      L'.owns (Owner.ofPage pf' m.cr3 n) = G.owns (Owner.ofPage pf' m.cr3 n)) :
    Addressed F m' (G.withLedger L') := by
  have hsizes := setVaddrs_sizes m pf hlen
  have hcr3 : m'.cr3 = m.cr3 := hs.cr3.trans (setVaddrs_cr3 ..)
  refine ⟨hc, by rw [hcr3]; exact h.cr3_mem, hheld, ?_, ?_, ?_, ?_⟩
  · intro pf' hF
    rw [hs.vaddrs, hcr3]
    by_cases hp : pf' = pf
    · subst hp
      rw [setVaddrs_self]
      exact hself
    · rw [setVaddrs_of_ne _ _ _ hp]
      exact (h.tracked pf' hF).other (hother pf' hp)
  · rw [hs.vaddrs, (hsizes _).1]
    exact h.kernelBase
  · rw [hs.vaddrs, (hsizes _).2]
    exact h.kernelPages
  · rw [hs.vaddrs, hcr3, (hsizes _).1, (hsizes _).2]
    exact h.userPages

theorem ofPage_notMem_pages {pf' : PoolFlags} {dir n' : ℕ} (h : pf' ≠ pf) :
    Owner.ofPage pf' dir n' ∉ pages pf dir n cnt := by
  intro hmem
  exact h ((pool_ofPage ..).symm.trans (pool_of_mem_pages hmem))

/-- A run of pages has frames now, and its bits are set. -/
theorem Addressed.grow (h : Addressed F m G) (hpf : pf ∈ F) {i : ℕ} {L' : Ledger Owner ℕ}
    (hs : SameTasks (m.setVaddrs pf (setBits (m.vaddrs pf).vaddrBitmap i true cnt)) m')
    (hc : Coherent m' (G.withLedger L'))
    (hg : Grown m.cr3 G.ledger L' (pages pf m.cr3 ((m.vaddrs pf).base + i) cnt)) :
    Addressed F m' (G.withLedger L') := by
  apply h.update (setBits_len ..) hs hc _ ((h.tracked pf hpf).grow hg)
  · intro pf' hp n
    exact hg.kept _ (ofPage_notMem_pages hp) (by cases pf' <;> simp [Owner.ofPage])
  · intro pf'
    rw [hg.kept _ held_notMem_pages (by simp)]
    exact h.held pf'

/-- What `malloc_page` does: nothing where it returns NULL, and otherwise a run of pages that
owned nothing has frames now, and its bits are set. -/
theorem mallocPage_addressed (h : Addressed F m G) (hpf : pf ∈ F)
    (hspace : pf = .user → m.cr3 ∈ G.spaces)
    {r : Option ℕ} (hmal : mallocPage m pf cnt = .ok (r, m')) :
    (r = none ∧ m' = m) ∨ ∃ i L', r = some (((m.vaddrs pf).base + i) * 4096) ∧ 0 < cnt ∧
      i + cnt ≤ (m.vaddrs pf).pages + 1 ∧ Addressed F m' (G.withLedger L') ∧
      Grown m.cr3 G.ledger L' (pages pf m.cr3 ((m.vaddrs pf).base + i) cnt) ∧
      SameTasks (m.setVaddrs pf (setBits (m.vaddrs pf).vaddrBitmap i true cnt)) m' ∧
      Kept G m m' := by
  unfold mallocPage at hmal
  by_cases hcnt : cnt > 0 ∧ cnt < 3840
  swap
  · rw [ensure_of_not hcnt] at hmal
    cases hmal
  rw [ensure_of hcnt, ok_bind] at hmal
  cases hget : vaddrGet m pf cnt with
  | error e =>
    rw [hget] at hmal
    cases hmal
  | ok x =>
    obtain ⟨r', m₁⟩ := x
    rw [hget, ok_bind] at hmal
    obtain ⟨rfl, rfl⟩ | ⟨i, rfl, hend, -, rfl⟩ := vaddrGet_ok (h.tracked pf hpf).aligned hget
    · obtain ⟨rfl, rfl⟩ : none = r ∧ m₁ = m' := by simpa using hmal
      exact .inl ⟨rfl, rfl⟩
    dsimp only at hmal
    cases hmap : mapPages pf cnt (((m.vaddrs pf).base + i) * 4096)
        (m.setVaddrs pf (setBits (m.vaddrs pf).vaddrBitmap i true cnt)) with
    | error e =>
      rw [hmap] at hmal
      cases hmal
    | ok y =>
      obtain ⟨done, m₂⟩ := y
      have hcr3 : (m.setVaddrs pf (setBits (m.vaddrs pf).vaddrBitmap i true cnt)).cr3 = m.cr3 :=
        setVaddrs_cr3 ..
      obtain ⟨rfl, L', hc, hs, hg, hk⟩ := mapPages_coherent (h.setVaddrs_coherent _)
        (by rw [hcr3]; exact h.cr3_mem) (h.held pf)
        (fun j hj => by rw [hcr3]; exact h.mappable hspace hend hj) hmap
      rw [hcr3] at hg
      rw [hmap] at hmal
      obtain ⟨rfl, rfl⟩ : some _ = r ∧ m₂ = m' := by simpa using hmal
      refine .inr ⟨i, L', rfl, hcnt.1, hend, h.grow hpf hs hc hg, hg, hs, fun o g ho hs' => ?_⟩
      rw [hk o g ho hs', setVaddrs_ram]

end Malloc

/-- The pages in `olds` gave their frames back. -/
structure Shrunk (L L' : Ledger Owner ℕ) (olds : Set Owner) : Prop where
  gone : ∀ o ∈ olds, L'.owns o = none
  kept : ∀ o ∉ olds, L'.owns o = L.owns o

section Free

variable {F : Set PoolFlags} {m m' : Machine} {G : Layout} {pf : PoolFlags} {n cnt : ℕ}

/-- The loops of `mfree_page` release every page of a run that is mapped. -/
theorem freePages_coherent {inPool : ℕ → Prop} [DecidablePred inPool] (h : Coherent m G)
    (hcr3 : m.cr3 ∈ G.dirs) (hrun : ∀ i < cnt, ∃ f, G.owns (Owner.ofPage pf m.cr3 (n + i)) = some f ∧
      f ∉ G.dirs ∧ inPool (f * 4096)) :
    ∃ m' L', freePages inPool cnt (n * 4096) m = .ok m' ∧ Coherent m' (G.withLedger L') ∧
      SameTasks m m' ∧ Shrunk G.ledger L' (pages pf m.cr3 n cnt) ∧ Untouched G m m' := by
  induction cnt generalizing n m G with
  | zero =>
    refine ⟨m, G.ledger, rfl, h, .refl m, ⟨fun o ho => ?_, fun _ _ => rfl⟩, fun _ _ => rfl⟩
    obtain ⟨i, hi, -⟩ := ho
    omega
  | succ cnt ih =>
    obtain ⟨f, ho, hdir, hpool⟩ := hrun 0 (by omega)
    rw [Nat.add_zero] at ho
    obtain ⟨m₁, hremove, hc₁, hs₁, hu₁⟩ := h.freePage hcr3 ho hdir
    have hcr3₁ := hs₁.cr3
    obtain ⟨m₂, L₂, hfree, hc₂, hs₂, hsh, hu₂⟩ := @ih m₁ (n := n + 1) _ hc₁ (by rw [hcr3₁]; exact hcr3) (by
      intro i hi
      obtain ⟨g, hg, hgd, hgp⟩ := hrun (i + 1) (by omega)
      refine ⟨g, ?_, hgd, hgp⟩
      rw [hcr3₁, show n + 1 + i = n + (i + 1) by omega, withLedger_owns, Ledger.drop_owns_of_ne]
      · exact hg
      · intro heq
        have := ofPage_inj heq
        omega)
    rw [hcr3₁] at hsh
    refine ⟨m₂, L₂, ?_, hc₂, hs₁.trans hs₂, ⟨?_, ?_⟩, ?_⟩
    · have hnext : n * 4096 + pgSize = (n + 1) * 4096 := by
        unfold pgSize
        omega
      unfold freePages
      rw [h.addrV2p_page hcr3 ho, ok_bind, ensure_of ⟨by unfold pgSize; omega, hpool⟩, ok_bind,
        hremove, ok_bind, hnext, hfree]
    · rintro o ⟨i, hi, rfl⟩
      by_cases hmem : Owner.ofPage pf m.cr3 (n + i) ∈ pages pf m.cr3 (n + 1) cnt
      · exact hsh.gone _ hmem
      · rw [hsh.kept _ hmem]
        obtain rfl : i = 0 := by
          rw [mem_pages] at hmem
          omega
        exact Ledger.drop_owns_self _
    · intro o ho'
      rw [hsh.kept o, withLedger_ledger, Ledger.drop_owns_of_ne]
      · rintro rfl
        exact ho' (mem_pages.mpr ⟨by omega, by omega⟩)
      · rintro ⟨i, hi, rfl⟩
        exact ho' (mem_pages.mpr ⟨by omega, by omega⟩)
    · intro g hg
      rw [hu₂ g, hu₁ g hg]
      refine fun hs => hg (hs.imp id (.imp id fun ⟨d, e, ht⟩ => ⟨d, e, ?_⟩))
      rw [withLedger_owns, Ledger.drop_owns] at ht
      split_ifs at ht
      exact ht

/-- `vaddr_remove` clears a run of bits. -/
theorem vaddrRemove_eq (ha : (m.vaddrs pf).vaddrStart % 4096 = 0) (hn : (m.vaddrs pf).base ≤ n)
    (hlt : n < 2 ^ 20) : vaddrRemove m pf (n * 4096) cnt = m.setVaddrs pf
      (setBits (m.vaddrs pf).vaddrBitmap (n - (m.vaddrs pf).base) false cnt) := by
  have hidx : sub32 (n * 4096) (m.vaddrs pf).vaddrStart >>> 12 = n - (m.vaddrs pf).base := by
    unfold VirtualAddr.base at hn ⊢
    rw [sub32_eq (by omega) (by omega), Nat.shiftRight_eq_div_pow]
    omega
  rw [← hidx]
  cases pf <;> rfl

theorem SameTasks.setVaddrs (h : SameTasks m m') (pf : PoolFlags) (btmp : Bitmap) :
    SameTasks (m.setVaddrs pf btmp) (m'.setVaddrs pf btmp) := by
  obtain ⟨h1, h2, h3, h4, h5, h6, h7⟩ := h
  cases pf with
  | kernel =>
    exact ⟨h1, by simp [Machine.setVaddrs, h2], h3, h4, h5, h6, h7⟩
  | user =>
    refine ⟨h1, h2, h3, ?_, h5, h6, h7⟩
    simp [Machine.setVaddrs, Machine.setTask, h4, h5]

/-- A bitmap with the run cleared tracks the pages after the run was unmapped. -/
theorem Tracked.shrink {va : VirtualAddr} {L L' : Ledger Owner ℕ} {dir : ℕ}
    (h : Tracked va (Owner.ofPage pf dir) L) (hn : va.base ≤ n)
    (hs : Shrunk L L' (pages pf dir n cnt)) :
    Tracked { va with vaddrBitmap := setBits va.vaddrBitmap (n - va.base) false cnt }
      (Owner.ofPage pf dir) L' := by
  refine ⟨h.aligned, ?_, ?_⟩
  · intro n' hn'
    rw [setBits_test]
    change va.base ≤ n' ∧ _
    have hout : Owner.ofPage pf dir n' ∉ pages pf dir n cnt := by
      intro hin
      exact hn' (hs.gone _ hin)
    rw [hs.kept _ hout] at hn'
    rw [mem_pages] at hout
    obtain ⟨h1, h2⟩ := h.marks n' hn'
    refine ⟨h1, ?_⟩
    rw [if_neg (by change ¬ (n - va.base ≤ n' - va.base ∧ n' - va.base < n - va.base + cnt); omega)]
    exact h2
  · intro j hj hset
    rw [setBits_test] at hset
    have hj' : j < va.pages := by simpa [VirtualAddr.pages] using hj
    change L'.owns (Owner.ofPage pf dir (va.base + j)) ≠ none
    by_cases hin : n - va.base ≤ j ∧ j < n - va.base + cnt
    · rw [if_pos hin] at hset
      cases hset
    · rw [if_neg hin] at hset
      rw [hs.kept _ (by rw [mem_pages]; omega)]
      exact h.owned j hj' hset

/-- Clearing the bits after the pages were unmapped. -/
theorem Addressed.remove (h : Addressed F m G) (hpf : pf ∈ F) (hn : (m.vaddrs pf).base ≤ n) (hlt : n < 2 ^ 20)
    {m₁ : Machine} {L' : Ledger Owner ℕ} (hc : Coherent m₁ (G.withLedger L'))
    (hs : SameTasks m m₁) (hsh : Shrunk G.ledger L' (pages pf m.cr3 n cnt)) :
    Addressed F (vaddrRemove m₁ pf (n * 4096) cnt) (G.withLedger L') ∧
    SameTasks (m.setVaddrs pf
      (setBits (m.vaddrs pf).vaddrBitmap (n - (m.vaddrs pf).base) false cnt))
      (vaddrRemove m₁ pf (n * 4096) cnt) := by
  have hremove := @vaddrRemove_eq m₁ pf n cnt (by rw [hs.vaddrs]; exact (h.tracked pf hpf).aligned)
    (by rwa [hs.vaddrs]) hlt
  rw [hs.vaddrs] at hremove
  have hs' := hs.setVaddrs pf
    (setBits (m.vaddrs pf).vaddrBitmap (n - (m.vaddrs pf).base) false cnt)
  rw [hremove]
  refine ⟨h.update (setBits_len ..) hs' ⟨?_, ?_⟩ ?_ ((h.tracked pf hpf).shrink hn hsh) ?_, hs'⟩
  · rw [setVaddrs_pools]
    exact hc.marked
  · rw [setVaddrs_ram]
    exact hc.encoded
  · intro pf'
    rw [hsh.kept _ held_notMem_pages]
    exact h.held pf'
  · exact fun pf' hp n' => hsh.kept _ (ofPage_notMem_pages hp)

/-- `mfree_page` of mapped pages returns: the frames are free, the pages unmapped and the bits
clear. -/
theorem mfreePage_addressed (h : Addressed F m G) (hpf : pf ∈ F) (hcnt : 0 < cnt)
    (hrun : ∀ i < cnt, ∃ f, G.owns (Owner.ofPage pf m.cr3 (n + i)) = some f ∧ f ∉ G.dirs) :
    ∃ m' L', mfreePage m pf (n * 4096) cnt = .ok m' ∧ Addressed F m' (G.withLedger L') ∧
      Shrunk G.ledger L' (pages pf m.cr3 n cnt) ∧
      SameTasks (m.setVaddrs pf
        (setBits (m.vaddrs pf).vaddrBitmap (n - (m.vaddrs pf).base) false cnt)) m' ∧
      Untouched G m m' := by
  have hc := h.coherent
  have hremove {m₁ : Machine} (hu : Untouched G m m₁) :
      Untouched G m (vaddrRemove m₁ pf (n * 4096) cnt) := by
    cases pf <;> exact hu
  obtain ⟨f, hf, -⟩ := hrun 0 hcnt
  rw [Nat.add_zero] at hf
  have hpool (i : ℕ) (hi : i < cnt) : ∃ g, G.owns (Owner.ofPage pf m.cr3 (n + i)) = some g ∧
      g ∉ G.dirs ∧ 0x200 ≤ g ∧ ((m.pools .user).phyAddrStart ≤ g * 4096 ↔ pf = .user) := by
    obtain ⟨g, hg, hd⟩ := hrun i hi
    have huser := hc.marked.user_le hg
    rw [pool_ofPage] at huser
    exact ⟨g, hg, hd, hc.marked.kernel_ge hg, huser⟩
  have hge := hc.marked.kernel_ge hf
  have huser := hc.marked.user_le hf
  rw [pool_ofPage] at huser
  obtain ⟨hbase, -⟩ := (h.tracked pf hpf).marks n (by rw [Layout.owns] at hf; rw [hf]; simp)
  obtain ⟨hlt, -⟩ := hc.pte h.cr3_mem hf
  have hkernel (i : ℕ) (hi : i < cnt) : ∃ g, G.owns (Owner.ofPage pf m.cr3 (n + i)) = some g ∧
      (m.pools pf).phyAddrStart ≤ g * 4096 := by
    obtain ⟨g, hg, -⟩ := hrun i hi
    have hin := hc.marked.inPool _ _ hg
    rw [pool_ofPage] at hin
    have ha := hc.marked.aligned pf
    unfold Pool.base at hin
    exact ⟨g, hg, by omega⟩
  unfold mfreePage
  rw [ensure_of ⟨hcnt, by unfold pgSize; omega⟩, ok_bind, hc.addrV2p_page h.cr3_mem hf, ok_bind,
    ensure_of ⟨by unfold pgSize; omega, by omega⟩, ok_bind]
  cases pf with
  | user =>
    obtain ⟨m₁, L', hfree, hc', hs, hsh, hu⟩ :=
      @freePages_coherent m G .user n cnt (fun a => a ≥ (m.pools .user).phyAddrStart) _ hc
        h.cr3_mem (fun i hi => by
          obtain ⟨g, hg, hd, -, hu⟩ := hpool i hi
          exact ⟨g, hg, hd, hu.mpr rfl⟩)
    obtain ⟨h1, h2⟩ := h.remove hpf hbase (by omega) hc' hs hsh
    refine ⟨_, L', ?_, h1, hsh, h2, hremove hu⟩
    rw [if_pos (huser.mpr rfl), hfree]
    rfl
  | kernel =>
    obtain ⟨m₁, L', hfree, hc', hs, hsh, hu⟩ :=
      @freePages_coherent m G .kernel n cnt (fun a => a ≥ (m.pools .kernel).phyAddrStart ∧
        a < (m.pools .user).phyAddrStart) _ hc h.cr3_mem (fun i hi => by
          obtain ⟨g, hg, hd, -, hu⟩ := hpool i hi
          obtain ⟨g', hg', hk⟩ := hkernel i hi
          obtain rfl := Option.some.inj (hg.symm.trans hg')
          exact ⟨g, hg, hd, hk, Nat.lt_of_not_le fun hle => by cases hu.mp hle⟩)
    obtain ⟨h1, h2⟩ := h.remove hpf hbase (by omega) hc' hs hsh
    refine ⟨_, L', ?_, h1, hsh, h2, hremove hu⟩
    rw [if_neg (fun hle => by cases huser.mp hle), hfree]
    rfl

end Free

end X86System.Memory
