import X86System.SpaceRuns
import Mathlib.Order.CompletePartialOrder

/-!
# Pages from `malloc_page` to `mfree_page`

The calls that one address space makes, with what was handed out and not freed yet.
Frames move in the ledger between the pools and the pages that are live, and only
the frames of new tables stay where they went.
-/
namespace X86System.Memory
open Exec Paging

/-- What a successful call of `malloc_page` handed out. -/
structure Allocation where
  pf : PoolFlags
  vaddr : ℕ
  pgCnt : ℕ
  deriving DecidableEq

/-- The machine, and what has been handed out and not freed. -/
structure PageState where
  machine : Machine
  live : List Allocation

inductive PageCall
  | mallocPage (pf : PoolFlags) (pgCnt : ℕ)
  | mfreePage (a : Allocation)

/-- The run of pages lies in what the bitmap covers. -/
def VirtualAddr.Covers (va : VirtualAddr) (vaddr pgCnt : ℕ) : Prop :=
  va.vaddrStart ≤ vaddr ∧ vaddr + pgCnt * pgSize ≤ va.vaddrStart + va.pages * pgSize

/-- One call in one address space: a successful `malloc_page`, or an `mfree_page` of one live
allocation with its pool flag. -/
inductive PageStep (t : PageState) : PageCall → PageState → Prop
  | mallocPage {pf : PoolFlags} {pgCnt vaddr : ℕ} {m : Machine} :
      mallocPage t.machine pf pgCnt = .ok (some vaddr, m) →
      (t.machine.vaddrs pf).Covers vaddr pgCnt →
      PageStep t (.mallocPage pf pgCnt) ⟨m, ⟨pf, vaddr, pgCnt⟩ :: t.live⟩
  | mfreePage {a : Allocation} {m : Machine} :
      a ∈ t.live → mfreePage t.machine a.pf a.vaddr a.pgCnt = .ok m →
      PageStep t (.mfreePage a) ⟨m, t.live.erase a⟩

/-- The calls of one address space from a machine on, where nothing is live yet. -/
def pageCalls (m : Machine) : Transition.System PageState PageCall where
  start t := t = ⟨m, []⟩
  step := PageStep

/-- The address of a page of an allocation. -/
def Allocation.page (a : Allocation) (i : ℕ) : ℕ := a.vaddr + i * pgSize

/-- The frame behind a page is taken from the pool of the flag. -/
def TakenFrom (m : Machine) (pf : PoolFlags) (f : ℕ) : Prop :=
  (m.pools pf).base ≤ f ∧ f < (m.pools pf).base + (m.pools pf).frames ∧
    bitmapScanTest (m.pools pf).poolBitmap (f - (m.pools pf).base) = true ∧
    (f * 4096 < (m.pools .user).phyAddrStart ↔ pf = .kernel)

/-- Live pages are apart and mapped to frames apart, and the bitmaps mark what is mapped. -/
structure Unaliased (t : PageState) : Prop where
  apart : t.live.Pairwise fun a b => ∀ i < a.pgCnt, ∀ j < b.pgCnt, a.page i ≠ b.page j
  mapped : ∀ a ∈ t.live, ∀ i < a.pgCnt, ∃ f, TakenFrom t.machine a.pf f ∧
    walk t.machine.ram t.machine.cr3 (a.page i) = some (f, 0)
  injective : ∀ a ∈ t.live, ∀ b ∈ t.live, ∀ i < a.pgCnt, ∀ j < b.pgCnt,
    walk t.machine.ram t.machine.cr3 (a.page i) = walk t.machine.ram t.machine.cr3 (b.page j) →
      a.page i = b.page j
  marks : ∀ pf, ∀ i < (t.machine.vaddrs pf).pages,
    bitmapScanTest (t.machine.vaddrs pf).vaddrBitmap i = true ↔
      walk t.machine.ram t.machine.cr3 (((t.machine.vaddrs pf).base + i) * 4096) ≠ none
  freed : ∀ a ∈ t.live, ∃ m, mfreePage t.machine a.pf a.vaddr a.pgCnt = .ok m

/-- The bitmaps and the translations are as before, but for frames that became page tables. -/
structure Restored (m m' : Machine) : Prop where
  userPool : ∀ i < (m.pools .user).frames, bitmapScanTest (m'.pools .user).poolBitmap i =
    bitmapScanTest (m.pools .user).poolBitmap i
  kernelPool : ∀ i < (m.pools .kernel).frames, bitmapScanTest (m'.pools .kernel).poolBitmap i =
      bitmapScanTest (m.pools .kernel).poolBitmap i ∨
    bitmapScanTest (m.pools .kernel).poolBitmap i = false ∧
      ∃ e < 768, ¬ present (m.ram m.cr3 e) ∧
        m'.ram m'.cr3 e = entry ((m.pools .kernel).base + i)
  vaddrs : ∀ pf, ∀ i < (m.vaddrs pf).pages, bitmapScanTest (m'.vaddrs pf).vaddrBitmap i =
    bitmapScanTest (m.vaddrs pf).vaddrBitmap i
  walks : ∀ x < 0xffc00, walk m'.ram m'.cr3 (x * 4096) = walk m.ram m.cr3 (x * 4096)

/-- The owners of the frames behind an allocation. -/
def Allocation.owners (a : Allocation) (dir : ℕ) : Set Owner :=
  pages a.pf dir (a.vaddr / 4096) a.pgCnt

/-- The same thread runs, with the same page directory. -/
structure SameThread (m m' : Machine) : Prop where
  running : m'.running = m.running
  pgdir : (m'.tasks m'.running).pgdir = (m.tasks m.running).pgdir

theorem SameThread.trans {m₁ m₂ m₃ : Machine} (h : SameThread m₁ m₂) (h' : SameThread m₂ m₃) :
    SameThread m₁ m₃ :=
  ⟨h'.running.trans h.running, h'.pgdir.trans h.pgdir⟩

theorem SameThread.of_setVaddrs {m m' : Machine} {pf : PoolFlags} {btmp : Bitmap}
    (h : SameTasks (m.setVaddrs pf btmp) m') : SameThread m m' := by
  have hrun : m'.running = m.running := h.running.trans (setVaddrs_running ..)
  refine ⟨hrun, ?_⟩
  rw [hrun, h.tasks, (setVaddrs_task m pf btmp m.running).1]

/-- Since the machine `m₀` with the layout `G₀` the ledger grew by the live pages, and perhaps by
tables. -/
structure Holding (m₀ : Machine) (G₀ G : Layout) (t : PageState) : Prop where
  addressed : Addressed .univ t.machine G
  space : t.machine.cr3 ∈ G.spaces ∨ (t.machine.vaddrs .user).pages = 0
  cr3 : t.machine.cr3 = m₀.cr3
  dirs : G.dirs = G₀.dirs
  spaces : G.spaces = G₀.spaces
  base : ∀ pf, (t.machine.pools pf).base = (m₀.pools pf).base
  frames : ∀ pf, (t.machine.pools pf).frames = (m₀.pools pf).frames
  sizes : ∀ pf, (t.machine.vaddrs pf).base = (m₀.vaddrs pf).base ∧
    (t.machine.vaddrs pf).pages = (m₀.vaddrs pf).pages
  aligned : ∀ a ∈ t.live, a.vaddr % 4096 = 0 ∧ 0 < a.pgCnt
  owned : ∀ a ∈ t.live, ∀ o ∈ a.owners m₀.cr3, G₀.owns o = none ∧ ∃ f, G.owns o = some f
  apart : t.live.Pairwise fun a b => Disjoint (a.owners m₀.cr3) (b.owners m₀.cr3)
  kept : ∀ o, (∀ e, o ≠ .table m₀.cr3 e) → (∀ a ∈ t.live, o ∉ a.owners m₀.cr3) →
    G.owns o = G₀.owns o
  tables : ∀ e f, G₀.owns (.table m₀.cr3 e) = some f → G.owns (.table m₀.cr3 e) = some f

section Marks

variable {F : Set PoolFlags} {m : Machine} {G : Layout} {pf : PoolFlags} {i n : ℕ}

/-- A page of the bitmap is marked if and only if it owns a frame. -/
theorem Tracked.test_iff {va : VirtualAddr} {page : ℕ → Owner} {L : Ledger Owner ℕ}
    (h : Tracked va page L) (hi : i < va.pages) :
    bitmapScanTest va.vaddrBitmap i = true ↔ L.owns (page (va.base + i)) ≠ none := by
  constructor
  · exact h.owned i hi
  · intro hne
    obtain ⟨-, hset⟩ := h.marks _ hne
    rwa [Nat.add_sub_cancel_left] at hset

/-- A page of the bitmap owns a frame if and only if it is mapped. -/
theorem Addressed.owned_iff (h : Addressed F m G)
    (hspace : m.cr3 ∈ G.spaces ∨ (m.vaddrs .user).pages = 0) (hi : i < (m.vaddrs pf).pages) :
    G.ledger.owns (Owner.ofPage pf m.cr3 ((m.vaddrs pf).base + i)) ≠ none ↔
      walk m.ram m.cr3 (((m.vaddrs pf).base + i) * 4096) ≠ none := by
  have hc := h.coherent
  constructor
  · intro hne
    obtain ⟨f, hf⟩ := Option.ne_none_iff_exists'.mp hne
    rw [@Coherent.walk_page_start m G pf _ f hc h.cr3_mem hf]
    exact Option.some_ne_none _
  · intro hwalk hnone
    apply hwalk
    cases pf with
    | kernel =>
      have hbase := h.kernelBase
      have hpages := h.kernelPages
      have hheap : HeapPage ((m.vaddrs .kernel).base + i) := ⟨by omega, by omega⟩
      rw [walk_eq_none, dirIndex_page, tableIndex_page,
        (hc.kernel_pde h.cr3_mem hheap.index.1 hheap.index.2).2]
      exact fun hp => hc.encoded.vacant _ hheap hnone hp.2
    | user =>
      have hmem : m.cr3 ∈ G.spaces := hspace.resolve_right (by omega)
      have htop := h.userPages hmem
      rw [hc.walk_user hmem (by omega)]
      exact Option.map_eq_none_iff.mpr hnone

/-- The frame of an owned page is taken from its pool. -/
theorem Coherent.takenFrom (h : Coherent m G) {d f : ℕ}
    (hf : G.owns (Owner.ofPage pf d n) = some f) : TakenFrom m pf f := by
  have hin := h.marked.inPool _ _ hf
  have huser := h.marked.user_le hf
  rw [pool_ofPage] at hin huser
  refine ⟨hin.1, hin.2, ?_, ?_⟩
  · apply (h.marked.marked pf _ (by omega)).mpr ⟨Owner.ofPage pf d n, pool_ofPage .., _⟩
    rw [Nat.add_sub_cancel' hin.1]
    exact hf
  · rw [← Nat.not_le, huser]
    cases pf <;> simp

/-- The pages of the heap lie above those of an address space. -/
theorem Coherent.flag_unique (h : Coherent m G) {pf' : PoolFlags} {d f g : ℕ}
    (hf : G.owns (Owner.ofPage pf d n) = some f) (hg : G.owns (Owner.ofPage pf' d n) = some g) :
    pf = pf' := by
  have hkernel {f : ℕ} (hf : G.owns (.kernel n) = some f) : 0xc0100 ≤ n :=
    (h.encoded.kernelPage n f hf).1.1
  have huser {f : ℕ} (hf : G.owns (.user d n) = some f) : n < 0xc0000 := by
    obtain ⟨t, ht, -⟩ := h.encoded.userPage d n f hf
    have := (h.encoded.tableEntry _ _ _ ht).2.1
    omega
  cases pf with
  | kernel =>
    cases pf' with
    | kernel => rfl
    | user =>
      have := hkernel hf
      have := huser hg
      omega
  | user =>
    cases pf' with
    | kernel =>
      have := hkernel hg
      have := huser hf
      omega
    | user => rfl

/-- The entries of a page in a directory and in its table translate the page. -/
theorem walk_of_entries {ram : Ram} {d x t f : ℕ} (hpde : ram d (x / 1024) = entry t)
    (hpte : ram t (x % 1024) = entry f) : walk ram d (x * 4096) = some (f, 0) := by
  have hword : wordIndex (x * 4096) = 0 := by
    unfold wordIndex
    omega
  simp [walk, hpde, hpte, hword]

/-- What the kernel half shows: the first megabyte, and the heap. -/
theorem Coherent.walk_kernel (h : Coherent m G) {d x : ℕ} (hd : d ∈ G.dirs) (hx : 0xc0000 ≤ x)
    (hx' : x < 0xffc00) : walk m.ram d (x * 4096) =
      if x < 0xc0100 then some (x - 0xc0000, 0) else (G.owns (.kernel x)).map (·, 0) := by
  have hpde := h.encoded.kernelHalf d hd (x / 1024) (by omega) (by omega)
  split_ifs with hlow
  · apply walk_of_entries hpde
    rw [show x / 1024 = 768 by omega, show x % 1024 = x - 0xc0000 by omega]
    exact h.encoded.lowMapped (x - 0xc0000) (by omega)
  · cases ho : G.owns (.kernel x) with
    | none =>
      rw [Option.map_none, walk_eq_none, dirIndex_page, tableIndex_page, hpde, frame_entry]
      exact fun hp => h.encoded.vacant x ⟨by omega, hx'⟩ ho hp.2
    | some f => exact walk_of_entries hpde (h.encoded.kernelPage x f ho).2

/-- The kernel's directory shows the first 4 MB of the kernel half at address 0, and no more below
the kernel half. -/
theorem Coherent.walk_low (h : Coherent m G) {x : ℕ} (hx : x < 0xc0000) :
    walk m.ram kernelDir (x * 4096) =
      if x < 1024 then walk m.ram kernelDir ((x + 0xc0000) * 4096) else none := by
  split_ifs with hlow
  · have hdir : (x + 0xc0000) / 1024 = 768 := by omega
    have hzero : x / 1024 = 0 := by omega
    have hindex : (x + 0xc0000) % 1024 = x % 1024 := by omega
    have hword : wordIndex ((x + 0xc0000) * 4096) = wordIndex (x * 4096) := by
      unfold wordIndex
      omega
    unfold walk
    simp only [dirIndex_page, tableIndex_page, hdir, hzero, hindex, hword, h.encoded.kernelLow,
      h.encoded.kernelHalf _ h.encoded.kernelDir_mem 768 le_rfl (by norm_num)]
  · rw [walk_eq_none, dirIndex_page]
    exact fun hp => h.encoded.kernelBare _ (by omega) (by omega) hp.1

/-- The ledger decides what a directory shows below the window. -/
theorem Coherent.walk_congr (h : Coherent m G) {m' : Machine} {G' : Layout} (h' : Coherent m' G')
    {d x : ℕ} (hd : d = kernelDir ∨ d ∈ G.spaces ∧ d ∈ G'.spaces)
    (hkernel : ∀ n, G'.owns (.kernel n) = G.owns (.kernel n))
    (huser : ∀ n, G'.owns (.user d n) = G.owns (.user d n)) (hx : x < 0xffc00) :
    walk m'.ram d (x * 4096) = walk m.ram d (x * 4096) := by
  have hmem : d ∈ G.dirs ∧ d ∈ G'.dirs := by
    obtain rfl | ⟨hs, hs'⟩ := hd
    · exact ⟨h.encoded.kernelDir_mem, h'.encoded.kernelDir_mem⟩
    · exact ⟨h.encoded.spaces_subset hs, h'.encoded.spaces_subset hs'⟩
  have hhigh {y : ℕ} (hy : 0xc0000 ≤ y) (hy' : y < 0xffc00) :
      walk m'.ram d (y * 4096) = walk m.ram d (y * 4096) := by
    rw [h.walk_kernel hmem.1 hy hy', h'.walk_kernel hmem.2 hy hy', hkernel]
  by_cases hlow : x < 0xc0000
  · obtain rfl | ⟨hs, hs'⟩ := hd
    · rw [h.walk_low hlow, h'.walk_low hlow]
      split_ifs
      · exact hhigh (by omega) (by omega)
      · rfl
    · rw [h.walk_user hs hlow, h'.walk_user hs' hlow, huser]
  · exact hhigh (by omega) hx

end Marks

section Steps

variable {m₀ : Machine} {G₀ G : Layout} {t u : PageState} {call : PageCall} {a b : Allocation}
  {o : Owner}

theorem Allocation.mem_owners {dir i : ℕ} (hi : i < a.pgCnt) :
    Owner.ofPage a.pf dir (a.vaddr / 4096 + i) ∈ a.owners dir :=
  ⟨i, hi, rfl⟩

theorem Allocation.page_eq (halign : a.vaddr % 4096 = 0) (i : ℕ) :
    a.page i = (a.vaddr / 4096 + i) * 4096 := by
  unfold Allocation.page pgSize
  omega

/-- A live page owns a frame. -/
theorem Holding.page_owns (h : Holding m₀ G₀ G t) (ha : a ∈ t.live) {i : ℕ} (hi : i < a.pgCnt) :
    ∃ f, G.owns (Owner.ofPage a.pf t.machine.cr3 (a.vaddr / 4096 + i)) = some f := by
  rw [h.cr3]
  exact (h.owned a ha _ (Allocation.mem_owners hi)).2

/-- What was owned at the start still is, by the same frame. -/
theorem Holding.owns_of_start (h : Holding m₀ G₀ G t) {f : ℕ} (ho : G₀.owns o = some f) :
    G.owns o = some f := by
  by_cases htable : ∃ e, o = .table m₀.cr3 e
  · obtain ⟨e, rfl⟩ := htable
    exact h.tables e f ho
  · rw [h.kept o (fun e heq => htable ⟨e, heq⟩), ho]
    intro a ha hmem
    rw [(h.owned a ha o hmem).1] at ho
    cases ho

/-- The frame of a live page is no directory. -/
theorem Holding.not_dir (h : Holding m₀ G₀ G t) (h₀ : Addressed .univ m₀ G₀) (ha : a ∈ t.live)
    (ho : o ∈ a.owners m₀.cr3) {f : ℕ} (hf : G.owns o = some f) : f ∉ G.dirs := by
  intro hmem
  rw [h.dirs] at hmem
  obtain rfl | ⟨n, hn⟩ := h₀.coherent.encoded.dirOwned f hmem
  · have := h.addressed.coherent.marked.kernel_ge hf
    unfold kernelDir at this
    omega
  · obtain rfl := G.ledger.inj hf (h.owns_of_start hn)
    rw [(h.owned a ha _ ho).1] at hn
    cases hn

/-- `mfree_page` returns for a live allocation. -/
theorem Holding.mfreePage (h : Holding m₀ G₀ G t) (h₀ : Addressed .univ m₀ G₀) (ha : a ∈ t.live) :
    ∃ m L, mfreePage t.machine a.pf a.vaddr a.pgCnt = .ok m ∧
      Addressed .univ m (G.withLedger L) ∧ Shrunk G.ledger L (a.owners m₀.cr3) ∧
      SameTasks (t.machine.setVaddrs a.pf (setBits (t.machine.vaddrs a.pf).vaddrBitmap
        (a.vaddr / 4096 - (t.machine.vaddrs a.pf).base) false a.pgCnt)) m ∧
      Untouched G t.machine m := by
  obtain ⟨halign, hpos⟩ := h.aligned a ha
  obtain ⟨m, L, hfree, hm, hsh, hsame, hun⟩ := mfreePage_addressed (n := a.vaddr / 4096) h.addressed
    (Set.mem_univ a.pf) hpos fun i hi => by
      obtain ⟨f, hf⟩ := h.page_owns ha hi
      rw [h.cr3] at hf ⊢
      exact ⟨f, hf, h.not_dir h₀ ha (Allocation.mem_owners hi) hf⟩
  rw [h.cr3] at hsh
  rw [show a.vaddr / 4096 * 4096 = a.vaddr by omega] at hfree
  exact ⟨m, L, hfree, hm, hsh, hsame, hun⟩

/-- What a change of one bitmap of virtual pages leaves alone. -/
theorem Holding.sizes_setVaddrs (h : Holding m₀ G₀ G t) {pf : PoolFlags} {btmp : Bitmap} {m : Machine}
    (hlen : btmp.btmpBytesLen = (t.machine.vaddrs pf).vaddrBitmap.btmpBytesLen)
    (hsame : SameTasks (t.machine.setVaddrs pf btmp) m) :
    m.cr3 = m₀.cr3 ∧ (∀ pf', (m.pools pf').base = (m₀.pools pf').base) ∧
      (∀ pf', (m.pools pf').frames = (m₀.pools pf').frames) ∧
      ∀ pf', (m.vaddrs pf').base = (m₀.vaddrs pf').base ∧
        (m.vaddrs pf').pages = (m₀.vaddrs pf').pages := by
  refine ⟨?_, fun pf' => ?_, fun pf' => ?_, fun pf' => ?_⟩
  · rw [hsame.cr3, setVaddrs_cr3, h.cr3]
  · rw [Pool.base, hsame.start, setVaddrs_pools]
    exact h.base pf'
  · rw [hsame.frames, setVaddrs_pools, h.frames]
  · rw [hsame.vaddrs, (setVaddrs_sizes _ _ hlen pf').1, (setVaddrs_sizes _ _ hlen pf').2]
    exact h.sizes pf'

/-- Only an address space has a bitmap of user pages. -/
theorem Holding.space_of_covers (h : Holding m₀ G₀ G t) {pf : PoolFlags} {cnt vaddr : ℕ}
    {r : Option ℕ} {m : Machine} (hmal : Memory.mallocPage t.machine pf cnt = .ok (r, m))
    (hin : (t.machine.vaddrs pf).Covers vaddr cnt) (hpf : pf = .user) :
    t.machine.cr3 ∈ G.spaces := by
  apply h.space.resolve_right
  intro hzero
  unfold Memory.mallocPage at hmal
  obtain ⟨hcnt, -⟩ := of_ensure_eq_ok hmal
  obtain ⟨hlo, hhi⟩ := hin
  rw [hpf] at hlo hhi
  rw [hzero] at hhi
  unfold pgSize at hhi
  omega

/-- The pages of a new allocation owned nothing, and the others own what they did. -/
theorem Holding.mallocPage (h : Holding m₀ G₀ G t) {pf : PoolFlags} {cnt vaddr : ℕ} {m : Machine}
    (hmal : mallocPage t.machine pf cnt = .ok (some vaddr, m))
    (hspace : pf = .user → t.machine.cr3 ∈ G.spaces) :
    ∃ G', Holding m₀ G₀ G' ⟨m, ⟨pf, vaddr, cnt⟩ :: t.live⟩ ∧
      (∀ o f, G.owns o = some f → G'.owns o = some f) ∧ Kept G t.machine m ∧
      SameThread t.machine m := by
  obtain ⟨hnone, -⟩ | ⟨i, L, hv, hpos, -, hm, hg, hsame, hkept⟩ :=
    mallocPage_addressed h.addressed (Set.mem_univ pf) hspace hmal
  · cases hnone
  obtain rfl := Option.some.inj hv
  obtain ⟨hcr3, hbase, hframes, hsizes⟩ := h.sizes_setVaddrs (setBits_len ..) hsame
  set a : Allocation := ⟨pf, ((t.machine.vaddrs pf).base + i) * 4096, cnt⟩ with ha
  have howners : pages pf t.machine.cr3 ((t.machine.vaddrs pf).base + i) cnt = a.owners m₀.cr3 := by
    rw [Allocation.owners, ha, h.cr3]
    dsimp only
    rw [Nat.mul_div_cancel _ (by norm_num)]
  rw [h.cr3] at hg
  rw [h.cr3] at howners
  rw [howners] at hg
  have hno {o : Owner} (ho : o ∈ a.owners m₀.cr3) (e : ℕ) : o ≠ .table m₀.cr3 e := by
    rintro rfl
    exact table_notMem_pages ho
  have hfresh {o : Owner} (ho : o ∈ a.owners m₀.cr3) {b : Allocation} (hb : b ∈ t.live) :
      o ∉ b.owners m₀.cr3 := by
    intro hmem
    obtain ⟨-, f, hf⟩ := h.owned b hb o hmem
    have hnone := (hg.new o ho).1
    rw [Layout.owns, hnone] at hf
    cases hf
  refine ⟨G.withLedger L, ⟨hm, ?_, hcr3, h.dirs, h.spaces, hbase, hframes, hsizes, ?_, ?_, ?_, ?_,
    ?_⟩, fun o f ho => hg.owned ho, hkept, .of_setVaddrs hsame⟩
  · dsimp only
    rw [hcr3, (hsizes _).2, withLedger_spaces, ← h.cr3, ← (h.sizes _).2]
    exact h.space
  · intro b hb
    obtain rfl | hb := List.mem_cons.mp hb
    · exact ⟨Nat.mul_mod_left .., hpos⟩
    · exact h.aligned b hb
  · intro b hb o ho
    obtain rfl | hb := List.mem_cons.mp hb
    · obtain ⟨hnone, hsome⟩ := hg.new o ho
      refine ⟨?_, hsome⟩
      rw [← h.kept o (hno ho) fun b hb => hfresh ho hb]
      exact hnone
    · obtain ⟨hnone, f, hf⟩ := h.owned b hb o ho
      exact ⟨hnone, f, hg.owned hf⟩
  · apply List.Pairwise.cons _ h.apart
    intro b hb
    exact Set.disjoint_left.mpr fun o ho => hfresh ho hb
  · intro o hne hout
    have hnot := hout a List.mem_cons_self
    rw [withLedger_owns, hg.kept o hnot hne]
    exact h.kept o hne fun b hb => hout b (List.mem_cons_of_mem _ hb)
  · exact fun e f hf => hg.tables e f (h.tables e f hf)

/-- The pages of a freed allocation own nothing, the others what they did. -/
theorem Holding.erase (h : Holding m₀ G₀ G t) (h₀ : Addressed .univ m₀ G₀) (ha : a ∈ t.live)
    {m : Machine} (hfree : Memory.mfreePage t.machine a.pf a.vaddr a.pgCnt = .ok m) :
    ∃ G', Holding m₀ G₀ G' ⟨m, t.live.erase a⟩ ∧ (∀ o ∈ a.owners m₀.cr3, G'.owns o = none) ∧
      (∀ o ∉ a.owners m₀.cr3, G'.owns o = G.owns o) ∧ Untouched G t.machine m ∧
      SameThread t.machine m := by
  obtain ⟨m', L, hfree', hm, hsh, hsame, hun⟩ := h.mfreePage h₀ ha
  obtain rfl := Except.ok.inj (hfree.symm.trans hfree')
  obtain ⟨hcr3, hbase, hframes, hsizes⟩ := h.sizes_setVaddrs (setBits_len ..) hsame
  have hmem {b : Allocation} (hb : b ∈ t.live.erase a) : b ∈ t.live := List.mem_of_mem_erase hb
  have hapart : (a :: t.live.erase a).Pairwise fun a b =>
      Disjoint (a.owners m₀.cr3) (b.owners m₀.cr3) :=
    (List.perm_cons_erase ha).pairwise h.apart fun h => h.symm
  obtain ⟨hself, hrest⟩ := List.pairwise_cons.mp hapart
  refine ⟨G.withLedger L, ⟨hm, ?_, hcr3, h.dirs, h.spaces, hbase, hframes, hsizes,
    fun b hb => h.aligned b (hmem hb), ?_, hrest, ?_, ?_⟩, hsh.gone, hsh.kept, hun,
    .of_setVaddrs hsame⟩
  · dsimp only
    rw [hcr3, (hsizes _).2, withLedger_spaces, ← h.cr3, ← (h.sizes _).2]
    exact h.space
  · intro b hb o ho
    obtain ⟨hnone, f, hf⟩ := h.owned b (hmem hb) o ho
    refine ⟨hnone, f, ?_⟩
    rw [withLedger_owns, hsh.kept o (Set.disjoint_right.mp (hself b hb) ho)]
    exact hf
  · intro o hne hout
    rw [withLedger_owns]
    by_cases ho : o ∈ a.owners m₀.cr3
    · rw [hsh.gone o ho, (h.owned a ha o ho).1]
    · rw [hsh.kept o ho]
      apply h.kept o hne
      intro b hb
      by_cases heq : b = a
      · rwa [heq]
      · exact hout b ((List.mem_erase_of_ne heq).mpr hb)
  · intro e f hf
    rw [withLedger_owns, hsh.kept _ table_notMem_pages]
    exact h.tables e f hf

theorem Holding.step (h : Holding m₀ G₀ G t) (h₀ : Addressed .univ m₀ G₀)
    (hstep : PageStep t call u) : ∃ G', Holding m₀ G₀ G' u := by
  cases hstep with
  | mallocPage hmal hin =>
    obtain ⟨G', hh, -⟩ := h.mallocPage hmal (h.space_of_covers hmal hin)
    exact ⟨G', hh⟩
  | mfreePage ha hfree =>
    obtain ⟨G', hh, -⟩ := h.erase h₀ ha hfree
    exact ⟨G', hh⟩

end Steps

section Results

variable {m₀ : Machine} {G₀ G : Layout} {t : PageState} {s : State}

/-- One owner has at most one page of one address space. -/
theorem ofPage_page {pf pf' : PoolFlags} {dir n n' : ℕ}
    (h : Owner.ofPage pf dir n = Owner.ofPage pf' dir n') : n = n' := by
  cases pf <;> cases pf' <;> cases h <;> rfl

theorem Holding.unaliased (h : Holding m₀ G₀ G t) (h₀ : Addressed .univ m₀ G₀) : Unaliased t where
  apart := by
    apply h.apart.imp_of_mem
    intro a b ha hb hdis i hi j hj heq
    rw [Allocation.page_eq (h.aligned a ha).1, Allocation.page_eq (h.aligned b hb).1] at heq
    have hpage : a.vaddr / 4096 + i = b.vaddr / 4096 + j := by omega
    obtain ⟨f, hf⟩ := h.page_owns ha hi
    obtain ⟨g, hg⟩ := h.page_owns hb hj
    rw [← hpage] at hg
    have hpf := h.addressed.coherent.flag_unique hf hg
    apply Set.disjoint_left.mp hdis (Allocation.mem_owners hi)
    rw [hpf, hpage]
    exact Allocation.mem_owners hj
  mapped := by
    intro a ha i hi
    obtain ⟨f, hf⟩ := h.page_owns ha hi
    have hc := h.addressed.coherent
    rw [Allocation.page_eq (h.aligned a ha).1]
    exact ⟨f, hc.takenFrom hf, hc.walk_page_start h.addressed.cr3_mem hf⟩
  injective := by
    intro a ha b hb i hi j hj heq
    obtain ⟨f, hf⟩ := h.page_owns ha hi
    obtain ⟨g, hg⟩ := h.page_owns hb hj
    have hc := h.addressed.coherent
    rw [Allocation.page_eq (h.aligned a ha).1, Allocation.page_eq (h.aligned b hb).1] at heq ⊢
    rw [hc.walk_page_start h.addressed.cr3_mem hf, hc.walk_page_start h.addressed.cr3_mem hg] at heq
    obtain ⟨rfl, -⟩ := Prod.mk.inj (Option.some.inj heq)
    rw [ofPage_page (G.ledger.inj hf hg)]
  marks := by
    intro pf i hi
    rw [(h.addressed.tracked pf trivial).test_iff hi, h.addressed.owned_iff h.space hi]
  freed := by
    intro a ha
    obtain ⟨m, -, hfree, -⟩ := h.mfreePage h₀ ha
    exact ⟨m, hfree⟩

/-- With nothing live the ledger is the one of the start, but for tables. -/
theorem Holding.owns_eq (h : Holding m₀ G₀ G t) (hlive : t.live = []) {o : Owner}
    (hne : ∀ e, o ≠ .table m₀.cr3 e) : G.owns o = G₀.owns o := by
  apply h.kept o hne
  intro a ha
  rw [hlive] at ha
  cases ha

theorem Holding.restored (h : Holding m₀ G₀ G t) (h₀ : Addressed .univ m₀ G₀)
    (hspace : m₀.cr3 = kernelDir ∨ m₀.cr3 ∈ G₀.spaces) (hlive : t.live = []) :
    Restored m₀ t.machine where
  userPool := by
    intro i hi
    have hmarked := h.addressed.coherent.marked.marked .user i (by rwa [h.frames])
    rw [Bool.eq_iff_iff, hmarked, h₀.coherent.marked.marked .user i hi, h.base]
    refine exists_congr fun o => and_congr_right fun ho => ?_
    rw [← Layout.owns, ← Layout.owns, h.owns_eq hlive]
    rintro e rfl
    cases ho
  kernelPool := by
    intro i hi
    have hmarked := h.addressed.coherent.marked.marked .kernel i (by rwa [h.frames])
    have hmarked₀ := h₀.coherent.marked.marked .kernel i hi
    rw [h.base] at hmarked
    by_cases hset₀ : bitmapScanTest (m₀.pools .kernel).poolBitmap i = true
    · obtain ⟨o, ho, hown⟩ := hmarked₀.mp hset₀
      left
      rw [hset₀]
      exact hmarked.mpr ⟨o, ho, h.owns_of_start hown⟩
    by_cases hset : bitmapScanTest (t.machine.pools .kernel).poolBitmap i = true
    swap
    · left
      rw [Bool.not_eq_true] at hset hset₀
      rw [hset, hset₀]
    obtain ⟨o, ho, hown⟩ := hmarked.mp hset
    by_cases htable : ∃ e, o = .table m₀.cr3 e
    swap
    · exfalso
      apply hset₀
      apply hmarked₀.mpr ⟨o, ho, _⟩
      rw [← hown, ← Layout.owns, ← Layout.owns, h.owns_eq hlive fun e heq => htable ⟨e, heq⟩]
    obtain ⟨e, rfl⟩ := htable
    obtain ⟨hspace, he, hword⟩ := h.addressed.coherent.encoded.tableEntry _ _ _ hown
    rw [h.spaces] at hspace
    refine .inr ⟨by rwa [Bool.not_eq_true] at hset₀, e, he, ?_, by rw [h.cr3, hword]⟩
    apply h₀.coherent.encoded.noTable _ hspace e he
    by_contra hne
    obtain ⟨f, hf⟩ := Option.ne_none_iff_exists'.mp hne
    obtain rfl := Option.some.inj ((h.tables e f hf).symm.trans hown)
    exact hset₀ (hmarked₀.mpr ⟨_, rfl, hf⟩)
  vaddrs := by
    intro pf i hi
    obtain ⟨hbase, hpages⟩ := h.sizes pf
    rw [Bool.eq_iff_iff, (h.addressed.tracked pf trivial).test_iff (by rwa [hpages]),
      (h₀.tracked pf trivial).test_iff hi, hbase, h.cr3, ← Layout.owns, ← Layout.owns,
      h.owns_eq hlive]
    cases pf <;> simp [Owner.ofPage]
  walks := by
    intro x hx
    rw [h.cr3]
    apply h₀.coherent.walk_congr h.addressed.coherent _ _ _ hx
    · rw [h.spaces]
      exact hspace.imp_right fun hs => ⟨hs, hs⟩
    · exact fun n => h.owns_eq hlive (by simp)
    · exact fun n => h.owns_eq hlive (by simp)

/-- At the start nothing is live. -/
theorem Addressed.holding {m : Machine} {G : Layout} (h : Addressed .univ m G)
    (hspace : m.cr3 ∈ G.spaces ∨ (m.vaddrs .user).pages = 0) : Holding m G G ⟨m, []⟩ where
  addressed := h
  space := hspace
  cr3 := rfl
  dirs := rfl
  spaces := rfl
  base := fun _ => rfl
  frames := fun _ => rfl
  sizes := fun _ => ⟨rfl, rfl⟩
  aligned := by simp
  owned := by simp
  apart := .nil
  kept := fun _ _ _ => rfl
  tables := fun _ _ hf => hf

/-- A task without an address space has no bitmap of user pages. -/
theorem Sound.space_or (hs : Sound s G) :
    s.machine.cr3 ∈ G.spaces ∨ (s.machine.vaddrs .user).pages = 0 := by
  obtain ⟨hnone, -⟩ | ⟨-, hspace⟩ := hs.cr3_cases
  · have hlen := hs.bare _ hs.running_mem hnone
    exact .inr (congrArg (8 * ·) hlen)
  · exact .inl hspace

/-- From any reachable state on, live pages are never aliased, and freeing undoes allocating. -/
theorem pages_never_aliased (h : memoryCalls.Reachable s)
    (hrun : (pageCalls s.machine).Reachable t) :
    Unaliased t ∧ (t.live = [] → Restored s.machine t.machine) := by
  obtain ⟨G₀, hs⟩ := memoryCalls_sound h
  have hinv : ∃ G, Holding s.machine G₀ G t := by
    apply hrun.invariant (I := fun t => ∃ G, Holding s.machine G₀ G t)
    · rintro t rfl
      exact ⟨G₀, hs.addressed.holding hs.space_or⟩
    · rintro t call u ⟨G, hh⟩ hstep
      exact hh.step hs.addressed hstep
  obtain ⟨G, hh⟩ := hinv
  exact ⟨hh.unaliased hs.addressed,
    hh.restored hs.addressed (hs.cr3_cases.imp (fun h => h.2) fun h => h.2)⟩

/-- After power on the first bits of the pools and of the heap are clear. -/
theorem boot4M_clear (pf : PoolFlags) : 0 ∈ (boot4M.machine.pools pf).poolBitmap.free := by
  rw [Bitmap.mem_free]
  cases pf <;> exact ⟨by decide, bitmapInit_test _ (by decide)⟩

theorem boot4M_fits : (boot4M.machine.vaddrs .kernel).vaddrBitmap.Fits 1 0 := by
  refine ⟨by decide, fun j h1 h2 => ?_⟩
  obtain rfl : j = 0 := by omega
  exact bitmapInit_test _ (by decide)

/-- After power on `malloc_page` has the first page of the heap. -/
theorem boot4M_page : ∃ v m, mallocPage boot4M.machine .kernel 1 = .ok (some v, m) ∧
    (boot4M.machine.vaddrs .kernel).Covers v 1 := by
  have hs : Sound boot4M bootLayout := sound_boot fun _ _ _ _ => rfl
  have hlen : (boot4M.machine.vaddrs .kernel).vaddrBitmap.btmpBytesLen = 32 := by decide
  have hclear := boot4M_clear
  have hheap := boot4M_fits
  have hprov : Provided boot4M.machine .kernel 1 := by
    refine ⟨⟨0, (Bitmap.mem_free _ _).mpr ⟨by omega, hheap.2 0 le_rfl one_pos⟩⟩,
      .inr ⟨0, ⟨⟨hheap.2, by omega⟩, fun _ _ => Nat.zero_le _⟩, hheap.1, by simp,
        Finset.card_pos.mpr ⟨0, hclear .kernel⟩, ?_⟩⟩
    rw [hs.coherent.bare_kernel hs.cr3_mem]
    · exact Nat.zero_le _
    · intro i hi
      obtain rfl : i = 0 := by omega
      change 0xc0100 ≤ 0xc0100 ∧ 0xc0100 < 0xffc00
      decide
  obtain ⟨r, m, hmal, -, hgrant⟩ :=
    (hs.addressed.allOrNothing_iff trivial (by norm_num) (by simp)).mpr hprov
  cases r with
  | none => exact absurd rfl (mallocPage_none hmal).2
  | some v =>
    obtain ⟨i, rfl, hfits, -⟩ := (hgrant v rfl).run
    have hend : i + 1 ≤ 256 := by
      rw [hlen] at hfits
      exact hfits
    have hbase : (boot4M.machine.vaddrs .kernel).base = 0xc0100 := hs.kernelBase
    have hpages : (boot4M.machine.vaddrs .kernel).pages = 256 := congrArg (8 * ·) hlen
    have hstart : (boot4M.machine.vaddrs .kernel).vaddrStart = 0xc0100000 := rfl
    refine ⟨_, m, hmal, ?_, ?_⟩
    · rw [hbase, hstart]
      omega
    · rw [hbase, hstart, hpages]
      unfold pgSize
      omega

/-- After power on a page of the heap is taken and given back. -/
theorem pages_never_aliased_boot : ∃ v m m', mallocPage boot4M.machine .kernel 1 = .ok (some v, m) ∧
    mfreePage m .kernel v 1 = .ok m' ∧ Unaliased ⟨m, [⟨.kernel, v, 1⟩]⟩ ∧
    Restored boot4M.machine m' := by
  obtain ⟨v, m, hmal, hin⟩ := boot4M_page
  have hstart : (pageCalls boot4M.machine).Reachable ⟨boot4M.machine, []⟩ := ⟨_, [], rfl, .nil⟩
  have htaken := hstart.step (.mallocPage hmal hin)
  obtain ⟨hun, -⟩ := pages_never_aliased boot4M_reachable htaken
  obtain ⟨m', hfree⟩ := hun.freed _ List.mem_cons_self
  have hgiven := htaken.step (.mfreePage List.mem_cons_self hfree)
  refine ⟨v, m, m', hmal, hfree, hun, (pages_never_aliased boot4M_reachable hgiven).2 ?_⟩
  simp

end Results

end X86System.Memory
