import X86System.HeapStarts

/-!
# Runs of a heap

The calls of one thread on one set of descriptors, in any order: `sys_malloc`, `sys_free` of what
is live, writes to live blocks, and pages of its own. Each reachable state is safe, and no
assertion of the two functions fails.
-/
namespace X86System.Memory
open Exec NodeWords Paging

section Calls

/-- A process hides its directory for calls on the heap of the kernel, as `inode_open` does. -/
def Machine.hidePgdir (m : Machine) : Machine :=
  m.setTask m.running { m.tasks m.running with pgdir := none }

/-- The running thread with the heap that is its own, or with the kernel's. -/
inductive HeapContext (s : State) : Machine → Prop
  | own : HeapContext s s.machine
  | kernel : HeapContext s s.machine.hidePgdir

/-- The allocator, the blocks that were handed out, and other pages of the thread. -/
structure HeapState where
  alloc : Allocator
  live : List Block
  pages : List Allocation

inductive HeapCall
  | sysMalloc (size : ℕ)
  | sysFree (b : Block)
  | store (vaddr w : ℕ)
  | mallocPage (pf : PoolFlags) (pgCnt : ℕ)
  | mfreePage (p : Allocation)

/-- One call of the thread. -/
inductive HeapStep (img : KernelImage) (t : HeapState) : HeapCall → HeapState → Prop
  | sysMalloc {size e : ℕ} {x : Allocator} : sysMalloc img t.alloc size = .ok (some e, x) →
      HeapStep img t (.sysMalloc size) ⟨x, ⟨e, size⟩ :: t.live, t.pages⟩
  | sysMallocFails {size : ℕ} {x : Allocator} : sysMalloc img t.alloc size = .ok (none, x) →
      HeapStep img t (.sysMalloc size) ⟨x, t.live, t.pages⟩
  | sysFree {b : Block} {x : Allocator} : b ∈ t.live → sysFree t.alloc b.addr = .ok x →
      HeapStep img t (.sysFree b) ⟨x, t.live.erase b, t.pages⟩
  | store {b : Block} {vaddr w : ℕ} {m : Machine} : b ∈ t.live → vaddr % 4 = 0 →
      b.addr ≤ vaddr → vaddr < b.addr + b.size → t.alloc.machine.store vaddr w = .ok m →
      HeapStep img t (.store vaddr w) ⟨{ t.alloc with machine := m }, t.live, t.pages⟩
  | mallocPage {pf : PoolFlags} {pgCnt vaddr : ℕ} {m : Machine} :
      (pf = .user → t.alloc.machine.poolFlags = .user) →
      mallocPage t.alloc.machine pf pgCnt = .ok (some vaddr, m) →
      HeapStep img t (.mallocPage pf pgCnt)
        ⟨{ t.alloc with machine := m }, t.live, ⟨pf, vaddr, pgCnt⟩ :: t.pages⟩
  | mfreePage {p : Allocation} {m : Machine} : p ∈ t.pages →
      mfreePage t.alloc.machine p.pf p.vaddr p.pgCnt = .ok m →
      HeapStep img t (.mfreePage p) ⟨{ t.alloc with machine := m }, t.live, t.pages.erase p⟩

/-- The calls of a thread from the `block_desc_init` of its descriptors on. -/
def heapCalls (img : KernelImage) (m : Machine) : Transition.System HeapState HeapCall where
  start t := ∃ m' locks, blockDescInit m (img.descs m) = .ok m' ∧ t = ⟨⟨m', locks⟩, [], []⟩
  step := HeapStep img

/-- What a chart tells about the memory of a machine and about the live blocks. -/
structure HeapSafe (descs : ℕ) (m : Machine) (live : List Block) (C : Chart) : Prop where
  apart : live.Pairwise fun b c => b.addr + b.size ≤ c.addr ∨ c.addr + c.size ≤ b.addr
  /-- A live block lies in its arena, behind the header. -/
  inside : ∀ b ∈ live, ∃ κ, C.arenas (block2arena b.addr) = some κ ∧
    block2arena b.addr + arenaSize ≤ b.addr ∧
    b.addr + b.size ≤ block2arena b.addr + κ.pgCnt * pgSize ∧
    ∀ k, κ = .small k → Cell C k (block2arena b.addr) b.addr ∧ b.size ≤ classSize k
  mapped : ∀ a κ, C.arenas a = some κ → ∀ i < κ.pgCnt, walk m.ram m.cr3 (a + i * pgSize) ≠ none
  small : ∀ a k, C.arenas a = some (.small k) → k < descCnt ∧
    m.load (descOf a) = .ok (descAt descs k) ∧ m.load (largeOf a) = .ok 0 ∧
    m.load (cntOf a) = .ok ((C.free k).countP fun e => block2arena e = a)
  large : ∀ a n, C.arenas a = some (.large n) →
    m.load (descOf a) = .ok 0 ∧ m.load (largeOf a) = .ok 1 ∧ m.load (cntOf a) = .ok n
  /-- The free lists are in memory, linked in both directions. -/
  linked : ∀ k < descCnt, ∀ l₁ a b l₂,
    nodes (freeListAt descs k) (C.free k) = l₁ ++ a :: b :: l₂ →
      m.load (nextOf a) = .ok b ∧ m.load (prevOf b) = .ok a
  nodup : ∀ k, (C.free k).Nodup
  free : ∀ k e, e ∈ C.free k ↔ (∃ a, Cell C k a e) ∧ ∀ b ∈ live, b.addr ≠ e
  inUse : InUse C live

end Calls

section Safety

variable {m₀ m : Machine} {G₀ G : Layout} {pf : PoolFlags} {descs : ℕ}
  {all others : List Allocation} {C : Chart} {mem : ℕ → ℕ} {live : List Block} {b c : Block}

/-- Two live blocks do not overlap. -/
theorem Charted.apart (h : Charted C live) (hp : Parted C descs) (hb : b ∈ live) (hc : c ∈ live)
    (hne : b.addr ≠ c.addr) : b.addr + b.size ≤ c.addr ∨ c.addr + c.size ≤ b.addr := by
  have hsmall {a a' k n : ℕ} {d e : Block} (hd : Cell C k a d.addr) (hs : d.size ≤ classSize k)
      (ha : C.arenas a' = some (.large n)) (he : e.addr = a' + arenaSize)
      (hfit : e.size + arenaSize ≤ n * pgSize) :
      d.addr + d.size ≤ e.addr ∨ e.addr + e.size ≤ d.addr := by
    obtain ⟨-, h1, h2, h3, -, h4, -⟩ := h.cell hd
    have halign := h.aligned a' _ ha
    have hnot : a ≠ a' := by
      rintro rfl
      have hkind := hd.arena.symm.trans ha
      cases hkind
    unfold arenaSize pgSize at *
    by_contra hover
    exact hp.arenas a _ a' _ hd.arena ha hnot 0 one_pos (a / 4096 - a' / 4096)
      (show _ < n by omega) (by omega)
  cases h.lies b hb with
  | @small k a hcell hs =>
    cases h.lies c hc with
    | @small k' a' hcell' hs' =>
      have := h.cell_apart hcell hcell' hne
      omega
    | @large a' n ha' haddr hlt hfit => exact hsmall hcell hs ha' haddr hfit
  | @large a n ha haddr hlt hfit =>
    cases h.lies c hc with
    | @small k' a' hcell' hs' => exact (hsmall hcell' hs' ha haddr hfit).symm
    | @large a' n' ha' haddr' hlt' hfit' =>
      have halign := h.aligned a _ ha
      have halign' := h.aligned a' _ ha'
      have hnot : a ≠ a' := by omega
      unfold arenaSize pgSize at *
      by_contra hover
      by_cases hle : a ≤ a'
      · exact hp.arenas a _ a' _ ha ha' hnot (a' / 4096 - a / 4096) (show _ < n by omega) 0
          (show _ < n' by omega) (by omega)
      · exact hp.arenas a _ a' _ ha ha' hnot 0 (show _ < n by omega) (a / 4096 - a' / 4096)
          (show _ < n' by omega) (by omega)

/-- Where a live block lies in its arena. -/
theorem Shows.inside (hg : Ground m₀ G₀ pf descs)
    (h : Shows m₀ G₀ pf descs G all C mem m live others) (hb : b ∈ live) :
    ∃ κ, C.arenas (Memory.block2arena b.addr) = some κ ∧ Memory.block2arena b.addr + arenaSize ≤ b.addr ∧
      b.addr + b.size ≤ Memory.block2arena b.addr + κ.pgCnt * pgSize ∧
      ∀ k, κ = .small k → Cell C k (Memory.block2arena b.addr) b.addr ∧ b.size ≤ classSize k := by
  cases h.charted.lies b hb with
  | @small k a hc hs =>
    obtain ⟨-, h1, h2, h3, -, h4, -⟩ := h.charted.cell hc
    rw [h.block2arena hg hc.arena (by omega) (by omega)]
    refine ⟨_, hc.arena, by unfold arenaSize; omega, ?_, fun j hj => ?_⟩
    · change _ ≤ a + 1 * pgSize
      unfold pgSize
      omega
    · obtain rfl : k = j := by simpa using hj
      exact ⟨hc, hs⟩
  | @large a n ha haddr hlt hfit =>
    have hpage : Memory.block2arena b.addr = a :=
      h.block2arena hg ha (by omega) (by unfold arenaSize at haddr; omega)
    rw [hpage]
    refine ⟨_, ha, by omega, ?_, fun j hj => by cases hj⟩
    change _ ≤ a + n * pgSize
    omega

theorem Shows.safe (hg : Ground m₀ G₀ pf descs)
    (h : Shows m₀ G₀ pf descs G all C mem m live others) (huse : InUse C live) :
    HeapSafe descs m live C where
  apart := by
    have hnodup := h.charted.nodup
    rw [List.nodup_iff_pairwise_ne, List.pairwise_map] at hnodup
    exact hnodup.imp_of_mem fun hb hc hne =>
      h.charted.apart (h.charge.parted hg h.sees) hb hc hne
  inside := fun b hb => h.inside hg hb
  mapped := fun a κ ha i hi => by
    have halign := h.charted.aligned a κ ha
    obtain ⟨f, hf⟩ := (h.charge.founded hg h.sees).arenas a κ ha i hi
    have hpage : (a + i * pgSize) / 4096 = a / 4096 + i := by
      unfold pgSize
      omega
    rw [h.sees.walk (f := f) (by rwa [hpage])]
    simp
  small := fun a k ha => by
    obtain ⟨h1, h2, h3⟩ := h.written.small a k ha
    have hk := h.charted.classes a k ha
    refine ⟨hk, ?_, ?_, ?_⟩
    · rw [← h1]
      exact h.load hg (.header (c := 0) ha (by decide) rfl)
    · rw [← h3]
      exact h.load hg (.header (c := 8) ha (by decide) rfl)
    · have hcount : (C.free k).countP (fun e => Memory.block2arena e = a) = C.freeIn a := by
        rw [freeIn_small ha]
        refine List.countP_congr fun e he => ?_
        have hlt : e + 0 < 2 ^ 32 := h.sees.holding.addressed.coherent.data_lt
          (h.charted.managed_data (h.charge.founded hg h.sees) (.free he (by decide) rfl))
        rw [block2arena_eq (by omega)]
      rw [hcount, ← h2]
      exact h.load hg (.header (c := 4) ha (by decide) rfl)
  large := fun a n ha => by
    obtain ⟨h1, h2, h3⟩ := h.written.large a n ha
    refine ⟨?_, ?_, ?_⟩
    · rw [← h1]
      exact h.load hg (.header (c := 0) ha (by decide) rfl)
    · rw [← h3]
      exact h.load hg (.header (c := 8) ha (by decide) rfl)
    · rw [← h2]
      exact h.load hg (.header (c := 4) ha (by decide) rfl)
  linked := fun k hk l₁ a b l₂ heq => by
    have hl := h.written.threaded k hk
    have hs := h.charted.shaped (h.charge.parted hg h.sees) (h.charge.founded hg h.sees) hk
      (h.charted.cells_free k) (h.charted.free_nodup k)
    have hdata := hs.data
    rw [heq] at hl hdata
    obtain ⟨h1, h2⟩ := hl.neighbours
    constructor
    · rw [← h1]
      exact h.sees.load (hdata a (by simp)).2
    · rw [← h2]
      exact h.sees.load (hdata b (by simp)).1
  nodup := h.charted.free_nodup
  free := h.charted.mem_free
  inUse := huse

end Safety

section Contexts

variable {s : State} {m₀ m : Machine} {G₀ G : Layout} {F : Set PoolFlags} {f n : ℕ}

/-- The page of a PCB holds no directory. -/
theorem Sound.pcb_not_dir (hs : Sound s G) {p : ℕ} (hu : s.Uses (.pcb p) n)
    (hf : G.owns (.kernel n) = some f) : f ∉ G.dirs := by
  intro hd
  have hk := hs.coherent.marked.kernel_ge hf
  obtain ⟨q, hq, hproc, hdir⟩ := hs.dirs f hd (by unfold kernelDir; omega)
  obtain ⟨n', hn', ho'⟩ := pgdir_uses hq hproc hdir
  obtain rfl : n = n' := by simpa using G.ledger.inj hf ho'
  cases hs.uses_inj _ _ _ hu hn'

/-- The heap of the running thread. -/
theorem Sound.ground (hs : Sound s G) (img : KernelImage) :
    Ground s.machine G s.machine.poolFlags (img.descs s.machine) := by
  obtain ⟨hnone, -⟩ | ⟨hproc, hspace⟩ := hs.cr3_cases
  · have hpf : s.machine.poolFlags = .kernel := if_pos hnone
    have hlow := img.low
    have hhigh := img.high
    unfold KernelImage.descs
    rw [hpf]
    exact ⟨hs.addressed, by simp, by simp, img.aligned,
      fun x hlo hhi => .inl (by dsimp only at hlo hhi; omega)⟩
  · have hpf : s.machine.poolFlags = .user := if_neg hproc
    have halign := (hs.aligned _ hs.running_mem).1
    unfold KernelImage.descs
    rw [hpf]
    refine ⟨hs.addressed, fun _ => hspace, fun _ => ?_, by unfold uBlockDesc; dsimp only; omega,
      fun x hlo hhi => ?_⟩
    · obtain ⟨d, -, -, hsize⟩ := hs.user _ hs.running_mem hs.running_notMem
      obtain ⟨-, hstart, hlen⟩ := hsize hproc
      have := userSpace_end
      simp only [Machine.vaddrs, VirtualAddr.base, VirtualAddr.pages, hstart, hlen]
      omega
    have hpage : x / 4096 = s.machine.running / 4096 := by
      unfold uBlockDesc descCnt descSize at *
      dsimp only at hlo hhi
      omega
    rw [hpage]
    by_cases hmain : s.machine.running = mainThread
    · rw [hmain]
      exact .inl (by decide)
    · have huse : s.Uses (.pcb s.machine.running) (s.machine.running / 4096) :=
        ⟨hs.running_mem, hmain, rfl⟩
      obtain ⟨f, hf⟩ := hs.owned _ _ huse
      exact .inr ⟨f, hf, hs.pcb_not_dir huse hf⟩

theorem hidePgdir_vaddrs (m : Machine) (pf : PoolFlags) : m.hidePgdir.vaddrs pf = m.vaddrs pf := by
  cases pf with
  | kernel => rfl
  | user => simp [Machine.vaddrs, Machine.hidePgdir, Machine.setTask]

theorem Addressed.hidePgdir (h : Addressed F m G) : Addressed F m.hidePgdir G where
  coherent := ⟨h.coherent.marked, h.coherent.encoded⟩
  cr3_mem := h.cr3_mem
  held := h.held
  tracked := fun pf hpf => by
    rw [hidePgdir_vaddrs]
    exact h.tracked pf hpf
  kernelBase := h.kernelBase
  kernelPages := h.kernelPages
  userPages := fun hs => by
    rw [hidePgdir_vaddrs]
    exact h.userPages hs

/-- Each heap starts on ground of its own. -/
theorem Sound.context (hs : Sound s G) (hctx : HeapContext s m₀) (img : KernelImage) :
    Ground m₀ G m₀.poolFlags (img.descs m₀) ∧ Holding m₀ G G ⟨m₀, []⟩ := by
  cases hctx with
  | own => exact ⟨hs.ground img, hs.addressed.holding hs.space_or⟩
  | kernel =>
    have hpf : s.machine.hidePgdir.poolFlags = .kernel := by
      simp [Machine.poolFlags, Machine.hidePgdir, Machine.setTask]
    have hlow := img.low
    have hhigh := img.high
    constructor
    · unfold KernelImage.descs
      rw [hpf]
      exact ⟨hs.addressed.hidePgdir, by simp, by simp, img.aligned,
        fun x hlo hhi => .inl (by dsimp only at hlo hhi; omega)⟩
    · refine hs.addressed.hidePgdir.holding ?_
      rw [hidePgdir_vaddrs]
      exact hs.space_or

/-- The running thread keeps its pool and its descriptors. -/
theorem SameThread.poolFlags (h : SameThread m₀ m) : m.poolFlags = m₀.poolFlags := by
  unfold Machine.poolFlags
  rw [h.pgdir]

theorem SameThread.descs (h : SameThread m₀ m) (img : KernelImage) :
    img.descs m = img.descs m₀ := by
  unfold KernelImage.descs
  rw [h.poolFlags, h.running]

end Contexts

section Runs

variable {s : State} {m₀ : Machine} {G₀ : Layout} {img : KernelImage} {t u : HeapState}
  {live : List Block} {others : List Allocation} {x y : Allocator} {call : HeapCall} {b : Block}
  {size e : ℕ}

/-- The invariant of a heap with the pool and the descriptors of the running thread. -/
def HeapState.Inv (img : KernelImage) (m₀ : Machine) (G₀ : Layout) (t : HeapState) : Prop :=
  HeapInv m₀ G₀ m₀.poolFlags (img.descs m₀) t.alloc.machine t.live t.pages

theorem HeapInv.thread {pf : PoolFlags} {descs : ℕ} {m : Machine}
    (h : HeapInv m₀ G₀ pf descs m live others) : SameThread m₀ m := by
  obtain ⟨G, all, C, mem, hshow, -⟩ := h
  exact hshow.sees.thread

/-- What `sys_malloc` does: a block, NULL with the heap as before, or a fault of `malloc_page`. -/
theorem HeapInv.sysMalloc (hg : Ground m₀ G₀ m₀.poolFlags (img.descs m₀))
    (h : HeapInv m₀ G₀ m₀.poolFlags (img.descs m₀) x.machine live others) (size : ℕ) :
    (∃ e m, Memory.sysMalloc img x size = .ok (some e, { x with machine := m }) ∧
      Handed m₀ G₀ m₀.poolFlags (img.descs m₀) live others size e m) ∨
    Memory.sysMalloc img x size = .ok (none, x) ∨
    ∃ n err, Demand x.machine (img.descs m₀) size n ∧
      Memory.mallocPage x.machine m₀.poolFlags n = .error err ∧
      Memory.sysMalloc img x size = .error err := by
  rw [sysMalloc_eq, h.thread.poolFlags, h.thread.descs]
  obtain ⟨G, all, C, mem, hshow, huse⟩ := h
  by_cases hin : 0 < size ∧ size < (x.machine.pools m₀.poolFlags).poolSize
  swap
  · exact .inr (.inl (if_neg hin))
  rw [if_pos hin]
  by_cases hd : ∃ n, Demand x.machine (img.descs m₀) size n
  · obtain ⟨n, hd⟩ := hd
    obtain ⟨a, m₁, -, e, m', hrun, hhand⟩ | ⟨m₁, hmal, hrun⟩ | ⟨err, hmal, hrun⟩ :=
      hshow.malloc_demand hg huse hd
    · exact .inl ⟨e, m', by rw [hrun]; rfl, hhand⟩
    · obtain ⟨rfl, -⟩ := mallocPage_none hmal
      exact .inr (.inl (by rw [hrun]; rfl))
    · exact .inr (.inr ⟨n, err, hd, hmal, by rw [hrun]; rfl⟩)
  · obtain ⟨e, m', hrun, hhand⟩ := hshow.malloc_free hg huse (not_exists.mp hd)
    exact .inl ⟨e, m', by rw [hrun]; rfl, hhand⟩

/-- The assertions at the start of `sys_free`. -/
theorem HeapInv.live_addr {pf : PoolFlags} {descs : ℕ} {m : Machine}
    (h : HeapInv m₀ G₀ pf descs m live others) (hb : b ∈ live) :
    b.addr ≠ 0 ∧ (pf = .kernel → b.addr ≥ 0xc0100000) := by
  obtain ⟨G, all, C, mem, hshow, -⟩ := h
  obtain ⟨harena, hlo⟩ := hshow.charted.lies_page (hshow.charted.lies b hb)
  obtain ⟨κ, hκ⟩ := Option.ne_none_iff_exists'.mp harena
  refine ⟨by omega, ?_⟩
  rintro rfl
  have hmem := hshow.charge.arenas _ κ hκ
  obtain ⟨-, f, hf⟩ := hshow.sees.holding.owned _ hmem _
    (Allocation.mem_owners (hshow.sees.holding.aligned _ hmem).2)
  have hpage := (hshow.sees.holding.addressed.coherent.encoded.kernelPage _ f hf).1.1
  dsimp only at hpage
  omega

/-- The pages that the heap asks for are there if and only if they are served. -/
theorem HeapInv.mallocPage_returns_iff {pf : PoolFlags} {descs n : ℕ} {m : Machine}
    (hg : Ground m₀ G₀ pf descs) (h : HeapInv m₀ G₀ pf descs m live others) (hn : 0 < n) :
    (∃ r, Memory.mallocPage m pf n = .ok r) ↔ Served m pf n := by
  obtain ⟨G, all, C, mem, hshow, -⟩ := h
  have hh := hshow.sees.holding
  refine hh.addressed.mallocPage_returns_iff (Set.mem_univ pf) hn fun hpf => .inr ⟨?_, ?_⟩
  · have hcr3 : m.cr3 = m₀.cr3 := hh.cr3
    rw [hh.spaces, hcr3]
    exact hg.space hpf
  · have hsizes := hh.sizes .user
    dsimp only at hsizes
    rw [hsizes.1, hsizes.2]
    exact hg.top hpf

theorem Demand.pos {m : Machine} {descs size n : ℕ} (h : Demand m descs size n) : 0 < n := by
  cases h with
  | large hsize => exact Nat.div_pos (by unfold arenaSize pgSize; omega) (by unfold pgSize; omega)
  | small hk hempty => exact one_pos

/-- `sys_malloc` returns if and only if the pages that it asks for are served. -/
theorem HeapInv.sysMalloc_returns_iff (hg : Ground m₀ G₀ m₀.poolFlags (img.descs m₀))
    (h : HeapInv m₀ G₀ m₀.poolFlags (img.descs m₀) x.machine live others) (size : ℕ) :
    (∃ r, Memory.sysMalloc img x size = .ok r) ↔
      (0 < size → size < (x.machine.pools m₀.poolFlags).poolSize →
        ∀ n, Demand x.machine (img.descs m₀) size n → Served x.machine m₀.poolFlags n) := by
  have hserved {n : ℕ} (hn : 0 < n) := h.mallocPage_returns_iff hg hn
  rw [sysMalloc_eq, h.thread.poolFlags, h.thread.descs]
  obtain ⟨G, all, C, mem, hshow, huse⟩ := h
  by_cases hin : 0 < size ∧ size < (x.machine.pools m₀.poolFlags).poolSize
  swap
  · rw [if_neg hin]
    exact iff_of_true ⟨_, rfl⟩ fun h1 h2 => absurd ⟨h1, h2⟩ hin
  rw [if_pos hin]
  simp only [hin, true_imp_iff]
  constructor
  · rintro ⟨r, hrun⟩ n hd
    refine (hserved hd.pos).mp ?_
    obtain ⟨a, m₁, hmal, -⟩ | ⟨m₁, hmal, -⟩ | ⟨err, -, hblock⟩ := hshow.malloc_demand hg huse hd
    · exact ⟨_, hmal⟩
    · exact ⟨_, hmal⟩
    · rw [hblock] at hrun
      cases hrun
  · intro hall
    by_cases hd : ∃ n, Demand x.machine (img.descs m₀) size n
    · obtain ⟨n, hd⟩ := hd
      obtain ⟨r, hmal⟩ := (hserved hd.pos).mpr (hall n hd)
      obtain ⟨a, m₁, -, e, m', hblock, -⟩ | ⟨m₁, -, hblock⟩ | ⟨err, hmal', -⟩ :=
        hshow.malloc_demand hg huse hd
      · exact ⟨_, by rw [hblock]; rfl⟩
      · exact ⟨_, by rw [hblock]; rfl⟩
      · cases hmal'.symm.trans hmal
    · obtain ⟨e, m', hblock, -⟩ := hshow.malloc_free hg huse (not_exists.mp hd)
      exact ⟨_, by rw [hblock]; rfl⟩

/-- A small block is handed out whenever one page is served. -/
theorem HeapInv.sysMalloc_small (hg : Ground m₀ G₀ m₀.poolFlags (img.descs m₀))
    (h : HeapInv m₀ G₀ m₀.poolFlags (img.descs m₀) x.machine live others) {size : ℕ}
    (hpos : 0 < size) (hlt : size < (x.machine.pools m₀.poolFlags).poolSize) (hsize : size ≤ 1024)
    (hserved : Served x.machine m₀.poolFlags 1) :
    ∃ e y, Memory.sysMalloc img x size = .ok (some e, y) := by
  obtain ⟨r, hmal⟩ := (h.mallocPage_returns_iff hg one_pos).mpr hserved
  rw [sysMalloc_eq, h.thread.poolFlags, h.thread.descs, if_pos ⟨hpos, hlt⟩]
  obtain ⟨G, all, C, mem, hshow, huse⟩ := h
  by_cases hd : ∃ n, Demand x.machine (img.descs m₀) size n
  · obtain ⟨n, hd⟩ := hd
    obtain rfl : n = 1 := by
      cases hd with
      | large hlarge => omega
      | small => rfl
    obtain ⟨a, m₁, -, e, m', hblock, -⟩ | ⟨m₁, hnone, -⟩ | ⟨err, hmal', -⟩ :=
      hshow.malloc_demand hg huse hd
    · exact ⟨e, _, by rw [hblock]; rfl⟩
    · exact absurd rfl (mallocPage_none hnone).2
    · cases hmal'.symm.trans hmal
  · obtain ⟨e, m', hblock, -⟩ := hshow.malloc_free hg huse (not_exists.mp hd)
    exact ⟨e, _, by rw [hblock]; rfl⟩

/-- Where the header of a live block is. -/
theorem HeapInv.live_page {pf : PoolFlags} {descs : ℕ} {m : Machine} (hg : Ground m₀ G₀ pf descs)
    (h : HeapInv m₀ G₀ pf descs m live others) (hb : b ∈ live) :
    b.addr % 4 = 0 ∧ block2arena b.addr = b.addr / 4096 * 4096 := by
  obtain ⟨G, all, C, mem, hshow, -⟩ := h
  have hlies := hshow.charted.lies b hb
  constructor
  · cases hlies with
    | small hc _ =>
      obtain ⟨-, -, -, -, h1, -⟩ := hshow.charted.cell hc
      omega
    | large ha haddr _ _ =>
      have halign := hshow.charted.aligned _ _ ha
      unfold arenaSize at haddr
      omega
  · obtain ⟨harena, -⟩ := hshow.charted.lies_page hlies
    obtain ⟨κ, hκ⟩ := Option.ne_none_iff_exists'.mp harena
    exact hshow.block2arena hg hκ (by omega) (by omega)

/-- `sys_free` of a live block returns. -/
theorem HeapInv.sysFree (hg : Ground m₀ G₀ m₀.poolFlags (img.descs m₀))
    (h : HeapInv m₀ G₀ m₀.poolFlags (img.descs m₀) x.machine live others) (hb : b ∈ live) :
    ∃ m, Memory.sysFree x b.addr = .ok { x with machine := m } ∧
      Freed m₀ G₀ m₀.poolFlags (img.descs m₀) live others b m := by
  obtain ⟨m, hrun, hfreed⟩ := h.freeBlock hg hb
  obtain ⟨hzero, hhigh⟩ := h.live_addr hb
  refine ⟨m, ?_, hfreed⟩
  unfold Memory.sysFree
  rw [ensure_of hzero, ok_bind, h.thread.poolFlags]
  dsimp only
  rw [ensure_of hhigh, ok_bind]
  change (Memory.freeBlock x.machine m₀.poolFlags b.addr >>= _) = _
  rw [hrun, ok_bind]
  unfold Allocator.lockRelease Allocator.lockAcquire
  rw [ensure_of (by simp), ok_bind]
  simp

theorem HeapState.Inv.step (hg : Ground m₀ G₀ m₀.poolFlags (img.descs m₀)) (h : t.Inv img m₀ G₀)
    (hstep : HeapStep img t call u) : u.Inv img m₀ G₀ := by
  have hthread := HeapInv.thread h
  cases hstep with
  | sysMalloc hrun =>
    obtain ⟨e, m, hrun', hhand⟩ | hrun' | ⟨-, err, -, -, hrun'⟩ := HeapInv.sysMalloc hg h _
    · cases hrun'.symm.trans hrun
      exact hhand.inv
    · cases hrun'.symm.trans hrun
    · cases hrun'.symm.trans hrun
  | sysMallocFails hrun =>
    obtain ⟨e, m, hrun', -⟩ | hrun' | ⟨-, err, -, -, hrun'⟩ := HeapInv.sysMalloc hg h _
    · cases hrun'.symm.trans hrun
    · cases hrun'.symm.trans hrun
      exact h
    · cases hrun'.symm.trans hrun
  | sysFree hb hrun =>
    obtain ⟨m, hrun', hfreed⟩ := HeapInv.sysFree hg h hb
    cases hrun'.symm.trans hrun
    exact hfreed.inv
  | store hb hv hlo hhi hrun => exact HeapInv.store hg h hb hv hlo hhi hrun
  | mallocPage hspace hrun =>
    exact HeapInv.mallocPage hg h (fun hpf => hg.space (by rw [← hthread.poolFlags, hspace hpf])) hrun
  | mfreePage hp hrun => exact HeapInv.mfreePage hg h hp hrun

theorem heapCalls_inv (hs : memoryCalls.Reachable s) (hctx : HeapContext s m₀)
    (hrun : (heapCalls img m₀).Reachable t) : ∃ G₀,
      Ground m₀ G₀ m₀.poolFlags (img.descs m₀) ∧ t.Inv img m₀ G₀ := by
  obtain ⟨G₀, hsound⟩ := memoryCalls_sound hs
  obtain ⟨hg, hstart⟩ := hsound.context hctx img
  refine ⟨G₀, hg, ?_⟩
  apply hrun.invariant (I := HeapState.Inv img m₀ G₀)
  · rintro t ⟨m, locks, hinit, rfl⟩
    obtain ⟨m', hinit', hinv⟩ := hg.start hstart
    cases hinit'.symm.trans hinit
    exact hinv
  · exact fun t call u hinv hstep => hinv.step hg hstep

/-- Where the linker may put `k_block_descs`. -/
def bootImage : KernelImage := ⟨0xc0010000, by decide, by decide, by decide⟩

/-- After power on and `block_desc_init` a page can be had, and a block of 16 bytes. -/
theorem boot4M_start : ∃ m, blockDescInit boot4M.machine bootImage.kBlockDescs = .ok m ∧
    (heapCalls bootImage boot4M.machine).Reachable ⟨⟨m, fun _ => 0⟩, [], []⟩ ∧
    Served m .kernel 1 ∧ ∃ e x, sysMalloc bootImage ⟨m, fun _ => 0⟩ 16 = .ok (some e, x) := by
  have hs : Sound boot4M bootLayout := sound_boot fun _ _ _ _ => rfl
  obtain ⟨hg, hhold⟩ := hs.context .own bootImage
  obtain ⟨m, hinit, hinv⟩ := hg.start hhold
  obtain ⟨ram, hm⟩ := blockDescInitLoop_setRam hinit
  have hserved : Served m .kernel 1 := by
    obtain ⟨G, all, C, mem, hshow, -⟩ := id hinv
    have ha := hshow.sees.holding.addressed
    have hbase : (m.vaddrs .kernel).base = 0xc0100 := ha.kernelBase
    have hbare : m.bare ((m.vaddrs .kernel).base + 0) 1 = ∅ := by
      refine ha.coherent.bare_kernel ha.cr3_mem fun i hi => ?_
      rw [hbase]
      exact ⟨by omega, by omega⟩
    refine ⟨by norm_num, ?_, .inr ⟨0, ?_, by simp, ?_, by rw [hbare]; exact Nat.zero_le _⟩⟩
    · rw [hm]
      change (boot4M.machine.vaddrs .kernel).vaddrBitmap.free.Nonempty
      exact ⟨0, (Bitmap.mem_free _ _).mpr ⟨by decide, boot4M_fits.2 0 le_rfl one_pos⟩⟩
    · rw [hm]
      change IsLeast ((boot4M.machine.vaddrs .kernel).vaddrBitmap.Seen 1) 0
      exact ⟨⟨boot4M_fits.2, by decide⟩, fun _ _ => Nat.zero_le _⟩
    · rw [hm]
      exact Finset.card_pos.mpr ⟨0, boot4M_clear .kernel⟩
  have hlt : 16 < (m.pools .kernel).poolSize := by
    rw [hm]
    change 16 < (boot4M.machine.pools .kernel).poolSize
    decide
  exact ⟨m, hinit, ⟨_, [], ⟨m, fun _ => 0, hinit, rfl⟩, .nil⟩, hserved,
    HeapInv.sysMalloc_small hg hinv (by norm_num) hlt (by norm_num) hserved⟩

/-- In every run a chart accounts for memory and for the live blocks, a new block is filled with
zeros, no assertion of the two functions fails, and a page goes with the last live block in it. -/
theorem heap_safe (hs : memoryCalls.Reachable s) (hctx : HeapContext s m₀)
    (hrun : (heapCalls img m₀).Reachable t) :
    (∃ C, HeapSafe (img.descs m₀) t.alloc.machine t.live C) ∧
    (∀ size e x, sysMalloc img t.alloc size = .ok (some e, x) → e % 4 = 0 ∧
      ∀ v, v % 4 = 0 → e ≤ v → v < e + size → x.machine.load v = .ok 0) ∧
    (∀ size err, sysMalloc img t.alloc size = .error err →
      ∃ n, Demand t.alloc.machine (img.descs m₀) size n ∧
        mallocPage t.alloc.machine t.alloc.machine.poolFlags n = .error err) ∧
    ∀ b ∈ t.live, ∃ x, sysFree t.alloc b.addr = .ok x ∧
      (walk x.machine.ram x.machine.cr3 (block2arena b.addr) = none ↔
        ∀ c ∈ t.live.erase b, block2arena c.addr ≠ block2arena b.addr) := by
  obtain ⟨G₀, hg, h⟩ := heapCalls_inv hs hctx hrun
  have hthread := HeapInv.thread h
  refine ⟨?_, fun size e x hmal => ?_, fun size err hmal => ?_, fun b hb => ?_⟩
  · obtain ⟨G, all, C, mem, hshow, huse⟩ := h
    exact ⟨C, hshow.safe hg huse⟩
  · obtain ⟨e, m, hrun', hhand⟩ | hrun' | ⟨-, err, -, -, hrun'⟩ := HeapInv.sysMalloc hg h size
    · cases hrun'.symm.trans hmal
      exact ⟨(hhand.inv.live_page hg List.mem_cons_self).1, hhand.zero⟩
    · cases hrun'.symm.trans hmal
    · cases hrun'.symm.trans hmal
  · obtain ⟨e, m, hrun', -⟩ | hrun' | ⟨n, err, hd, hpage, hrun'⟩ := HeapInv.sysMalloc hg h size
    · cases hrun'.symm.trans hmal
    · cases hrun'.symm.trans hmal
    · cases hrun'.symm.trans hmal
      rw [hthread.poolFlags]
      exact ⟨n, hd, hpage⟩
  · obtain ⟨m, hrun', hfreed⟩ := HeapInv.sysFree hg h hb
    have hpage {c : Block} (hc : c ∈ t.live) : block2arena c.addr = c.addr / 4096 * 4096 :=
      (HeapInv.live_page hg h hc).2
    refine ⟨_, hrun', ?_⟩
    rw [hpage hb, hfreed.page]
    refine forall₂_congr fun c hc => not_congr ?_
    rw [hpage (List.mem_of_mem_erase hc)]
    omega

/-- After power on a block of 16 bytes is handed out and taken back, with its page. -/
theorem heap_safe_boot : ∃ m e x y, blockDescInit boot4M.machine bootImage.kBlockDescs = .ok m ∧
    sysMalloc bootImage ⟨m, fun _ => 0⟩ 16 = .ok (some e, x) ∧
    (∃ C, HeapSafe bootImage.kBlockDescs x.machine [⟨e, 16⟩] C) ∧ sysFree x e = .ok y ∧
    walk y.machine.ram y.machine.cr3 (block2arena e) = none := by
  obtain ⟨m, hinit, hstart, -, e, x, hmal⟩ := boot4M_start
  have htaken := hstart.step (.sysMalloc hmal)
  obtain ⟨hsafe, -, -, hfree⟩ := heap_safe boot4M_reachable .own htaken
  obtain ⟨y, hy, hpage⟩ := hfree _ List.mem_cons_self
  exact ⟨m, e, x, y, hinit, hmal, hsafe, hy, hpage.mpr (by simp)⟩

end Runs

end X86System.Memory
