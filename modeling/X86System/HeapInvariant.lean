import X86System.HeapSpelling

/-!
# The invariant of a heap

A machine shows a chart when its memory spells the chart out and the pages of the arenas are
among those that were handed out. Every part of `sys_malloc` and `sys_free` takes a machine
that shows one chart to a machine that shows the next one.
-/
namespace X86System.Memory
open Exec NodeWords

/-- Where a heap starts: the descriptors are in words of data that nobody hands out. -/
structure Ground (m₀ : Machine) (G₀ : Layout) (pf : PoolFlags) (descs : ℕ) : Prop where
  addressed : Addressed .univ m₀ G₀
  space : pf = .user → m₀.cr3 ∈ G₀.spaces
  top : pf = .user → (m₀.vaddrs .user).base + (m₀.vaddrs .user).pages = 0xc0000
  aligned : descs % 4 = 0
  pages : ∀ x, descs ≤ x → x < descs + descCnt * descSize →
    (0xc0000 ≤ x / 4096 ∧ x / 4096 < 0xc0100) ∨
      ∃ f, G₀.owns (.kernel (x / 4096)) = some f ∧ f ∉ G₀.dirs

/-- The arenas are among the pages that were handed out, apart from those of others. -/
structure Charge (pf : PoolFlags) (all : List Allocation) (C : Chart) (others : List Allocation) :
    Prop where
  arenas : ∀ a κ, C.arenas a = some κ → (⟨pf, a, κ.pgCnt⟩ : Allocation) ∈ all
  nodup : others.Nodup
  others : ∀ p ∈ others, p ∈ all ∧ ∀ κ, C.arenas p.vaddr = some κ → p ≠ ⟨pf, p.vaddr, κ.pgCnt⟩

/-- The machine shows the chart `C`. -/
structure Shows (m₀ : Machine) (G₀ : Layout) (pf : PoolFlags) (descs : ℕ) (G : Layout)
    (all : List Allocation) (C : Chart) (mem : ℕ → ℕ) (m : Machine) (live : List Block)
    (others : List Allocation) : Prop where
  sees : Sees m₀ G₀ G all mem m
  charted : Charted C live
  written : Written C C.freeIn descs mem
  charge : Charge pf all C others

/-- The heap of a machine: it shows a chart, and every small arena is in use. -/
def HeapInv (m₀ : Machine) (G₀ : Layout) (pf : PoolFlags) (descs : ℕ) (m : Machine)
    (live : List Block) (others : List Allocation) : Prop :=
  ∃ G all C mem, Shows m₀ G₀ pf descs G all C mem m live others ∧ InUse C live

section Pages

variable {m₀ m m' : Machine} {G₀ G : Layout} {pf : PoolFlags} {descs : ℕ} {all others : List Allocation}
  {C : Chart} {mem : ℕ → ℕ} {live : List Block} {κ : ArenaKind} {a n v cnt x : ℕ} {p q : Allocation}

/-- Two allocations of one address space have no page in common. -/
theorem Holding.page_ne (h : Holding m₀ G₀ G ⟨m, all⟩) (hp : p ∈ all) (hq : q ∈ all) (hne : p ≠ q)
    (hpf : p.pf = q.pf) {i j : ℕ} (hi : i < p.pgCnt) (hj : j < q.pgCnt) :
    p.vaddr / 4096 + i ≠ q.vaddr / 4096 + j := by
  intro heq
  have hsymm : Std.Symm fun a b : Allocation => Disjoint (a.owners m₀.cr3) (b.owners m₀.cr3) :=
    ⟨fun _ _ h => h.symm⟩
  have hdis := h.apart.forall hp hq hne
  apply Set.disjoint_left.mp hdis (Allocation.mem_owners hi)
  rw [hpf, heq]
  exact Allocation.mem_owners hj

/-- A page that was just handed out is none of the others. -/
theorem Holding.fresh_ne (h : Holding m₀ G₀ G ⟨m, p :: all⟩) (hq : q ∈ all) (hpf : p.pf = q.pf)
    {i j : ℕ} (hi : i < p.pgCnt) (hj : j < q.pgCnt) : p.vaddr / 4096 + i ≠ q.vaddr / 4096 + j := by
  intro heq
  have hdis := (List.pairwise_cons.mp h.apart).1 q hq
  apply Set.disjoint_left.mp hdis (Allocation.mem_owners hi)
  rw [hpf, heq]
  exact Allocation.mem_owners hj

/-- The descriptors are in no page that is handed out. -/
theorem Ground.desc_page (hg : Ground m₀ G₀ pf descs) (h : Holding m₀ G₀ G ⟨m, all⟩) (hp : p ∈ all)
    (hx : descs ≤ x) (hx' : x < descs + descCnt * descSize) {i : ℕ} (hi : i < p.pgCnt) :
    x / 4096 ≠ p.vaddr / 4096 + i := by
  intro heq
  obtain ⟨hnone, f, hf⟩ := h.owned p hp _ (Allocation.mem_owners hi)
  rw [← heq] at hnone hf
  have hhigh : p.pf = .user → x / 4096 < 0xc0000 := by
    intro hpf
    rw [hpf] at hf
    obtain ⟨t, ht, -⟩ := h.addressed.coherent.encoded.userPage _ _ f hf
    have := (h.addressed.coherent.encoded.tableEntry _ _ _ ht).2.1
    omega
  obtain ⟨h1, h2⟩ | ⟨g, hg', -⟩ := hg.pages x hx hx'
  · cases hpf : p.pf with
    | kernel =>
      rw [hpf] at hf
      have := (h.addressed.coherent.encoded.kernelPage _ f hf).1.1
      omega
    | user =>
      have := hhigh hpf
      omega
  · have hpage := (hg.addressed.coherent.encoded.kernelPage _ g hg').1.1
    cases hpf : p.pf with
    | kernel =>
      rw [hpf] at hnone
      change G₀.owns (.kernel (x / 4096)) = none at hnone
      rw [hnone] at hg'
      cases hg'
    | user =>
      have := hhigh hpf
      omega

theorem Ground.desc_data (hg : Ground m₀ G₀ pf descs) (h : Holding m₀ G₀ G ⟨m, all⟩)
    (hx : descs ≤ x) (hx' : x < descs + descCnt * descSize) :
    ∃ f, DataPage G m₀.cr3 (x / 4096) f := by
  obtain ⟨h1, h2⟩ | ⟨f, hf, hdir⟩ := hg.pages x hx hx'
  · exact ⟨_, .inl ⟨h1, h2, rfl⟩⟩
  · exact ⟨f, .inr ⟨.kernel, h.owns_of_start hf, by rwa [h.dirs]⟩⟩

/-- The descriptors lie in the kernel half. -/
theorem Ground.descs_high (hg : Ground m₀ G₀ pf descs) : 0xc0000000 ≤ descs := by
  obtain ⟨h1, -⟩ | ⟨f, hf, -⟩ := hg.pages descs le_rfl (by unfold descCnt descSize; omega)
  · omega
  · have := (hg.addressed.coherent.encoded.kernelPage _ f hf).1.1
    omega

theorem Charge.founded (hc : Charge pf all C others) (hg : Ground m₀ G₀ pf descs)
    (h : Sees m₀ G₀ G all mem m) : Founded G m₀.cr3 C descs where
  aligned := hg.aligned
  pos := fun _ _ ha => (h.holding.aligned _ (hc.arenas _ _ ha)).2
  descs := fun _ hx hx' => hg.desc_data h.holding hx hx'
  arenas := fun _ _ ha _ hi => h.page_data hg.addressed (hc.arenas _ _ ha) hi

theorem Charge.parted (hc : Charge pf all C others) (hg : Ground m₀ G₀ pf descs)
    (h : Sees m₀ G₀ G all mem m) : Parted C descs where
  pos := fun _ _ ha => (h.holding.aligned _ (hc.arenas _ _ ha)).2
  descs := fun _ hx hx' _ _ ha _ hi => hg.desc_page h.holding (hc.arenas _ _ ha) hx hx' hi
  arenas := fun _ _ _ _ ha ha' hne _ hi _ hj =>
    h.holding.page_ne (hc.arenas _ _ ha) (hc.arenas _ _ ha') (by simp [hne]) rfl hi hj

/-- No arena starts where pages were just handed out. -/
theorem Charge.fresh_arena (hc : Charge pf all C others)
    (h : Holding m₀ G₀ G ⟨m, ⟨pf, a, cnt⟩ :: all⟩) : C.arenas a = none := by
  by_contra hne
  obtain ⟨κ, hκ⟩ := Option.ne_none_iff_exists'.mp hne
  have hpos := (h.aligned _ List.mem_cons_self).2
  have hpos' := (h.aligned _ (List.mem_cons_of_mem _ (hc.arenas a κ hκ))).2
  exact h.fresh_ne (hc.arenas a κ hκ) rfl hpos hpos' rfl

/-- The words that spell the chart are in no page that was just handed out. -/
theorem Charge.fresh_managed (hc : Charge pf all C others) (hg : Ground m₀ G₀ pf descs)
    (hch : Charted C live) (h : Holding m₀ G₀ G ⟨m, ⟨pf, a, cnt⟩ :: all⟩)
    (hm : Managed C descs x) : ¬ (a / 4096 ≤ x / 4096 ∧ x / 4096 < a / 4096 + cnt) := by
  rintro ⟨hlo, hhi⟩
  have hi : x / 4096 - a / 4096 < cnt := by omega
  have hpage (b : ℕ) (κ : ArenaKind) (hb : C.arenas b = some κ) : x / 4096 ≠ b / 4096 := by
    have hmem := hc.arenas b κ hb
    have hne := h.fresh_ne hmem rfl hi (h.aligned _ (List.mem_cons_of_mem _ hmem)).2
    dsimp only at hne
    omega
  cases hm with
  | @desc k o hk ho ho4 =>
    have hne := hg.desc_page h List.mem_cons_self (descAt_bounds hk ho).1 (descAt_bounds hk ho).2 hi
    dsimp only at hne
    omega
  | @header b o κ hb ho ho4 =>
    have halign := hch.aligned b κ hb
    have hne := hpage b κ hb
    unfold arenaSize at ho
    omega
  | @free k e o he ho ho4 =>
    obtain ⟨b, hcell⟩ := hch.free_cell he
    obtain ⟨-, h1, h2, h3, -, h4, -⟩ := hch.cell hcell
    have hne := hpage b _ hcell.arena
    omega

end Pages

end X86System.Memory
