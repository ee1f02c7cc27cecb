import X86System.Heap
import X86System.PageLifetimes

/-!
# Words of data pages

A page that holds data is mapped and holds no entries, and two such pages show two frames. So
the words of all of them together are one flat memory: a load finds the word that was stored
last, whichever pages come and go.
-/
namespace X86System.Memory
open Exec Paging

/-- Page `n` shows the frame `f`: a page of the first megabyte, or one that was handed out and
holds no entries. -/
def DataPage (G : Layout) (dir n f : ℕ) : Prop :=
  (0xc0000 ≤ n ∧ n < 0xc0100 ∧ f = n - 0xc0000) ∨
    ∃ pf, G.owns (Owner.ofPage pf dir n) = some f ∧ f ∉ G.dirs

def DataWord (G : Layout) (dir a : ℕ) : Prop := a % 4 = 0 ∧ ∃ f, DataPage G dir (a / 4096) f

section Pages

variable {m m' : Machine} {G G' : Layout} {pf : PoolFlags} {d n n' f a b : ℕ}

theorem DataPage.mono (h : DataPage G d n f) (hdirs : G'.dirs = G.dirs)
    (ho : ∀ o f, G.owns o = some f → G'.owns o = some f) : DataPage G' d n f := by
  obtain hlow | ⟨pf, hf, hdir⟩ := h
  · exact .inl hlow
  · exact .inr ⟨pf, ho _ _ hf, by rwa [hdirs]⟩

theorem Coherent.data_not_structural (h : Coherent m G) (hd : DataPage G d n f) :
    ¬ Structural G f := by
  obtain ⟨h1, h2, hn⟩ | ⟨pf, hf, hdir⟩ := hd
  · rintro (hmem | hlow | ⟨e, i, ht⟩)
    · have hge := h.encoded.dir_ge h.marked hmem
      unfold kernelDir at hge
      omega
    · omega
    · have hge := h.marked.kernel_ge ht
      omega
  · apply h.not_structural hf hdir
    cases pf <;> simp [Owner.ofPage]

/-- Two data pages show two frames. -/
theorem Coherent.data_inj (h : Coherent m G) (hd : DataPage G d n f) (hd' : DataPage G d n' f) :
    n = n' := by
  obtain ⟨h1, h2, hn⟩ | ⟨pf, hf, -⟩ := hd
  · obtain ⟨h3, h4, hn'⟩ | ⟨pf', hf', -⟩ := hd'
    · omega
    · have hge := h.marked.kernel_ge hf'
      omega
  · obtain ⟨h3, h4, hn'⟩ | ⟨pf', hf', -⟩ := hd'
    · have hge := h.marked.kernel_ge hf
      omega
    · exact ofPage_page (G.ledger.inj hf hf')

theorem Coherent.walk_data (h : Coherent m G) (hcr3 : m.cr3 ∈ G.dirs)
    (hd : DataPage G m.cr3 (a / 4096) f) : walk m.ram m.cr3 a = some (f, wordIndex a) := by
  rw [walk_eq_map]
  obtain ⟨h1, h2, hn⟩ | ⟨pf, hf, -⟩ := hd
  · rw [h.walk_kernel hcr3 h1 (by omega), if_pos h2, Option.map_some, hn]
  · rw [h.walk_page_start hcr3 hf, Option.map_some]

/-- A page that gave its frame back is not mapped. -/
theorem Coherent.walk_none (h : Coherent m G) (h' : Coherent m' G') (hcr3 : m'.cr3 ∈ G'.dirs)
    (hspaces : G'.spaces = G.spaces) (hf : G.owns (Owner.ofPage pf m'.cr3 n) = some f)
    (hnone : G'.owns (Owner.ofPage pf m'.cr3 n) = none) : walk m'.ram m'.cr3 (n * 4096) = none := by
  cases pf with
  | kernel =>
    obtain ⟨⟨hlo, hhi⟩, -⟩ := h.encoded.kernelPage n f hf
    rw [h'.walk_kernel hcr3 (by omega) hhi, if_neg (by omega)]
    exact Option.map_eq_none_iff.mpr hnone
  | user =>
    obtain ⟨t, ht, -⟩ := h.encoded.userPage _ n f hf
    obtain ⟨hspace, hlt, -⟩ := h.encoded.tableEntry _ _ _ ht
    rw [h'.walk_user (by rwa [hspaces]) (by omega)]
    exact Option.map_eq_none_iff.mpr hnone

end Pages

section Low

variable {F : Set PoolFlags} {m m' : Machine} {G : Layout} {pf : PoolFlags} {n cnt g : ℕ}

/-- `page_table_add` writes to no frame of the first megabyte. -/
theorem pageTableAdd_low (h : Coherent m G) (hcr3 : m.cr3 ∈ G.dirs) (hn : Mappable G m.cr3 pf n)
    {f : ℕ} (hadd : pageTableAdd m (n * 4096) (f * 4096) = .ok m') (hg : g < 0x100) :
    m'.ram g = m.ram g := by
  have hlt : n < 0xffc00 := by
    cases pf with
    | kernel => exact hn.2
    | user => exact Nat.lt_of_le_of_lt hn.2 (by norm_num)
  obtain ⟨hp, -, rfl⟩ | ⟨-, i, hi, -, t, rfl, rfl⟩ := h.pageTableAdd_cases hcr3 hlt hadd
  · have htable : 0x100 ≤ frame (m.ram m.cr3 (n / 1024)) := by
      by_cases hk : 768 ≤ n / 1024
      · rw [(h.kernel_pde hcr3 hk (by omega)).2]
        exact (kernelTable_bounds hk (by omega)).1.le
      · cases pf with
        | kernel => exact absurd (HeapPage.index hn).1 hk
        | user =>
          obtain ⟨t, ht, hframe⟩ := h.user_pde hn.1 (by omega) hp
          rw [hframe]
          exact le_trans (by norm_num) (h.marked.kernel_ge ht)
    funext j
    exact poke_of_frame_ne (by omega) j
  · have hbase := h.marked.kernelBase
    have hdir := h.encoded.dir_ge h.marked hcr3
    unfold kernelDir at hdir
    funext j
    rw [setRam_ram, poke_of_frame_ne (by omega), wipe_of_ne (by omega), poke_of_frame_ne (by omega)]

theorem mapPages_low (h : Coherent m G) (hcr3 : m.cr3 ∈ G.dirs) (hheld : G.owns (.held pf) = none)
    (hrun : ∀ i < cnt, Mappable G m.cr3 pf (n + i)) {done : Bool}
    (hmap : mapPages pf cnt (n * 4096) m = .ok (done, m')) (hg : g < 0x100) :
    m'.ram g = m.ram g := by
  induction cnt generalizing n m G with
  | zero =>
    obtain ⟨-, rfl⟩ : true = done ∧ m = m' := by simpa [mapPages] using hmap
    rfl
  | succ cnt ih =>
    unfold mapPages at hmap
    obtain ⟨⟨r, pool⟩, hpm, hmap⟩ := of_bind_eq_ok hmap
    obtain ⟨i, hi, hclear, rfl, rfl⟩ := pmalloc_ok hpm (h.marked.aligned pf)
    obtain ⟨a, ha, hstep⟩ := mapPage_coherent h hcr3 hheld (hrun 0 (by omega)) hpm
    obtain rfl := Option.some.inj ha
    dsimp only at hmap
    obtain ⟨m₁, hadd, hmap⟩ := of_bind_eq_ok hmap
    obtain ⟨L₁, hc₁, hs₁, hg₁, -⟩ := hstep m₁ hadd
    have hnext : (n + 1) * 4096 = n * 4096 + pgSize := by
      unfold pgSize
      omega
    rw [← hnext] at hmap
    have hheld₁ : (G.withLedger L₁).owns (.held pf) = none := by
      rw [withLedger_owns, hg₁.kept _ _ (by simp)]
      · exact hheld
      · intro heq
        cases pf <;> cases heq
    have hrest := ih hc₁ (by rw [hs₁.cr3]; exact hcr3) hheld₁ (fun i hi => by
      rw [hs₁.cr3, show n + 1 + i = n + (i + 1) by omega]
      exact hrun (i + 1) (by omega)) hmap
    have hadded := pageTableAdd_low (h.take hheld hi hclear) hcr3 (hrun 0 (by omega)) hadd hg
    rw [hrest, hadded, setPool_ram]

theorem mallocPage_low (h : Addressed F m G) (hpf : pf ∈ F) (hspace : pf = .user → m.cr3 ∈ G.spaces)
    {r : Option ℕ} (hmal : mallocPage m pf cnt = .ok (r, m')) (hg : g < 0x100) :
    m'.ram g = m.ram g := by
  unfold mallocPage at hmal
  obtain ⟨-, hmal⟩ := of_ensure_eq_ok hmal
  obtain ⟨⟨r', m₁⟩, hget, hmal⟩ := of_bind_eq_ok hmal
  obtain ⟨rfl, rfl⟩ | ⟨i, rfl, hend, -, rfl⟩ := vaddrGet_ok (h.tracked pf hpf).aligned hget
  · obtain ⟨-, rfl⟩ := Prod.mk.inj (Except.ok.inj hmal)
    rfl
  · dsimp only at hmal
    obtain ⟨⟨done, m₂⟩, hmap, hmal⟩ := of_bind_eq_ok hmal
    obtain ⟨-, rfl⟩ := Prod.mk.inj (Except.ok.inj hmal)
    have hcr3 : (m.setVaddrs pf (setBits (m.vaddrs pf).vaddrBitmap i true cnt)).cr3 = m.cr3 :=
      setVaddrs_cr3 ..
    rw [mapPages_low (h.setVaddrs_coherent _) (by rw [hcr3]; exact h.cr3_mem) (h.held pf)
      (fun j hj => by rw [hcr3]; exact h.mappable hspace hend hj) hmap hg, setVaddrs_ram]

end Low

/-- What the address space in use shows since the machine `m₀`: the pages that were handed out,
and `mem` in the words of data. -/
structure Sees (m₀ : Machine) (G₀ G : Layout) (live : List Allocation) (mem : ℕ → ℕ)
    (m : Machine) : Prop where
  holding : Holding m₀ G₀ G ⟨m, live⟩
  thread : SameThread m₀ m
  words : ∀ a f, a % 4 = 0 → DataPage G m₀.cr3 (a / 4096) f → m.ram f (wordIndex a) = mem a

section Words

variable {m₀ m m' : Machine} {G₀ G : Layout} {live : List Allocation} {mem mem' : ℕ → ℕ}
  {a f n v w cnt : ℕ}

theorem Holding.setRam (h : Holding m₀ G₀ G ⟨m, live⟩) {ram : Ram}
    (heq : ∀ g, Structural G g → ∀ i, ram g i = m.ram g i) :
    Holding m₀ G₀ G ⟨m.setRam ram, live⟩ := by
  have hv (pf : PoolFlags) : (m.setRam ram).vaddrs pf = m.vaddrs pf := by cases pf <;> rfl
  have ha := h.addressed
  exact {
    addressed := {
      coherent := ha.coherent.setRam heq
      cr3_mem := ha.cr3_mem
      held := ha.held
      tracked := fun pf hpf => by
        rw [hv]
        exact ha.tracked pf hpf
      kernelBase := by
        rw [hv]
        exact ha.kernelBase
      kernelPages := by
        rw [hv]
        exact ha.kernelPages
      userPages := by
        rw [hv]
        exact ha.userPages }
    space := by
      rw [hv]
      exact h.space
    cr3 := h.cr3
    dirs := h.dirs
    spaces := h.spaces
    base := h.base
    frames := h.frames
    sizes := fun pf => by
      rw [hv]
      exact h.sizes pf
    aligned := h.aligned
    owned := h.owned
    apart := h.apart
    kept := h.kept
    tables := h.tables }

theorem Sees.congr (h : Sees m₀ G₀ G live mem m)
    (heq : ∀ a, DataWord G m₀.cr3 a → mem' a = mem a) : Sees m₀ G₀ G live mem' m where
  holding := h.holding
  thread := h.thread
  words := fun a f ha hd => by rw [h.words a f ha hd, heq a ⟨ha, f, hd⟩]

theorem Sees.walk (h : Sees m₀ G₀ G live mem m) (hd : DataPage G m₀.cr3 (a / 4096) f) :
    walk m.ram m.cr3 a = some (f, wordIndex a) := by
  have hcr3 : m.cr3 = m₀.cr3 := h.holding.cr3
  rw [← hcr3] at hd
  exact h.holding.addressed.coherent.walk_data h.holding.addressed.cr3_mem hd

theorem Sees.load (h : Sees m₀ G₀ G live mem m) (ha : DataWord G m₀.cr3 a) :
    m.load a = .ok (mem a) := by
  obtain ⟨ha, f, hd⟩ := ha
  unfold Machine.load
  rw [h.walk hd]
  dsimp only
  rw [h.words a f ha hd]

/-- New words in one frame of data. -/
theorem Sees.setRam (h : Sees m₀ G₀ G live mem m) (hd : DataPage G m₀.cr3 n f) {ram : Ram}
    (hkept : ∀ g, g ≠ f → ram g = m.ram g)
    (hnew : ∀ a, a % 4 = 0 → a / 4096 = n → ram f (wordIndex a) = mem' a)
    (hold : ∀ a, DataWord G m₀.cr3 a → a / 4096 ≠ n → mem' a = mem a) :
    Sees m₀ G₀ G live mem' (m.setRam ram) where
  holding := by
    apply h.holding.setRam
    intro g hg i
    rw [hkept g]
    rintro rfl
    exact h.holding.addressed.coherent.data_not_structural hd hg
  thread := ⟨h.thread.running, h.thread.pgdir⟩
  words := fun a g ha hg => by
    rw [setRam_ram]
    by_cases hpage : a / 4096 = n
    · have hf : g = f := by
        have h1 := h.walk hg
        rw [← hpage] at hd
        rw [h.walk hd] at h1
        exact (Prod.mk.inj (Option.some.inj h1)).1.symm
      rw [hf, hnew a ha hpage]
    · rw [hkept g, h.words a g ha hg, hold a ⟨ha, g, hg⟩ hpage]
      rintro rfl
      exact hpage (h.holding.addressed.coherent.data_inj hg hd)

theorem Sees.store (h : Sees m₀ G₀ G live mem m) (ha : DataWord G m₀.cr3 a) (w : ℕ) :
    ∃ m', m.store a w = .ok m' ∧ Sees m₀ G₀ G live (Function.update mem a w) m' := by
  obtain ⟨ha, f, hd⟩ := ha
  refine ⟨m.setRam (poke m.ram f (wordIndex a) w), ?_, h.setRam hd ?_ ?_ ?_⟩
  · unfold Machine.store
    rw [h.walk hd]
    rfl
  · intro g hg
    funext i
    exact poke_of_frame_ne hg i
  · intro b hb hpage
    by_cases hab : b = a
    · rw [hab, poke_self, Function.update_self]
    · have hidx : wordIndex b ≠ wordIndex a := by
        unfold wordIndex
        omega
      rw [poke_of_word_ne hidx, Function.update_of_ne hab, h.words b f hb (by rwa [hpage])]
  · intro b hb hpage
    apply Function.update_of_ne
    rintro rfl
    exact hpage rfl

/-- `memset` of zeros over a run of pages. -/
theorem Sees.clearPages (h : Sees m₀ G₀ G live mem m)
    (hrun : ∀ i < cnt, ∃ f, DataPage G m₀.cr3 (n + i) f) :
    ∃ m', m.clearPages (n * 4096) cnt = .ok m' ∧ Sees m₀ G₀ G live
      (fun a => if n ≤ a / 4096 ∧ a / 4096 < n + cnt then 0 else mem a) m' := by
  induction cnt generalizing n m mem with
  | zero => exact ⟨m, rfl, h.congr fun a _ => if_neg (by omega)⟩
  | succ cnt ih =>
    obtain ⟨f, hd⟩ := hrun 0 (by omega)
    rw [Nat.add_zero] at hd
    have hwalk := h.walk (a := n * 4096) (f := f) (by rwa [Nat.mul_div_cancel _ (by norm_num)])
    have h1 : Sees m₀ G₀ G live (fun a => if a / 4096 = n then 0 else mem a)
        (m.setRam (wipe m.ram f)) := by
      apply h.setRam hd
      · exact fun g hg => funext fun i => wipe_of_ne hg i
      · intro a _ hpage
        rw [wipe_self, if_pos hpage]
      · exact fun a _ hpage => if_neg hpage
    obtain ⟨m', hclear, h2⟩ := ih h1 (n := n + 1) fun i hi => by
      obtain ⟨g, hg⟩ := hrun (i + 1) (by omega)
      exact ⟨g, by rwa [show n + 1 + i = n + (i + 1) by omega]⟩
    refine ⟨m', ?_, h2.congr fun a _ => ?_⟩
    · have hnext : n * 4096 + pgSize = (n + 1) * 4096 := by
        unfold pgSize
        omega
      unfold Machine.clearPages
      rw [hwalk]
      dsimp only
      rw [hnext]
      exact hclear
    · by_cases hself : a / 4096 = n
      · rw [if_pos (by omega), if_neg (by omega), if_pos hself]
      · rw [if_neg hself]
        exact if_congr (by omega) rfl rfl

/-- `memset` of zeros over a run of words. -/
theorem Sees.clearWords (h : Sees m₀ G₀ G live mem m)
    (hrun : ∀ i < cnt, DataWord G m₀.cr3 (v + 4 * i)) :
    ∃ m', m.clearWords v cnt = .ok m' ∧ Sees m₀ G₀ G live
      (fun a => if v ≤ a ∧ a < v + 4 * cnt then 0 else mem a) m' := by
  induction cnt generalizing v m mem with
  | zero => exact ⟨m, rfl, h.congr fun a _ => if_neg (by omega)⟩
  | succ cnt ih =>
    have hv : DataWord G m₀.cr3 v := hrun 0 (by omega)
    obtain ⟨m₁, hstore, h1⟩ := h.store hv 0
    obtain ⟨m', hclear, h2⟩ := ih h1 (v := v + 4) fun i hi => by
      have hnext := hrun (i + 1) (by omega)
      rwa [show v + 4 * (i + 1) = v + 4 + 4 * i by omega] at hnext
    refine ⟨m', ?_, h2.congr fun a ha => ?_⟩
    · unfold Machine.clearWords
      rw [hstore, ok_bind, hclear]
    · have hv4 := hv.1
      have ha4 := ha.1
      by_cases hself : a = v
      · rw [hself, if_pos (by omega), if_neg (by omega), Function.update_self]
      · rw [Function.update_of_ne hself]
        exact if_congr (by omega) rfl rfl

/-- The pages that were handed out hold data. -/
theorem Sees.page_data (h : Sees m₀ G₀ G live mem m) (h₀ : Addressed .univ m₀ G₀) {p : Allocation}
    (hp : p ∈ live) {i : ℕ} (hi : i < p.pgCnt) :
    ∃ f, DataPage G m₀.cr3 (p.vaddr / 4096 + i) f := by
  obtain ⟨-, f, hf⟩ := h.holding.owned p hp _ (Allocation.mem_owners hi)
  exact ⟨f, .inr ⟨p.pf, hf, h.holding.not_dir h₀ hp (Allocation.mem_owners hi) hf⟩⟩

/-- `malloc_page` changes no word of data. -/
theorem Sees.mallocPage (h : Sees m₀ G₀ G live mem m) {pf : PoolFlags}
    (hspace : pf = .user → m₀.cr3 ∈ G₀.spaces)
    (hmal : mallocPage m pf cnt = .ok (some v, m')) :
    ∃ G' mem', Sees m₀ G₀ G' (⟨pf, v, cnt⟩ :: live) mem' m' ∧
      (∀ n f, DataPage G m₀.cr3 n f → DataPage G' m₀.cr3 n f) ∧
      ∀ a, DataWord G m₀.cr3 a → mem' a = mem a := by
  have hcr3 : m.cr3 = m₀.cr3 := h.holding.cr3
  have hspace' (hpf : pf = .user) : m.cr3 ∈ G.spaces := by
    rw [h.holding.spaces, hcr3]
    exact hspace hpf
  obtain ⟨G', hh, howns, hkept, hthread⟩ := h.holding.mallocPage hmal hspace'
  have hdata (n f : ℕ) (hd : DataPage G m₀.cr3 n f) : DataPage G' m₀.cr3 n f :=
    hd.mono (hh.dirs.trans h.holding.dirs.symm) howns
  have hram (n f : ℕ) (hd : DataPage G m₀.cr3 n f) : m'.ram f = m.ram f := by
    obtain ⟨h1, h2, hf⟩ | ⟨pf', hf, -⟩ := id hd
    · exact mallocPage_low h.holding.addressed (Set.mem_univ pf) hspace' hmal (by omega)
    · exact hkept _ f hf (h.holding.addressed.coherent.data_not_structural hd)
  have hcr3' : m'.cr3 = m₀.cr3 := hh.cr3
  have hwalk {a f : ℕ} (hd : DataPage G' m₀.cr3 (a / 4096) f) :
      Paging.walk m'.ram m'.cr3 a = some (f, wordIndex a) := by
    rw [← hcr3'] at hd
    exact hh.addressed.coherent.walk_data hh.addressed.cr3_mem hd
  refine ⟨G', fun a => ((Paging.walk m'.ram m'.cr3 a).map fun q => m'.ram q.1 q.2).getD 0,
    ⟨hh, h.thread.trans hthread, ?_⟩, hdata, ?_⟩
  · intro a f _ hd
    simp only [hwalk hd, Option.map_some, Option.getD_some]
  · intro a ⟨ha, f, hd⟩
    simp only [hwalk (hdata _ _ hd), Option.map_some, Option.getD_some]
    rw [hram _ _ hd, h.words a f ha hd]

/-- `mfree_page` of live pages returns. It unmaps them and changes no word of other pages. -/
theorem Sees.mfreePage (h : Sees m₀ G₀ G live mem m) (h₀ : Addressed .univ m₀ G₀) {p : Allocation}
    (hp : p ∈ live) :
    ∃ m' G', mfreePage m p.pf p.vaddr p.pgCnt = .ok m' ∧
      Sees m₀ G₀ G' (live.erase p) mem m' ∧
      (∀ n f, DataPage G m₀.cr3 n f →
        (∀ i < p.pgCnt, n ≠ p.vaddr / 4096 + i) → DataPage G' m₀.cr3 n f) ∧
      ∀ i < p.pgCnt, Paging.walk m'.ram m'.cr3 ((p.vaddr / 4096 + i) * 4096) = none := by
  obtain ⟨m', L, hfree, -⟩ := h.holding.mfreePage h₀ hp
  obtain ⟨G', hh, hgone, hrest, hun, hthread⟩ := h.holding.erase h₀ hp hfree
  have hdirs : G'.dirs = G.dirs := hh.dirs.trans h.holding.dirs.symm
  have hcr3 : m'.cr3 = m₀.cr3 := hh.cr3
  have hback (n f : ℕ) (hd : DataPage G' m₀.cr3 n f) : DataPage G m₀.cr3 n f := by
    obtain hlow | ⟨pf, hf, hdir⟩ := hd
    · exact .inl hlow
    · refine .inr ⟨pf, ?_, by rwa [← hdirs]⟩
      by_cases ho : Owner.ofPage pf m₀.cr3 n ∈ p.owners m₀.cr3
      · rw [hgone _ ho] at hf
        cases hf
      · rwa [hrest _ ho] at hf
  refine ⟨m', G', hfree, ⟨hh, h.thread.trans hthread, ?_⟩, ?_, ?_⟩
  · intro a f ha hd
    have hd' := hback _ _ hd
    rw [hun f (h.holding.addressed.coherent.data_not_structural hd')]
    exact h.words a f ha hd'
  · intro n f hd hout
    obtain hlow | ⟨pf, hf, hdir⟩ := hd
    · exact .inl hlow
    · refine .inr ⟨pf, ?_, by rwa [hdirs]⟩
      rw [hrest, hf]
      rintro ⟨i, hi, heq⟩
      exact hout i hi (ofPage_page heq)
  · intro i hi
    have hnone := hgone _ (Allocation.mem_owners hi)
    obtain ⟨-, f, hf⟩ := h.holding.owned p hp _ (Allocation.mem_owners hi)
    rw [← hcr3] at hf hnone
    exact h.holding.addressed.coherent.walk_none hh.addressed.coherent hh.addressed.cr3_mem
      (hh.spaces.trans h.holding.spaces.symm) hf hnone

end Words

end X86System.Memory
