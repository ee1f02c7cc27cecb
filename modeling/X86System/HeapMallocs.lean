import X86System.HeapInvariant

/-!
# Handing out blocks

`sys_malloc` part by part, from the chart that the machine shows to the next one: a block taken
from a free list, a new arena, a block with pages of its own. The only faults are those of
`malloc_page`.
-/
namespace X86System.Memory
open Exec NodeWords Paging

section Allocating

variable {m₀ m : Machine} {G₀ G : Layout} {pf : PoolFlags} {descs : ℕ} {all others : List Allocation}
  {C : Chart} {mem : ℕ → ℕ} {live : List Block} {k a e size : ℕ} {rest : List ℕ}

theorem block2arena_eq {b : ℕ} (h : b < 2 ^ 32) : block2arena b = b / 4096 * 4096 := by
  unfold block2arena
  rw [show 0xfffff000 = (2 ^ 20 - 1) <<< 12 by rfl, and_high_bits]
  omega

theorem perArena_le (hk : k < descCnt) : perArena k ≤ 255 := by
  unfold descCnt at hk
  unfold perArena classSize pgSize arenaSize
  interval_cases k <;> decide

/-- A free block is counted by the header of its arena. -/
theorem Charted.freeIn_pos (h : Charted C live) (hfree : e ∈ C.free k) (hc : Cell C k a e) :
    0 < C.freeIn a := by
  rw [freeIn_small hc.arena, List.countP_pos_iff]
  exact ⟨e, hfree, by simpa using h.page_of_mem hc.arena (mem_blocksOf.mpr hc.index)⟩

theorem Charge.free {f : ℕ → List ℕ} (hc : Charge pf all C others) :
    Charge pf all { C with free := f } others :=
  ⟨hc.arenas, hc.nodup, hc.others⟩

/-- The first free block of a descriptor is handed out, filled with zeros. -/
theorem Shows.takeBlock (hg : Ground m₀ G₀ pf descs)
    (h : Shows m₀ G₀ pf descs G all C mem m live others) (hk : k < descCnt)
    (hfree : C.free k = e :: rest) (hsize : size ≤ classSize k) :
    ∃ m' mem', takeBlock m (descAt descs k) = .ok (e, m') ∧
      Shows m₀ G₀ pf descs G all { C with free := Function.update C.free k rest } mem' m'
        (⟨e, size⟩ :: live) others ∧
      ∀ x, e ≤ x → x < e + classSize k → mem' x = 0 := by
  have hf := h.charge.founded hg h.sees
  have hp := h.charge.parted hg h.sees
  have hcells := h.charted.cells_free k
  have hs := h.charted.shaped hp hf hk hcells (h.charted.free_nodup k)
  have hl := h.written.threaded k hk
  have he : e ∈ C.free k := by rw [hfree]; exact List.mem_cons_self
  have hnot : e ∉ rest := (List.nodup_cons.mp (hfree ▸ h.charted.free_nodup k)).1
  obtain ⟨a, hc⟩ := h.charted.free_cell he
  have hpos := h.charted.freeIn_pos he hc
  have hle := (h.charted.freeIn_le hc.arena).trans (perArena_le hk)
  have hcount := freeIn_take h.charted hfree hc
  have hch := h.charted.take hfree hsize
  rw [hfree] at hcells hs hl
  obtain ⟨-, ha, h1, h2, h3, h4, h5⟩ := h.charted.cell hc
  obtain ⟨m₁, hpop, mem₁, hsees₁, hl₁, hoff⟩ := h.sees.listPop hl hs
  generalize hC : ({ C with free := Function.update C.free k rest } : Chart) = C' at hcount hch ⊢
  have harenas : C'.arenas = C.arenas := by rw [← hC]
  have hfree' : C'.free = Function.update C.free k rest := by rw [← hC]
  have hc' : Cell C' k a e := ⟨by rw [harenas]; exact hc.arena, hc.index⟩
  have hcharge : Charge pf all C' others := by
    rw [← hC]
    exact h.charge.free
  have hf' := hcharge.founded hg hsees₁
  have hp' := hcharge.parted hg hsees₁
  have hw₁ : Written C' C.freeIn descs mem₁ := by
    refine h.written.relist h.charted hp hk hcells (fun b κ hb => ?_) (fun j hj => ?_) ?_ hoff
    · rw [harenas] at hb
      exact ⟨hb, hb⟩
    · rw [hfree', Function.update_of_ne hj]
      exact ⟨rfl, rfl⟩
    · rw [hfree', Function.update_self]
      exact hl₁
  have hload₁ : m₁.load (blockSizeOf (descAt descs k)) = .ok (classSize k) := by
    rw [← hw₁.sizes k hk]
    exact hsees₁.load (hch.managed_data hf' (.desc (c := 0) hk (by decide) rfl))
  obtain ⟨f, hpage⟩ := hf'.arenas a _ hc'.arena 0 one_pos
  have hrun (i : ℕ) (hi : i < classSize k / 4) : DataWord G m₀.cr3 (e + 4 * i) :=
    ⟨by omega, f, by rwa [show (e + 4 * i) / 4096 = a / 4096 + 0 by omega]⟩
  obtain ⟨m₂, hclear, hsees₂⟩ := hsees₁.clearWords hrun
  have hout (x : ℕ) (hm : Managed C' descs x) : ¬ (e ≤ x ∧ x < e + 4 * (classSize k / 4)) := by
    intro hx
    refine hch.block_unmanaged hp' hc' ?_ hx.1 (by omega) hm
    rwa [hfree', Function.update_self]
  have hw₂ : Written C' C.freeIn descs
      fun x => if e ≤ x ∧ x < e + 4 * (classSize k / 4) then 0 else mem₁ x :=
    hw₁.congr fun x hm => if_neg (hout x hm)
  have hcnt := hch.managed_data hf' (.header (c := 4) hc'.arena (by decide) rfl)
  have hload₂ : m₂.load (cntOf a) = .ok (C.freeIn a) := by
    rw [← (hw₂.small a k hc'.arena).2.1]
    exact hsees₂.load hcnt
  obtain ⟨m₃, hstore, hsees₃⟩ := hsees₂.store hcnt (C.freeIn a - 1)
  have hw₃ := hw₂.count hch hp' hc'.arena (C.freeIn a - 1)
  rw [← hcount] at hw₃
  refine ⟨m₃, _, ?_, ⟨hsees₃, hch, hw₃, hcharge⟩, fun x hlo hhi => ?_⟩
  · have harena : block2arena e = a := by
      have hlt := hsees₁.holding.addressed.coherent.data_lt (hs.data e (by simp [nodes])).1
      rw [block2arena_eq hlt]
      omega
    unfold Memory.takeBlock
    rw [show freeListOf (descAt descs k) = freeListAt descs k from rfl, hpop, ok_bind]
    dsimp only
    rw [hload₁, ok_bind, hclear, ok_bind, harena, hload₂, ok_bind, sub32_eq hpos (by omega)]
    change (m₂.store (cntOf a) (C.freeIn a - 1) >>= _) = _
    unfold cntOf
    rw [hstore, ok_bind]
    rfl
  · rw [Function.update_of_ne (by omega)]
    exact if_pos ⟨hlo, by omega⟩

end Allocating

section Arenas

variable {m₀ m m₁ : Machine} {G₀ G : Layout} {pf : PoolFlags} {descs : ℕ}
  {all others : List Allocation} {C : Chart} {mem : ℕ → ℕ} {live : List Block} {κ : ArenaKind}
  {k a cnt size : ℕ}

/-- Pages that were just handed out become an arena. -/
theorem Charge.addArena (hc : Charge pf all C others)
    (h : Holding m₀ G₀ G ⟨m, ⟨pf, a, κ.pgCnt⟩ :: all⟩) :
    Charge pf (⟨pf, a, κ.pgCnt⟩ :: all)
      { C with arenas := Function.update C.arenas a (some κ) } others where
  arenas := fun b ν hb => by
    dsimp only at hb
    by_cases hba : b = a
    · rw [hba, Function.update_self] at hb
      rw [hba, ← Option.some.inj hb]
      exact List.mem_cons_self
    · rw [Function.update_of_ne hba] at hb
      exact List.mem_cons_of_mem _ (hc.arenas b ν hb)
  others := fun p hp => by
    obtain ⟨hmem, hne⟩ := hc.others p hp
    refine ⟨List.mem_cons_of_mem _ hmem, fun ν hν heq => ?_⟩
    dsimp only at hν
    by_cases hpa : p.vaddr = a
    · rw [hpa, Function.update_self] at hν
      rw [hpa, ← Option.some.inj hν] at heq
      have hpos := (h.aligned _ List.mem_cons_self).2
      subst heq
      exact h.fresh_ne hmem rfl hpos hpos rfl
    · rw [Function.update_of_ne hpa] at hν
      exact hne ν hν heq
  nodup := hc.nodup

/-- Pages that were just handed out, filled with zeros: nothing that spells the chart is there. -/
theorem Shows.clearPages (hg : Ground m₀ G₀ pf descs)
    (h : Shows m₀ G₀ pf descs G all C mem m live others)
    (hmal : mallocPage m pf cnt = .ok (some a, m₁)) :
    ∃ m₂ G' mem', m₁.clearPages a cnt = .ok m₂ ∧ Sees m₀ G₀ G' (⟨pf, a, cnt⟩ :: all) mem' m₂ ∧
      Written C C.freeIn descs mem' ∧
      ∀ x, a / 4096 ≤ x / 4096 → x / 4096 < a / 4096 + cnt → mem' x = 0 := by
  obtain ⟨G', mem₁, hsees₁, -, hkept⟩ := h.sees.mallocPage hg.space hmal
  have halign := (hsees₁.holding.aligned _ List.mem_cons_self).1
  have hrun (i : ℕ) (hi : i < cnt) : ∃ f, DataPage G' m₀.cr3 (a / 4096 + i) f :=
    hsees₁.page_data hg.addressed List.mem_cons_self hi
  obtain ⟨m₂, hclear, hsees₂⟩ := hsees₁.clearPages hrun
  have hstart : a / 4096 * 4096 = a := by
    dsimp only at halign
    omega
  rw [hstart] at hclear
  refine ⟨m₂, G', _, hclear, hsees₂, h.written.congr fun x hm => ?_, fun x hlo hhi => ?_⟩
  · rw [if_neg (h.charge.fresh_managed hg h.charted hsees₁.holding hm)]
    exact hkept x (h.charted.managed_data (h.charge.founded hg h.sees) hm)
  · exact if_pos ⟨hlo, hhi⟩

/-- The header of an arena is in words of data. -/
theorem Sees.header_data (h : Sees m₀ G₀ G (⟨pf, a, cnt⟩ :: all) mem m)
    (h₀ : Addressed .univ m₀ G₀) :
    DataWord G m₀.cr3 (descOf a) ∧ DataWord G m₀.cr3 (cntOf a) ∧ DataWord G m₀.cr3 (largeOf a) := by
  obtain ⟨halign, hpos⟩ := h.holding.aligned _ List.mem_cons_self
  obtain ⟨f, hf⟩ := h.page_data h₀ List.mem_cons_self hpos
  dsimp only at halign hf
  rw [Nat.add_zero] at hf
  have hpage (c : ℕ) (hc : c < 12) (hc4 : c % 4 = 0) : DataWord G m₀.cr3 (a + c) :=
    ⟨by omega, f, by rwa [show (a + c) / 4096 = a / 4096 by omega]⟩
  exact ⟨hpage 0 (by decide) rfl, hpage 4 (by decide) rfl, hpage 8 (by decide) rfl⟩

/-- A new arena for a descriptor that has no free block. -/
theorem Shows.newArena (hg : Ground m₀ G₀ pf descs)
    (h : Shows m₀ G₀ pf descs G all C mem m live others) (hk : k < descCnt) (hfree : C.free k = [])
    (hmal : mallocPage m pf 1 = .ok (some a, m₁)) :
    ∃ m' G' mem', newArena m pf (descAt descs k) = .ok (true, m') ∧
      Shows m₀ G₀ pf descs G' (⟨pf, a, 1⟩ :: all)
        ⟨Function.update C.arenas a (some (.small k)), Function.update C.free k (blocksOf a k)⟩
        mem' m' live others := by
  obtain ⟨m₂, G', mem₂, hclear, hsees₂, hw₂, -⟩ := h.clearPages hg hmal
  obtain ⟨hd, hc, hl⟩ := hsees₂.header_data hg.addressed
  have halign : a % 4096 = 0 := (hsees₂.holding.aligned _ List.mem_cons_self).1
  have hnone := h.charge.fresh_arena hsees₂.holding
  obtain ⟨m₃, hs₃, hsees₃⟩ := hsees₂.store hd (descAt descs k)
  obtain ⟨m₄, hs₄, hsees₄⟩ := hsees₃.store hl 0
  obtain ⟨m₅, hs₅, hsees₅⟩ := hsees₄.store hc (perArena k)
  have hout (x : ℕ) (hm : Managed C descs x) : x ≠ descOf a ∧ x ≠ cntOf a ∧ x ≠ largeOf a := by
    have hfar := h.charge.fresh_managed hg h.charted hsees₂.holding hm
    unfold descOf cntOf largeOf
    omega
  have hch := h.charted.openArena hk halign hnone hfree
  have hcharge := h.charge.addArena (κ := .small k) hsees₂.holding
  have hcnt := freeIn_open (C := C) hk halign hfree
  generalize hmem₅ : Function.update (Function.update (Function.update mem₂ (descOf a)
    (descAt descs k)) (largeOf a) 0) (cntOf a) (perArena k) = mem₅ at hsees₅
  have hw₅ : Written { C with arenas := Function.update C.arenas a (some (.small k)) }
      (Function.update C.freeIn a (perArena k)) descs mem₅ := by
    refine hw₂.addArena hnone (fun x hm => ?_) (fun j hj => ?_) (fun n hn => ?_)
    · obtain ⟨h1, h2, h3⟩ := hout x hm
      rw [← hmem₅, Function.update_of_ne h2, Function.update_of_ne h3, Function.update_of_ne h1]
    · obtain rfl : k = j := by simpa using hj
      rw [← hmem₅]
      simp [descOf, cntOf, largeOf]
    · cases hn
  have hlist : blocksOf a k = (List.range' 0 (perArena k)).map
      fun i => a + arenaSize + i * classSize k := by
    rw [blocksOf, List.range_eq_range']
    rfl
  generalize hC : (⟨Function.update C.arenas a (some (.small k)),
    Function.update C.free k (blocksOf a k)⟩ : Chart) = C' at hch hcnt ⊢
  have hnew : C'.free k = blocksOf a k := by rw [← hC]; exact Function.update_self ..
  have harenas : C'.arenas = Function.update C.arenas a (some (.small k)) := by rw [← hC]
  have hcharge' : Charge pf (⟨pf, a, 1⟩ :: all) C' others := by
    rw [← hC]
    exact hcharge.free
  have hf := hcharge'.founded hg hsees₅
  have hp := hcharge'.parted hg hsees₅
  have hcells := hch.cells_free k
  have hs := hch.shaped hp hf hk hcells (hch.free_nodup k)
  rw [hnew] at hcells hs
  have ha' : C'.arenas a = some (.small k) := by rw [harenas, Function.update_self]
  have hdesc : Describes G' m₀.cr3 mem₅ a (descAt descs k) (classSize k)
      (nodes (freeListAt descs k) (blocksOf a k)) :=
    ⟨(hw₅.small a k (Function.update_self ..)).1, hw₅.sizes k hk,
      ⟨hd, hch.managed_data hf (.desc (c := 0) hk (by decide) rfl)⟩,
      hch.off_header hp hk hcells ha' (c := 0) (by decide), (hch.off_desc hp hk hcells).1⟩
  have hl₅ : Threaded mem₅ (nodes (freeListAt descs k) []) := by
    have := hw₅.threaded k hk
    dsimp only at this
    rwa [hfree] at this
  rw [hlist] at hs hdesc
  obtain ⟨m₆, hsplit, mem₆, hsees₆, hl₆, hoff⟩ := hsees₅.splitArena hl₅ hs hdesc
  rw [List.nil_append, ← hlist] at hl₆ hoff
  refine ⟨m₆, G', mem₆, ?_, hsees₆, hch, ?_, hcharge'⟩
  · have hper : Managed C descs (blocksPerArenaOf (descAt descs k)) := .desc (c := 4) hk (by decide) rfl
    have hperData := hch.managed_data hf (.desc (c := 4) hk (by decide) rfl)
    have hload₄ : m₄.load (blocksPerArenaOf (descAt descs k)) = .ok (perArena k) := by
      obtain ⟨h1, -, h3⟩ := hout _ hper
      rw [← hw₂.perArenas k hk, ← Function.update_of_ne h1 (descAt descs k) mem₂,
        ← Function.update_of_ne h3 0 (Function.update mem₂ _ _)]
      exact hsees₄.load hperData
    have hload₅ : m₅.load (blocksPerArenaOf (descAt descs k)) = .ok (perArena k) := by
      rw [← hw₅.perArenas k hk]
      exact hsees₅.load hperData
    unfold Memory.newArena
    rw [hmal, ok_bind]
    dsimp only
    rw [hclear, ok_bind, hs₃, ok_bind, hs₄, ok_bind, hload₄, ok_bind, hs₅, ok_bind, hload₅, ok_bind,
      hsplit, ok_bind]
    rfl
  · rw [hcnt]
    refine hw₅.relist hch hp hk hcells (fun b κ hb => ⟨?_, hb⟩) (fun j hj => ⟨?_, rfl⟩) ?_ hoff
    · rwa [harenas] at hb
    · rw [← hC]
      exact Function.update_of_ne hj ..
    · rwa [hnew]

/-- A block of more than 1024 bytes gets pages of its own. -/
theorem Shows.mallocLarge (hg : Ground m₀ G₀ pf descs)
    (h : Shows m₀ G₀ pf descs G all C mem m live others) (hsize : 1024 < size)
    (hcnt : cnt = (size + arenaSize + pgSize - 1) / pgSize)
    (hmal : mallocPage m pf cnt = .ok (some a, m₁)) :
    ∃ m' G' mem', mallocLarge m pf size = .ok (some (a + arenaSize), m') ∧
      Shows m₀ G₀ pf descs G' (⟨pf, a, cnt⟩ :: all)
        { C with arenas := Function.update C.arenas a (some (.large cnt)) }
        mem' m' (⟨a + arenaSize, size⟩ :: live) others ∧
      ∀ x, a + arenaSize ≤ x → x < a + arenaSize + size → mem' x = 0 := by
  obtain ⟨m₂, G', mem₂, hclear, hsees₂, hw₂, hzero⟩ := h.clearPages hg hmal
  obtain ⟨hd, hc, hl⟩ := hsees₂.header_data hg.addressed
  have halign : a % 4096 = 0 := (hsees₂.holding.aligned _ List.mem_cons_self).1
  have hnone := h.charge.fresh_arena hsees₂.holding
  have hfit : size + arenaSize ≤ cnt * pgSize := by
    unfold pgSize at *
    omega
  obtain ⟨m₃, hs₃, hsees₃⟩ := hsees₂.store hd 0
  obtain ⟨m₄, hs₄, hsees₄⟩ := hsees₃.store hc cnt
  obtain ⟨m₅, hs₅, hsees₅⟩ := hsees₄.store hl 1
  have hout (x : ℕ) (hm : Managed C descs x) : x ≠ descOf a ∧ x ≠ cntOf a ∧ x ≠ largeOf a := by
    have hpos := (hsees₂.holding.aligned _ List.mem_cons_self).2
    have hfar := h.charge.fresh_managed hg h.charted hsees₂.holding hm
    dsimp only at hpos
    unfold descOf cntOf largeOf
    omega
  have hw₅ := hw₂.addArena (κ := .large cnt) (w := 0) hnone (fun x hm => by
    obtain ⟨h1, h2, h3⟩ := hout x hm
    exact (Function.update_of_ne h3 1 _).trans ((Function.update_of_ne h2 cnt _).trans
      (Function.update_of_ne h1 0 mem₂))) (fun j hj => by cases hj) (fun n hn => by
    obtain rfl : cnt = n := by simpa using hn
    simp [descOf, cntOf, largeOf])
  refine ⟨m₅, G', _, ?_, ⟨hsees₅, h.charted.addLarge halign hnone hsize hfit, hw₅.of_cnt ?_,
    h.charge.addArena (κ := .large cnt) hsees₂.holding⟩, fun x hlo hhi => ?_⟩
  · unfold Memory.mallocLarge
    dsimp only
    rw [← hcnt, hmal, ok_bind]
    dsimp only
    rw [hclear, ok_bind, hs₃, ok_bind, hs₄, ok_bind, hs₅, ok_bind]
    rfl
  · intro b k hb
    have hba : b ≠ a := by
      rintro rfl
      simp at hb
    unfold Chart.freeIn
    simp only [Function.update_of_ne hba]
  · unfold arenaSize pgSize at *
    unfold descOf cntOf largeOf
    rw [Function.update_of_ne (by omega), Function.update_of_ne (by omega),
      Function.update_of_ne (by omega)]
    exact hzero x (by omega) (by omega)

end Arenas

section Malloc

variable {m₀ m m₁ : Machine} {G₀ G : Layout} {pf : PoolFlags} {descs : ℕ}
  {all others : List Allocation} {C : Chart} {mem : ℕ → ℕ} {live : List Block} {b : Block}
  {k a size : ℕ}

/-- The class of a size: the first one with blocks that are large enough. -/
def Fits (size k : ℕ) : Prop := k < descCnt ∧ size ≤ classSize k ∧ ∀ i < k, classSize i < size

/-- The search ends at the class of the size. -/
theorem Shows.findDesc (hg : Ground m₀ G₀ pf descs)
    (h : Shows m₀ G₀ pf descs G all C mem m live others) (hsize : size ≤ 1024) {left idx : ℕ}
    (hidx : idx + left = descCnt) (hbelow : ∀ i < idx, classSize i < size) :
    ∃ k, Memory.findDesc m descs size left idx = .ok k ∧ Fits size k := by
  induction left generalizing idx with
  | zero =>
    have hlast := hbelow 6 (by unfold descCnt at hidx; omega)
    unfold classSize at hlast
    omega
  | succ left ih =>
    have hk : idx < descCnt := by omega
    have hload : m.load (blockSizeOf (descAt descs idx)) = .ok (classSize idx) := by
      rw [← h.written.sizes idx hk]
      exact h.sees.load (h.charted.managed_data (h.charge.founded hg h.sees)
        (.desc (c := 0) hk (by decide) rfl))
    unfold Memory.findDesc
    rw [hload, ok_bind]
    by_cases hle : size ≤ classSize idx
    · rw [if_pos hle]
      exact ⟨idx, rfl, hk, hle, hbelow⟩
    · rw [if_neg hle]
      refine ih (by omega) fun i hi => ?_
      obtain hi | rfl := Nat.lt_succ_iff_lt_or_eq.mp hi
      · exact hbelow i hi
      · omega

theorem Fits.unique {k' : ℕ} (h : Fits size k) (h' : Fits size k') : k = k' := by
  obtain ⟨-, h1, h2⟩ := h
  obtain ⟨-, h3, h4⟩ := h'
  obtain hlt | heq | hlt := Nat.lt_trichotomy k k'
  · exact absurd h1 (not_le.mpr (h4 k hlt))
  · exact heq
  · exact absurd h3 (not_le.mpr (h2 k' hlt))

theorem InUse.mono (h : InUse C live) {f : ℕ → List ℕ} :
    InUse { C with free := f } (b :: live) := by
  intro a k ha
  obtain ⟨c, hc, hcell⟩ := h a k ha
  exact ⟨c, List.mem_cons_of_mem _ hc, cell_free.mpr hcell⟩

theorem Shows.listEmpty (hg : Ground m₀ G₀ pf descs)
    (h : Shows m₀ G₀ pf descs G all C mem m live others) (hk : k < descCnt) :
    listEmpty m (freeListOf (descAt descs k)) = .ok (C.free k).isEmpty :=
  h.sees.listEmpty (h.written.threaded k hk)
    (h.charted.shaped (h.charge.parted hg h.sees) (h.charge.founded hg h.sees) hk
      (h.charted.cells_free k) (h.charted.free_nodup k))

/-- A live block is in words of data. -/
theorem Shows.block_data (hg : Ground m₀ G₀ pf descs)
    (h : Shows m₀ G₀ pf descs G all C mem m live others) (hb : b ∈ live) {x : ℕ} (hx : x % 4 = 0)
    (hlo : b.addr ≤ x) (hhi : x < b.addr + b.size) : DataWord G m₀.cr3 x := by
  have hf := h.charge.founded hg h.sees
  refine ⟨hx, ?_⟩
  cases h.charted.lies b hb with
  | @small k a hc hsize =>
    obtain ⟨-, h1, h2, h3, -, h4, -⟩ := h.charted.cell hc
    obtain ⟨f, hpage⟩ := hf.arenas a _ hc.arena 0 one_pos
    exact ⟨f, by rwa [show x / 4096 = a / 4096 + 0 by omega]⟩
  | @large a n ha haddr hsize hfit =>
    have halign := h.charted.aligned a _ ha
    unfold arenaSize at haddr hfit
    unfold pgSize at hfit
    obtain ⟨f, hpage⟩ := hf.arenas a _ ha (x / 4096 - a / 4096) (show _ < n by omega)
    exact ⟨f, by rwa [show x / 4096 = a / 4096 + (x / 4096 - a / 4096) by omega]⟩

/-- What `sys_malloc` leaves when it hands out a block at `e`. -/
structure Handed (m₀ : Machine) (G₀ : Layout) (pf : PoolFlags) (descs : ℕ) (live : List Block)
    (others : List Allocation) (size e : ℕ) (m : Machine) : Prop where
  inv : HeapInv m₀ G₀ pf descs m (⟨e, size⟩ :: live) others
  zero : ∀ x, x % 4 = 0 → e ≤ x → x < e + size → m.load x = .ok 0

theorem Shows.handed (hg : Ground m₀ G₀ pf descs) {e : ℕ}
    (h : Shows m₀ G₀ pf descs G all C mem m (⟨e, size⟩ :: live) others)
    (huse : InUse C (⟨e, size⟩ :: live)) (hzero : ∀ x, e ≤ x → x < e + size → mem x = 0) :
    Handed m₀ G₀ pf descs live others size e m where
  inv := ⟨G, all, C, mem, h, huse⟩
  zero := fun x hx hlo hhi => by
    rw [← hzero x hlo hhi]
    exact h.sees.load (h.block_data hg List.mem_cons_self hx hlo hhi)

/-- The first free block is handed out. -/
theorem Shows.takeBlock_handed (hg : Ground m₀ G₀ pf descs)
    (h : Shows m₀ G₀ pf descs G all C mem m live others) (hk : Fits size k) {e : ℕ} {rest : List ℕ}
    (hfree : C.free k = e :: rest)
    (huse : ∀ a j, C.arenas a = some (.small j) → ∃ b ∈ (⟨e, size⟩ : Block) :: live, Cell C j a b.addr) :
    ∃ m', Memory.takeBlock m (descAt descs k) = .ok (e, m') ∧
      Handed m₀ G₀ pf descs live others size e m' := by
  obtain ⟨m', mem', htake, hshow, hzero⟩ := h.takeBlock hg hk.1 hfree hk.2.1
  refine ⟨m', htake, hshow.handed hg (fun a j ha => ?_) fun x hlo hhi => ?_⟩
  · obtain ⟨b, hb, hcell⟩ := huse a j ha
    exact ⟨b, hb, cell_free.mpr hcell⟩
  · exact hzero x hlo (by have := hk.2.1; omega)

/-- A small block from a free list. -/
theorem Shows.mallocSmall_free (hg : Ground m₀ G₀ pf descs)
    (h : Shows m₀ G₀ pf descs G all C mem m live others) (huse : InUse C live) (hk : Fits size k)
    (hfind : Memory.findDesc m descs size descCnt 0 = .ok k) (hfree : C.free k ≠ []) :
    ∃ e m', mallocSmall m pf descs size = .ok (some e, m') ∧
      Handed m₀ G₀ pf descs live others size e m' := by
  obtain ⟨e, rest, hcons⟩ := List.exists_cons_of_ne_nil hfree
  obtain ⟨m', htake, hhand⟩ := h.takeBlock_handed hg hk hcons fun a j ha => by
    obtain ⟨b, hb, hcell⟩ := huse a j ha
    exact ⟨b, List.mem_cons_of_mem _ hb, hcell⟩
  refine ⟨e, m', ?_, hhand⟩
  unfold mallocSmall
  rw [hfind, ok_bind]
  dsimp only
  rw [h.listEmpty hg hk.1, hcons, ok_bind, List.isEmpty_cons, if_neg (by simp), pure_eq_ok, ok_bind]
  dsimp only
  rw [if_pos rfl, htake]
  rfl

/-- A small block from a new arena. -/
theorem Shows.mallocSmall_new (hg : Ground m₀ G₀ pf descs)
    (h : Shows m₀ G₀ pf descs G all C mem m live others) (huse : InUse C live) (hk : Fits size k)
    (hfind : Memory.findDesc m descs size descCnt 0 = .ok k) (hfree : C.free k = [])
    (hmal : mallocPage m pf 1 = .ok (some a, m₁)) :
    ∃ e m', mallocSmall m pf descs size = .ok (some e, m') ∧
      Handed m₀ G₀ pf descs live others size e m' := by
  obtain ⟨m₂, G₂, mem₂, hnew, hshow⟩ := h.newArena hg hk.1 hfree hmal
  have hpos := perArena_pos hk.1
  have hblocks : blocksOf a k = blockAt a k 0 :: (List.range' 1 (perArena k - 1)).map (blockAt a k) := by
    rw [blocksOf, List.range_eq_range', show perArena k = perArena k - 1 + 1 by omega,
      List.range'_succ, List.map_cons]
    simp
  obtain ⟨m', htake, hhand⟩ := hshow.takeBlock_handed hg hk
    ((Function.update_self ..).trans hblocks) fun b j hb => by
      dsimp only at hb
      by_cases hba : b = a
      · rw [hba, Function.update_self] at hb
        obtain rfl : k = j := by simpa using hb
        rw [hba]
        exact ⟨_, List.mem_cons_self, Function.update_self .., 0, hpos, rfl⟩
      · rw [Function.update_of_ne hba] at hb
        obtain ⟨c, hc, hcell⟩ := huse b j hb
        exact ⟨c, List.mem_cons_of_mem _ hc, (Function.update_of_ne hba ..).trans hb, hcell.index⟩
  refine ⟨_, m', ?_, hhand⟩
  unfold mallocSmall
  rw [hfind, ok_bind]
  dsimp only
  rw [h.listEmpty hg hk.1, hfree, ok_bind, List.isEmpty_nil, if_pos rfl, hnew, ok_bind]
  dsimp only
  rw [if_pos rfl, htake]
  rfl

/-- The pages that `sys_malloc` asks `malloc_page` for. -/
inductive Demand (m : Machine) (descs size : ℕ) : ℕ → Prop
  | large : 1024 < size → Demand m descs size ((size + arenaSize + pgSize - 1) / pgSize)
  | small {k : ℕ} : Fits size k → Memory.listEmpty m (freeListAt descs k) = .ok true →
      Demand m descs size 1

/-- `sys_malloc` between taking the lock and giving it back. -/
def mallocBlock (m : Machine) (pf : PoolFlags) (descs size : ℕ) :
    Except Fault (Option ℕ × Machine) :=
  if size > 1024 then mallocLarge m pf size else mallocSmall m pf descs size

/-- What comes of a call that asks for `n` pages. -/
theorem Shows.malloc_demand (hg : Ground m₀ G₀ pf descs)
    (h : Shows m₀ G₀ pf descs G all C mem m live others) (huse : InUse C live) {n : ℕ}
    (hd : Demand m descs size n) :
    (∃ a m₁, mallocPage m pf n = .ok (some a, m₁) ∧ ∃ e m',
      mallocBlock m pf descs size = .ok (some e, m') ∧ Handed m₀ G₀ pf descs live others size e m') ∨
    (∃ m₁, mallocPage m pf n = .ok (none, m₁) ∧ mallocBlock m pf descs size = .ok (none, m₁)) ∨
    ∃ err, mallocPage m pf n = .error err ∧ mallocBlock m pf descs size = .error err := by
  cases hd with
  | large hsize =>
    unfold mallocBlock
    rw [if_pos hsize]
    cases hmal : mallocPage m pf ((size + arenaSize + pgSize - 1) / pgSize) with
    | error err =>
      refine .inr (.inr ⟨err, rfl, ?_⟩)
      unfold Memory.mallocLarge
      dsimp only
      rw [hmal]
      rfl
    | ok r =>
      obtain ⟨r, m₁⟩ := r
      cases r with
      | none =>
        refine .inr (.inl ⟨m₁, rfl, ?_⟩)
        unfold Memory.mallocLarge
        dsimp only
        rw [hmal]
        rfl
      | some a =>
        obtain ⟨m', G', mem', hrun, hshow, hzero⟩ := h.mallocLarge hg hsize rfl hmal
        refine .inl ⟨a, m₁, rfl, _, m', hrun, hshow.handed hg (fun b j hb => ?_) hzero⟩
        dsimp only at hb
        by_cases hba : b = a
        · rw [hba, Function.update_self] at hb
          cases hb
        · rw [Function.update_of_ne hba] at hb
          obtain ⟨c, hc, hcell⟩ := huse b j hb
          exact ⟨c, List.mem_cons_of_mem _ hc, (Function.update_of_ne hba ..).trans hb, hcell.index⟩
  | @small k hk hempty =>
    have hsize : size ≤ 1024 := hk.2.1.trans (classSize_bounds hk.1).2.1
    obtain ⟨k', hfind, hk'⟩ := h.findDesc hg hsize (Nat.zero_add descCnt) (by simp)
    obtain rfl := hk.unique hk'
    have hlist := h.listEmpty hg hk.1
    have hfree : C.free k = [] := by
      rw [show freeListOf (descAt descs k) = freeListAt descs k from rfl, hempty] at hlist
      exact List.isEmpty_iff.mp (Except.ok.inj hlist).symm
    unfold mallocBlock
    rw [if_neg (by omega)]
    cases hmal : mallocPage m pf 1 with
    | error err =>
      refine .inr (.inr ⟨err, rfl, ?_⟩)
      unfold mallocSmall Memory.newArena
      rw [hfind, ok_bind]
      dsimp only
      rw [hlist, hfree, ok_bind, List.isEmpty_nil, if_pos rfl, hmal]
      rfl
    | ok r =>
      obtain ⟨r, m₁⟩ := r
      cases r with
      | none =>
        refine .inr (.inl ⟨m₁, rfl, ?_⟩)
        unfold mallocSmall Memory.newArena
        rw [hfind, ok_bind]
        dsimp only
        rw [hlist, hfree, ok_bind, List.isEmpty_nil, if_pos rfl, hmal]
        rfl
      | some a =>
        obtain ⟨e, m', hrun, hhand⟩ := h.mallocSmall_new hg huse hk hfind hfree hmal
        exact .inl ⟨a, m₁, rfl, e, m', hrun, hhand⟩

/-- A free block of the class of the size is there. -/
theorem Shows.malloc_free (hg : Ground m₀ G₀ pf descs)
    (h : Shows m₀ G₀ pf descs G all C mem m live others) (huse : InUse C live)
    (hd : ∀ n, ¬ Demand m descs size n) : ∃ e m',
      mallocBlock m pf descs size = .ok (some e, m') ∧ Handed m₀ G₀ pf descs live others size e m' := by
  have hsize : size ≤ 1024 := Nat.le_of_not_lt fun hlt => hd _ (.large hlt)
  obtain ⟨k, hfind, hk⟩ := h.findDesc hg hsize (Nat.zero_add descCnt) (by simp)
  have hfree : C.free k ≠ [] := by
    intro hnil
    refine hd 1 (.small hk ?_)
    have hlist := h.listEmpty hg hk.1
    rwa [hnil] at hlist
  obtain ⟨e, m', hrun, hhand⟩ := h.mallocSmall_free hg huse hk hfind hfree
  refine ⟨e, m', ?_, hhand⟩
  unfold mallocBlock
  rwa [if_neg (by omega)]

/-- `lock_release` undoes `lock_acquire`. -/
theorem sysMalloc_eq (img : KernelImage) (x : Allocator) (size : ℕ) : sysMalloc img x size =
    if 0 < size ∧ size < (x.machine.pools x.machine.poolFlags).poolSize then do
      let (r, m) ← mallocBlock x.machine x.machine.poolFlags (img.descs x.machine) size
      return (r, { x with machine := m })
    else .ok (none, x) := by
  unfold sysMalloc
  dsimp only
  by_cases hin : 0 < size ∧ size < (x.machine.pools x.machine.poolFlags).poolSize
  · rw [if_neg (by simpa using hin), if_pos hin]
    have hrel (m : Machine) : ({ x.lockAcquire x.machine.poolFlags with machine := m } :
        Allocator).lockRelease x.machine.poolFlags = .ok { x with machine := m } := by
      unfold Allocator.lockRelease Allocator.lockAcquire
      rw [ensure_of (by simp), ok_bind]
      simp
    simp only [hrel]
    unfold mallocBlock
    by_cases hsize : size > 1024
    · rw [if_pos hsize, if_pos hsize]
      rfl
    · rw [if_neg hsize, if_neg hsize]
      rfl
  · rw [if_pos (by simpa using hin), if_neg hin]
    rfl

end Malloc

end X86System.Memory
