import X86System.HeapFrees

/-!
# Where heaps start

`block_desc_init` on the descriptors of the running thread, and what the thread may do between
two calls of `sys_malloc` and `sys_free`: write to its blocks, and use pages of its own.
-/
namespace X86System.Memory
open Exec NodeWords Paging

section Others

variable {m₀ m m' : Machine} {G₀ : Layout} {pf pf' : PoolFlags} {descs : ℕ}
  {others : List Allocation} {live : List Block} {b : Block} {cnt v w : ℕ} {p : Allocation}

/-- A write into a live block. -/
theorem HeapInv.store (hg : Ground m₀ G₀ pf descs) (h : HeapInv m₀ G₀ pf descs m live others)
    (hb : b ∈ live) (hv : v % 4 = 0) (hlo : b.addr ≤ v) (hhi : v < b.addr + b.size)
    (hstore : m.store v w = .ok m') : HeapInv m₀ G₀ pf descs m' live others := by
  obtain ⟨G, all, C, mem, hshow, huse⟩ := h
  have hf := hshow.charge.founded hg hshow.sees
  have hp := hshow.charge.parted hg hshow.sees
  have hout : ¬ Managed C descs v := by
    cases hshow.charted.lies b hb with
    | @small k a hc hsize =>
      have hnot : b.addr ∉ C.free k := fun hmem =>
        ((hshow.charted.mem_free k _).mp hmem).2 b hb rfl
      exact hshow.charted.block_unmanaged hp hc hnot hlo (by omega)
    | @large a n ha haddr hsize hfit =>
      unfold pgSize at hfit
      exact hshow.charted.large_unmanaged hp ha (by omega) (by omega)
  obtain ⟨m₁, hrun, hsees⟩ := hshow.sees.store (hshow.block_data hg hb hv hlo hhi) w
  obtain rfl := Except.ok.inj (hrun.symm.trans hstore)
  refine ⟨G, all, C, _, ⟨hsees, hshow.charted, hshow.written.congr fun x hm => ?_, hshow.charge⟩, huse⟩
  apply Function.update_of_ne
  rintro rfl
  exact hout hm

/-- Pages for another use. -/
theorem HeapInv.mallocPage (hg : Ground m₀ G₀ pf descs) (h : HeapInv m₀ G₀ pf descs m live others)
    (hspace : pf' = .user → m₀.cr3 ∈ G₀.spaces) (hmal : mallocPage m pf' cnt = .ok (some v, m')) :
    HeapInv m₀ G₀ pf descs m' live (⟨pf', v, cnt⟩ :: others) := by
  obtain ⟨G, all, C, mem, hshow, huse⟩ := h
  obtain ⟨G', mem', hsees, -, hkept⟩ := hshow.sees.mallocPage hspace hmal
  have hpos := (hsees.holding.aligned _ List.mem_cons_self).2
  have hfresh : (⟨pf', v, cnt⟩ : Allocation) ∉ all := fun hmem =>
    hsees.holding.fresh_ne hmem rfl hpos hpos rfl
  have hf := hshow.charge.founded hg hshow.sees
  refine ⟨G', _, C, mem', ⟨hsees, hshow.charted, hshow.written.congr fun x hm => ?_, ?_⟩, huse⟩
  · exact hkept x (hshow.charted.managed_data hf hm)
  · refine ⟨fun a κ ha => List.mem_cons_of_mem _ (hshow.charge.arenas a κ ha), ?_, fun p hp => ?_⟩
    · exact List.nodup_cons.mpr ⟨fun hmem => hfresh (hshow.charge.others _ hmem).1,
        hshow.charge.nodup⟩
    · obtain rfl | hp := List.mem_cons.mp hp
      · refine ⟨List.mem_cons_self, fun κ hκ heq => hfresh ?_⟩
        rw [heq]
        exact hshow.charge.arenas _ κ hκ
      · exact ⟨List.mem_cons_of_mem _ (hshow.charge.others p hp).1, (hshow.charge.others p hp).2⟩

/-- Pages of another use are given back. -/
theorem HeapInv.mfreePage (hg : Ground m₀ G₀ pf descs) (h : HeapInv m₀ G₀ pf descs m live others)
    (hp : p ∈ others) (hfree : mfreePage m p.pf p.vaddr p.pgCnt = .ok m') :
    HeapInv m₀ G₀ pf descs m' live (others.erase p) := by
  obtain ⟨G, all, C, mem, hshow, huse⟩ := h
  obtain ⟨hall, harena⟩ := hshow.charge.others p hp
  obtain ⟨m₁, G', hrun, hsees, -⟩ := hshow.sees.mfreePage hg.addressed hall
  obtain rfl := Except.ok.inj (hrun.symm.trans hfree)
  refine ⟨G', _, C, mem, ⟨hsees, hshow.charted, hshow.written, ?_⟩, huse⟩
  refine ⟨fun a κ ha => ?_, hshow.charge.nodup.erase p, fun q hq => ?_⟩
  · refine (List.mem_erase_of_ne ?_).mpr (hshow.charge.arenas a κ ha)
    rintro rfl
    exact harena κ ha rfl
  · obtain ⟨hne, hq⟩ := hshow.charge.nodup.mem_erase_iff.mp hq
    exact ⟨(List.mem_erase_of_ne hne).mpr (hshow.charge.others q hq).1,
      (hshow.charge.others q hq).2⟩

end Others

section Start

variable {m₀ m : Machine} {G₀ G : Layout} {pf : PoolFlags} {descs left idx : ℕ}
  {live : List Allocation} {mem : ℕ → ℕ}

/-- The descriptors below `n` are as `block_desc_init` leaves them. -/
structure Described (descs n : ℕ) (mem : ℕ → ℕ) : Prop where
  sizes : ∀ k < n, mem (blockSizeOf (descAt descs k)) = classSize k
  perArenas : ∀ k < n, mem (blocksPerArenaOf (descAt descs k)) = perArena k
  threaded : ∀ k < n, Threaded mem (nodes (freeListAt descs k) [])

/-- `list_init`. -/
theorem Sees.listInit (h : Sees m₀ G₀ G live mem m) {list : ℕ}
    (hdata : ∀ o < 16, o % 4 = 0 → DataWord G m₀.cr3 (list + o)) :
    ∃ m' mem', listInit m list = .ok m' ∧ Sees m₀ G₀ G live mem' m' ∧
      Threaded mem' (nodes list []) ∧ ∀ x, x < list ∨ list + 16 ≤ x → mem' x = mem x := by
  obtain ⟨m₁, hs₁, h₁⟩ := h.store (hdata 0 (by decide) rfl) 0
  obtain ⟨m₂, hs₂, h₂⟩ := h₁.store (hdata 4 (by decide) rfl) (tailOf list)
  obtain ⟨m₃, hs₃, h₃⟩ := h₂.store (hdata 8 (by decide) rfl) (headOf list)
  obtain ⟨m₄, hs₄, h₄⟩ := h₃.store (hdata 12 (by decide) rfl) 0
  refine ⟨m₄, _, ?_, h₄, ?_, fun x hx => ?_⟩
  · unfold Memory.listInit prevOf nextOf headOf tailOf at *
    rw [Nat.add_zero] at hs₁
    rw [hs₁, ok_bind, hs₂, ok_bind, hs₃, ok_bind, hs₄]
  · refine Links.linked_cons_cons.mpr ⟨⟨?_, ?_⟩, Links.linked_singleton ..⟩
    · unfold nextIn headOf
      rw [Function.update_of_ne (by omega), Function.update_of_ne (by omega), Function.update_self]
    · unfold prevIn tailOf
      rw [Function.update_of_ne (by omega), Function.update_self]
  · rw [Function.update_of_ne (by omega), Function.update_of_ne (by omega),
      Function.update_of_ne (by omega), Function.update_of_ne (by omega)]

/-- The loop of `block_desc_init`. -/
theorem Sees.blockDescInitLoop (h : Sees m₀ G₀ G live mem m) (hidx : idx + left = descCnt)
    (hdata : ∀ x, descs ≤ x → x < descs + descCnt * descSize → x % 4 = 0 → DataWord G m₀.cr3 x)
    (halign : descs % 4 = 0) (hd : Described descs idx mem) :
    ∃ m' mem', blockDescInitLoop descs left idx (classSize idx) m = .ok m' ∧
      Sees m₀ G₀ G live mem' m' ∧ Described descs descCnt mem' := by
  induction left generalizing idx m mem with
  | zero =>
    obtain rfl : idx = descCnt := hidx
    exact ⟨m, mem, rfl, h, hd⟩
  | succ left ih =>
    have hk : idx < descCnt := by omega
    have hword (o : ℕ) (ho : o < descSize) (ho4 : o % 4 = 0) :
        DataWord G m₀.cr3 (descAt descs idx + o) := by
      refine hdata _ (descAt_bounds hk ho).1 (descAt_bounds hk ho).2 ?_
      unfold descAt descSize
      omega
    obtain ⟨m₁, hs₁, h₁⟩ := h.store (hword 0 (by decide) rfl) (classSize idx)
    obtain ⟨m₂, hs₂, h₂⟩ := h₁.store (hword 4 (by decide) rfl) (perArena idx)
    have hlist (o : ℕ) (ho : o < 16) (ho4 : o % 4 = 0) :
        DataWord G m₀.cr3 (freeListOf (descAt descs idx) + o) := by
      have hdata := hword (8 + o) (by unfold descSize; omega) (by omega)
      rwa [← Nat.add_assoc] at hdata
    obtain ⟨m₃, mem₃, hs₃, h₃, hl₃, hrest⟩ := h₂.listInit hlist
    have hold (x : ℕ) (hx : x < descAt descs idx) : mem₃ x = mem x := by
      unfold freeListOf at hrest
      rw [hrest x (by omega), Function.update_of_ne (by omega), Function.update_of_ne (by omega)]
    have hbelow (k o : ℕ) (hk : k < idx) (ho : o < descSize) : descAt descs k + o < descAt descs idx := by
      unfold descAt descSize at *
      omega
    have hnew : Described descs (idx + 1) mem₃ := by
      refine ⟨fun k hk => ?_, fun k hk => ?_, fun k hk => ?_⟩
      · obtain hk | rfl := Nat.lt_succ_iff_lt_or_eq.mp hk
        · exact (hold _ (hbelow k 0 hk (by decide))).trans (hd.sizes k hk)
        · unfold freeListOf blockSizeOf at *
          rw [hrest _ (by omega), Function.update_of_ne (by omega), Nat.add_zero,
            Function.update_self]
      · obtain hk | rfl := Nat.lt_succ_iff_lt_or_eq.mp hk
        · exact (hold _ (hbelow k 4 hk (by decide))).trans (hd.perArenas k hk)
        · unfold freeListOf blocksPerArenaOf at *
          rw [hrest _ (by omega), Function.update_self]
      · obtain hk | rfl := Nat.lt_succ_iff_lt_or_eq.mp hk
        · refine (hd.threaded k hk).congr fun x hx => ?_
          obtain rfl | hx | rfl := mem_nodes.mp hx
          · exact ⟨hold _ (hbelow k 8 hk (by decide)), hold _ (hbelow k 12 hk (by decide))⟩
          · cases hx
          · exact ⟨hold _ (hbelow k 16 hk (by decide)), hold _ (hbelow k 20 hk (by decide))⟩
        · exact hl₃
    obtain ⟨m', mem', hrun, h', hd'⟩ := ih h₃ (by omega) hnew
    refine ⟨m', mem', ?_, h', hd'⟩
    have hdouble : classSize idx * 2 = classSize (idx + 1) := by
      unfold classSize
      ring
    unfold Memory.blockDescInitLoop
    dsimp only
    unfold blockSizeOf blocksPerArenaOf
    rw [Nat.add_zero] at hs₁
    change (m.store (descAt descs idx) (classSize idx) >>= fun m =>
      m.store (descAt descs idx + 4) (perArena idx) >>= fun m =>
        Memory.listInit m (freeListOf (descAt descs idx)) >>= fun m =>
          blockDescInitLoop descs left (idx + 1) (classSize idx * 2) m) = _
    rw [hs₁, ok_bind, hs₂, ok_bind, hs₃, ok_bind, hdouble, hrun]

/-- The words of data of a machine. -/
theorem Holding.sees (h : Holding m₀ G₀ G₀ ⟨m₀, []⟩) : ∃ mem, Sees m₀ G₀ G₀ [] mem m₀ := by
  refine ⟨fun a => ((Paging.walk m₀.ram m₀.cr3 a).map fun q => m₀.ram q.1 q.2).getD 0, h,
    ⟨rfl, rfl⟩, fun a f _ hd => ?_⟩
  rw [h.addressed.coherent.walk_data h.addressed.cr3_mem hd]
  rfl

/-- The heap after `block_desc_init`. -/
theorem Ground.start (hg : Ground m₀ G₀ pf descs) (h : Holding m₀ G₀ G₀ ⟨m₀, []⟩) :
    ∃ m, blockDescInit m₀ descs = .ok m ∧ HeapInv m₀ G₀ pf descs m [] [] := by
  obtain ⟨mem₀, hsees₀⟩ := h.sees
  obtain ⟨m, mem, hrun, hsees, hd⟩ := hsees₀.blockDescInitLoop (Nat.zero_add descCnt)
    (fun x hlo hhi hx => ⟨hx, hg.desc_data h hlo hhi⟩) hg.aligned
    ⟨fun k hk => by omega, fun k hk => by omega, fun k hk => by omega⟩
  refine ⟨m, hrun, G₀, [], ⟨fun _ => none, fun _ => []⟩, mem, ⟨hsees, ?_, ?_, ?_⟩, ?_⟩
  · refine ⟨by simp, by simp, by simp, by simp, fun k e => ?_, by simp⟩
    simp only [List.not_mem_nil, false_iff]
    rintro ⟨⟨a, hc⟩, -⟩
    cases hc.arena
  · exact ⟨hd.sizes, hd.perArenas, by simp, by simp, hd.threaded⟩
  · exact ⟨by simp, .nil, by simp⟩
  · intro a k ha
    cases ha

end Start

section Kept

variable {m m' : Machine} {v w list left idx size descs : ℕ}

theorem store_setRam (h : m.store v w = .ok m') : ∃ ram, m' = m.setRam ram := by
  unfold Machine.store at h
  split at h
  · exact ⟨_, (Except.ok.inj h).symm⟩
  · cases h

theorem listInit_setRam (h : listInit m list = .ok m') : ∃ ram, m' = m.setRam ram := by
  unfold listInit at h
  obtain ⟨m₁, h₁, h⟩ := of_bind_eq_ok h
  obtain ⟨m₂, h₂, h⟩ := of_bind_eq_ok h
  obtain ⟨m₃, h₃, h⟩ := of_bind_eq_ok h
  obtain ⟨r₁, rfl⟩ := store_setRam h₁
  obtain ⟨r₂, rfl⟩ := store_setRam h₂
  obtain ⟨r₃, rfl⟩ := store_setRam h₃
  obtain ⟨r₄, rfl⟩ := store_setRam h
  exact ⟨r₄, rfl⟩

/-- `block_desc_init` changes memory alone. -/
theorem blockDescInitLoop_setRam (h : blockDescInitLoop descs left idx size m = .ok m') :
    ∃ ram, m' = m.setRam ram := by
  induction left generalizing idx size m with
  | zero => exact ⟨m.ram, (Except.ok.inj h).symm⟩
  | succ left ih =>
    unfold blockDescInitLoop at h
    obtain ⟨m₁, h₁, h⟩ := of_bind_eq_ok h
    obtain ⟨m₂, h₂, h⟩ := of_bind_eq_ok h
    obtain ⟨m₃, h₃, h⟩ := of_bind_eq_ok h
    obtain ⟨r₁, rfl⟩ := store_setRam h₁
    obtain ⟨r₂, rfl⟩ := store_setRam h₂
    obtain ⟨r₃, rfl⟩ := listInit_setRam h₃
    obtain ⟨r₄, rfl⟩ := ih h
    exact ⟨r₄, rfl⟩

end Kept

end X86System.Memory
