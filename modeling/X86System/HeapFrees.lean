import X86System.HeapMallocs

/-!
# Taking blocks back

`sys_free` part by part: the end of a free list, the counter of an arena, and the page of an arena
whose blocks are all free.
-/
namespace X86System.Memory
open Exec NodeWords Paging

section Free

variable {m₀ m m₁ : Machine} {G₀ G : Layout} {pf : PoolFlags} {descs : ℕ}
  {all others : List Allocation} {C : Chart} {mem : ℕ → ℕ} {live : List Block} {b c : Block}
  {k a n : ℕ}

/-- An arena is given up, with its pages. -/
theorem Charge.dropArena {κ : ArenaKind} (hc : Charge pf all C others) (ha : C.arenas a = some κ) :
    Charge pf (all.erase ⟨pf, a, κ.pgCnt⟩)
      { C with arenas := Function.update C.arenas a none } others where
  arenas := fun d ν hd => by
    dsimp only at hd
    by_cases hda : d = a
    · rw [hda, Function.update_self] at hd
      cases hd
    · rw [Function.update_of_ne hda] at hd
      exact (List.mem_erase_of_ne (by simp [hda])).mpr (hc.arenas d ν hd)
  others := fun p hp => by
    obtain ⟨hmem, hne⟩ := hc.others p hp
    refine ⟨(List.mem_erase_of_ne ?_).mpr hmem, fun ν hν => ?_⟩
    · rintro rfl
      exact hne κ ha rfl
    · dsimp only at hν
      by_cases hpa : p.vaddr = a
      · rw [hpa, Function.update_self] at hν
        cases hν
      · rw [Function.update_of_ne hpa] at hν
        exact hne ν hν
  nodup := hc.nodup

/-- What `sys_free` leaves. The page of the block is gone if and only if no other live block is
in it. -/
structure Freed (m₀ : Machine) (G₀ : Layout) (pf : PoolFlags) (descs : ℕ) (live : List Block)
    (others : List Allocation) (b : Block) (m : Machine) : Prop where
  inv : HeapInv m₀ G₀ pf descs m (live.erase b) others
  page : Paging.walk m.ram m.cr3 (b.addr / 4096 * 4096) = none ↔
    ∀ c ∈ live.erase b, c.addr / 4096 ≠ b.addr / 4096

/-- A live block in the page of a small arena is one of its blocks. -/
theorem Charted.cell_of_page (h : Charted C live) (ha : C.arenas a = some (.small k)) (hc : c ∈ live)
    (hpage : c.addr / 4096 * 4096 = a) : Cell C k a c.addr := by
  cases h.lies c hc with
  | @small j a' hcell hsize =>
    obtain ⟨-, h1, h2, h3, -, h4, -⟩ := h.cell hcell
    obtain rfl : a' = a := by omega
    have hkind := hcell.arena.symm.trans ha
    obtain rfl : j = k := by simpa using hkind
    exact hcell
  | @large a' n ha' haddr hsize hfit =>
    have halign := h.aligned a' _ ha'
    unfold arenaSize at haddr
    obtain rfl : a' = a := by omega
    rw [ha] at ha'
    cases ha'

/-- The arenas in use after one block less is live, but for the arena of the block. -/
theorem InUse.erase (huse : InUse C live) (h : Charted C live) (hc : Cell C k a b.addr) {d j : ℕ}
    (hd : C.arenas d = some (.small j)) (hne : d ≠ a) : ∃ c ∈ live.erase b, Cell C j d c.addr := by
  obtain ⟨c, hcl, hcell⟩ := huse d j hd
  refine ⟨c, (List.mem_erase_of_ne ?_).mpr hcl, hcell⟩
  rintro rfl
  exact hne (h.cell_unique hcell hc).1

/-- The header of the arena that an address is in. -/
theorem Shows.block2arena (hg : Ground m₀ G₀ pf descs)
    (h : Shows m₀ G₀ pf descs G all C mem m live others) {κ : ArenaKind} (ha : C.arenas a = some κ)
    {x : ℕ} (hlo : a ≤ x) (hhi : x < a + 4096) : block2arena x = a := by
  have halign := h.charted.aligned a κ ha
  have hlt : a + 0 < 2 ^ 32 := h.sees.holding.addressed.coherent.data_lt
    (h.charted.managed_data (h.charge.founded hg h.sees) (.header ha (by decide) rfl))
  rw [block2arena_eq (by omega)]
  omega

theorem Shows.load (hg : Ground m₀ G₀ pf descs)
    (h : Shows m₀ G₀ pf descs G all C mem m live others) {x : ℕ} (hm : Managed C descs x) :
    m.load x = .ok (mem x) :=
  h.sees.load (h.charted.managed_data (h.charge.founded hg h.sees) hm)

/-- A large block is given back. -/
theorem Shows.freeLarge (hg : Ground m₀ G₀ pf descs)
    (h : Shows m₀ G₀ pf descs G all C mem m live others) (huse : InUse C live) (hb : b ∈ live)
    (ha : C.arenas a = some (.large n)) (haddr : b.addr = a + arenaSize) :
    ∃ m', freeBlock m pf b.addr = .ok m' ∧ Freed m₀ G₀ pf descs live others b m' := by
  have halign := h.charted.aligned a _ ha
  have hstart : b.addr / 4096 * 4096 = a := by
    unfold arenaSize at haddr
    omega
  have hround : a / 4096 * 4096 = a := Nat.div_mul_cancel (Nat.dvd_of_mod_eq_zero halign)
  obtain ⟨m', G', hfree, hsees, -, hgone⟩ := h.sees.mfreePage hg.addressed (h.charge.arenas a _ ha)
  have hpos : 0 < n := (h.sees.holding.aligned _ (h.charge.arenas a _ ha)).2
  have hback (d : ℕ) (κ : ArenaKind) (hd : Function.update C.arenas a none d = some κ) :
      C.arenas d = some κ ∧ d ≠ a := by
    by_cases hda : d = a
    · rw [hda, Function.update_self] at hd
      cases hd
    · rw [Function.update_of_ne hda] at hd
      exact ⟨hd, hda⟩
  have hsmall {d j : ℕ} (hd : C.arenas d = some (.small j)) : d ≠ a := by
    rintro rfl
    rw [ha] at hd
    cases hd
  obtain ⟨h1, h2, h3⟩ := h.written.large a n ha
  have hw : Written { C with arenas := Function.update C.arenas a none } C.freeIn descs mem :=
    h.written.anti (fun d κ hd => (hback d κ hd).1) rfl
  refine ⟨m', ?_, ⟨G', _, _, mem, ⟨hsees, h.charted.dropLarge ha hb haddr, hw.of_cnt fun d j hd => ?_,
    h.charge.dropArena ha⟩, fun d j hd => ?_⟩, ?_⟩
  · have hload₀ := h.load hg (.header (c := 0) ha (by decide) rfl)
    have hload₄ := h.load hg (.header (c := 4) ha (by decide) rfl)
    have hload₈ := h.load hg (.header (c := 8) ha (by decide) rfl)
    unfold freeBlock
    rw [h.block2arena hg ha (x := b.addr) (by omega) (by unfold arenaSize at haddr; omega)]
    dsimp only
    unfold descOf cntOf largeOf at *
    rw [hload₈, h3, ok_bind, ensure_of (.inr rfl), ok_bind]
    change (m.load (a + 0) >>= _) = _
    rw [hload₀, ok_bind, Nat.add_zero, h1, if_pos ⟨rfl, rfl⟩, hload₄, ok_bind, h2]
    exact hfree
  · have hne := (hback d _ hd).2
    unfold Chart.freeIn
    simp only [Function.update_of_ne hne]
  · obtain ⟨hd, hne⟩ := hback d _ hd
    obtain ⟨c, hc, hcell⟩ := huse d j hd
    refine ⟨c, (List.mem_erase_of_ne ?_).mpr hc, (Function.update_of_ne hne ..).trans hd, hcell.index⟩
    rintro rfl
    obtain ⟨-, h4, h5, h6, -, h7, -⟩ := h.charted.cell hcell
    omega
  · have hnone := hgone 0 hpos
    dsimp only at hnone
    rw [Nat.add_zero, hround] at hnone
    rw [hstart, hnone]
    refine iff_of_true rfl fun c hc heq => ?_
    have hcl := List.mem_of_mem_erase hc
    cases h.charted.lies c hcl with
    | @small j d hcell hsize =>
      obtain ⟨-, h4, h5, h6, -, h7, -⟩ := h.charted.cell hcell
      exact hsmall hcell.arena (by omega)
    | @large d n' hd hcaddr hsize hfit =>
      have hal := h.charted.aligned d _ hd
      apply h.charted.erase_addr hb hc
      unfold arenaSize at *
      omega

/-- A block goes to the end of its free list and is counted. -/
theorem Shows.giveBlock (hg : Ground m₀ G₀ pf descs)
    (h : Shows m₀ G₀ pf descs G all C mem m live others) (hb : b ∈ live) (hc : Cell C k a b.addr) :
    ∃ m₁ m₂ mem₂, listAppend m (freeListOf (descAt descs k)) b.addr = .ok m₁ ∧
      m₁.load (cntOf a) = .ok (C.freeIn a) ∧
      m₁.store (cntOf a) ((C.freeIn a + 1) % 2 ^ 32) = .ok m₂ ∧
      Shows m₀ G₀ pf descs G all
        { C with free := Function.update C.free k (C.free k ++ [b.addr]) } mem₂ m₂ (live.erase b)
        others := by
  have hk := h.charted.classes a k hc.arena
  have hch := h.charted.give hb hc
  have hcount := freeIn_give h.charted hc
  have hle := (h.charted.freeIn_le hc.arena).trans (perArena_le hk)
  have hcharge := h.charge.free (f := Function.update C.free k (C.free k ++ [b.addr]))
  have hnew : Function.update C.free k (C.free k ++ [b.addr]) k = C.free k ++ [b.addr] :=
    Function.update_self ..
  have hf := hcharge.founded hg h.sees
  have hp := hcharge.parted hg h.sees
  have hcells := hch.cells_free k
  have hs := hch.shaped hp hf hk hcells (hch.free_nodup k)
  dsimp only at hcells hs
  rw [hnew] at hcells hs
  obtain ⟨m₁, happ, mem₁, hsees₁, hl₁, hoff⟩ := h.sees.listAppend (h.written.threaded k hk) hs
  have hw₁ : Written { C with free := Function.update C.free k (C.free k ++ [b.addr]) } C.freeIn descs
      mem₁ := by
    refine h.written.relist hch hp hk hcells (fun d κ hd => ⟨hd, hd⟩)
      (fun j hj => ⟨Function.update_of_ne hj .., rfl⟩) ?_ hoff
    dsimp only
    rwa [hnew]
  have hcnt := hch.managed_data hf (.header (c := 4) hc.arena (by decide) rfl)
  obtain ⟨m₂, hstore, hsees₂⟩ := hsees₁.store hcnt ((C.freeIn a + 1) % 2 ^ 32)
  have hw₂ := hw₁.count hch hp hc.arena (C.freeIn a + 1)
  rw [← hcount] at hw₂
  refine ⟨m₁, m₂, _, happ, ?_, hstore, hsees₂, hch, ?_, hcharge⟩
  · rw [← (hw₁.small a k hc.arena).2.1]
    exact hsees₁.load hcnt
  · rwa [Nat.mod_eq_of_lt (by omega)]

/-- An arena whose blocks are all free is taken apart, and its page is given back. -/
theorem Shows.closeArena (hg : Ground m₀ G₀ pf descs)
    (h : Shows m₀ G₀ pf descs G all C mem m live others) (ha : C.arenas a = some (.small k))
    (hall : ∀ x ∈ blocksOf a k, x ∈ C.free k) :
    ∃ m₁ m₂ G₂ mem₂, joinArena a (perArena k) 0 m = .ok m₁ ∧ mfreePage m₁ pf a 1 = .ok m₂ ∧
      Shows m₀ G₀ pf descs G₂ (all.erase ⟨pf, a, 1⟩)
        ⟨Function.update C.arenas a none, Function.update C.free k ((C.free k).diff (blocksOf a k))⟩
        mem₂ m₂ live others ∧ Paging.walk m₂.ram m₂.cr3 a = none := by
  have hk := h.charted.classes a k ha
  have hf := h.charge.founded hg h.sees
  have hp := h.charge.parted hg h.sees
  have hcells := h.charted.cells_free k
  have hs := h.charted.shaped hp hf hk hcells (h.charted.free_nodup k)
  have hlist : blocksOf a k = (List.range' 0 (perArena k)).map
      fun i => a + arenaSize + i * classSize k := by
    rw [blocksOf, List.range_eq_range']
    rfl
  have hdesc : Describes G m₀.cr3 mem a (descAt descs k) (classSize k)
      (nodes (freeListAt descs k) (C.free k)) :=
    ⟨(h.written.small a k ha).1, h.written.sizes k hk,
      ⟨h.charted.managed_data hf (.header (c := 0) ha (by decide) rfl),
        h.charted.managed_data hf (.desc (c := 0) hk (by decide) rfl)⟩,
      h.charted.off_header hp hk hcells ha (c := 0) (by decide), (h.charted.off_desc hp hk hcells).1⟩
  have hpos : 0 < classSize k := by
    have := (classSize_bounds hk).1
    omega
  have hblocks (i : ℕ) (_ : 0 ≤ i) (hi : i < 0 + perArena k) :
      a + arenaSize + i * classSize k ∈ C.free k :=
    hall _ (mem_blocksOf.mpr ⟨i, by omega, rfl⟩)
  obtain ⟨m₁, hjoin, mem₁, hsees₁, hl₁, hoff⟩ :=
    h.sees.joinArena (h.written.threaded k hk) hs hpos hblocks hdesc
  rw [← hlist] at hl₁
  obtain ⟨m₂, G₂, hfree, hsees₂, -, hgone⟩ := hsees₁.mfreePage hg.addressed (h.charge.arenas a _ ha)
  have hcharge := (h.charge.dropArena ha).free
    (f := Function.update C.free k ((C.free k).diff (blocksOf a k)))
  have hback (d : ℕ) (κ : ArenaKind) (hd : Function.update C.arenas a none d = some κ) :
      C.arenas d = some κ ∧ d ≠ a := by
    by_cases hda : d = a
    · rw [hda, Function.update_self] at hd
      cases hd
    · rw [Function.update_of_ne hda] at hd
      exact ⟨hd, hda⟩
  have hw : Written ⟨Function.update C.arenas a none,
      Function.update C.free k ((C.free k).diff (blocksOf a k))⟩ C.freeIn descs mem₁ := by
    refine h.written.relist h.charted hp hk hcells (fun d κ hd => ?_) (fun j hj => ?_) ?_ hoff
    · have hd' := (hback d κ hd).1
      exact ⟨hd', hd'⟩
    · dsimp only
      rw [Function.update_of_ne hj]
      exact ⟨rfl, rfl⟩
    · dsimp only
      rwa [Function.update_self]
  refine ⟨m₁, m₂, G₂, mem₁, hjoin, hfree, ⟨hsees₂, h.charted.closeArena ha hall,
    hw.of_cnt fun d j hd => freeIn_close h.charted ha (hback d _ hd).2, hcharge⟩, ?_⟩
  have hnone := hgone 0 one_pos
  dsimp only at hnone
  rw [Nat.add_zero, Nat.div_mul_cancel (Nat.dvd_of_mod_eq_zero (h.charted.aligned a _ ha))] at hnone
  exact hnone

/-- A small block is given back. -/
theorem Shows.freeSmall (hg : Ground m₀ G₀ pf descs)
    (h : Shows m₀ G₀ pf descs G all C mem m live others) (huse : InUse C live) (hb : b ∈ live)
    (hc : Cell C k a b.addr) :
    ∃ m', freeBlock m pf b.addr = .ok m' ∧ Freed m₀ G₀ pf descs live others b m' := by
  have hk := h.charted.classes a k hc.arena
  obtain ⟨-, halign, hlo, hhi, -, hsize, -⟩ := h.charted.cell hc
  have hstart : b.addr / 4096 * 4096 = a := by omega
  obtain ⟨h1, h2, h3⟩ := h.written.small a k hc.arena
  obtain ⟨m₁, m₂, mem₂, happ, hcnt, hstore, hshow⟩ := h.giveBlock hg hb hc
  have hcount := freeIn_give h.charted hc
  have hle := (h.charted.freeIn_le hc.arena).trans (perArena_le hk)
  have hdesc := hg.descs_high
  generalize hC : ({ C with free := Function.update C.free k (C.free k ++ [b.addr]) } : Chart) = C'
    at hcount hshow
  have harenas : C'.arenas = C.arenas := by rw [← hC]
  have hcell {j d e : ℕ} : Cell C' j d e ↔ Cell C j d e := by rw [← hC]; exact cell_free
  have ha' : C'.arenas a = some (.small k) := by rw [harenas]; exact hc.arena
  have hfull := hshow.charted.freeIn_eq_iff ha'
  rw [hcount, Function.update_self] at hfull
  have hlarge : m.load (largeOf a) = .ok (mem (largeOf a)) :=
    h.load hg (.header hc.arena (by decide) rfl)
  have hdescOf : m.load (descOf a) = .ok (mem (descOf a)) :=
    h.load hg (.header (c := 0) hc.arena (by decide) rfl)
  have hdescOf₂ : m₂.load (descOf a) = .ok (mem₂ (descOf a)) :=
    hshow.load hg (.header (c := 0) ha' (by decide) rfl)
  have hperOf₂ : m₂.load (blocksPerArenaOf (descAt descs k)) =
      .ok (mem₂ (blocksPerArenaOf (descAt descs k))) := hshow.load hg (.desc hk (by decide) rfl)
  have hpos : descAt descs k ≠ 0 := by
    unfold descAt
    omega
  have hheader := (hshow.written.small a k ha').1
  have hper := hshow.written.perArenas k hk
  have hrun : freeBlock m pf b.addr = if C.freeIn a + 1 = perArena k then do
      let m ← joinArena a (perArena k) 0 m₂
      mfreePage m pf a 1
    else .ok m₂ := by
    unfold freeBlock
    rw [h.block2arena hg hc.arena (x := b.addr) (by omega) (by omega)]
    dsimp only
    rw [hlarge, h3, ok_bind, ensure_of (.inl rfl), ok_bind, hdescOf, ok_bind, h1,
      if_neg fun hand => hpos hand.1, happ, ok_bind, hcnt, ok_bind, hstore, ok_bind, hdescOf₂, ok_bind,
      hheader, hperOf₂, ok_bind, hper, Nat.mod_eq_of_lt (by omega)]
    rfl
  rw [hrun]
  by_cases heq : C.freeIn a + 1 = perArena k
  · have hall := hfull.mp heq
    obtain ⟨m₃, m₄, G₄, mem₄, hjoin, hfree, hshow₄, hgone⟩ := hshow.closeArena hg ha' hall
    refine ⟨m₄, ?_, ⟨_, _, _, _, hshow₄, fun d j hd => ?_⟩, ?_⟩
    · rw [if_pos heq, hjoin, ok_bind, hfree]
    · dsimp only at hd
      have hne : d ≠ a := by
        rintro rfl
        simp at hd
      rw [Function.update_of_ne hne, harenas] at hd
      obtain ⟨c, hcl, hcell'⟩ := huse.erase h.charted hc hd hne
      exact ⟨c, hcl, (Function.update_of_ne hne ..).trans (by rw [harenas, hd]), hcell'.index⟩
    · rw [hstart]
      refine iff_of_true hgone fun c hcl hpage => ?_
      have hcell' := h.charted.cell_of_page hc.arena (List.mem_of_mem_erase hcl) (by rw [hpage, hstart])
      exact ((hshow.charted.mem_free k _).mp (hall _ (mem_blocksOf.mpr hcell'.index))).2 c hcl rfl
  · obtain ⟨c, hcl, hcell'⟩ : ∃ c ∈ live.erase b, Cell C' k a c.addr := by
      obtain ⟨e, he, hnot⟩ : ∃ e ∈ blocksOf a k, e ∉ C'.free k := by
        by_contra! hall
        exact heq (hfull.mpr hall)
      have hcell' : Cell C' k a e := ⟨ha', mem_blocksOf.mp he⟩
      by_contra! hlive
      refine hnot ((hshow.charted.mem_free k e).mpr ⟨⟨a, hcell'⟩, fun c hcl heq => ?_⟩)
      rw [← heq] at hcell'
      exact hlive c hcl hcell'
    refine ⟨m₂, by rw [if_neg heq], ⟨_, _, _, _, hshow, fun d j hd => ?_⟩, ?_⟩
    · rw [harenas] at hd
      by_cases hne : d = a
      · subst hne
        obtain rfl : k = j := by simpa using hc.arena.symm.trans hd
        exact ⟨c, hcl, hcell'⟩
      · obtain ⟨c', hcl', hcell''⟩ := huse.erase h.charted hc hd hne
        exact ⟨c', hcl', hcell.mpr hcell''⟩
    · obtain ⟨-, -, hlo', hhi', -, hsize', -⟩ := hshow.charted.cell hcell'
      refine iff_of_false (fun hnone => ?_) fun hall => hall c hcl (by omega)
      obtain ⟨f, hpage⟩ := (hshow.charge.founded hg hshow.sees).arenas a _ ha' 0 one_pos
      rw [hstart, hshow.sees.walk (f := f) (by rwa [Nat.add_zero] at hpage)] at hnone
      cases hnone

/-- Every live block can be given back. -/
theorem HeapInv.freeBlock (hg : Ground m₀ G₀ pf descs) (h : HeapInv m₀ G₀ pf descs m live others)
    (hb : b ∈ live) :
    ∃ m', Memory.freeBlock m pf b.addr = .ok m' ∧ Freed m₀ G₀ pf descs live others b m' := by
  obtain ⟨G, all, C, mem, hshow, huse⟩ := h
  cases hshow.charted.lies b hb with
  | small hc _ => exact hshow.freeSmall hg huse hb hc
  | large ha haddr _ _ => exact hshow.freeLarge hg huse hb ha haddr

end Free

end X86System.Memory
