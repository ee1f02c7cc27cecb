import X86System.HeapCharts

/-!
# How memory spells a chart

The words that the allocator reads: sizes in the descriptors, headers of arenas, and the nodes
of the free lists. No two of these overlap, and none of them is in a live block, so each
write of the allocator or of a caller changes what it is meant to change.
-/
namespace X86System.Memory
open Exec NodeWords

/-- The free list of descriptor `k`. -/
def freeListAt (descs k : ℕ) : ℕ := freeListOf (descAt descs k)

/-- Memory spells the chart out, with `cnt` in the headers of the small arenas. -/
structure Written (C : Chart) (cnt : ℕ → ℕ) (descs : ℕ) (mem : ℕ → ℕ) : Prop where
  sizes : ∀ k < descCnt, mem (blockSizeOf (descAt descs k)) = classSize k
  perArenas : ∀ k < descCnt, mem (blocksPerArenaOf (descAt descs k)) = perArena k
  small : ∀ a k, C.arenas a = some (.small k) → mem (descOf a) = descAt descs k ∧
    mem (cntOf a) = cnt a ∧ mem (largeOf a) = 0
  large : ∀ a n, C.arenas a = some (.large n) → mem (descOf a) = 0 ∧ mem (cntOf a) = n ∧
    mem (largeOf a) = 1
  threaded : ∀ k < descCnt, Threaded mem (nodes (freeListAt descs k) (C.free k))

/-- Arenas and descriptors are in pages of their own. -/
structure Parted (C : Chart) (descs : ℕ) : Prop where
  pos : ∀ a κ, C.arenas a = some κ → 0 < κ.pgCnt
  descs : ∀ x, descs ≤ x → x < descs + descCnt * descSize → ∀ a κ, C.arenas a = some κ →
    ∀ i < κ.pgCnt, x / 4096 ≠ a / 4096 + i
  arenas : ∀ a κ a' κ', C.arenas a = some κ → C.arenas a' = some κ' → a ≠ a' →
    ∀ i < κ.pgCnt, ∀ j < κ'.pgCnt, a / 4096 + i ≠ a' / 4096 + j

/-- Arenas and descriptors are in pages of data. -/
structure Founded (G : Layout) (dir : ℕ) (C : Chart) (descs : ℕ) : Prop where
  aligned : descs % 4 = 0
  pos : ∀ a κ, C.arenas a = some κ → 0 < κ.pgCnt
  descs : ∀ x, descs ≤ x → x < descs + descCnt * descSize → ∃ f, DataPage G dir (x / 4096) f
  arenas : ∀ a κ, C.arenas a = some κ → ∀ i < κ.pgCnt, ∃ f, DataPage G dir (a / 4096 + i) f

/-- What may be a node of the free list of descriptor `k`. -/
def NodeAt (C : Chart) (descs k x : ℕ) : Prop :=
  x = headOf (freeListAt descs k) ∨ x = tailOf (freeListAt descs k) ∨ ∃ a, Cell C k a x

/-- The words that spell a chart. -/
inductive Managed (C : Chart) (descs : ℕ) : ℕ → Prop
  | desc {k c : ℕ} : k < descCnt → c < descSize → c % 4 = 0 → Managed C descs (descAt descs k + c)
  | header {a c : ℕ} {κ : ArenaKind} : C.arenas a = some κ → c < arenaSize → c % 4 = 0 →
      Managed C descs (a + c)
  | free {k e c : ℕ} : e ∈ C.free k → c < 8 → c % 4 = 0 → Managed C descs (e + c)

section Nodes

variable {C : Chart} {live : List Block} {descs i j k a c e n o w x y : ℕ} {κ : ArenaKind}

theorem descAt_bounds (hk : k < descCnt) (ho : o < descSize) :
    descs ≤ descAt descs k + o ∧ descAt descs k + o < descs + descCnt * descSize := by
  unfold descCnt at *
  unfold descAt descSize at *
  omega

/-- A word of a descriptor is in no page of an arena. -/
theorem Parted.desc_page (hp : Parted C descs) (hk : k < descCnt) (ho : o < descSize)
    (ha : C.arenas a = some κ) (hi : i < κ.pgCnt) : (descAt descs k + o) / 4096 ≠ a / 4096 + i :=
  hp.descs _ (descAt_bounds hk ho).1 (descAt_bounds hk ho).2 a κ ha i hi

/-- The two ends of the list of a descriptor are off the page of an arena, with their links. -/
theorem Parted.end_page (hp : Parted C descs) (hk : k < descCnt) (ha : C.arenas a = some κ)
    (hi : i < κ.pgCnt) : (descAt descs k + 8) / 4096 ≠ a / 4096 + i ∧
      (descAt descs k + 8 + 4) / 4096 ≠ a / 4096 + i ∧
      (descAt descs k + 16) / 4096 ≠ a / 4096 + i ∧
      (descAt descs k + 16 + 4) / 4096 ≠ a / 4096 + i :=
  ⟨hp.desc_page (o := 8) hk (by decide) ha hi, hp.desc_page (o := 12) hk (by decide) ha hi,
    hp.desc_page (o := 16) hk (by decide) ha hi, hp.desc_page (o := 20) hk (by decide) ha hi⟩

/-- An end of a list is in its descriptor. -/
theorem nodeAt_cases (h : NodeAt C descs k x) :
    x = descAt descs k + 8 ∨ x = descAt descs k + 16 ∨ ∃ a, Cell C k a x := h

/-- No node covers a size in a descriptor. -/
theorem Charted.nodeAt_desc (h : Charted C live) (hp : Parted C descs) (hj : j < descCnt)
    (hx : NodeAt C descs k x) :
    descAt descs j ≠ x ∧ descAt descs j ≠ x + 4 ∧ descAt descs j + 4 ≠ x ∧
      descAt descs j + 4 ≠ x + 4 := by
  obtain rfl | rfl | ⟨a, hc⟩ := nodeAt_cases hx
  · unfold descAt descSize
    omega
  · unfold descAt descSize
    omega
  · obtain ⟨-, h1, h2, h3, -, h4, -⟩ := h.cell hc
    have hpage0 := hp.desc_page (o := 0) hj (by decide) hc.arena one_pos
    have hpage4 := hp.desc_page (o := 4) hj (by decide) hc.arena one_pos
    omega

/-- No node covers a word of a header. -/
theorem Charted.nodeAt_header (h : Charted C live) (hp : Parted C descs) (hk : k < descCnt)
    (hx : NodeAt C descs k x) (ha : C.arenas a = some κ) (hc : c < arenaSize) :
    a + c ≠ x ∧ a + c ≠ x + 4 := by
  have halign := h.aligned a κ ha
  have hend := hp.end_page hk ha (hp.pos a κ ha)
  unfold arenaSize at hc
  obtain rfl | rfl | ⟨a', hc'⟩ := nodeAt_cases hx
  · omega
  · omega
  · obtain ⟨-, h1, h2, h3, -, h4, -⟩ := h.cell hc'
    by_cases haa : a' = a
    · subst haa
      omega
    · omega

/-- No node starts inside of another one. -/
theorem Charted.nodeAt_spaced (h : Charted C live) (hp : Parted C descs) (hk : k < descCnt)
    (hj : j < descCnt) (hx : NodeAt C descs k x) (hy : NodeAt C descs j y) : y ≠ x + 4 := by
  obtain hx | hx | ⟨a, hc⟩ := nodeAt_cases hx <;> obtain hy | hy | ⟨b, hd⟩ := nodeAt_cases hy
  · unfold descAt descSize at *
    omega
  · unfold descAt descSize at *
    omega
  · have hend := hp.end_page hk hd.arena one_pos
    obtain ⟨-, h1, h2, h3, -, h4, -⟩ := h.cell hd
    omega
  · unfold descAt descSize at *
    omega
  · unfold descAt descSize at *
    omega
  · have hend := hp.end_page hk hd.arena one_pos
    obtain ⟨-, h1, h2, h3, -, h4, -⟩ := h.cell hd
    omega
  · have hend := hp.end_page hj hc.arena one_pos
    obtain ⟨-, h1, h2, h3, -, h4, -⟩ := h.cell hc
    omega
  · have hend := hp.end_page hj hc.arena one_pos
    obtain ⟨-, h1, h2, h3, -, h4, -⟩ := h.cell hc
    omega
  · obtain ⟨-, -, -, -, h5, -⟩ := h.cell hc
    obtain ⟨-, -, -, -, h6, -⟩ := h.cell hd
    omega

/-- The lists have no node in common. -/
theorem Charted.nodeAt_unique (h : Charted C live) (hp : Parted C descs) (hk : k < descCnt)
    (hj : j < descCnt) (hx : NodeAt C descs k x) (hx' : NodeAt C descs j x) : k = j := by
  obtain hx | hx | ⟨a, hc⟩ := nodeAt_cases hx <;> obtain hy | hy | ⟨b, hd⟩ := nodeAt_cases hx'
  · unfold descAt descSize at *
    omega
  · unfold descAt descSize at *
    omega
  · have hend := hp.end_page hk hd.arena one_pos
    obtain ⟨-, h1, h2, h3, -, h4, -⟩ := h.cell hd
    omega
  · unfold descAt descSize at *
    omega
  · unfold descAt descSize at *
    omega
  · have hend := hp.end_page hk hd.arena one_pos
    obtain ⟨-, h1, h2, h3, -, h4, -⟩ := h.cell hd
    omega
  · have hend := hp.end_page hj hc.arena one_pos
    obtain ⟨-, h1, h2, h3, -, h4, -⟩ := h.cell hc
    omega
  · have hend := hp.end_page hj hc.arena one_pos
    obtain ⟨-, h1, h2, h3, -, h4, -⟩ := h.cell hc
    omega
  · exact (h.cell_unique hc hd).2

end Nodes

/-- Elements that may be on the free list of descriptor `k`. -/
def Cells (C : Chart) (k : ℕ) (xs : List ℕ) : Prop := ∀ x ∈ xs, ∃ a, Cell C k a x

section Words

variable {C C' C₀ : Chart} {live : List Block} {G : Layout} {cnt : ℕ → ℕ} {mem mem' : ℕ → ℕ}
  {descs dir i j k a c e n w x y : ℕ} {κ : ArenaKind} {xs ys zs : List ℕ}

theorem Charted.cells_free (h : Charted C live) (k : ℕ) : Cells C k (C.free k) :=
  fun _ hx => h.free_cell hx

theorem Cells.nodeAt (h : Cells C k xs) (hx : x ∈ nodes (freeListAt descs k) xs) :
    NodeAt C descs k x := by
  obtain hx | hx | hx := mem_nodes.mp hx
  · exact .inl hx
  · exact .inr (.inr (h x hx))
  · exact .inr (.inl hx)

theorem Charted.off_desc (h : Charted C live) (hp : Parted C descs) (hj : j < descCnt)
    (hx : Cells C k xs) : Off (nodes (freeListAt descs k) xs) (blockSizeOf (descAt descs j)) ∧
      Off (nodes (freeListAt descs k) xs) (blocksPerArenaOf (descAt descs j)) := by
  refine ⟨fun y hy => ?_, fun y hy => ?_⟩
  · obtain ⟨h1, h2, -⟩ := h.nodeAt_desc hp hj (hx.nodeAt hy)
    exact ⟨h1, h2⟩
  · obtain ⟨-, -, h1, h2⟩ := h.nodeAt_desc hp hj (hx.nodeAt hy)
    exact ⟨h1, h2⟩

theorem Charted.off_header (h : Charted C live) (hp : Parted C descs) (hk : k < descCnt)
    (hx : Cells C k xs) (ha : C.arenas a = some κ) (hc : c < arenaSize) :
    Off (nodes (freeListAt descs k) xs) (a + c) :=
  fun _ hy => h.nodeAt_header hp hk (hx.nodeAt hy) ha hc

/-- A node of one list is off the nodes of the others. -/
theorem Charted.off_node (h : Charted C live) (hp : Parted C descs) (hk : k < descCnt)
    (hj : j < descCnt) (hne : j ≠ k) (hx : Cells C k xs) (hy : NodeAt C descs j y) :
    Off (nodes (freeListAt descs k) xs) y ∧ Off (nodes (freeListAt descs k) xs) (y + 4) := by
  refine ⟨fun x hxm => ⟨?_, ?_⟩, fun x hxm => ⟨?_, ?_⟩⟩
  · rintro rfl
    exact hne (h.nodeAt_unique hp hj hk hy (hx.nodeAt hxm))
  · exact h.nodeAt_spaced hp hk hj (hx.nodeAt hxm) hy
  · exact (h.nodeAt_spaced hp hj hk hy (hx.nodeAt hxm)).symm
  · intro heq
    obtain rfl : y = x := by omega
    exact hne (h.nodeAt_unique hp hj hk hy (hx.nodeAt hxm))

/-- Blocks of one arena size make a list in words of data. -/
theorem Charted.shaped (h : Charted C live) (hp : Parted C descs) (hf : Founded G dir C descs)
    (hk : k < descCnt) (hx : Cells C k xs) (hnodup : xs.Nodup) :
    Shaped G dir (freeListAt descs k) xs where
  nodup := by
    have hout (x : ℕ) (hmem : x ∈ xs) : x ≠ descAt descs k + 8 ∧ x ≠ descAt descs k + 16 := by
      obtain ⟨a, hc⟩ := hx x hmem
      obtain ⟨-, h1, h2, h3, -, h4, -⟩ := h.cell hc
      have hend := hp.end_page hk hc.arena one_pos
      omega
    have hends : descAt descs k + 8 ≠ descAt descs k + 16 := by omega
    change ((descAt descs k + 8) :: (xs ++ [descAt descs k + 16])).Nodup
    simp only [List.nodup_cons, List.mem_append, List.mem_singleton, List.nodup_append]
    refine ⟨?_, hnodup, by simp, fun x hmem y hy => ?_⟩
    · rintro (hmem | heq)
      · exact (hout _ hmem).1 rfl
      · exact hends heq
    · rw [hy]
      exact (hout x hmem).2
  spaced := fun x hxm y hym => h.nodeAt_spaced hp hk hk (hx.nodeAt hxm) (hx.nodeAt hym)
  data := fun x hxm => by
    have hal := hf.aligned
    have hdata (o : ℕ) (ho : o < descSize) (ho4 : o % 4 = 0) : DataWord G dir (descAt descs k + o) := by
      refine ⟨?_, hf.descs _ (descAt_bounds hk ho).1 (descAt_bounds hk ho).2⟩
      unfold descAt descSize
      omega
    obtain rfl | rfl | ⟨a, hc⟩ := nodeAt_cases (hx.nodeAt hxm)
    · exact ⟨hdata 8 (by decide) (by decide), hdata 12 (by decide) (by decide)⟩
    · exact ⟨hdata 16 (by decide) (by decide), hdata 20 (by decide) (by decide)⟩
    · obtain ⟨-, h1, h2, h3, h5, h4, -⟩ := h.cell hc
      obtain ⟨f, hpage⟩ := hf.arenas a _ hc.arena 0 one_pos
      refine ⟨⟨by omega, f, ?_⟩, ⟨by omega, f, ?_⟩⟩
      · rwa [show x / 4096 = a / 4096 + 0 by omega]
      · rwa [show (x + 4) / 4096 = a / 4096 + 0 by omega]

/-- One list has other elements now, and no word outside of the nodes that it had was changed. -/
theorem Written.relist (hw : Written C cnt descs mem) (h : Charted C₀ live) (hp : Parted C₀ descs)
    (hk : k < descCnt) (hz : Cells C₀ k zs)
    (harenas : ∀ a κ, C'.arenas a = some κ → C.arenas a = some κ ∧ C₀.arenas a = some κ)
    (hfree : ∀ j, j ≠ k → C'.free j = C.free j ∧ C'.free j = C₀.free j)
    (hys : Threaded mem' (nodes (freeListAt descs k) (C'.free k)))
    (hoff : ∀ x, Off (nodes (freeListAt descs k) zs) x → mem' x = mem x) :
    Written C' cnt descs mem' where
  sizes := fun j hj => by rw [hoff _ (h.off_desc hp hj hz).1, hw.sizes j hj]
  perArenas := fun j hj => by rw [hoff _ (h.off_desc hp hj hz).2, hw.perArenas j hj]
  small := fun a j ha => by
    obtain ⟨ha, ha'⟩ := harenas a _ ha
    rw [hoff (descOf a) (h.off_header hp hk hz ha' (c := 0) (by decide)),
      hoff (cntOf a) (h.off_header hp hk hz ha' (c := 4) (by decide)),
      hoff (largeOf a) (h.off_header hp hk hz ha' (c := 8) (by decide))]
    exact hw.small a j ha
  large := fun a n ha => by
    obtain ⟨ha, ha'⟩ := harenas a _ ha
    rw [hoff (descOf a) (h.off_header hp hk hz ha' (c := 0) (by decide)),
      hoff (cntOf a) (h.off_header hp hk hz ha' (c := 4) (by decide)),
      hoff (largeOf a) (h.off_header hp hk hz ha' (c := 8) (by decide))]
    exact hw.large a n ha
  threaded := fun j hj => by
    by_cases hjk : j = k
    · rw [hjk]
      exact hys
    · obtain ⟨h1, h2⟩ := hfree j hjk
      rw [h1]
      refine (hw.threaded j hj).congr fun y hy => ?_
      rw [← h1, h2] at hy
      obtain ⟨h3, h4⟩ := h.off_node hp hk hj hjk hz ((h.cells_free j).nodeAt hy)
      exact ⟨hoff _ h3, hoff _ h4⟩

theorem Written.congr (hw : Written C cnt descs mem)
    (heq : ∀ x, Managed C descs x → mem' x = mem x) : Written C cnt descs mem' where
  sizes := fun k hk => (heq _ (.desc (c := 0) hk (by decide) rfl)).trans (hw.sizes k hk)
  perArenas := fun k hk => (heq _ (.desc (c := 4) hk (by decide) rfl)).trans (hw.perArenas k hk)
  small := fun a k ha => by
    rw [heq (descOf a) (.header (c := 0) ha (by decide) rfl),
      heq (cntOf a) (.header (c := 4) ha (by decide) rfl),
      heq (largeOf a) (.header (c := 8) ha (by decide) rfl)]
    exact hw.small a k ha
  large := fun a n ha => by
    rw [heq (descOf a) (.header (c := 0) ha (by decide) rfl),
      heq (cntOf a) (.header (c := 4) ha (by decide) rfl),
      heq (largeOf a) (.header (c := 8) ha (by decide) rfl)]
    exact hw.large a n ha
  threaded := fun k hk => by
    refine (hw.threaded k hk).congr fun x hx => ?_
    obtain rfl | hx | rfl := mem_nodes.mp hx
    · exact ⟨heq _ (.desc (c := 8) hk (by decide) rfl), heq _ (.desc (c := 12) hk (by decide) rfl)⟩
    · exact ⟨heq _ (.free (c := 0) hx (by decide) rfl), heq _ (.free (c := 4) hx (by decide) rfl)⟩
    · exact ⟨heq _ (.desc (c := 16) hk (by decide) rfl), heq _ (.desc (c := 20) hk (by decide) rfl)⟩

/-- The counter of one arena is written. -/
theorem Written.count (hw : Written C cnt descs mem) (h : Charted C live) (hp : Parted C descs)
    (ha : C.arenas a = some (.small k)) (w : ℕ) :
    Written C (Function.update cnt a w) descs (Function.update mem (cntOf a) w) := by
  have halign := h.aligned a _ ha
  have hdesc (o j : ℕ) (ho : o < descSize) (hj : j < descCnt) : descAt descs j + o ≠ cntOf a := by
    have hpage := hp.desc_page hj ho ha one_pos
    unfold cntOf
    omega
  have hother {a' : ℕ} {κ : ArenaKind} (ha' : C.arenas a' = some κ) (hne : a' ≠ a) :
      descOf a' ≠ cntOf a ∧ cntOf a' ≠ cntOf a ∧ largeOf a' ≠ cntOf a := by
    have halign' := h.aligned a' κ ha'
    unfold descOf cntOf largeOf
    omega
  refine ⟨fun j hj => ?_, fun j hj => ?_, fun a' j ha' => ?_, fun a' n ha' => ?_, fun j hj => ?_⟩
  · exact (Function.update_of_ne (hdesc 0 j (by decide) hj) _ _).trans (hw.sizes j hj)
  · exact (Function.update_of_ne (hdesc 4 j (by decide) hj) _ _).trans (hw.perArenas j hj)
  · by_cases hne : a' = a
    · subst hne
      obtain ⟨h1, -, h3⟩ := hw.small a' j ha'
      refine ⟨?_, by rw [Function.update_self, Function.update_self], ?_⟩
      · rw [Function.update_of_ne (by unfold descOf cntOf; omega), h1]
      · rw [Function.update_of_ne (by unfold largeOf cntOf; omega), h3]
    · obtain ⟨h1, h2, h3⟩ := hother ha' hne
      rw [Function.update_of_ne hne, Function.update_of_ne h1, Function.update_of_ne h2,
        Function.update_of_ne h3]
      exact hw.small a' j ha'
  · have hne : a' ≠ a := by
      rintro rfl
      rw [ha] at ha'
      cases ha'
    obtain ⟨h1, h2, h3⟩ := hother ha' hne
    rw [Function.update_of_ne h1, Function.update_of_ne h2, Function.update_of_ne h3]
    exact hw.large a' n ha'
  · refine (hw.threaded j hj).congr fun x hx => ?_
    obtain ⟨h1, h2⟩ := h.nodeAt_header hp hj ((h.cells_free j).nodeAt hx) ha (c := 4) (by decide)
    exact ⟨Function.update_of_ne h1.symm _ _, Function.update_of_ne h2.symm _ _⟩

/-- The words that spell a chart are words of data. -/
theorem Charted.managed_data (h : Charted C live) (hf : Founded G dir C descs)
    (hm : Managed C descs x) : DataWord G dir x := by
  have hal := hf.aligned
  cases hm with
  | @desc k o hk ho ho4 =>
    refine ⟨?_, hf.descs _ (descAt_bounds hk ho).1 (descAt_bounds hk ho).2⟩
    unfold descAt descSize
    omega
  | @header a o κ ha ho ho4 =>
    have halign := h.aligned a κ ha
    unfold arenaSize at ho
    obtain ⟨f, hpage⟩ := hf.arenas a κ ha 0 (hf.pos a κ ha)
    exact ⟨by omega, f, by rwa [show (a + o) / 4096 = a / 4096 + 0 by omega]⟩
  | @free k e o he ho ho4 =>
    obtain ⟨a, hc⟩ := h.free_cell he
    obtain ⟨-, h1, h2, h3, h5, h4, -⟩ := h.cell hc
    obtain ⟨f, hpage⟩ := hf.arenas a _ hc.arena 0 one_pos
    exact ⟨by omega, f, by rwa [show (e + o) / 4096 = a / 4096 + 0 by omega]⟩

/-- A new arena, with its header written. -/
theorem Written.addArena (hw : Written C cnt descs mem) (hnone : C.arenas a = none)
    (heq : ∀ x, Managed C descs x → mem' x = mem x)
    (hself : ∀ k, κ = .small k → mem' (descOf a) = descAt descs k ∧ mem' (cntOf a) = w ∧
      mem' (largeOf a) = 0)
    (hself' : ∀ n, κ = .large n → mem' (descOf a) = 0 ∧ mem' (cntOf a) = n ∧ mem' (largeOf a) = 1) :
    Written { C with arenas := Function.update C.arenas a (some κ) } (Function.update cnt a w) descs
      mem' := by
  have hw' := hw.congr heq
  refine ⟨hw'.sizes, hw'.perArenas, fun a' k ha' => ?_, fun a' n ha' => ?_, hw'.threaded⟩
  · by_cases hne : a' = a
    · subst hne
      rw [Function.update_self]
      exact hself k (by simpa using ha')
    · rw [Function.update_of_ne hne]
      exact hw'.small a' k (by simpa [hne] using ha')
  · by_cases hne : a' = a
    · subst hne
      exact hself' n (by simpa using ha')
    · exact hw'.large a' n (by simpa [hne] using ha')

/-- A chart with fewer arenas. -/
theorem Written.anti (hw : Written C cnt descs mem)
    (harenas : ∀ a κ, C'.arenas a = some κ → C.arenas a = some κ) (hfree : C'.free = C.free) :
    Written C' cnt descs mem where
  sizes := hw.sizes
  perArenas := hw.perArenas
  small := fun a k ha => hw.small a k (harenas a _ ha)
  large := fun a n ha => hw.large a n (harenas a _ ha)
  threaded := by
    rw [hfree]
    exact hw.threaded

theorem Written.of_cnt {cnt' : ℕ → ℕ} (hw : Written C cnt descs mem)
    (heq : ∀ a k, C.arenas a = some (.small k) → cnt' a = cnt a) : Written C cnt' descs mem where
  sizes := hw.sizes
  perArenas := hw.perArenas
  small := fun a k ha => by
    rw [heq a k ha]
    exact hw.small a k ha
  large := hw.large
  threaded := hw.threaded

/-- A block that is not free spells nothing. -/
theorem Charted.block_unmanaged (h : Charted C live) (hp : Parted C descs) (hc : Cell C k a e)
    (hfree : e ∉ C.free k) (hlo : e ≤ w) (hhi : w < e + classSize k) : ¬ Managed C descs w := by
  obtain ⟨hk, h1, h2, h3, -, h4, -⟩ := h.cell hc
  intro hm
  cases hm with
  | @desc j o hj ho ho4 =>
    have hpage := hp.desc_page hj ho hc.arena one_pos
    omega
  | @header a' o κ ha' ho ho4 =>
    have halign := h.aligned a' κ ha'
    unfold arenaSize at ho
    by_cases hne : a' = a
    · omega
    · omega
  | @free j e' o he' ho ho4 =>
    obtain ⟨a', hc'⟩ := h.free_cell he'
    have hne : e ≠ e' := by
      rintro rfl
      rw [(h.cell_unique hc hc').2] at hfree
      exact hfree he'
    have hsize := (h.cell hc').2.2.2.2.2.1
    have happart := h.cell_apart hc hc' hne
    omega

/-- A block over several pages spells nothing behind its header. -/
theorem Charted.large_unmanaged (h : Charted C live) (hp : Parted C descs)
    (ha : C.arenas a = some (.large n)) (hlo : a + arenaSize ≤ w) (hhi : w < a + n * 4096) :
    ¬ Managed C descs w := by
  have halign := h.aligned a _ ha
  have hi : w / 4096 - a / 4096 < n := by omega
  unfold arenaSize at hlo
  intro hm
  cases hm with
  | @desc j o hj ho ho4 =>
    have hpage := hp.desc_page hj ho ha hi
    omega
  | @header a' o κ ha' ho ho4 =>
    have halign' := h.aligned a' κ ha'
    unfold arenaSize at ho
    by_cases hne : a' = a
    · omega
    · have hpage := hp.arenas a _ a' κ ha ha' (Ne.symm hne) _ hi 0 (hp.pos a' κ ha')
      omega
  | @free j e o he ho ho4 =>
    obtain ⟨a', hc⟩ := h.free_cell he
    obtain ⟨-, h1, h2, h3, -, h4, -⟩ := h.cell hc
    have hne : a ≠ a' := by
      rintro rfl
      rw [hc.arena] at ha
      cases ha
    have hpage := hp.arenas a _ a' _ ha hc.arena hne _ hi 0 one_pos
    omega

end Words

end X86System.Memory
