import X86System.HeapLists

/-!
# Charts of a heap

What the heap is for, apart from memory: arenas at their addresses, the blocks in them, and
which of these are free. A chart and the blocks that are live account for each other, and
the words of memory spell the chart out.
-/
namespace X86System.Memory
open Exec NodeWords

/-- A block that was handed out, with the size that was asked for. -/
structure Block where
  addr : ℕ
  size : ℕ
  deriving DecidableEq

/-- An arena of blocks of one descriptor, or a single block over several pages. -/
inductive ArenaKind
  | small (descIdx : ℕ)
  | large (pgCnt : ℕ)
  deriving DecidableEq

def ArenaKind.pgCnt : ArenaKind → ℕ
  | small _ => 1
  | large n => n

/-- The arenas at their addresses, and the free lists. -/
structure Chart where
  arenas : ℕ → Option ArenaKind
  free : ℕ → List ℕ

/-- The size of the blocks of a descriptor, and how many an arena has. -/
def classSize (k : ℕ) : ℕ := 16 * 2 ^ k
def perArena (k : ℕ) : ℕ := (pgSize - arenaSize) / classSize k

/-- Block `i` of an arena at `a`. -/
def blockAt (a k i : ℕ) : ℕ := a + arenaSize + i * classSize k

def blocksOf (a k : ℕ) : List ℕ := (List.range (perArena k)).map (blockAt a k)

/-- `e` is a block of the small arena at `a`. -/
structure Cell (C : Chart) (k a e : ℕ) : Prop where
  arena : C.arenas a = some (.small k)
  index : ∃ i < perArena k, e = blockAt a k i

/-- Where a live block is. -/
inductive Lies (C : Chart) (b : Block) : Prop
  | small {k a : ℕ} : Cell C k a b.addr → b.size ≤ classSize k → Lies C b
  | large {a n : ℕ} : C.arenas a = some (.large n) → b.addr = a + arenaSize → 1024 < b.size →
      b.size + arenaSize ≤ n * pgSize → Lies C b

/-- The chart and the live blocks account for each other. -/
structure Charted (C : Chart) (live : List Block) : Prop where
  aligned : ∀ a κ, C.arenas a = some κ → a % 4096 = 0
  classes : ∀ a k, C.arenas a = some (.small k) → k < descCnt
  nodup : (live.map Block.addr).Nodup
  lies : ∀ b ∈ live, Lies C b
  mem_free : ∀ k e, e ∈ C.free k ↔ (∃ a, Cell C k a e) ∧ ∀ b ∈ live, b.addr ≠ e
  free_nodup : ∀ k, (C.free k).Nodup

/-- Every small arena has a live block. -/
def InUse (C : Chart) (live : List Block) : Prop :=
  ∀ a k, C.arenas a = some (.small k) → ∃ b ∈ live, Cell C k a b.addr

/-- How many blocks of an arena are free. -/
def Chart.freeIn (C : Chart) (a : ℕ) : ℕ :=
  match C.arenas a with
  | some (.small k) => (C.free k).countP fun e => e / 4096 * 4096 = a
  | _ => 0

section Sizes

variable {a k i j : ℕ}

theorem classSize_bounds (hk : k < descCnt) :
    16 ≤ classSize k ∧ classSize k ≤ 1024 ∧ classSize k % 16 = 0 := by
  unfold descCnt at hk
  unfold classSize
  interval_cases k <;> decide

theorem perArena_pos (hk : k < descCnt) : 0 < perArena k := by
  obtain ⟨h1, h2, -⟩ := classSize_bounds hk
  exact Nat.div_pos (by unfold pgSize arenaSize; omega) (by omega)

/-- A block lies in the page of its arena, behind the header. -/
theorem blockAt_bounds (hi : i < perArena k) :
    a + arenaSize ≤ blockAt a k i ∧ blockAt a k i + classSize k ≤ a + pgSize := by
  have hmul := Nat.mul_le_mul_right (classSize k) (Nat.succ_le_of_lt hi)
  have hfit : perArena k * classSize k ≤ pgSize - arenaSize := Nat.div_mul_le_self _ _
  rw [Nat.succ_mul] at hmul
  unfold blockAt
  unfold pgSize arenaSize at *
  omega

theorem blockAt_lt (hij : i < j) : blockAt a k i + classSize k ≤ blockAt a k j := by
  have hmul := Nat.mul_le_mul_right (classSize k) (Nat.succ_le_of_lt hij)
  rw [Nat.succ_mul] at hmul
  unfold blockAt
  omega

theorem blockAt_mod (hk : k < descCnt) (ha : a % 4096 = 0) : blockAt a k i % 16 = 12 := by
  obtain ⟨c, hc⟩ := Nat.dvd_of_mod_eq_zero (classSize_bounds hk).2.2
  have hmul : i * classSize k = 16 * (i * c) := by
    rw [hc]
    ring
  unfold blockAt arenaSize
  omega

theorem blockAt_inj (hk : k < descCnt) (h : blockAt a k i = blockAt a k j) : i = j := by
  have hsize := (classSize_bounds hk).1
  obtain hij | hij | hij := Nat.lt_trichotomy i j
  · have := blockAt_lt (a := a) (k := k) hij
    omega
  · exact hij
  · have := blockAt_lt (a := a) (k := k) hij
    omega

theorem mem_blocksOf {e : ℕ} : e ∈ blocksOf a k ↔ ∃ i < perArena k, e = blockAt a k i := by
  simp only [blocksOf, List.mem_map, List.mem_range]
  exact exists_congr fun i => and_congr_right fun _ => eq_comm

theorem blocksOf_nodup (hk : k < descCnt) : (blocksOf a k).Nodup :=
  List.nodup_range.map fun _ _ h => blockAt_inj hk h

end Sizes

section Cells

variable {C : Chart} {live : List Block} {k k' a a' e e' : ℕ}

/-- Where a cell is. -/
theorem Charted.cell (h : Charted C live) (hc : Cell C k a e) :
    k < descCnt ∧ a % 4096 = 0 ∧ a + 12 ≤ e ∧ e + classSize k ≤ a + 4096 ∧ e % 16 = 12 ∧
      16 ≤ classSize k ∧ classSize k % 16 = 0 := by
  obtain ⟨ha, i, hi, rfl⟩ := hc
  have hk := h.classes a k ha
  have halign := h.aligned a _ ha
  obtain ⟨h1, h2⟩ := blockAt_bounds (a := a) hi
  obtain ⟨h3, -, h4⟩ := classSize_bounds hk
  exact ⟨hk, halign, h1, h2, blockAt_mod hk halign, h3, h4⟩

/-- A cell belongs to one arena. -/
theorem Charted.cell_unique (h : Charted C live) (hc : Cell C k a e) (hc' : Cell C k' a' e) :
    a = a' ∧ k = k' := by
  obtain ⟨-, h1, h2, h3, -, h4, -⟩ := h.cell hc
  obtain ⟨-, h5, h6, h7, -, h8, -⟩ := h.cell hc'
  obtain rfl : a = a' := by omega
  have hkind := hc.arena.symm.trans hc'.arena
  exact ⟨rfl, by simpa using hkind⟩

/-- Two cells do not overlap. -/
theorem Charted.cell_apart (h : Charted C live) (hc : Cell C k a e) (hc' : Cell C k' a' e')
    (hne : e ≠ e') : e + classSize k ≤ e' ∨ e' + classSize k' ≤ e := by
  by_cases haa : a = a'
  · subst haa
    have hkind := hc.arena.symm.trans hc'.arena
    obtain rfl : k = k' := by simpa using hkind
    obtain ⟨i, -, rfl⟩ := hc.index
    obtain ⟨j, -, rfl⟩ := hc'.index
    obtain hij | rfl | hij := Nat.lt_trichotomy i j
    · exact .inl (blockAt_lt hij)
    · exact absurd rfl hne
    · exact .inr (blockAt_lt hij)
  · obtain ⟨-, h1, h2, h3, -, h4, -⟩ := h.cell hc
    obtain ⟨-, h5, h6, h7, -, h8, -⟩ := h.cell hc'
    omega

/-- The page of a live block is that of its arena. -/
theorem Charted.lies_page (h : Charted C live) {b : Block} (hb : Lies C b) :
    C.arenas (b.addr / 4096 * 4096) ≠ none ∧ b.addr / 4096 * 4096 + 12 ≤ b.addr := by
  cases hb with
  | @small k a hc hsize =>
    obtain ⟨-, h1, h2, h3, -, h4, -⟩ := h.cell hc
    have hpage : b.addr / 4096 * 4096 = a := by omega
    rw [hpage, hc.arena]
    exact ⟨by simp, h2⟩
  | @large a n ha haddr hsize hfit =>
    have halign := h.aligned a _ ha
    unfold arenaSize at haddr
    have hpage : b.addr / 4096 * 4096 = a := by omega
    rw [hpage, ha]
    exact ⟨by simp, by omega⟩

theorem Charted.free_cell (h : Charted C live) (he : e ∈ C.free k) : ∃ a, Cell C k a e :=
  ((h.mem_free k e).mp he).1

end Cells

section Accounts

variable {C C' : Chart} {live : List Block} {b : Block} {f : ℕ → List ℕ} {k a e n size : ℕ}
  {rest : List ℕ}

@[simp] theorem cell_free : Cell { C with free := f } k a e ↔ Cell C k a e :=
  ⟨fun h => ⟨h.arena, h.index⟩, fun h => ⟨h.arena, h.index⟩⟩

theorem Lies.mono (h : Lies C b) (hmono : ∀ a κ, C.arenas a = some κ → C'.arenas a = some κ) :
    Lies C' b := by
  cases h with
  | small hc hsize => exact .small ⟨hmono _ _ hc.arena, hc.index⟩ hsize
  | large ha haddr hsize hfit => exact .large (hmono _ _ ha) haddr hsize hfit

/-- No other live block has the address of a live block. -/
theorem Charted.erase_addr (h : Charted C live) (hb : b ∈ live) {c : Block}
    (hc : c ∈ live.erase b) : c.addr ≠ b.addr := by
  intro heq
  have hnodup : (b :: live.erase b).map Block.addr |>.Nodup :=
    ((List.perm_cons_erase hb).map _).nodup_iff.mp h.nodup
  rw [List.map_cons, List.nodup_cons] at hnodup
  exact hnodup.1 (List.mem_map.mpr ⟨c, hc, heq⟩)

theorem Charted.nodup_erase (h : Charted C live) : ((live.erase b).map Block.addr).Nodup :=
  h.nodup.sublist (List.erase_sublist.map _)

/-- The first block of a free list is handed out. -/
theorem Charted.take (h : Charted C live) (hfree : C.free k = e :: rest)
    (hsize : size ≤ classSize k) :
    Charted { C with free := Function.update C.free k rest } (⟨e, size⟩ :: live) := by
  have hnodup := h.free_nodup k
  rw [hfree, List.nodup_cons] at hnodup
  obtain ⟨⟨a, hc⟩, hnew⟩ := (h.mem_free k e).mp (by rw [hfree]; exact List.mem_cons_self)
  refine ⟨h.aligned, h.classes, ?_, ?_, fun j x => ?_, fun j => ?_⟩
  · rw [List.map_cons, List.nodup_cons]
    refine ⟨fun hmem => ?_, h.nodup⟩
    obtain ⟨b, hb, heq⟩ := List.mem_map.mp hmem
    exact hnew b hb heq
  · intro b hb
    obtain rfl | hb := List.mem_cons.mp hb
    · exact .small (cell_free.mpr hc) hsize
    · exact (h.lies b hb).mono fun _ _ ha => ha
  · simp only [cell_free, List.forall_mem_cons]
    by_cases hj : j = k
    · rw [hj, Function.update_self]
      have hmem := h.mem_free k x
      rw [hfree, List.mem_cons] at hmem
      constructor
      · intro hx
        obtain ⟨hcell, hlive⟩ := hmem.mp (.inr hx)
        exact ⟨hcell, fun heq => hnodup.1 (heq ▸ hx), hlive⟩
      · intro ⟨hcell, hne, hlive⟩
        exact (hmem.mpr ⟨hcell, hlive⟩).resolve_left fun heq => hne heq.symm
    · rw [Function.update_of_ne hj, h.mem_free]
      refine and_congr_right fun ⟨a', hcell⟩ => (and_iff_right ?_).symm
      rintro rfl
      exact hj (h.cell_unique hcell hc).2
  · by_cases hj : j = k
    · rw [hj]
      simpa using hnodup.2
    · simpa [hj] using h.free_nodup j

/-- A live block goes to the end of its free list. -/
theorem Charted.give (h : Charted C live) (hb : b ∈ live) (hc : Cell C k a b.addr) :
    Charted { C with free := Function.update C.free k (C.free k ++ [b.addr]) } (live.erase b) := by
  have hlive {x : ℕ} (hx : x ≠ b.addr) (hrest : ∀ c ∈ live.erase b, c.addr ≠ x) :
      ∀ c ∈ live, c.addr ≠ x := by
    intro c hcl
    by_cases hcb : c = b
    · rw [hcb]
      exact hx.symm
    · exact hrest c ((List.mem_erase_of_ne hcb).mpr hcl)
  refine ⟨h.aligned, h.classes, h.nodup_erase, ?_, fun j x => ?_, fun j => ?_⟩
  · exact fun c hcl => (h.lies c (List.mem_of_mem_erase hcl)).mono fun _ _ ha => ha
  · simp only [cell_free]
    by_cases hj : j = k
    · rw [hj, Function.update_self, List.mem_append, List.mem_singleton, h.mem_free]
      constructor
      · rintro (⟨hcell, hnot⟩ | rfl)
        · exact ⟨hcell, fun c hcl => hnot c (List.mem_of_mem_erase hcl)⟩
        · exact ⟨⟨a, hc⟩, fun c hcl => h.erase_addr hb hcl⟩
      · intro ⟨hcell, hnot⟩
        by_cases hx : x = b.addr
        · exact .inr hx
        · exact .inl ⟨hcell, hlive hx hnot⟩
    · rw [Function.update_of_ne hj, h.mem_free]
      refine and_congr_right fun ⟨a', hcell⟩ => ⟨fun hnot c hcl => hnot c (List.mem_of_mem_erase hcl),
        hlive ?_⟩
      rintro rfl
      exact hj (h.cell_unique hcell hc).2
  · by_cases hj : j = k
    · rw [hj]
      have hnot : b.addr ∉ C.free k := fun hmem => ((h.mem_free k _).mp hmem).2 b hb rfl
      simpa [List.nodup_append] using ⟨h.free_nodup k, fun x hx heq => hnot (heq ▸ hx)⟩
    · simpa [hj] using h.free_nodup j

/-- A new arena, all of its blocks free. -/
theorem Charted.openArena (h : Charted C live) (hk : k < descCnt) (ha : a % 4096 = 0)
    (hnone : C.arenas a = none) (hfree : C.free k = []) :
    Charted ⟨Function.update C.arenas a (some (.small k)), Function.update C.free k (blocksOf a k)⟩
      live := by
  have hmono (a' : ℕ) (κ : ArenaKind) (h' : C.arenas a' = some κ) :
      Function.update C.arenas a (some (.small k)) a' = some κ := by
    rw [Function.update_of_ne _ _, h']
    rintro rfl
    rw [hnone] at h'
    cases h'
  refine ⟨fun a' κ h' => ?_, fun a' j h' => ?_, h.nodup, fun b hb => (h.lies b hb).mono hmono,
    fun j x => ?_, fun j => ?_⟩
  · by_cases heq : a' = a
    · rwa [heq]
    · exact h.aligned a' κ (by simpa [heq] using h')
  · by_cases heq : a' = a
    · subst heq
      have hj : k = j := by simpa using h'
      rwa [← hj]
    · exact h.classes a' j (by simpa [heq] using h')
  · have hcell (a' : ℕ) (hne : a' ≠ a) : Cell ⟨Function.update C.arenas a (some (.small k)),
        Function.update C.free k (blocksOf a k)⟩ j a' x ↔ Cell C j a' x := by
      refine ⟨fun hc => ⟨?_, hc.index⟩, fun hc => ⟨hmono _ _ hc.arena, hc.index⟩⟩
      have harena := hc.arena
      dsimp only at harena
      rwa [Function.update_of_ne hne] at harena
    by_cases hj : j = k
    · subst hj
      change x ∈ Function.update C.free j (blocksOf a j) j ↔ _
      rw [Function.update_self, mem_blocksOf]
      constructor
      · intro hx
        refine ⟨⟨a, ⟨Function.update_self .., hx⟩⟩, fun b hb heq => ?_⟩
        obtain ⟨i, hi, rfl⟩ := hx
        obtain ⟨h1, h2⟩ := blockAt_bounds (a := a) hi
        obtain ⟨h3, -⟩ := h.lies_page (h.lies b hb)
        have hsize := (classSize_bounds hk).1
        unfold arenaSize at h1
        unfold pgSize at h2
        rw [heq, show blockAt a j i / 4096 * 4096 = a by omega] at h3
        exact h3 hnone
      · intro ⟨⟨a', hc⟩, hnot⟩
        by_cases hne : a' = a
        · rw [hne] at hc
          exact hc.index
        · have hmem := (h.mem_free j x).mpr ⟨⟨a', (hcell a' hne).mp hc⟩, hnot⟩
          rw [hfree] at hmem
          cases hmem
    · change x ∈ Function.update C.free k (blocksOf a k) j ↔ _
      rw [Function.update_of_ne hj, h.mem_free]
      refine and_congr_left fun _ => exists_congr fun a' => ?_
      by_cases hne : a' = a
      · rw [hne]
        constructor
        · intro hc
          rw [hc.arena] at hnone
          cases hnone
        · intro hc
          have harena : Function.update C.arenas a (some (.small k)) a = _ := hc.arena
          rw [Function.update_self] at harena
          cases harena
          exact absurd rfl hj
      · exact (hcell a' hne).symm
  · by_cases hj : j = k
    · rw [hj]
      simpa using blocksOf_nodup hk
    · simpa [hj] using h.free_nodup j

/-- An arena whose blocks are all free is given up. -/
theorem Charted.closeArena (h : Charted C live) (ha : C.arenas a = some (.small k))
    (hall : ∀ x ∈ blocksOf a k, x ∈ C.free k) :
    Charted ⟨Function.update C.arenas a none,
      Function.update C.free k ((C.free k).diff (blocksOf a k))⟩ live := by
  have hback {a' : ℕ} {κ : ArenaKind} (h' : Function.update C.arenas a none a' = some κ) :
      a' ≠ a ∧ C.arenas a' = some κ := by
    by_cases heq : a' = a
    · rw [heq, Function.update_self] at h'
      cases h'
    · rw [Function.update_of_ne heq] at h'
      exact ⟨heq, h'⟩
  refine ⟨fun a' κ h' => h.aligned a' κ (hback h').2, fun a' j h' => h.classes a' j (hback h').2,
    h.nodup, fun b hb => ?_, fun j x => ?_, fun j => ?_⟩
  · cases h.lies b hb with
    | @small j a' hc hsize =>
      refine .small (a := a') ⟨?_, hc.index⟩ hsize
      refine (Function.update_of_ne ?_ _ _).trans hc.arena
      rintro rfl
      have hkind := hc.arena.symm.trans ha
      obtain rfl : j = k := by simpa using hkind
      exact ((h.mem_free j _).mp (hall _ (mem_blocksOf.mpr hc.index))).2 b hb rfl
    | @large a' n ha' haddr hsize hfit =>
      refine .large (a := a') ((Function.update_of_ne ?_ _ _).trans ha') haddr hsize hfit
      rintro rfl
      rw [ha] at ha'
      cases ha'
  · have hcell (a' : ℕ) : Cell ⟨Function.update C.arenas a none,
        Function.update C.free k ((C.free k).diff (blocksOf a k))⟩ j a' x ↔
        a' ≠ a ∧ Cell C j a' x := by
      constructor
      · intro hc
        exact ⟨(hback hc.arena).1, (hback hc.arena).2, hc.index⟩
      · intro ⟨hne, hc⟩
        exact ⟨(Function.update_of_ne hne _ _).trans hc.arena, hc.index⟩
    simp only [hcell]
    by_cases hj : j = k
    · subst hj
      rw [Function.update_self, (h.free_nodup j).mem_sdiff_iff, h.mem_free]
      constructor
      · rintro ⟨⟨⟨a', hc⟩, hnot⟩, hout⟩
        refine ⟨⟨a', ?_, hc⟩, hnot⟩
        rintro rfl
        exact hout (mem_blocksOf.mpr hc.index)
      · rintro ⟨⟨a', hne, hc⟩, hnot⟩
        refine ⟨⟨⟨a', hc⟩, hnot⟩, fun hmem => ?_⟩
        exact hne (h.cell_unique hc ⟨ha, mem_blocksOf.mp hmem⟩).1
    · rw [Function.update_of_ne hj, h.mem_free]
      refine and_congr_left fun _ => exists_congr fun a' => (and_iff_right_of_imp fun hc => ?_).symm
      rintro rfl
      have hkind := hc.arena.symm.trans ha
      exact hj (by simpa using hkind)
  · by_cases hj : j = k
    · rw [hj]
      simpa using (h.free_nodup k).diff
    · simpa [hj] using h.free_nodup j

/-- A block over several pages is handed out. -/
theorem Charted.addLarge (h : Charted C live) (ha : a % 4096 = 0) (hnone : C.arenas a = none)
    (hsize : 1024 < size) (hfit : size + arenaSize ≤ n * pgSize) :
    Charted { C with arenas := Function.update C.arenas a (some (.large n)) }
      (⟨a + arenaSize, size⟩ :: live) := by
  have hmono (a' : ℕ) (κ : ArenaKind) (h' : C.arenas a' = some κ) :
      Function.update C.arenas a (some (.large n)) a' = some κ := by
    rw [Function.update_of_ne _ _, h']
    rintro rfl
    rw [hnone] at h'
    cases h'
  have hpage : (a + arenaSize) / 4096 * 4096 = a := by
    unfold arenaSize
    omega
  have hcell (j a' x : ℕ) : Cell { C with arenas := Function.update C.arenas a (some (.large n)) }
      j a' x ↔ Cell C j a' x := by
    refine ⟨fun hc => ⟨?_, hc.index⟩, fun hc => ⟨hmono _ _ hc.arena, hc.index⟩⟩
    have harena := hc.arena
    dsimp only at harena
    by_cases heq : a' = a
    · rw [heq, Function.update_self] at harena
      cases harena
    · rwa [Function.update_of_ne heq] at harena
  refine ⟨fun a' κ h' => ?_, fun a' j h' => ?_, ?_, fun b hb => ?_, fun j x => ?_, h.free_nodup⟩
  · by_cases heq : a' = a
    · rwa [heq]
    · exact h.aligned a' κ (by simpa [heq] using h')
  · by_cases heq : a' = a
    · subst heq
      simp at h'
    · exact h.classes a' j (by simpa [heq] using h')
  · rw [List.map_cons, List.nodup_cons]
    refine ⟨fun hmem => ?_, h.nodup⟩
    obtain ⟨b, hb, heq⟩ := List.mem_map.mp hmem
    have harena := (h.lies_page (h.lies b hb)).1
    rw [heq, hpage] at harena
    exact harena hnone
  · obtain rfl | hb := List.mem_cons.mp hb
    · exact .large (a := a) (n := n) (Function.update_self ..) rfl hsize hfit
    · exact (h.lies b hb).mono hmono
  · simp only [hcell, List.forall_mem_cons]
    rw [h.mem_free]
    refine and_congr_right fun ⟨a', hc⟩ => (and_iff_right ?_).symm
    intro heq
    obtain ⟨-, h1, h2, h3, -, h4, -⟩ := h.cell hc
    obtain rfl : a' = a := by omega
    rw [hc.arena] at hnone
    cases hnone

/-- A block over several pages is given back. -/
theorem Charted.dropLarge (h : Charted C live) (ha : C.arenas a = some (.large n)) (hb : b ∈ live)
    (haddr : b.addr = a + arenaSize) :
    Charted { C with arenas := Function.update C.arenas a none } (live.erase b) := by
  have hback {a' : ℕ} {κ : ArenaKind} (h' : Function.update C.arenas a none a' = some κ) :
      a' ≠ a ∧ C.arenas a' = some κ := by
    by_cases heq : a' = a
    · rw [heq, Function.update_self] at h'
      cases h'
    · rw [Function.update_of_ne heq] at h'
      exact ⟨heq, h'⟩
  have hsmall {j a' x : ℕ} (hc : Cell C j a' x) : a' ≠ a := by
    rintro rfl
    rw [hc.arena] at ha
    cases ha
  have hcell (j a' x : ℕ) : Cell { C with arenas := Function.update C.arenas a none } j a' x ↔
      Cell C j a' x :=
    ⟨fun hc => ⟨(hback hc.arena).2, hc.index⟩,
      fun hc => ⟨(Function.update_of_ne (hsmall hc) _ _).trans hc.arena, hc.index⟩⟩
  refine ⟨fun a' κ h' => h.aligned a' κ (hback h').2, fun a' j h' => h.classes a' j (hback h').2,
    h.nodup_erase, fun c hc => ?_, fun j x => ?_, h.free_nodup⟩
  · cases h.lies c (List.mem_of_mem_erase hc) with
    | small hcell' hsize => exact .small ((hcell _ _ _).mpr hcell') hsize
    | @large a' n' ha' haddr' hsize hfit =>
      refine .large (a := a') ((Function.update_of_ne ?_ _ _).trans ha') haddr' hsize hfit
      rintro rfl
      exact h.erase_addr hb hc (haddr'.trans haddr.symm)
  · simp only [hcell]
    rw [h.mem_free]
    refine and_congr_right fun ⟨a', hc⟩ => ⟨fun hnot c hcl => hnot c (List.mem_of_mem_erase hcl),
      fun hnot c hcl => ?_⟩
    by_cases hcb : c = b
    · intro heq
      rw [hcb, haddr] at heq
      unfold arenaSize at heq
      obtain ⟨-, h1, h2, h3, -, h4, -⟩ := h.cell hc
      have halign := h.aligned a _ ha
      exact hsmall hc (by omega)
    · exact hnot c ((List.mem_erase_of_ne hcb).mpr hcl)

end Accounts

section Counts

variable {C : Chart} {live : List Block} {κ : ArenaKind} {k a e n : ℕ} {rest : List ℕ}

theorem freeIn_small (ha : C.arenas a = some (.small k)) :
    C.freeIn a = (C.free k).countP fun e => e / 4096 * 4096 = a := by
  simp only [Chart.freeIn, ha]

/-- The free blocks of an arena are some of its blocks. -/
theorem Charted.free_subset (h : Charted C live) (ha : C.arenas a = some (.small k)) :
    (C.free k).filter (fun e => e / 4096 * 4096 = a) ⊆ blocksOf a k := by
  intro e he
  obtain ⟨hmem, hpage⟩ := List.mem_filter.mp he
  obtain ⟨a', hc⟩ := h.free_cell hmem
  obtain ⟨-, h1, h2, h3, -, h4, -⟩ := h.cell hc
  have hpage' : e / 4096 * 4096 = a := by simpa using hpage
  obtain rfl : a' = a := by omega
  exact mem_blocksOf.mpr hc.index

theorem Charted.page_of_mem (h : Charted C live) (ha : C.arenas a = some (.small k))
    (he : e ∈ blocksOf a k) : e / 4096 * 4096 = a := by
  obtain ⟨-, h1, h2, h3, -, h4, -⟩ := h.cell ⟨ha, mem_blocksOf.mp he⟩
  omega

theorem Charted.freeIn_le (h : Charted C live) (ha : C.arenas a = some (.small k)) :
    C.freeIn a ≤ perArena k := by
  have hsub := ((h.free_nodup k).filter fun e => e / 4096 * 4096 = a).subperm (h.free_subset ha)
  have hlen := hsub.length_le
  rw [freeIn_small ha, List.countP_eq_length_filter]
  simpa [blocksOf] using hlen

/-- As many blocks are free as there are if and only if each of them is free. -/
theorem Charted.freeIn_eq_iff (h : Charted C live) (ha : C.arenas a = some (.small k)) :
    C.freeIn a = perArena k ↔ ∀ e ∈ blocksOf a k, e ∈ C.free k := by
  have hsub := ((h.free_nodup k).filter fun e => e / 4096 * 4096 = a).subperm (h.free_subset ha)
  have hlen : (blocksOf a k).length = perArena k := by simp [blocksOf]
  rw [freeIn_small ha, List.countP_eq_length_filter]
  constructor
  · intro heq e he
    have hperm := hsub.perm_of_length_le (by omega)
    exact (List.mem_filter.mp (hperm.mem_iff.mpr he)).1
  · intro hall
    have hback : blocksOf a k ⊆ (C.free k).filter fun e => e / 4096 * 4096 = a := fun e he =>
      List.mem_filter.mpr ⟨hall e he, by simpa using h.page_of_mem ha he⟩
    have hle := ((blocksOf_nodup (h.classes a k ha)).subperm hback).length_le
    have hge := hsub.length_le
    omega

theorem freeIn_take (h : Charted C live) (hfree : C.free k = e :: rest) (hc : Cell C k a e) :
    ({ C with free := Function.update C.free k rest } : Chart).freeIn =
      Function.update C.freeIn a (C.freeIn a - 1) := by
  have hpage := h.page_of_mem hc.arena (mem_blocksOf.mpr hc.index)
  funext a'
  by_cases haa : a' = a
  · subst haa
    have hnew : ({ C with free := Function.update C.free k rest } : Chart).freeIn a' = _ :=
      freeIn_small hc.arena
    rw [Function.update_self, freeIn_small hc.arena, hnew]
    dsimp only
    rw [Function.update_self, hfree, List.countP_cons_of_pos (by simpa using hpage),
      Nat.add_sub_cancel]
  · rw [Function.update_of_ne haa]
    unfold Chart.freeIn
    dsimp only
    split
    · rename_i j hj
      by_cases hjk : j = k
      · rw [hjk, Function.update_self, hfree, List.countP_cons_of_neg]
        rw [hpage]
        simpa using Ne.symm haa
      · rw [Function.update_of_ne hjk]
    · rfl

theorem freeIn_give (h : Charted C live) (hc : Cell C k a e) :
    ({ C with free := Function.update C.free k (C.free k ++ [e]) } : Chart).freeIn =
      Function.update C.freeIn a (C.freeIn a + 1) := by
  have hpage := h.page_of_mem hc.arena (mem_blocksOf.mpr hc.index)
  funext a'
  by_cases haa : a' = a
  · subst haa
    have hnew : ({ C with free := Function.update C.free k (C.free k ++ [e]) } : Chart).freeIn a' =
        _ := freeIn_small hc.arena
    rw [Function.update_self, freeIn_small hc.arena, hnew]
    dsimp only
    rw [Function.update_self, List.countP_append, List.countP_cons_of_pos (by simpa using hpage),
      List.countP_nil]
  · rw [Function.update_of_ne haa]
    unfold Chart.freeIn
    dsimp only
    split
    · rename_i j hj
      by_cases hjk : j = k
      · rw [hjk, Function.update_self, List.countP_append, List.countP_cons_of_neg,
          List.countP_nil, Nat.add_zero]
        rw [hpage]
        simpa using Ne.symm haa
      · rw [Function.update_of_ne hjk]
    · rfl

/-- All blocks of a new arena are free. -/
theorem freeIn_open (hk : k < descCnt) (ha : a % 4096 = 0) (hfree : C.free k = []) :
    (⟨Function.update C.arenas a (some (.small k)), Function.update C.free k (blocksOf a k)⟩ :
      Chart).freeIn = Function.update C.freeIn a (perArena k) := by
  have hpage (e : ℕ) (he : e ∈ blocksOf a k) : e / 4096 * 4096 = a := by
    obtain ⟨i, hi, rfl⟩ := mem_blocksOf.mp he
    obtain ⟨h1, h2⟩ := blockAt_bounds (a := a) hi
    have hsize := (classSize_bounds hk).1
    unfold arenaSize at h1
    unfold pgSize at h2
    omega
  funext a'
  by_cases haa : a' = a
  · subst haa
    rw [Function.update_self, freeIn_small (k := k) (Function.update_self ..)]
    dsimp only
    rw [Function.update_self, List.countP_eq_length.mpr fun e he => by simpa using hpage e he]
    simp [blocksOf]
  · rw [Function.update_of_ne haa]
    unfold Chart.freeIn
    dsimp only
    rw [Function.update_of_ne haa]
    split
    · rename_i j hj
      by_cases hjk : j = k
      · rw [hjk, Function.update_self, hfree, List.countP_nil, List.countP_eq_zero]
        intro e he
        rw [hpage e he]
        simpa using Ne.symm haa
      · rw [Function.update_of_ne hjk]
    · rfl

/-- A list without the blocks of one arena has as many of another one. -/
theorem countP_diff {l : List ℕ} {p : ℕ → Bool} (bs : List ℕ) (h : ∀ e ∈ bs, p e = false) :
    (l.diff bs).countP p = l.countP p := by
  induction bs generalizing l with
  | nil => rfl
  | cons e bs ih =>
    rw [List.diff_cons, ih fun x hx => h x (List.mem_cons_of_mem e hx)]
    by_cases he : e ∈ l
    · have hcons := (List.perm_cons_erase he).countP_eq p
      rw [hcons, List.countP_cons_of_neg (by simp [h e List.mem_cons_self])]
    · rw [List.erase_of_not_mem he]

/-- The other arenas have as many free blocks after one was closed. -/
theorem freeIn_close (h : Charted C live) (ha : C.arenas a = some (.small k)) {a' : ℕ}
    (hne : a' ≠ a) : (⟨Function.update C.arenas a none,
      Function.update C.free k ((C.free k).diff (blocksOf a k))⟩ : Chart).freeIn a' =
      C.freeIn a' := by
  unfold Chart.freeIn
  dsimp only
  rw [Function.update_of_ne hne]
  split
  · rename_i j hj
    by_cases hjk : j = k
    · rw [hjk, Function.update_self]
      apply countP_diff
      intro e he
      rw [h.page_of_mem ha he]
      simpa using Ne.symm hne
    · rw [Function.update_of_ne hjk]
  · rfl

end Counts

end X86System.Memory
