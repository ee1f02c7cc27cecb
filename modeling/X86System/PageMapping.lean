import X86System.PageTables

/-!
# Mapping a page

The functions of the allocator that touch one page. Through the last entry of the
directory in use they read and write exactly the entries of the tables, and each of
them moves one frame in the ledger: from a pool to its page, to a new table, or back.
-/
namespace X86System.Memory
open Exec Paging

theorem and_one_ne_zero {w : ℕ} : w &&& 1 ≠ 0 ↔ present w := by
  rw [Nat.and_one_is_mod]
  unfold present
  omega

theorem and_one_eq_zero {w : ℕ} : w &&& 1 = 0 ↔ ¬ present w := by
  rw [← and_one_ne_zero, not_not]

/-- An address with the attribute bits is the entry of its frame. -/
theorem or_pgAttr (f : ℕ) : f * 4096 ||| pgAttr = entry f := by
  have h : f <<< 12 + 7 = f <<< 12 ||| 7 := Nat.shiftLeft_add_eq_or_of_lt (by norm_num) f
  have hs : f <<< 12 = f * 4096 := by simp [Nat.shiftLeft_eq]
  rw [hs] at h
  exact h.symm

/-- Any word with the attribute bits is present. -/
theorem present_or_pgAttr (w : ℕ) : present (w ||| pgAttr) := by
  have h : (w ||| pgAttr).testBit 0 = true := by
    rw [Nat.testBit_or]
    simp [pgAttr]
  simpa [present, Nat.testBit_zero] using h

theorem entry_and_page {f : ℕ} (h : f < 2 ^ 20) : entry f &&& 0xfffff000 = f * 4096 := by
  rw [show 0xfffff000 = (2 ^ 20 - 1) <<< 12 by rfl, and_high_bits]
  unfold entry
  omega

theorem not_present_and (w : ℕ) : ¬ present (w &&& 0xfffffffe) := by
  rw [show 0xfffffffe = (2 ^ 31 - 1) <<< 1 by rfl, and_high_bits]
  unfold present
  omega

section Pointers

variable {v : ℕ}

theorem pdeIdx_eq (h : v < 2 ^ 32) : pdeIdx v = dirIndex v := by
  unfold pdeIdx dirIndex
  rw [show 0xffc00000 = (2 ^ 10 - 1) <<< 22 by rfl, and_high_bits, Nat.shiftRight_eq_div_pow]
  omega

theorem pteIdx_eq (v : ℕ) : pteIdx v = tableIndex v := by
  unfold pteIdx tableIndex
  rw [show 0x003ff000 = (2 ^ 10 - 1) <<< 12 by rfl, and_high_bits, Nat.shiftRight_eq_div_pow]
  omega

theorem pdePtr_eq (h : v < 2 ^ 32) : pdePtr v = 0xfffff000 + dirIndex v * 4 := by
  rw [pdePtr, pdeIdx_eq h]

theorem ptePtr_eq (h : v < 2 ^ 32) :
    ptePtr v = 0xffc00000 + dirIndex v * 4096 + tableIndex v * 4 := by
  unfold ptePtr
  rw [pteIdx_eq, show 0xffc00000 = (2 ^ 10 - 1) <<< 22 by rfl, and_high_bits,
    Nat.shiftRight_eq_div_pow]
  unfold dirIndex
  omega

/-- The page of the window that shows the table of an address. -/
theorem ptePtr_page (h : v < 2 ^ 32) :
    ptePtr v &&& 0xfffff000 = 0xffc00000 + dirIndex v * 4096 + 0 * 4 := by
  have ht := tableIndex_lt v
  have hd : dirIndex v < 1024 := by
    unfold dirIndex
    omega
  rw [ptePtr_eq h, show 0xfffff000 = (2 ^ 20 - 1) <<< 12 by rfl, and_high_bits]
  omega

theorem dirIndex_lt (h : v < 2 ^ 32) : dirIndex v < 1024 := by
  unfold dirIndex
  omega

end Pointers

/-- The machine with other words in memory. -/
def Machine.setRam (m : Machine) (ram : Ram) : Machine := { m with ram := ram }

section Fields

variable (m : Machine) (ram : Ram) (pf : PoolFlags) (p : Pool)

@[simp] theorem setRam_ram : (m.setRam ram).ram = ram := rfl
@[simp] theorem setRam_cr3 : (m.setRam ram).cr3 = m.cr3 := rfl
@[simp] theorem setRam_pools : (m.setRam ram).pools = m.pools := rfl
@[simp] theorem setRam_setRam (ram' : Ram) : (m.setRam ram).setRam ram' = m.setRam ram' := rfl
@[simp] theorem setPool_ram : (m.setPool pf p).ram = m.ram := rfl
@[simp] theorem setPool_cr3 : (m.setPool pf p).cr3 = m.cr3 := rfl
@[simp] theorem setPool_pools : (m.setPool pf p).pools = Function.update m.pools pf p := rfl

end Fields

section Access

variable {m m' : Machine} {v w : ℕ}

theorem load_pdePtr (hself : SelfMapped m.ram m.cr3) (hv : v < 2 ^ 32) :
    m.load (pdePtr v) = .ok (m.ram m.cr3 (dirIndex v)) := by
  rw [Machine.load, pdePtr_eq hv, hself.walk_dir (dirIndex_lt hv)]

theorem store_pdePtr (hself : SelfMapped m.ram m.cr3) (hv : v < 2 ^ 32) :
    m.store (pdePtr v) w = .ok (m.setRam (poke m.ram m.cr3 (dirIndex v) w)) := by
  rw [Machine.store, pdePtr_eq hv, hself.walk_dir (dirIndex_lt hv)]
  rfl

theorem walk_ptePtr (hself : SelfMapped m.ram m.cr3) (hv : v < 2 ^ 32) :
    walk m.ram m.cr3 (ptePtr v) = if present (m.ram m.cr3 (dirIndex v)) then
      some (frame (m.ram m.cr3 (dirIndex v)), tableIndex v) else none := by
  rw [ptePtr_eq hv, hself.walk_table (dirIndex_lt hv) (tableIndex_lt v)]

/-- Where a table is there its entry is read. -/
theorem load_ptePtr (hself : SelfMapped m.ram m.cr3) (hv : v < 2 ^ 32)
    (hp : present (m.ram m.cr3 (dirIndex v))) :
    m.load (ptePtr v) = .ok (m.ram (frame (m.ram m.cr3 (dirIndex v))) (tableIndex v)) := by
  rw [Machine.load, walk_ptePtr hself hv, if_pos hp]

theorem store_ptePtr (hself : SelfMapped m.ram m.cr3) (hv : v < 2 ^ 32)
    (hp : present (m.ram m.cr3 (dirIndex v))) :
    m.store (ptePtr v) w = .ok
      (m.setRam (poke m.ram (frame (m.ram m.cr3 (dirIndex v))) (tableIndex v) w)) := by
  rw [Machine.store, walk_ptePtr hself hv, if_pos hp]
  rfl

/-- Clearing the table that the window shows. -/
theorem clearPages_ptePtr (hself : SelfMapped m.ram m.cr3) (hv : v < 2 ^ 32)
    (hp : present (m.ram m.cr3 (dirIndex v))) :
    m.clearPages (ptePtr v &&& 0xfffff000) 1 =
      .ok (m.setRam (wipe m.ram (frame (m.ram m.cr3 (dirIndex v))))) := by
  rw [Machine.clearPages, ptePtr_page hv, hself.walk_table (dirIndex_lt hv) (by norm_num), if_pos hp]
  rfl

/-- Without a table the access is a page fault. -/
theorem load_ptePtr_fault (hself : SelfMapped m.ram m.cr3) (hv : v < 2 ^ 32)
    (hp : ¬ present (m.ram m.cr3 (dirIndex v))) : m.load (ptePtr v) = .error .page := by
  rw [Machine.load, walk_ptePtr hself hv, if_neg hp]

/-- `pmalloc` takes a frame whose bit was clear. -/
theorem pmalloc_ok {p p' : Pool} {r : Option ℕ} (h : pmalloc p = .ok (r, p'))
    (ha : p.phyAddrStart % 4096 = 0) :
    ∃ i < p.frames, bitmapScanTest p.poolBitmap i = false ∧
      r = some ((p.base + i) * 4096) ∧ p' = p.mark i true := by
  unfold pmalloc at h
  cases hscan : bitmapScan p.poolBitmap 1 with
  | error e =>
    rw [hscan] at h
    cases h
  | ok s =>
    obtain ⟨i, rfl, hi, -⟩ := bitmapScan_one hscan
    rw [hscan] at h
    obtain ⟨hlt, hclear⟩ := (Bitmap.mem_free _ _).mp hi
    simp only [ok_bind, pure_eq_ok, Except.ok.injEq, Prod.mk.injEq] at h
    have hpage : i <<< 12 + p.phyAddrStart = (p.base + i) * 4096 := by
      have hdiv := Nat.div_add_mod p.phyAddrStart 4096
      simp only [Nat.shiftLeft_eq, Pool.base]
      omega
    exact ⟨i, hlt, hclear, by rw [← h.1, hpage], h.2.symm⟩

/-- What `page_table_add` does: it writes the entry in a table that is there, or it takes a
frame for a new table first. -/
theorem pageTableAdd_ok (hself : SelfMapped m.ram m.cr3) (hv : v < 0xffc00000)
    (ha : (m.pools .kernel).phyAddrStart % 4096 = 0)
    (hdir : ∀ i < (m.pools .kernel).frames,
      bitmapScanTest (m.pools .kernel).poolBitmap i = false → (m.pools .kernel).base + i ≠ m.cr3)
    (h : pageTableAdd m v w = .ok m') :
    (present (m.ram m.cr3 (dirIndex v)) ∧
      ¬ present (m.ram (frame (m.ram m.cr3 (dirIndex v))) (tableIndex v)) ∧
      m' = m.setRam
        (poke m.ram (frame (m.ram m.cr3 (dirIndex v))) (tableIndex v) (w ||| pgAttr))) ∨
    (¬ present (m.ram m.cr3 (dirIndex v)) ∧
      ∃ i < (m.pools .kernel).frames, bitmapScanTest (m.pools .kernel).poolBitmap i = false ∧
        ∃ t, t = (m.pools .kernel).base + i ∧
          m' = (m.setPool .kernel ((m.pools .kernel).mark i true)).setRam
            (poke (wipe (poke m.ram m.cr3 (dirIndex v) (entry t)) t) t (tableIndex v)
              (w ||| pgAttr))) := by
  have hv32 : v < 2 ^ 32 := by omega
  unfold pageTableAdd at h
  rw [load_pdePtr hself hv32, ok_bind] at h
  by_cases hp : present (m.ram m.cr3 (dirIndex v))
  · rw [if_pos (and_one_ne_zero.mpr hp), load_ptePtr hself hv32 hp, ok_bind,
      store_ptePtr hself hv32 hp] at h
    by_cases ht : present (m.ram (frame (m.ram m.cr3 (dirIndex v))) (tableIndex v))
    · rw [ensure_of_not (by rwa [and_one_eq_zero, not_not])] at h
      cases h
    · rw [ensure_of (and_one_eq_zero.mpr ht)] at h
      exact .inl ⟨hp, ht, (Except.ok.inj h).symm⟩
  · rw [if_neg (by rwa [and_one_ne_zero])] at h
    cases hm : pmalloc (m.pools .kernel) with
    | error e =>
      rw [hm] at h
      cases h
    | ok x =>
      obtain ⟨r, pool⟩ := x
      obtain ⟨i, hi, hclear, rfl, rfl⟩ := pmalloc_ok hm ha
      have hne := hdir i hi hclear
      rw [hm, ok_bind] at h
      dsimp only [Option.getD_some] at h
      rw [or_pgAttr] at h
      refine .inr ⟨hp, i, hi, hclear, _, rfl, ?_⟩
      generalize (m.pools .kernel).base + i = t at h hne ⊢
      have hd1 : dirIndex v ≠ 1023 := by
        unfold dirIndex
        omega
      have hself1 : SelfMapped (poke m.ram m.cr3 (dirIndex v) (entry t)) m.cr3 := by
        rw [SelfMapped, poke_of_word_ne hd1.symm, hself]
      have hself2 : SelfMapped (wipe (poke m.ram m.cr3 (dirIndex v) (entry t)) t) m.cr3 := by
        rw [SelfMapped, wipe_of_ne hne.symm, hself1]
      have hpde : wipe (poke m.ram m.cr3 (dirIndex v) (entry t)) t m.cr3 (dirIndex v) =
          entry t := by
        rw [wipe_of_ne hne.symm, poke_self]
      rw [store_pdePtr (by exact hself) hv32, ok_bind, clearPages_ptePtr hself1 hv32 (by simp),
        ok_bind, load_ptePtr (by simpa using hself2) hv32 (by simp [hpde])] at h
      simp only [setRam_ram, setRam_cr3, setPool_ram, setPool_cr3, poke_self, frame_entry, hpde,
        wipe_self, ok_bind, setRam_setRam] at h
      rw [ensure_of (by decide), ok_bind, store_ptePtr hself2 hv32 (by simp [hpde])] at h
      simpa [hpde] using (Except.ok.inj h).symm

end Access

/-- The marks of the pools and the entries in memory agree with one layout. -/
structure Coherent (m : Machine) (G : Layout) : Prop where
  marked : Marked m.pools G.ledger
  encoded : Encoded m.ram G

/-- What the page allocator leaves alone. -/
structure SameTasks (m m' : Machine) : Prop where
  cr3 : m'.cr3 = m.cr3
  kernelVaddr : m'.kernelVaddr = m.kernelVaddr
  pidBitmap : m'.pidBitmap = m.pidBitmap
  tasks : m'.tasks = m.tasks
  running : m'.running = m.running
  start : ∀ pf, (m'.pools pf).phyAddrStart = (m.pools pf).phyAddrStart
  frames : ∀ pf, (m'.pools pf).frames = (m.pools pf).frames

theorem SameTasks.refl (m : Machine) : SameTasks m m :=
  ⟨rfl, rfl, rfl, rfl, rfl, fun _ => rfl, fun _ => rfl⟩

theorem SameTasks.trans {m₁ m₂ m₃ : Machine} (h : SameTasks m₁ m₂) (h' : SameTasks m₂ m₃) :
    SameTasks m₁ m₃ :=
  ⟨h'.cr3.trans h.cr3, h'.kernelVaddr.trans h.kernelVaddr, h'.pidBitmap.trans h.pidBitmap,
    h'.tasks.trans h.tasks, h'.running.trans h.running,
    fun pf => (h'.start pf).trans (h.start pf), fun pf => (h'.frames pf).trans (h.frames pf)⟩

theorem sameTasks_setRam (m : Machine) (ram : Ram) : SameTasks m (m.setRam ram) :=
  ⟨rfl, rfl, rfl, rfl, rfl, fun _ => rfl, fun _ => rfl⟩

theorem sameTasks_mark (m : Machine) (pf : PoolFlags) (i : ℕ) (value : Bool) :
    SameTasks m (m.setPool pf ((m.pools pf).mark i value)) :=
  ⟨rfl, rfl, rfl, rfl, rfl, fun _ => (update_mark ..).1, fun _ => (update_mark ..).2⟩

/-- The pages in `news` got frames, and perhaps the address space of `dir` got tables; everything
else is owned as before. -/
structure Grown (dir : ℕ) (L L' : Ledger Owner ℕ) (news : Set Owner) : Prop where
  new : ∀ o ∈ news, L.owns o = none ∧ ∃ f, L'.owns o = some f
  kept : ∀ o ∉ news, (∀ e, o ≠ .table dir e) → L'.owns o = L.owns o
  tables : ∀ e t, L.owns (.table dir e) = some t → L'.owns (.table dir e) = some t

theorem Grown.refl (dir : ℕ) (L : Ledger Owner ℕ) : Grown dir L L ∅ :=
  ⟨fun _ h => h.elim, fun _ _ _ => rfl, fun _ _ h => h⟩

section Indices

variable {n : ℕ}

@[simp] theorem dirIndex_page (n : ℕ) : dirIndex (n * 4096) = n / 1024 := by
  unfold dirIndex
  omega

@[simp] theorem tableIndex_page (n : ℕ) : tableIndex (n * 4096) = n % 1024 := by
  unfold tableIndex
  omega

end Indices

section Mapping

variable {m m' : Machine} {G : Layout} {pf : PoolFlags} {n : ℕ}

/-- No frame that can be taken is a directory. -/
theorem Coherent.free_ne_dir (h : Coherent m G) {d i : ℕ} (hd : d ∈ G.dirs)
    (hi : i < (m.pools pf).frames)
    (hclear : bitmapScanTest (m.pools pf).poolBitmap i = false) : (m.pools pf).base + i ≠ d := by
  rintro rfl
  have hfree := h.marked.unowned hi hclear
  obtain h1 | ⟨n, hn⟩ := h.encoded.dirOwned _ hd
  · have hk := h.marked.kernelBase
    have ha := h.marked.apart
    unfold kernelDir at h1
    cases pf <;> omega
  · exact hfree _ hn

/-- Taking a frame from a pool and holding it. -/
theorem Coherent.take (h : Coherent m G) (hheld : G.owns (.held pf) = none) {i : ℕ}
    (hi : i < (m.pools pf).frames)
    (hclear : bitmapScanTest (m.pools pf).poolBitmap i = false) :
    Coherent (m.setPool pf ((m.pools pf).mark i true))
      (G.withLedger (G.ledger.give (.held pf) _ (h.marked.unowned hi hclear))) where
  marked := h.marked.give hi (h.marked.unowned hi hclear) rfl hheld
  encoded := h.encoded.withLedger fun _ ho => Ledger.give_owns_of_ne _ _ (ho pf)

/-- A held frame goes behind a page of the kernel heap. -/
theorem Coherent.mapKernel (h : Coherent m G) (hn : HeapPage n) {f : ℕ}
    (hheld : G.owns (.held .kernel) = some f) (hnone : G.owns (.kernel n) = none) :
    Coherent (m.setRam (poke m.ram (kernelTable (n / 1024)) (n % 1024) (entry f)))
      (G.withLedger (G.ledger.move (.held .kernel) (.kernel n))) where
  marked := h.marked.move hnone rfl
  encoded := by
    apply h.encoded.writeKernel h.marked hn (r := some f)
    · intro f' hf
      rw [Option.some.inj hf]
    · intro hf
      cases hf
    · intro d _
      rw [hnone]
      simp
    · intro o ho
      rw [Ledger.move_owns]
      split_ifs with h1 h2
      · exact hheld
      · exact absurd h2 (ho _)
      · rfl

/-- A held frame goes behind a user page whose table is there. -/
theorem Coherent.mapUser (h : Coherent m G) {f d t : ℕ}
    (ht : G.owns (.table d (n / 1024)) = some t)
    (hheld : G.owns (.held .user) = some f) (hnone : G.owns (.user d n) = none) :
    Coherent (m.setRam (poke m.ram t (n % 1024) (entry f)))
      (G.withLedger (G.ledger.move (.held .user) (.user d n))) where
  marked := h.marked.move hnone rfl
  encoded := by
    apply h.encoded.writeUser h.marked ht (r := some f)
    · intro f' hf
      rw [Option.some.inj hf]
    · intro hf
      cases hf
    · intro o ho
      rw [Ledger.move_owns]
      split_ifs with h1 h2
      · exact hheld
      · exact absurd h2 (ho _)
      · rfl

/-- A frame of the kernel pool becomes the table of a user entry. -/
theorem Coherent.addTable (h : Coherent m G) {d e i : ℕ} (hd : d ∈ G.spaces) (he : e < 768)
    (hnone : G.owns (.table d e) = none) (hi : i < (m.pools .kernel).frames)
    (hclear : bitmapScanTest (m.pools .kernel).poolBitmap i = false) :
    Coherent ((m.setPool .kernel ((m.pools .kernel).mark i true)).setRam
        (wipe (poke m.ram d e (entry ((m.pools .kernel).base + i))) ((m.pools .kernel).base + i)))
      (G.withLedger (G.ledger.give (.table d e) _ (h.marked.unowned hi hclear))) where
  marked := h.marked.give hi (h.marked.unowned hi hclear) rfl hnone
  encoded := by
    apply h.encoded.installTable h.marked hd he hnone (h.marked.unowned hi hclear)
    · have hk := h.marked.kernelBase
      omega
    · intro o _
      exact Ledger.give_owns _ _ _

/-- The pages that may be mapped for a flag; the one past the user half is asked for when a run
ends one page past the bitmap. -/
def Mappable (G : Layout) (dir : ℕ) (pf : PoolFlags) (n : ℕ) : Prop :=
  match pf with
  | .kernel => HeapPage n
  | .user => dir ∈ G.spaces ∧ n ≤ 0xc0000

/-- What stands in the table for a kernel page of any directory. -/
theorem Coherent.kernel_pde (h : Coherent m G) {d : ℕ} (hd : d ∈ G.dirs)
    (hn : 768 ≤ n / 1024) (hn' : n / 1024 < 1023) :
    present (m.ram d (n / 1024)) ∧ frame (m.ram d (n / 1024)) = kernelTable (n / 1024) := by
  rw [h.encoded.kernelHalf d hd _ hn hn']
  simp

/-- What stands in the table for a user page whose entry is present. -/
theorem Coherent.user_pde (h : Coherent m G) {d : ℕ} (hd : d ∈ G.spaces) (hn : n < 0xc0000)
    (hp : present (m.ram d (n / 1024))) :
    ∃ t, G.owns (.table d (n / 1024)) = some t ∧ frame (m.ram d (n / 1024)) = t := by
  cases ht : G.owns (.table d (n / 1024)) with
  | none => exact absurd hp (h.encoded.noTable d hd _ (by omega) ht)
  | some t =>
    obtain ⟨-, -, hr⟩ := h.encoded.tableEntry _ _ _ ht
    exact ⟨t, rfl, by rw [hr, frame_entry]⟩

/-- The held frame went behind its page, and perhaps the address space got a table. -/
structure Placed (dir : ℕ) (L L' : Ledger Owner ℕ) (pf : PoolFlags) (n f : ℕ) : Prop where
  held : L'.owns (.held pf) = none
  before : L.owns (Owner.ofPage pf dir n) = none
  after : L'.owns (Owner.ofPage pf dir n) = some f
  kept : ∀ o, o ≠ .held pf → o ≠ Owner.ofPage pf dir n → (∀ e, o ≠ .table dir e) →
    L'.owns o = L.owns o
  tables : ∀ e t, L.owns (.table dir e) = some t → L'.owns (.table dir e) = some t

/-- Moving the held frame is all that happens where the table is there. -/
theorem placed_move {L : Ledger Owner ℕ} {dir f : ℕ} (hheld : L.owns (.held pf) = some f)
    (hnone : L.owns (Owner.ofPage pf dir n) = none) :
    Placed dir L (L.move (.held pf) (Owner.ofPage pf dir n)) pf n f where
  held := L.move_owns_source (by cases pf <;> simp [Owner.ofPage])
  before := hnone
  after := L.move_owns_target.trans hheld
  kept := fun o h1 h2 _ => L.move_owns_of_ne h1 h2
  tables := fun e t ht => by
    rw [L.move_owns_of_ne (by simp) (by cases pf <;> simp [Owner.ofPage])]
    exact ht

/-- A page of the kernel heap without an entry has no frame. -/
theorem Coherent.kernel_none (h : Coherent m G)
    (hfree : ¬ present (m.ram (kernelTable (n / 1024)) (n % 1024))) :
    G.owns (.kernel n) = none := by
  by_contra hne
  obtain ⟨g, hg⟩ := Option.ne_none_iff_exists'.mp hne
  apply hfree
  rw [(h.encoded.kernelPage n g hg).2]
  exact present_entry g

theorem Coherent.user_none (h : Coherent m G) {d t : ℕ}
    (ht : G.owns (.table d (n / 1024)) = some t) (hfree : ¬ present (m.ram t (n % 1024))) :
    G.owns (.user d n) = none := by
  by_contra hne
  obtain ⟨g, hg⟩ := Option.ne_none_iff_exists'.mp hne
  obtain ⟨t', ht', hr⟩ := h.encoded.userPage _ n g hg
  obtain rfl := Option.some.inj (ht.symm.trans ht')
  apply hfree
  rw [hr]
  exact present_entry g

/-- Without a table there is no user page. -/
theorem Coherent.user_none_of_table (h : Coherent m G) {d : ℕ}
    (ht : G.owns (.table d (n / 1024)) = none) : G.owns (.user d n) = none := by
  by_contra hne
  obtain ⟨g, hg⟩ := Option.ne_none_iff_exists'.mp hne
  obtain ⟨t, ht', -⟩ := h.encoded.userPage _ n g hg
  rw [ht] at ht'
  cases ht'

/-- The cases of `page_table_add` in a coherent machine. -/
theorem Coherent.pageTableAdd_cases (h : Coherent m G) (hcr3 : m.cr3 ∈ G.dirs) {f : ℕ}
    (hn : n < 0xffc00) (hadd : pageTableAdd m (n * 4096) (f * 4096) = .ok m') :
    (present (m.ram m.cr3 (n / 1024)) ∧
      ¬ present (m.ram (frame (m.ram m.cr3 (n / 1024))) (n % 1024)) ∧
      m' = m.setRam (poke m.ram (frame (m.ram m.cr3 (n / 1024))) (n % 1024) (entry f))) ∨
    (¬ present (m.ram m.cr3 (n / 1024)) ∧
      ∃ i < (m.pools .kernel).frames, bitmapScanTest (m.pools .kernel).poolBitmap i = false ∧
        ∃ t, t = (m.pools .kernel).base + i ∧
          m' = (m.setPool .kernel ((m.pools .kernel).mark i true)).setRam
            (poke (wipe (poke m.ram m.cr3 (n / 1024) (entry t)) t) t (n % 1024) (entry f))) := by
  have hcases := pageTableAdd_ok (h.encoded.selfMapped _ hcr3) (by omega) (h.marked.aligned _)
    (fun i hi hclear => h.free_ne_dir hcr3 hi hclear) hadd
  simpa only [dirIndex_page, tableIndex_page, or_pgAttr] using hcases

/-- `page_table_add` for a page of the kernel heap: every directory has its table. -/
theorem pageTableAdd_kernel (h : Coherent m G) (hcr3 : m.cr3 ∈ G.dirs) {f : ℕ}
    (hheld : G.owns (.held .kernel) = some f) (hn : HeapPage n)
    (hadd : pageTableAdd m (n * 4096) (f * 4096) = .ok m') :
    ∃ L', Coherent m' (G.withLedger L') ∧ SameTasks m m' ∧
      Placed m.cr3 G.ledger L' .kernel n f := by
  have hpde := h.kernel_pde hcr3 hn.index.1 hn.index.2
  obtain ⟨-, hfree, rfl⟩ | ⟨hp, -⟩ := h.pageTableAdd_cases hcr3 hn.2 hadd
  · rw [hpde.2] at hfree ⊢
    have hnone := h.kernel_none hfree
    exact ⟨_, h.mapKernel hn hheld hnone, sameTasks_setRam .., placed_move hheld hnone⟩
  · exact absurd hpde.1 hp

/-- `page_table_add` for a user page: a table is taken from the kernel pool where there is none. -/
theorem pageTableAdd_user (h : Coherent m G) (hspace : m.cr3 ∈ G.spaces) {f : ℕ}
    (hheld : G.owns (.held .user) = some f) (hn : n ≤ 0xc0000)
    (hadd : pageTableAdd m (n * 4096) (f * 4096) = .ok m') :
    ∃ L', Coherent m' (G.withLedger L') ∧ SameTasks m m' ∧
      Placed m.cr3 G.ledger L' .user n f := by
  have hcr3 := h.encoded.spaces_subset hspace
  obtain hlt | rfl := Nat.lt_or_eq_of_le hn
  · obtain ⟨hp, hfree, rfl⟩ | ⟨hp, i, hi, hclear, t, rfl, rfl⟩ :=
      h.pageTableAdd_cases hcr3 (by omega) hadd
    · obtain ⟨t, ht, hframe⟩ := h.user_pde hspace hlt hp
      rw [hframe] at hfree ⊢
      have hnone := h.user_none ht hfree
      exact ⟨_, h.mapUser ht hheld hnone, sameTasks_setRam .., placed_move hheld hnone⟩
    · have htnone : G.owns (.table m.cr3 (n / 1024)) = none := by
        by_contra hne
        obtain ⟨g, hg⟩ := Option.ne_none_iff_exists'.mp hne
        apply hp
        rw [(h.encoded.tableEntry _ _ _ hg).2.2]
        exact present_entry g
      have hnone := h.user_none_of_table htnone
      have hfree := h.marked.unowned hi hclear
      have h1 := h.addTable hspace (by omega) htnone hi hclear
      have hheld1 : (G.ledger.give (.table m.cr3 (n / 1024)) _ hfree).owns (.held .user) = some f :=
        (G.ledger.give_owns_of_ne hfree (by simp)).trans hheld
      have hnone1 : (G.ledger.give (.table m.cr3 (n / 1024)) _ hfree).owns (.user m.cr3 n) = none :=
        (G.ledger.give_owns_of_ne hfree (by simp)).trans hnone
      have hplaced := @placed_move .user n _ m.cr3 f hheld1 hnone1
      refine ⟨_, h1.mapUser (G.ledger.give_owns_self hfree) hheld1 hnone1,
        (sameTasks_mark m _ i true).trans (sameTasks_setRam ..), hplaced.held, hnone,
        hplaced.after, ?_, ?_⟩
      · intro o h1 h2 h3
        exact (hplaced.kept o h1 h2 h3).trans (G.ledger.give_owns_of_ne hfree (h3 _))
      · intro e t ht
        apply hplaced.tables
        rw [G.ledger.give_owns_of_ne hfree, ht]
        rintro ⟨⟩
        rw [Layout.owns, ht] at htnone
        cases htnone
  · -- the page past the user half is the first page of memory, mapped since the start
    exfalso
    have hpde := h.kernel_pde hcr3 (n := 0xc0000) (by norm_num) (by norm_num)
    obtain ⟨-, hfree, -⟩ | ⟨hp, -⟩ := h.pageTableAdd_cases hcr3 (by norm_num) hadd
    · apply hfree
      rw [hpde.2, show 0xc0000 / 1024 = 768 by norm_num, h.encoded.lowMapped _ (by norm_num)]
      exact present_entry _
    · exact hp hpde.1

end Mapping

section Unmapping

variable {m m' : Machine} {G : Layout} {pf : PoolFlags} {n f : ℕ}

theorem sub32_eq {a b : ℕ} (h : b ≤ a) (ha : a < 2 ^ 32) : sub32 a b = a - b := by
  unfold sub32
  omega

/-- Where the entry of a page is. -/
theorem Coherent.pte (h : Coherent m G) (hcr3 : m.cr3 ∈ G.dirs)
    (ho : G.owns (Owner.ofPage pf m.cr3 n) = some f) :
    n < 0xffc00 ∧ present (m.ram m.cr3 (n / 1024)) ∧
    m.ram (frame (m.ram m.cr3 (n / 1024))) (n % 1024) = entry f := by
  cases pf with
  | kernel =>
    obtain ⟨hn, hr⟩ := h.encoded.kernelPage n f ho
    have hpde := h.kernel_pde hcr3 hn.index.1 hn.index.2
    exact ⟨hn.2, hpde.1, by rw [hpde.2, hr]⟩
  | user =>
    obtain ⟨t, ht, hr⟩ := h.encoded.userPage _ n f ho
    obtain ⟨-, he, hd⟩ := h.encoded.tableEntry _ _ _ ht
    refine ⟨by omega, by rw [hd]; exact present_entry t, by rw [hd, frame_entry, hr]⟩

/-- The table of a page that is mapped holds entries. -/
theorem Coherent.structural_table (h : Coherent m G) (hcr3 : m.cr3 ∈ G.dirs)
    (ho : G.owns (Owner.ofPage pf m.cr3 n) = some f) :
    Structural G (frame (m.ram m.cr3 (n / 1024))) := by
  cases pf with
  | kernel =>
    obtain ⟨hn, -⟩ := h.encoded.kernelPage n f ho
    rw [(h.kernel_pde hcr3 hn.index.1 hn.index.2).2]
    exact hn.structural
  | user =>
    obtain ⟨t, ht, -⟩ := h.encoded.userPage _ n f ho
    obtain ⟨-, -, hd⟩ := h.encoded.tableEntry _ _ _ ht
    rw [hd, frame_entry]
    exact .inr (.inr ⟨_, _, ht⟩)

theorem Marked.frame_lt {L : Ledger Owner ℕ} (h : Marked m.pools L) {o : Owner}
    (ho : L.owns o = some f) : f < 2 ^ 20 := by
  have hin := h.inPool o f ho
  have ha := h.apart
  have ht := h.top
  cases hp : o.pool <;> rw [hp] at hin <;> omega

/-- `addr_v2p` reads the entry of a page. -/
theorem addrV2p_entry (hself : SelfMapped m.ram m.cr3) (hn : n < 2 ^ 20)
    (hp : present (m.ram m.cr3 (n / 1024))) (hf : f < 2 ^ 20)
    (hr : m.ram (frame (m.ram m.cr3 (n / 1024))) (n % 1024) = entry f) :
    addrV2p m (n * 4096) = .ok (f * 4096) := by
  have hoff : n * 4096 &&& 0x00000fff = 0 := by
    rw [show 0x00000fff = 2 ^ 12 - 1 by rfl, Nat.and_two_pow_sub_one_eq_mod]
    omega
  unfold addrV2p
  rw [load_ptePtr hself (by omega) (by rwa [dirIndex_page]), ok_bind, dirIndex_page,
    tableIndex_page, hr, entry_and_page hf, hoff, pure_eq_ok, Nat.add_zero]

/-- `addr_v2p` finds the frame of a page. -/
theorem Coherent.addrV2p_page (h : Coherent m G) (hcr3 : m.cr3 ∈ G.dirs)
    (ho : G.owns (Owner.ofPage pf m.cr3 n) = some f) :
    addrV2p m (n * 4096) = .ok (f * 4096) := by
  obtain ⟨hn, hp, hr⟩ := h.pte hcr3 ho
  exact addrV2p_entry (h.encoded.selfMapped _ hcr3) (by omega) hp (h.marked.frame_lt ho) hr

/-- `page_table_pte_remove` clears the present bit of the entry. -/
theorem pageTablePteRemove_eq (hself : SelfMapped m.ram m.cr3) (hn : n < 2 ^ 20)
    (hp : present (m.ram m.cr3 (n / 1024))) :
    pageTablePteRemove m (n * 4096) = .ok (m.setRam (poke m.ram (frame (m.ram m.cr3 (n / 1024)))
      (n % 1024) (m.ram (frame (m.ram m.cr3 (n / 1024))) (n % 1024) &&& 0xfffffffe))) := by
  unfold pageTablePteRemove
  rw [load_ptePtr hself (by omega) (by rwa [dirIndex_page]), ok_bind,
    store_ptePtr hself (by omega) (by rwa [dirIndex_page]), dirIndex_page, tableIndex_page]

/-- The pool is told by the address. -/
theorem Marked.user_le {L : Ledger Owner ℕ} (h : Marked m.pools L) {o : Owner}
    (ho : L.owns o = some f) : (m.pools .user).phyAddrStart ≤ f * 4096 ↔ o.pool = .user := by
  have hin := h.inPool o f ho
  have hu := h.aligned .user
  have ha := h.apart
  have hb : (m.pools .user).phyAddrStart = (m.pools .user).base * 4096 := by
    unfold Pool.base
    omega
  cases hp : o.pool <;> rw [hp] at hin <;> simp only [reduceCtorEq, iff_false, iff_true] <;> omega

/-- `pfree` clears the bit of the frame. -/
theorem Marked.pfree_eq {L : Ledger Owner ℕ} (h : Marked m.pools L) {o : Owner}
    (ho : L.owns o = some f) : pfree m (f * 4096) = m.setPool o.pool
      ((m.pools o.pool).mark (f - (m.pools o.pool).base) false) := by
  have huser := h.user_le ho
  have hin := h.inPool o f ho
  have hlt := h.frame_lt ho
  have hpf : (if f * 4096 ≥ (m.pools .user).phyAddrStart then PoolFlags.user else .kernel) =
      o.pool := by
    by_cases hu : (m.pools .user).phyAddrStart ≤ f * 4096
    · rw [if_pos hu, huser.mp hu]
    · rw [if_neg hu]
      cases hp : o.pool with
      | kernel => rfl
      | user => exact absurd (huser.mpr hp) hu
  have ha := h.aligned o.pool
  have hb : (m.pools o.pool).phyAddrStart = (m.pools o.pool).base * 4096 := by
    unfold Pool.base
    omega
  have hidx : sub32 (f * 4096) (m.pools o.pool).phyAddrStart >>> 12 =
      f - (m.pools o.pool).base := by
    rw [sub32_eq (by omega) (by omega), hb, ← Nat.sub_mul, Nat.shiftRight_eq_div_pow]
    omega
  unfold pfree
  dsimp only
  rw [hpf, hidx]
  rfl

/-- Frames that hold no entries keep their words. -/
def Untouched (G : Layout) (m m' : Machine) : Prop := ∀ g, ¬ Structural G g → m'.ram g = m.ram g

/-- A page gives its frame back: the bit is cleared and the entry is no longer present. -/
theorem Coherent.freePage (h : Coherent m G) (hcr3 : m.cr3 ∈ G.dirs)
    (ho : G.owns (Owner.ofPage pf m.cr3 n) = some f) (hdir : f ∉ G.dirs) :
    ∃ m', pageTablePteRemove (pfree m (f * 4096)) (n * 4096) = .ok m' ∧
      Coherent m' (G.withLedger (G.ledger.drop (Owner.ofPage pf m.cr3 n))) ∧
      SameTasks m m' ∧ Untouched G m m' := by
  obtain ⟨hn, hp, hr⟩ := h.pte hcr3 ho
  have hself := h.encoded.selfMapped _ hcr3
  have hpfree := h.marked.pfree_eq ho
  rw [pool_ofPage] at hpfree
  have hmarked := h.marked.drop ho
  rw [pool_ofPage] at hmarked
  refine ⟨(m.setPool pf ((m.pools pf).mark (f - (m.pools pf).base) false)).setRam
      (poke m.ram (frame (m.ram m.cr3 (n / 1024))) (n % 1024) (entry f &&& 0xfffffffe)),
    ?_, ⟨hmarked, ?_⟩, (sameTasks_mark m pf _ false).trans (sameTasks_setRam _ _), ?_⟩
  rotate_left 2
  · intro g hg
    funext j
    apply poke_of_frame_ne
    rintro rfl
    exact hg (h.structural_table hcr3 ho)
  · rw [hpfree, pageTablePteRemove_eq (by exact hself) (by omega) (by exact hp)]
    simp only [setPool_ram, setPool_cr3, hr]
  · have hw := not_present_and (entry f)
    cases pf with
    | kernel =>
      obtain ⟨hheap, -⟩ := h.encoded.kernelPage n f ho
      rw [setRam_ram, (h.kernel_pde hcr3 hheap.index.1 hheap.index.2).2]
      apply h.encoded.writeKernel h.marked hheap (r := none)
      · intro f' hf
        cases hf
      · exact fun _ => hw
      · intro d hd heq
        obtain rfl := Option.some.inj (heq.symm.trans ho)
        exact hdir hd
      · exact fun o _ => Ledger.drop_owns _ _
    | user =>
      obtain ⟨t, ht, -⟩ := h.encoded.userPage _ n f ho
      obtain ⟨-, -, hd⟩ := h.encoded.tableEntry _ _ _ ht
      rw [setRam_ram, hd, frame_entry]
      apply h.encoded.writeUser h.marked ht (r := none)
      · intro f' hf
        cases hf
      · exact fun _ => hw
      · exact fun o _ => Ledger.drop_owns _ _

end Unmapping

end X86System.Memory
