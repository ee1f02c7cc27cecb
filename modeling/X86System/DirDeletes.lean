import X86System.Removal
import X86System.Lookup

/-!
# Deleting a directory entry

`delete_dir_entry` counts the entries of each block while it looks for the inode
number, so that it knows whether the entry it found is alone in its block. The block
is then given back, unless it is the first one. For a block of the indirect table the
code first counts the blocks of the table, in a loop that has no end.
-/
namespace X86System.FileSystem
open Bytes Exec

/-- Place `j` of block `k` holds an entry. -/
def LiveAt (disk : Image) (x : Inode) (k j : ℕ) : Prop :=
  k < 140 ∧ j < 21 ∧ x.blockLba disk k ≠ 0 ∧
    (dirEntryAt disk (x.blockLba disk k) j).fType ≠ ftUnknown

instance (disk : Image) (x : Inode) (k j : ℕ) : Decidable (LiveAt disk x k j) :=
  inferInstanceAs (Decidable (_ ∧ _))

/-- An entry named `"."` or `".."`. -/
def DirEntry.isDots (e : DirEntry) : Bool := e.named [dot] || e.named [dot, dot]

/-- A live entry that `delete_dir_entry` counts. -/
def DirEntry.counted (e : DirEntry) : Bool := e.fType ≠ ftUnknown && !e.isDots

/-- Place `j` of block `k` holds an entry with inode number `n`, not `"."` or `".."`. -/
def NamesAt (disk : Image) (x : Inode) (n : UInt32) (k j : ℕ) : Prop :=
  LiveAt disk x k j ∧ (dirEntryAt disk (x.blockLba disk k) j).isDots = false ∧
    (dirEntryAt disk (x.blockLba disk k) j).iNo = n

/-- Block `k` holds no entry but the one at place `j`. -/
def AloneAt (disk : Image) (x : Inode) (k j : ℕ) : Prop :=
  ∀ l, LiveAt disk x k l → l = j

/-- A directory as the code keeps it: its blocks are in use and distinct, `"."` and `".."`
are in the first one, and no inode number is in two other entries. -/
structure TidyDir (s : State) (x : Inode) : Prop extends WellFormedDir s x where
  in_bitmap : ∀ k, x.blockLba s.disk k ≠ 0 →
    (x.blockLba s.disk k).toNat - s.part.dataStartLba < 8 * s.blockBitmap.btmpBytesLen
  block_inj : ∀ k k', x.blockLba s.disk k ≠ 0 → x.blockLba s.disk k = x.blockLba s.disk k' → k = k'
  dot_first : ∃ j, LiveAt s.disk x 0 j ∧ (dirEntryAt s.disk (x.blockLba s.disk 0) j).named [dot]
  dots_first : ∀ k j, LiveAt s.disk x k j →
    (dirEntryAt s.disk (x.blockLba s.disk k) j).isDots → k = 0
  once : ∀ n k j k' j', NamesAt s.disk x n k j → NamesAt s.disk x n k' j' → k = k' ∧ j = j'
  size_eq : x.iSize.toNat = direntSize *
    ((Finset.range 140 ×ˢ Finset.range 21).filter fun p => LiveAt s.disk x p.1 p.2).card

/-- The blocks that go when the entry at place `j` of block `k` is deleted: its own if it
was alone there and the block is not the first, and the table if that was its last block. -/
def freedBlocks (disk : Image) (x : Inode) (k j : ℕ) : Set UInt32 :=
  { b | k ≠ 0 ∧ AloneAt disk x k j ∧ (b = x.blockLba disk k ∨ b = x.sector 12 ∧ 12 ≤ k ∧
    ∀ l, 12 ≤ l → x.blockLba disk l ≠ 0 → l = k) }

/-- From `s` to `t` the entry at place `j` of block `k` was deleted and nothing else. -/
structure EntryDeleted (s t : State) (x y : Inode) (k j : ℕ) : Prop where
  entries : liveEntries t.disk y =
    liveEntries s.disk x \ {dirEntryAt s.disk (x.blockLba s.disk k) j}
  size : y.iSize.toNat + direntSize = x.iSize.toNat
  released : ∀ b : UInt32, s.part.dataStartLba ≤ b.toNat →
    (bitmapScanTest t.blockBitmap (b.toNat - s.part.dataStartLba) = false ↔
      bitmapScanTest s.blockBitmap (b.toNat - s.part.dataStartLba) = false ∨
        b ∈ freedBlocks s.disk x k j)

/-- What deleting number `n` from the directory is for. -/
def DeletesEntry (s : State) (pdir : Dir) (x : Inode) (n : UInt32) (ioBuf : Buffer) : Prop :=
  (∀ k j, NamesAt s.disk x n k j → ∃ t y, deleteDirEntry s pdir n ioBuf = .ok (true, t) ∧
    t.inodes (pdir.inode s) = some y ∧ EntryDeleted s t x y k j) ∧
  ((∀ k j, ¬ NamesAt s.disk x n k j) → deleteDirEntry s pdir n ioBuf = .ok (false, s))

/-- `fuel` rounds of the loop that counts the blocks of the indirect table. Nothing in
it moves `indirect_block_idx`. -/
def countIndirect (allBlocks : Image) : ℕ → ℕ → UInt32 → Option UInt32
  | 0, _, _ => none
  | fuel + 1, idx, cnt =>
    if idx < 140 then
      countIndirect allBlocks fuel idx (if wordAt allBlocks (4 * idx) ≠ 0 then cnt + 1 else cnt)
    else some cnt

/-- The loop never ends, which is why `dropDirBlock` has no result there. -/
theorem countIndirect_diverges (allBlocks : Image) (fuel : ℕ) (cnt : UInt32) :
    countIndirect allBlocks fuel 12 cnt = none := by
  induction fuel generalizing cnt with
  | zero => rfl
  | succ fuel ih => rw [countIndirect, if_pos (by omega), ih]

section Scan

variable {buf : Image} {n : UInt32} {ent : ℕ → DirEntry} {idx : ℕ} {r : SectorScan}

/-- What the scan knows after the entries before `idx`. -/
structure Scanned (ent : ℕ → DirEntry) (n : UInt32) (idx : ℕ) (r : SectorScan) : Prop where
  first : r.isFirst = true ↔ ∃ j < idx, (ent j).fType ≠ ftUnknown ∧ (ent j).named [dot]
  count : r.count = ((Finset.range idx).filter fun j => (ent j).counted).card
  found : ∀ j, r.found = some j ↔ j < idx ∧ (ent j).counted ∧ (ent j).iNo = n

theorem scanned_start : Scanned ent n 0 ⟨false, 0, none⟩ where
  first := by simp
  count := by simp
  found := by simp

/-- An entry that is not counted is passed over. -/
theorem Scanned.pass (h : Scanned ent n idx r) (hskip : (ent idx).counted = false) {b : Bool}
    (hb : b = true ↔ r.isFirst = true ∨ (ent idx).fType ≠ ftUnknown ∧ (ent idx).named [dot]) :
    Scanned ent n (idx + 1) { r with isFirst := b } where
  first := by
    rw [hb, h.first]
    constructor
    · rintro (⟨j, hj, hdot⟩ | hdot)
      · exact ⟨j, by omega, hdot⟩
      · exact ⟨idx, by omega, hdot⟩
    · rintro ⟨j, hj, hdot⟩
      obtain hlt | rfl := Nat.lt_succ_iff_lt_or_eq.mp hj
      · exact .inl ⟨j, hlt, hdot⟩
      · exact .inr hdot
  count := by
    rw [Finset.range_add_one, Finset.filter_insert, if_neg (by simp [hskip])]
    exact h.count
  found := by
    intro j
    rw [h.found]
    constructor
    · exact fun ⟨hj, hmatch⟩ => ⟨by omega, hmatch⟩
    · rintro ⟨hj, hcounted, hno⟩
      obtain hlt | rfl := Nat.lt_succ_iff_lt_or_eq.mp hj
      · exact ⟨hlt, hcounted, hno⟩
      · rw [hskip] at hcounted
        cases hcounted

/-- An entry that is counted, and the one looked for if it has the number. -/
theorem Scanned.count_entry (h : Scanned ent n idx r) (hcount : (ent idx).counted = true)
    {found : Option ℕ}
    (hfound : ∀ j, found = some j ↔ r.found = some j ∨ j = idx ∧ (ent j).iNo = n) :
    Scanned ent n (idx + 1) ⟨r.isFirst, r.count + 1, found⟩ where
  first := by
    rw [h.first]
    constructor
    · exact fun ⟨j, hj, hdot⟩ => ⟨j, by omega, hdot⟩
    · rintro ⟨j, hj, hdot⟩
      obtain hlt | rfl := Nat.lt_succ_iff_lt_or_eq.mp hj
      · exact ⟨j, hlt, hdot⟩
      · simp [DirEntry.counted, DirEntry.isDots, hdot.2] at hcount
  count := by
    rw [Finset.range_add_one, Finset.filter_insert, if_pos hcount,
      Finset.card_insert_of_notMem (by simp), h.count]
  found := by
    intro j
    rw [hfound, h.found]
    constructor
    · rintro (⟨hj, hmatch⟩ | ⟨rfl, hno⟩)
      · exact ⟨by omega, hmatch⟩
      · exact ⟨by omega, hcount, hno⟩
    · rintro ⟨hj, hcounted, hno⟩
      obtain hlt | rfl := Nat.lt_succ_iff_lt_or_eq.mp hj
      · exact .inl ⟨hlt, hcounted, hno⟩
      · exact .inr ⟨rfl, hno⟩

/-- The scan of one sector, where at most one entry has the number. -/
theorem scanSector_spec (hent : ∀ j < 21, DirEntry.ofBytes (slice buf (direntSize * j)) = ent j)
    (honce : ∀ i < 21, ∀ j < 21, (ent i).counted → (ent i).iNo = n → (ent j).counted →
      (ent j).iNo = n → i = j) (fuel : ℕ) : ∀ idx r, idx + fuel = 21 → Scanned ent n idx r →
    ∃ r', scanSector buf n fuel idx r = .ok r' ∧ Scanned ent n 21 r' := by
  induction fuel with
  | zero =>
    intro idx r hidx h
    obtain rfl : idx = 21 := by omega
    exact ⟨r, rfl, h⟩
  | succ fuel ih =>
    intro idx r hidx h
    have he := hent idx (by omega)
    have htype : wordAt (slice buf (direntSize * idx)) 20 = (ent idx).fType := by rw [← he]; rfl
    have hno : wordAt (slice buf (direntSize * idx)) 16 = (ent idx).iNo := by rw [← he]; rfl
    have hdot := @named_read (slice buf (direntSize * idx)) [dot] (by decide)
    have hdots := @named_read (slice buf (direntSize * idx)) [dot, dot] (by decide)
    rw [he] at hdot hdots
    rw [scanSector, htype, hno, hdot, hdots]
    split_ifs with hfree h1 h2 h3
    · refine ih _ _ (by omega) (h.pass (b := r.isFirst) ?_ ?_)
      · simp [DirEntry.counted, hfree]
      · simp [hfree]
    · refine ih _ _ (by omega) (h.pass ?_ ?_)
      · simp [DirEntry.counted, DirEntry.isDots, h1]
      · simp [hfree, h1]
    · refine ih _ _ (by omega) (h.pass (b := r.isFirst) ?_ ?_)
      · simp [DirEntry.counted, DirEntry.isDots, h2]
      · simp [h1]
    · have hcounted : (ent idx).counted := by
        simp [DirEntry.counted, DirEntry.isDots, hfree, h1, h2]
      have hnone : r.found = none := by
        by_contra hsome
        obtain ⟨j, hj⟩ := Option.ne_none_iff_exists'.mp hsome
        obtain ⟨hlt, hc, hn⟩ := (h.found j).mp hj
        have hij := honce j (by omega) idx (by omega) hc hn hcounted h3
        omega
      rw [ensure_of hnone, ok_bind]
      refine ih _ _ (by omega) (h.count_entry hcounted fun j => ?_)
      rw [hnone, Option.some_inj]
      constructor
      · rintro rfl
        exact .inr ⟨rfl, h3⟩
      · rintro (hj | ⟨rfl, -⟩)
        · cases hj
        · rfl
    · have hcounted : (ent idx).counted := by
        simp [DirEntry.counted, DirEntry.isDots, hfree, h1, h2]
      refine ih _ _ (by omega) (h.count_entry hcounted fun j => ?_)
      constructor
      · exact .inl
      · rintro (hj | ⟨rfl, hj⟩)
        · exact hj
        · exact absurd hj h3

end Scan

section Loop

variable {s t : State} {x y : Inode} {a : InodePtr} {n : UInt32} {k j : ℕ} {c b : Buffer}

theorem counted_iff (hk : k < 140) (hne : x.blockLba s.disk k ≠ 0) (hj : j < 21) :
    (dirEntryAt s.disk (x.blockLba s.disk k) j).counted ∧
      (dirEntryAt s.disk (x.blockLba s.disk k) j).iNo = n ↔ NamesAt s.disk x n k j := by
  simp [DirEntry.counted, NamesAt, LiveAt, hk, hne, hj, and_assoc]

/-- The scan of block `k` of the directory. -/
theorem scanBlock (h : TidyDir s x) (n : UInt32) (hk : k < 140) (hne : x.blockLba s.disk k ≠ 0)
    (m : Image) : ∃ r, Scanned (dirEntryAt s.disk (x.blockLba s.disk k)) n 21 r ∧
      scanSector (overlay m 0 512 (slice s.disk (512 * (x.blockLba s.disk k).toNat))) n 21 0
        ⟨false, 0, none⟩ = .ok r := by
  obtain ⟨r, hscan, hr⟩ := scanSector_spec (n := n) (fun j hj => dirEntry_read (m := m) hj)
    (fun i hi l hl hci hni hcl hnl => (h.once n k i k l
      ((counted_iff hk hne hi).mp ⟨hci, hni⟩) ((counted_iff hk hne hl).mp ⟨hcl, hnl⟩)).2)
    21 0 _ rfl scanned_start
  exact ⟨r, hr, hscan⟩

/-- In block `k` the scan finds place `j` if it has the number, and knows whether the
entry is alone there. -/
theorem Scanned.at_block {r : SectorScan} (h : TidyDir s x)
    (hr : Scanned (dirEntryAt s.disk (x.blockLba s.disk k)) n 21 r)
    (hj : NamesAt s.disk x n k j) : r.found = some j ∧
      ((r.count = 1 && !r.isFirst) = true ↔ k ≠ 0 ∧ AloneAt s.disk x k j) := by
  obtain ⟨hlive, hdots, hno⟩ := hj
  have hcounted := (counted_iff hlive.1 hlive.2.2.1 hlive.2.1).mpr ⟨hlive, hdots, hno⟩
  refine ⟨(hr.found j).mpr ⟨hlive.2.1, hcounted⟩, ?_⟩
  have hfirst : r.isFirst = true ↔ k = 0 := by
    rw [hr.first]
    constructor
    · rintro ⟨i, hi, htype, hnamed⟩
      exact h.dots_first k i ⟨hlive.1, hi, hlive.2.2.1, htype⟩ (by simp [DirEntry.isDots, hnamed])
    · rintro rfl
      obtain ⟨i, hi, hnamed⟩ := h.dot_first
      exact ⟨i, hi.2.1, hi.2.2.2, hnamed⟩
  rw [Bool.and_eq_true, decide_eq_true_iff, Bool.not_eq_true', ← Bool.not_eq_true, hfirst, hr.count,
    and_comm, and_congr_right_iff]
  intro hk
  have hall : ∀ i, LiveAt s.disk x k i →
      (dirEntryAt s.disk (x.blockLba s.disk k) i).counted = true := by
    intro i hi
    have hnot : (dirEntryAt s.disk (x.blockLba s.disk k) i).isDots ≠ true :=
      fun hd => hk (h.dots_first k i hi hd)
    simp [DirEntry.counted, hi.2.2.2, hnot]
  constructor
  · intro hcard i hi
    obtain ⟨l, hl⟩ := Finset.card_eq_one.mp hcard
    have hmem : ∀ i, LiveAt s.disk x k i → i = l := fun i hi => Finset.mem_singleton.mp
      (hl ▸ Finset.mem_filter.mpr ⟨Finset.mem_range.mpr hi.2.1, hall i hi⟩)
    rw [hmem i hi, hmem j hlive]
  · intro halone
    rw [Finset.card_eq_one]
    refine ⟨j, Finset.eq_singleton_iff_unique_mem.mpr ⟨?_, fun i hi => ?_⟩⟩
    · exact Finset.mem_filter.mpr ⟨Finset.mem_range.mpr hlive.2.1, hcounted.1⟩
    · obtain ⟨hi, hcount⟩ := Finset.mem_filter.mp hi
      rw [DirEntry.counted, Bool.and_eq_true, decide_eq_true_iff] at hcount
      exact halone i ⟨hlive.1, Finset.mem_range.mp hi, hlive.2.2.1, hcount.1⟩

/-- The blocks before the one that has the number are read and left alone. -/
theorem deleteLoop_skip (h : TidyDir s x) (hc : c.size = 560)
    (hwords : ∀ k < 140, wordAt c.bytes (4 * k) = x.blockLba s.disk k) (hb : 1024 ≤ b.size)
    (hk : k ≤ 140) (hnone : ∀ i < k, ∀ l, ¬ NamesAt s.disk x n i l) :
    ∃ b', 1024 ≤ b'.size ∧
      deleteLoop a n c 140 0 b s = deleteLoop a n c (140 - k) k b' s := by
  induction k with
  | zero => exact ⟨b, hb, rfl⟩
  | succ k ih =>
    obtain ⟨b', hb', hloop⟩ := ih (by omega) fun i hi => hnone i (by omega)
    have hword : c.word k = .ok (x.blockLba s.disk k) := by
      rw [Buffer.word_of_le (by omega), hwords k (by omega)]
    rw [hloop, show 140 - k = 140 - (k + 1) + 1 by omega, deleteLoop, hword, ok_bind]
    by_cases hzero : x.blockLba s.disk k = 0
    · exact ⟨b', hb', by rw [if_pos hzero]⟩
    have hread : ideRead s (x.blockLba s.disk k).toNat (b'.put 0 512 zeros) 0 1 = _ :=
      ideRead_of_le (h.block_used k hzero).le_max Nat.one_pos (by rw [Buffer.put_size]; omega)
    obtain ⟨r, hr, hscan⟩ := scanBlock h n (by omega) hzero (b'.put 0 512 zeros).bytes
    have hfound : r.found = none := by
      by_contra hsome
      obtain ⟨l, hl⟩ := Option.ne_none_iff_exists'.mp hsome
      obtain ⟨hlt, hmatch⟩ := (hr.found l).mp hl
      exact hnone k (by omega) l ((counted_iff (by omega) hzero hlt).mp hmatch)
    refine ⟨(b'.put 0 512 zeros).put 0 512 (slice s.disk (512 * (x.blockLba s.disk k).toNat)),
      hb', ?_⟩
    rw [if_neg hzero, Buffer.copy_of_le (by omega), ok_bind, hread, ok_bind,
      s.part.dirEntrySize_eq, Nat.mul_one, Buffer.put_bytes, hscan, ok_bind, hfound]

/-- The loop at the block that has the number. -/
theorem deleteLoop_found (h : TidyDir s x) (hc : c.size = 560)
    (hwords : ∀ k < 140, wordAt c.bytes (4 * k) = x.blockLba s.disk k) (hb : 1024 ≤ b.size)
    (hj : NamesAt s.disk x n k j) : ∃ (b' : Buffer) (alone : Bool), 1024 ≤ b'.size ∧
      (alone = true ↔ k ≠ 0 ∧ AloneAt s.disk x k j) ∧
      deleteLoop a n c 140 0 b s = (removeEntry s a k j (x.blockLba s.disk k) alone
        (b'.put 0 512 (slice s.disk (512 * (x.blockLba s.disk k).toNat))) >>=
          fun t => .ok (true, t)) := by
  have hk := hj.1.1
  have hne := hj.1.2.2.1
  have hbefore : ∀ i < k, ∀ l, ¬ NamesAt s.disk x n i l := by
    intro i hi l hl
    have hik := (h.once n i l k j hl hj).1
    omega
  obtain ⟨b', hb', hloop⟩ := deleteLoop_skip (a := a) h hc hwords hb (by omega) hbefore
  have hword : c.word k = .ok (x.blockLba s.disk k) := by
    rw [Buffer.word_of_le (by omega), hwords k hk]
  have hread : ideRead s (x.blockLba s.disk k).toNat (b'.put 0 512 zeros) 0 1 = _ :=
    ideRead_of_le (h.block_used k hne).le_max Nat.one_pos (by rw [Buffer.put_size]; omega)
  obtain ⟨r, hr, hscan⟩ := scanBlock h n hk hne (b'.put 0 512 zeros).bytes
  obtain ⟨hfound, halone⟩ := hr.at_block h hj
  refine ⟨b'.put 0 512 zeros, _, hb', halone, ?_⟩
  rw [hloop, show 140 - k = 140 - (k + 1) + 1 by omega, deleteLoop, hword, ok_bind, if_neg hne,
    Buffer.copy_of_le (by omega), ok_bind, hread, ok_bind, s.part.dirEntrySize_eq, Nat.mul_one,
    Buffer.put_bytes, hscan, ok_bind, hfound]

end Loop

section Erase

variable {s u : State} {x y : Inode} {a : InodePtr} {n : UInt32} {k j : ℕ} {b : Buffer}

/-- One entry fewer. -/
def Inode.shrink (x : Inode) : Inode := { x with iSize := x.iSize - UInt32.ofNat direntSize }

@[simp] theorem Inode.sector_shrink (x : Inode) (k : ℕ) : x.shrink.sector k = x.sector k := rfl

theorem shrink_size (h : direntSize ≤ x.iSize.toNat) :
    x.shrink.iSize.toNat + direntSize = x.iSize.toNat := by
  have hle : UInt32.ofNat direntSize ≤ x.iSize := h
  change (x.iSize - UInt32.ofNat direntSize).toNat + direntSize = x.iSize.toNat
  rw [UInt32.toNat_sub_of_le _ _ hle]
  exact Nat.sub_add_cancel h

/-- Writing an inode back touches no data block. -/
theorem setRecord_kept (s : State) {m : ℕ} (hm : m < 4096) (r : Image) :
    SectorsKept s.part.dataStartLba ∅ s.disk (s.setRecord m r).disk := by
  have h1 := s.part.dataStartLba_eq
  have h2 := s.part.inodeTableSects_eq
  refine sectorsKept_below ?_
  unfold inodeSize
  omega

/-- After the entry is erased the inode gets its new size and goes to disk. -/
theorem removeEntry_of {alone : Bool} {lba : UInt32}
    (herase : eraseEntry s a k j lba alone b = .ok u) (hpart : u.part = s.part)
    (hy : u.inodes a = some y) (hsize : direntSize ≤ y.iSize.toNat) (hb : 1024 ≤ b.size) :
    ∃ t, removeEntry s a k j lba alone b = .ok t ∧ t.inodes a = some y.shrink ∧
      t.blockBitmap = u.blockBitmap ∧ SectorsKept s.part.dataStartLba ∅ u.disk t.disk := by
  have hentry : u.part.dirEntrySize = direntSize := u.part.dirEntrySize_eq
  have hsectors : 512 * sectorsOf (y.shrink.iNo.toNat % 256) ≤ (b.put 0 1024 zeros).size := by
    rw [Buffer.put_size]
    unfold sectorsOf
    split_ifs <;> omega
  have hsync := inodeSync_eq (s := u.setInode a y.shrink) hsectors
  have hmod : y.shrink.iNo.toNat % 256 < 4096 := by omega
  have hkept := setRecord_kept (u.setInode a y.shrink) hmod y.shrink.pure.bytes
  rw [setInode_part, hpart] at hkept
  refine ⟨(u.setInode a y.shrink).setRecord (y.shrink.iNo.toNat % 256) y.shrink.pure.bytes, ?_,
    setInode_inodes_self .., rfl, hkept⟩
  rw [removeEntry, herase, ok_bind, hy, deref_some, ok_bind, hentry, ensure_of hsize, ok_bind,
    Buffer.copy_of_le (by omega), ok_bind]
  exact hsync

/-- The entry is cleared in its sector. -/
theorem eraseEntry_clear {lba : UInt32} (hlba : lba.toNat ≤ maxLba) (hj : j < 21)
    (hb : 1024 ≤ b.size) :
    eraseEntry s a k j lba false (b.put 0 512 (slice s.disk (512 * lba.toNat))) =
      .ok (s.setDisk (overlay s.disk (512 * lba.toNat + direntSize * j) direntSize zeros)) := by
  have hoff : direntSize * j + direntSize ≤ 512 := by
    unfold direntSize
    omega
  have hwrite : ideWrite s lba.toNat ((b.put 0 512 (slice s.disk (512 * lba.toNat))).put
      (direntSize * j) direntSize zeros) 0 1 = _ :=
    ideWrite_patched (k := 1) hlba Nat.one_pos hoff (by omega)
  rw [eraseEntry, if_neg Bool.false_ne_true, s.part.dirEntrySize_eq,
    Buffer.copy_of_le (by rw [Buffer.put_size]; unfold direntSize at hoff ⊢; omega), ok_bind]
  exact hwrite

/-- A block is given back. -/
theorem freeBlock_eq (hm : Mounted s) {lba : UInt32} (hused : UsedBlock s lba)
    (hin : lba.toNat - s.part.dataStartLba < 8 * s.blockBitmap.btmpBytesLen) :
    ∃ d, freeBlock s lba = .ok { s with
        disk := d
        blockBitmap := bitmapSet s.blockBitmap (lba.toNat - s.part.dataStartLba) false } ∧
      SectorsKept s.part.dataStartLba ∅ s.disk d := by
  have hstart : (UInt32.ofNat s.part.dataStartLba).toNat = s.part.dataStartLba := by
    have hmax := hused.start_le.trans hused.le_max
    rw [UInt32.toNat_ofNat']
    unfold maxLba at hmax
    omega
  have hidx : (lba - UInt32.ofNat s.part.dataStartLba).toNat =
      lba.toNat - s.part.dataStartLba := by
    rw [UInt32.toNat_sub_of_le _ _ (UInt32.le_iff_toNat_le.mpr (hstart.symm ▸ hused.start_le)),
      hstart]
  have hclear : Mounted { s with
      blockBitmap := bitmapSet s.blockBitmap (lba.toNat - s.part.dataStartLba) false } :=
    { blockLen := hm.blockLen
      inodeLen := hm.inodeLen
      free_le := by
        intro i hi
        obtain ⟨hlt, hbit⟩ := (Bitmap.mem_free _ _).mp hi
        rw [bitmapScanTest_set] at hbit
        by_cases h : lba.toNat - s.part.dataStartLba = i
        · have hle := hused.start_le
          have hmax := hused.le_max
          change s.part.dataStartLba + i ≤ maxLba
          omega
        · rw [if_neg h] at hbit
          exact hm.free_le i ((Bitmap.mem_free _ _).mpr ⟨hlt, hbit⟩) }
  obtain ⟨d, hsync, hkept⟩ := bitmapSync_block hclear
    (i := lba.toNat - s.part.dataStartLba) hin
  refine ⟨d, ?_, hkept⟩
  rw [freeBlock, hidx]
  exact hsync

end Erase

section Deleted

variable {s t : State} {x y : Inode} {a : InodePtr} {n : UInt32} {k j : ℕ} {b : Buffer}
  {d d' : Image} {e : DirEntry}

theorem mem_liveEntries : e ∈ liveEntries d x ↔
    ∃ k j, LiveAt d x k j ∧ dirEntryAt d (x.blockLba d k) j = e := by
  constructor
  · rintro ⟨htype, k, hk, hne, j, hj, rfl⟩
    exact ⟨k, j, ⟨hk, hj, hne, htype⟩, rfl⟩
  · rintro ⟨k, j, ⟨hk, hj, hne, htype⟩, rfl⟩
    exact ⟨htype, k, hk, hne, j, hj, rfl⟩

/-- Where one place is emptied and the others are kept, its entry alone is gone. -/
theorem liveEntries_delete (h : TidyDir s x) (hj : NamesAt s.disk x n k j)
    (hplaces : ∀ l i, LiveAt d' y l i ↔ LiveAt s.disk x l i ∧ ¬ (l = k ∧ i = j))
    (hsame : ∀ l i, LiveAt d' y l i →
      dirEntryAt d' (y.blockLba d' l) i = dirEntryAt s.disk (x.blockLba s.disk l) i) :
    liveEntries d' y = liveEntries s.disk x \ {dirEntryAt s.disk (x.blockLba s.disk k) j} := by
  ext e
  rw [Set.mem_sdiff, Set.mem_singleton_iff, mem_liveEntries, mem_liveEntries]
  constructor
  · rintro ⟨l, i, hlive, rfl⟩
    obtain ⟨hold, hne⟩ := (hplaces l i).mp hlive
    rw [hsame l i hlive]
    refine ⟨⟨l, i, hold, rfl⟩, fun heq => hne ?_⟩
    exact h.once n l i k j ⟨hold, by rw [heq]; exact hj.2.1, by rw [heq]; exact hj.2.2⟩ hj
  · rintro ⟨⟨l, i, hold, rfl⟩, hne⟩
    have hlive := (hplaces l i).mpr ⟨hold, fun ⟨hl, hi⟩ => hne (by rw [hl, hi])⟩
    exact ⟨l, i, hlive, hsame l i hlive⟩

theorem TidyDir.size_le_entry (h : TidyDir s x) (hj : LiveAt s.disk x k j) :
    direntSize ≤ x.iSize.toNat := by
  rw [h.size_eq]
  refine Nat.le_mul_of_pos_right _ (Finset.card_pos.mpr ⟨(k, j), ?_⟩)
  simp [hj, hj.1, hj.2.1]

/-- Clearing the entry in its sector. -/
theorem clear_deleted (h : TidyDir s x) (hj : NamesAt s.disk x n k j)
    (hkeep : ¬ (k ≠ 0 ∧ AloneAt s.disk x k j)) (hb : 1024 ≤ b.size)
    (hx : s.inodes a = some x) : ∃ t y,
      removeEntry s a k j (x.blockLba s.disk k) false
        (b.put 0 512 (slice s.disk (512 * (x.blockLba s.disk k).toNat))) = .ok t ∧
      t.inodes a = some y ∧ EntryDeleted s t x y k j := by
  obtain ⟨hlive, -, -⟩ := id hj
  have hne := hlive.2.2.1
  have hused := h.block_used k hne
  have herase := eraseEntry_clear (s := s) (a := a) (k := k) hused.le_max hlive.2.1 hb
  have hsize := h.size_le_entry hlive
  obtain ⟨t, ht, hy, hbits, hkept⟩ := removeEntry_of herase rfl hx hsize hb
  rw [setDisk_disk] at hkept
  set d := overlay s.disk (512 * (x.blockLba s.disk k).toNat + direntSize * j) direntSize zeros
    with hd
  have hj21 := hlive.2.1
  have hpatch : SectorsKept s.part.dataStartLba {(x.blockLba s.disk k).toNat} s.disk d :=
    sectorsKept_patch (by unfold direntSize; omega) (Finset.mem_singleton_self _)
  have hall : SectorsKept s.part.dataStartLba {(x.blockLba s.disk k).toNat} s.disk t.disk :=
    hpatch.trans (hkept.mono (Finset.empty_subset _))
  have hblocks : ∀ l, x.shrink.blockLba t.disk l = x.blockLba s.disk l := by
    intro l
    refine hall.blockLba (fun htable => ⟨(h.table_used htable).start_le, ?_⟩) l
    rw [Finset.mem_singleton, UInt32.toNat_inj]
    exact (h.block_apart k hne).symm
  have hgone : (dirEntryAt t.disk (x.blockLba s.disk k) j).fType = ftUnknown := by
    have hzero : dirEntryAt d (x.blockLba s.disk k) j = DirEntry.ofBytes zeros := by
      refine DirEntry.ofBytes_congr fun i hi => ?_
      rw [slice_apply, hd, overlay_at hi]
    rw [dirEntryAt_kept hkept hused.start_le (Finset.notMem_empty _) hlive.2.1, hzero]
    rfl
  have hothers : ∀ l i, x.blockLba s.disk l ≠ 0 → i < 21 → ¬ (l = k ∧ i = j) →
      dirEntryAt t.disk (x.blockLba s.disk l) i = dirEntryAt s.disk (x.blockLba s.disk l) i := by
    intro l i hl hi hother
    rw [dirEntryAt_kept hkept (h.block_used l hl).start_le (Finset.notMem_empty _) hi]
    by_cases hlk : l = k
    · refine dirEntryAt_congr fun m hm => overlay_outside ?_
      rw [hlk]
      have hij : i ≠ j := fun hij => hother ⟨hlk, hij⟩
      unfold direntSize at hm ⊢
      omega
    · refine h.entries_kept hpatch hl (fun hmem => hlk ?_) hi
      rw [Finset.mem_singleton, UInt32.toNat_inj] at hmem
      exact h.block_inj l k hl hmem
  refine ⟨t, x.shrink, ht, hy, ?_, shrink_size hsize, ?_⟩
  · refine liveEntries_delete h hj (fun l i => ?_) (fun l i hlive' => ?_)
    · unfold LiveAt
      rw [hblocks]
      constructor
      · rintro ⟨hl, hi, hbl, htype⟩
        have hother : ¬ (l = k ∧ i = j) := by
          rintro ⟨rfl, rfl⟩
          exact htype hgone
        rw [hothers l i hbl hi hother] at htype
        exact ⟨⟨hl, hi, hbl, htype⟩, hother⟩
      · rintro ⟨⟨hl, hi, hbl, htype⟩, hother⟩
        rw [hothers l i hbl hi hother]
        exact ⟨hl, hi, hbl, htype⟩
    · obtain ⟨-, hi, hbl, htype⟩ := hlive'
      rw [hblocks] at hbl htype ⊢
      refine hothers l i hbl hi ?_
      rintro ⟨rfl, rfl⟩
      exact htype hgone
  · intro c _
    rw [hbits]
    refine ⟨.inl, fun hor => hor.resolve_right fun hfree => hkeep ⟨hfree.1, hfree.2.1⟩⟩

/-- Giving back a direct block that held one entry. -/
theorem drop_deleted (hm : Mounted s) (h : TidyDir s x) (hj : NamesAt s.disk x n k j)
    (hk : k ≠ 0) (halone : AloneAt s.disk x k j) (hdirect : k < 12) (hb : 1024 ≤ b.size)
    (hx : s.inodes a = some x) : ∃ t y,
      removeEntry s a k j (x.blockLba s.disk k) true b = .ok t ∧
      t.inodes a = some y ∧ EntryDeleted s t x y k j := by
  obtain ⟨hlive, -, -⟩ := id hj
  have hne := hlive.2.2.1
  have hused := h.block_used k hne
  obtain ⟨d, hfree, hd⟩ := freeBlock_eq hm hused (h.in_bitmap k hne)
  have herase : eraseEntry s a k j (x.blockLba s.disk k) true b =
      .ok (State.setInode { s with
        disk := d
        blockBitmap := bitmapSet s.blockBitmap
          ((x.blockLba s.disk k).toNat - s.part.dataStartLba) false } a (x.setSector k 0)) := by
    rw [eraseEntry, if_pos rfl, dropDirBlock, hfree, ok_bind, if_pos hdirect, hx, deref_some,
      ok_bind]
  obtain ⟨t, ht, hy, hbits, hkept⟩ :=
    removeEntry_of herase rfl (setInode_inodes_self ..) (h.size_le_entry hlive) hb
  have hall : SectorsKept s.part.dataStartLba ∅ s.disk t.disk := hd.trans hkept
  set y := (x.setSector k 0).shrink with hyd
  have hsector : ∀ l, y.sector l = if l = k then 0 else x.sector l := by
    intro l
    rw [hyd, Inode.sector_shrink, Inode.sector_setSector _ _ _ _ (by omega)]
  have hblocks : ∀ l, y.blockLba t.disk l = if l = k then 0 else x.blockLba s.disk l := by
    intro l
    have hold : x.blockLba t.disk l = x.blockLba s.disk l :=
      hall.blockLba (fun htable => ⟨(h.table_used htable).start_le, Finset.notMem_empty _⟩) l
    rw [← hold]
    unfold Inode.blockLba
    rw [hsector, hsector, if_neg (show (12 : ℕ) ≠ k by omega)]
    split_ifs <;> first | rfl | omega
  have hothers : ∀ l i, x.blockLba s.disk l ≠ 0 → i < 21 →
      dirEntryAt t.disk (x.blockLba s.disk l) i = dirEntryAt s.disk (x.blockLba s.disk l) i :=
    fun l i hl hi => h.entries_kept hall hl (Finset.notMem_empty _) hi
  refine ⟨t, y, ht, hy, ?_, shrink_size (h.size_le_entry hlive), ?_⟩
  · refine liveEntries_delete h hj (fun l i => ?_) (fun l i hlive' => ?_)
    · unfold LiveAt
      rw [hblocks]
      split_ifs with hlk
      · subst hlk
        refine iff_of_false (fun hl => hl.2.2.1 rfl) fun hl => hl.2 ⟨rfl, halone i hl.1⟩
      · constructor
        · rintro ⟨hl, hi, hbl, htype⟩
          rw [hothers l i hbl hi] at htype
          exact ⟨⟨hl, hi, hbl, htype⟩, fun hother => hlk hother.1⟩
        · rintro ⟨⟨hl, hi, hbl, htype⟩, -⟩
          rw [hothers l i hbl hi]
          exact ⟨hl, hi, hbl, htype⟩
    · obtain ⟨-, hi, hbl, -⟩ := hlive'
      rw [hblocks] at hbl ⊢
      split_ifs at hbl ⊢ with hlk
      · exact absurd rfl hbl
      · exact hothers l i hbl hi
  · intro c hc
    rw [hbits]
    change bitmapScanTest (bitmapSet s.blockBitmap _ false) _ = false ↔ _
    have hidx : (x.blockLba s.disk k).toNat - s.part.dataStartLba = c.toNat - s.part.dataStartLba ↔
        c = x.blockLba s.disk k := by
      rw [← UInt32.toNat_inj]
      have hle := hused.start_le
      omega
    rw [bitmapScanTest_set]
    split_ifs with hbit
    · exact iff_of_true rfl (.inr ⟨hk, halone, .inl (hidx.mp hbit)⟩)
    · refine ⟨.inl, fun hor => hor.resolve_right ?_⟩
      rintro ⟨-, -, hblk | ⟨-, h12, -⟩⟩
      · exact hbit (hidx.mpr hblk)
      · omega

/-- The block list is what the directory reaches. -/
theorem loadBlocks_words (h : WellFormedDir s x) : ∃ c, loadBlocks s x = .ok c ∧ c.size = 560 ∧
    ∀ k < 140, wordAt c.bytes (4 * k) = x.blockLba s.disk k := by
  have htable : (x.sector 12).toNat ≤ maxLba := by
    by_cases hzero : x.sector 12 = 0
    · rw [hzero]
      exact Nat.zero_le _
    · exact (h.table_used hzero).le_max
  obtain ⟨b, hcopy, hlist⟩ := copyDirect_blockList x
  obtain ⟨c, hload, hsize, hwords⟩ := loadIndirect_words (s := s) hlist htable
  exact ⟨c, by rw [loadBlocks, hcopy, ok_bind, hload], hsize, hwords⟩

variable {pdir : Dir}

/-- A number that no entry has: nothing is changed. -/
theorem deleteDirEntry_none (hx : s.inodes (pdir.inode s) = some x) (h : TidyDir s x)
    (hb : 1024 ≤ b.size) (hnone : ∀ k j, ¬ NamesAt s.disk x n k j) :
    deleteDirEntry s pdir n b = .ok (false, s) := by
  obtain ⟨c, hload, hc, hwords⟩ := loadBlocks_words h.toWellFormedDir
  obtain ⟨b', -, hloop⟩ := deleteLoop_skip (a := pdir.inode s) h hc hwords hb le_rfl
    fun i _ => hnone i
  rw [deleteDirEntry, hx, deref_some, ok_bind, hload, ok_bind, hloop]
  rfl

/-- A number that an entry has is removed at its place. -/
theorem deleteDirEntry_found (hx : s.inodes (pdir.inode s) = some x) (h : TidyDir s x)
    (hb : 1024 ≤ b.size) (hj : NamesAt s.disk x n k j) : ∃ (b' : Buffer) (alone : Bool),
    1024 ≤ b'.size ∧ (alone = true ↔ k ≠ 0 ∧ AloneAt s.disk x k j) ∧
    deleteDirEntry s pdir n b = (removeEntry s (pdir.inode s) k j (x.blockLba s.disk k) alone
      (b'.put 0 512 (slice s.disk (512 * (x.blockLba s.disk k).toNat))) >>=
        fun t => .ok (true, t)) := by
  obtain ⟨c, hload, hc, hwords⟩ := loadBlocks_words h.toWellFormedDir
  obtain ⟨b', alone, hb', halone, hloop⟩ :=
    deleteLoop_found (a := pdir.inode s) h hc hwords hb hj
  exact ⟨b', alone, hb', halone, by
    rw [deleteDirEntry, hx, deref_some, ok_bind, hload, ok_bind, hloop]⟩

/-- Alone in a block of the indirect table: the call never returns. -/
theorem deleteDirEntry_diverges (hm : Mounted s) (hx : s.inodes (pdir.inode s) = some x)
    (h : TidyDir s x) (hb : 1024 ≤ b.size) (hj : NamesAt s.disk x n k j) (hk : 12 ≤ k)
    (halone : AloneAt s.disk x k j) : deleteDirEntry s pdir n b = .error .diverge := by
  obtain ⟨b', alone, -, hal, hdelete⟩ := deleteDirEntry_found hx h hb hj
  obtain rfl : alone = true := hal.mpr ⟨by omega, halone⟩
  have hne := hj.1.2.2.1
  obtain ⟨d, hfree, -⟩ := freeBlock_eq hm (h.block_used k hne) (h.in_bitmap k hne)
  rw [hdelete, removeEntry, eraseEntry, if_pos rfl, dropDirBlock, hfree, ok_bind,
    if_neg (by omega), error_bind, error_bind]

/-- Deleting an inode number from a tidy directory ends and removes exactly its entry, if
and only if the entry is not alone in a block of the indirect table. -/
theorem delete_dir_entry_iff (s : State) (pdir : Dir) (x : Inode) (n : UInt32) (ioBuf : Buffer)
    (hm : Mounted s) (hx : s.inodes (pdir.inode s) = some x) (h : TidyDir s x)
    (hbuf : 1024 ≤ ioBuf.size) : DeletesEntry s pdir x n ioBuf ↔
      ∀ k j, NamesAt s.disk x n k j → 12 ≤ k → ¬ AloneAt s.disk x k j := by
  constructor
  · intro hdel k j hj hk halone
    obtain ⟨t, y, ht, -⟩ := hdel.1 k j hj
    rw [deleteDirEntry_diverges hm hx h hbuf hj hk halone] at ht
    cases ht
  · intro hall
    refine ⟨fun k j hj => ?_, deleteDirEntry_none hx h hbuf⟩
    obtain ⟨b', alone, hb', hal, hdelete⟩ := deleteDirEntry_found hx h hbuf hj
    cases alone with
    | true =>
      obtain ⟨hk, halone⟩ := hal.mp rfl
      have hdirect : k < 12 := Nat.lt_of_not_le fun hge => hall k j hj hge halone
      obtain ⟨t, y, ht, hy, hdeleted⟩ := drop_deleted hm h hj hk halone hdirect
        (b := b'.put 0 512 (slice s.disk (512 * (x.blockLba s.disk k).toNat))) hb' hx
      exact ⟨t, y, by rw [hdelete, ht, ok_bind], hy, hdeleted⟩
    | false =>
      obtain ⟨t, y, ht, hy, hdeleted⟩ := clear_deleted h hj
        (fun halone => Bool.false_ne_true (hal.mpr halone)) hb' hx
      exact ⟨t, y, by rw [hdelete, ht, ok_bind], hy, hdeleted⟩

end Deleted

section Sparse

/-- A name of one character. -/
def shortName (c c' : UInt8) : Vector UInt8 16 :=
  Vector.ofFn fun k => if k.val = 0 then c else if k.val = 1 then c' else 0

/-- `"."`, `".."` and a file in the first block, one more file in a block of the table. -/
def sparseDirDisk : Image :=
  let d := overlay zeros (512 * 612) 24 (DirEntry.bytes ⟨shortName dot 0, 5, ftDirectory⟩)
  let d := overlay d (512 * 612 + 24) 24 (DirEntry.bytes ⟨shortName dot dot, 0, ftDirectory⟩)
  let d := overlay d (512 * 612 + 48) 24 (DirEntry.bytes ⟨shortName 97 0, 8, ftRegular⟩)
  let d := overlay d (512 * 613) 4 (wordByte 614)
  overlay d (512 * 614) 24 (DirEntry.bytes ⟨shortName 98 0, 7, ftRegular⟩)

/-- The directory of these blocks. -/
def sparseDir : Inode where
  iNo := 5
  iSize := 24 * 4
  iOpenCnts := 1
  writeDeny := 0
  iSectors := #v[612, 0, 0, 0, 0, 0, 0, 0, 0, 0, 0, 0, 613]

def sparseDirState : State :=
  { blankState with
    disk := sparseDirDisk
    blockBitmap := ⟨512, fun i => if i = 0 then 0xff else 0⟩
    inodes := fun _ => some sparseDir
    nextInode := 1
    openInodes := [0] }

theorem sparseDir_block (k : ℕ) : sparseDir.blockLba sparseDirDisk k =
    if k = 0 then 612 else if k = 12 then 614 else 0 := by
  unfold Inode.blockLba
  by_cases hk : k < 140
  · interval_cases k <;> decide
  · rw [if_neg (by omega), if_neg (by omega), if_neg (by omega), if_neg (by omega)]

/-- What the 21 places of the two blocks hold. -/
theorem sparseDir_places : ∀ j < 21,
    ((dirEntryAt sparseDirDisk 612 j).fType ≠ ftUnknown ↔ j < 3) ∧
    ((dirEntryAt sparseDirDisk 614 j).fType ≠ ftUnknown ↔ j = 0) ∧
    ((dirEntryAt sparseDirDisk 612 j).isDots = true ↔ j < 2) ∧
    (dirEntryAt sparseDirDisk 614 j).isDots = false := by
  decide

theorem sparseDir_live (k j : ℕ) : LiveAt sparseDirDisk sparseDir k j ↔
    k = 0 ∧ j < 3 ∨ k = 12 ∧ j = 0 := by
  unfold LiveAt
  rw [sparseDir_block]
  split_ifs with h0 h12
  · constructor
    · rintro ⟨-, hj, -, htype⟩
      exact .inl ⟨h0, (sparseDir_places j hj).1.mp htype⟩
    · rintro (⟨-, hj⟩ | ⟨h12, -⟩)
      · exact ⟨by omega, by omega, by decide, (sparseDir_places j (by omega)).1.mpr hj⟩
      · omega
  · constructor
    · rintro ⟨-, hj, -, htype⟩
      exact .inr ⟨h12, (sparseDir_places j hj).2.1.mp htype⟩
    · rintro (⟨h0', -⟩ | ⟨-, hj⟩)
      · omega
      · exact ⟨by omega, by omega, by decide, (sparseDir_places j (by omega)).2.1.mpr hj⟩
  · exact iff_of_false (fun h => h.2.2.1 rfl) (by omega)

/-- The two files. -/
theorem sparseDir_names {n : UInt32} {k j : ℕ} (h : NamesAt sparseDirDisk sparseDir n k j) :
    n = 8 ∧ k = 0 ∧ j = 2 ∨ n = 7 ∧ k = 12 ∧ j = 0 := by
  obtain ⟨hlive, hdots, hno⟩ := h
  rw [sparseDir_block] at hdots hno
  obtain ⟨rfl, hj⟩ | ⟨rfl, rfl⟩ := (sparseDir_live k j).mp hlive
  · rw [if_pos rfl] at hdots hno
    have hj2 : j = 2 := by
      by_contra hne
      rw [(sparseDir_places j (by omega)).2.2.1.mpr (by omega)] at hdots
      cases hdots
    subst hj2
    exact .inl ⟨hno.symm.trans (by decide), rfl, rfl⟩
  · rw [if_neg (by omega), if_pos rfl] at hno
    exact .inr ⟨hno.symm.trans (by decide), rfl, rfl⟩

theorem sparseDir_used {b : UInt32} (h : 612 ≤ b.toNat) (h' : b.toNat < 615) :
    UsedBlock sparseDirState b where
  start_le := h
  le_max := by
    unfold maxLba
    omega
  used := by
    change bitmapScanTest ⟨512, fun i => if i = 0 then 0xff else 0⟩ (b.toNat - 612) = true
    obtain ⟨k, hk, hb⟩ : ∃ k < 3, b.toNat - 612 = k := ⟨_, by omega, rfl⟩
    rw [hb]
    interval_cases k <;> rfl

theorem sparseDir_ne {k : ℕ} (h : sparseDir.blockLba sparseDirDisk k ≠ 0) :
    sparseDir.blockLba sparseDirDisk k = 612 ∧ k = 0 ∨
      sparseDir.blockLba sparseDirDisk k = 614 ∧ k = 12 := by
  rw [sparseDir_block] at h ⊢
  split_ifs at h ⊢ with h0 h12
  · exact .inl ⟨rfl, h0⟩
  · exact .inr ⟨rfl, h12⟩
  · exact absurd rfl h

theorem sparseDir_tidy : TidyDir sparseDirState sparseDir where
  size_dvd := rfl
  size_le := by decide
  table_used := fun _ => sparseDir_used (by decide) (by decide)
  block_used := by
    intro k hk
    change UsedBlock _ (sparseDir.blockLba sparseDirDisk k)
    obtain ⟨hb, -⟩ | ⟨hb, -⟩ := sparseDir_ne hk <;> rw [hb]
    · exact sparseDir_used (by decide) (by decide)
    · exact sparseDir_used (by decide) (by decide)
  block_apart := by
    intro k hk
    change sparseDir.blockLba sparseDirDisk k ≠ _
    obtain ⟨hb, -⟩ | ⟨hb, -⟩ := sparseDir_ne hk <;> rw [hb] <;> decide
  in_bitmap := by
    intro k hk
    change (sparseDir.blockLba sparseDirDisk k).toNat - 612 < 8 * 512
    obtain ⟨hb, -⟩ | ⟨hb, -⟩ := sparseDir_ne hk <;> rw [hb] <;> decide
  block_inj := by
    intro k k' hk heq
    change sparseDir.blockLba sparseDirDisk k = sparseDir.blockLba sparseDirDisk k' at heq
    have hk' : sparseDir.blockLba sparseDirDisk k' ≠ 0 := heq ▸ hk
    obtain ⟨hb, h⟩ | ⟨hb, h⟩ := sparseDir_ne hk <;>
      obtain ⟨hb', h'⟩ | ⟨hb', h'⟩ := sparseDir_ne hk' <;> rw [hb, hb'] at heq
    · rw [h, h']
    · exact absurd heq (by decide)
    · exact absurd heq (by decide)
    · rw [h, h']
  dot_first := ⟨0, (sparseDir_live 0 0).mpr (.inl ⟨rfl, by omega⟩), by decide⟩
  dots_first := by
    intro k j hlive hdots
    obtain ⟨rfl, -⟩ | ⟨rfl, rfl⟩ := (sparseDir_live k j).mp hlive
    · rfl
    · change (dirEntryAt sparseDirDisk (sparseDir.blockLba sparseDirDisk 12) 0).isDots = true at hdots
      rw [sparseDir_block, if_neg (by omega), if_pos rfl, (sparseDir_places 0 (by omega)).2.2.2]
        at hdots
      cases hdots
  once := by
    intro n k j k' j' h h'
    obtain ⟨hn, hk, hj⟩ | ⟨hn, hk, hj⟩ := sparseDir_names h <;>
      obtain ⟨hn', hk', hj'⟩ | ⟨hn', hk', hj'⟩ := sparseDir_names h' <;> rw [hn] at hn'
    · exact ⟨hk.trans hk'.symm, hj.trans hj'.symm⟩
    · exact absurd hn' (by decide)
    · exact absurd hn' (by decide)
    · exact ⟨hk.trans hk'.symm, hj.trans hj'.symm⟩
  size_eq := by
    have hplaces : ((Finset.range 140 ×ˢ Finset.range 21).filter fun p =>
        LiveAt sparseDirState.disk sparseDir p.1 p.2) = {(0, 0), (0, 1), (0, 2), (12, 0)} := by
      ext ⟨k, j⟩
      have hlive := sparseDir_live k j
      change LiveAt sparseDirState.disk sparseDir k j ↔ _ at hlive
      simp only [Finset.mem_filter, Finset.mem_product, Finset.mem_range, Finset.mem_insert,
        Finset.mem_singleton, Prod.mk.injEq, hlive]
      omega
    rw [hplaces]
    rfl

theorem sparseDir_mounted : Mounted sparseDirState where
  blockLen := rfl
  inodeLen := rfl
  free_le := by
    intro i hi
    have hlt : i < 8 * 512 := ((Bitmap.mem_free _ _).mp hi).1
    change 612 + i ≤ maxLba
    unfold maxLba
    omega

/-- The file in the first block is deleted. -/
theorem delete_dir_entry_first : DeletesEntry sparseDirState .root sparseDir 8 ⟨1024, zeros⟩ := by
  refine (delete_dir_entry_iff sparseDirState .root sparseDir 8 ⟨1024, zeros⟩ sparseDir_mounted rfl
    sparseDir_tidy le_rfl).mpr fun k j hj hk => ?_
  obtain ⟨-, h0, -⟩ | ⟨h8, -⟩ := sparseDir_names hj
  · omega
  · exact absurd h8 (by decide)

/-- The file in the block of the table is alone there: deleting it does not end. -/
theorem delete_dir_entry_hangs : Mounted sparseDirState ∧ TidyDir sparseDirState sparseDir ∧
    deleteDirEntry sparseDirState .root 7 ⟨1024, zeros⟩ = .error .diverge ∧
    ¬ DeletesEntry sparseDirState .root sparseDir 7 ⟨1024, zeros⟩ := by
  have hj : NamesAt sparseDirState.disk sparseDir 7 12 0 :=
    ⟨(sparseDir_live 12 0).mpr (.inr ⟨rfl, rfl⟩), by decide, by decide⟩
  have halone : AloneAt sparseDirState.disk sparseDir 12 0 := by
    intro l hl
    obtain ⟨h, -⟩ | ⟨-, h⟩ := (sparseDir_live 12 l).mp hl
    · omega
    · exact h
  have hhang : deleteDirEntry sparseDirState .root 7 ⟨1024, zeros⟩ = .error .diverge :=
    deleteDirEntry_diverges sparseDir_mounted rfl sparseDir_tidy le_rfl hj le_rfl halone
  refine ⟨sparseDir_mounted, sparseDir_tidy, hhang, fun hdel => ?_⟩
  obtain ⟨t, y, ht, -⟩ := hdel.1 12 0 hj
  rw [hhang] at ht
  cases ht

end Sparse

end X86System.FileSystem
