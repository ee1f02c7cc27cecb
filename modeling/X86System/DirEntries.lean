import X86System.Directory

/-!
# Adding a directory entry

What a directory holds is the set of live entries in the blocks its inode reaches.
`sync_dir_entry` puts the new entry into the first free place of the direct blocks,
into a new direct block, or into the first block of a new indirect table. It never
reads the table that is there, so a directory that has one loses it.
-/
namespace X86System.FileSystem
open Bytes Exec

/-- Entry `j` of the sector at `lba`. -/
def dirEntryAt (disk : Image) (lba : UInt32) (j : ℕ) : DirEntry :=
  DirEntry.ofBytes (slice disk (512 * lba.toNat + direntSize * j))

/-- The live entries that the inode reaches. -/
def liveEntries (disk : Image) (x : Inode) : Set DirEntry :=
  { e | e.fType ≠ ftUnknown ∧ ∃ k < 140, x.blockLba disk k ≠ 0 ∧
    ∃ j < 21, dirEntryAt disk (x.blockLba disk k) j = e }

/-- The blocks that belong to the directory, its indirect table among them. -/
def dirBlocks (disk : Image) (x : Inode) : Set UInt32 :=
  { b | b ≠ 0 ∧ (b = x.sector 12 ∨ ∃ k < 140, x.blockLba disk k = b) }

/-- Every entry of the block is live. -/
def FullBlock (disk : Image) (lba : UInt32) : Prop :=
  ∀ j < 21, (dirEntryAt disk lba j).fType ≠ ftUnknown

/-- A directory whose blocks are in use and apart from its table. -/
structure WellFormedDir (s : State) (x : Inode) : Prop where
  size_dvd : x.iSize.toNat % direntSize = 0
  size_le : x.iSize.toNat ≤ 140 * 512
  table_used : x.sector 12 ≠ 0 → UsedBlock s (x.sector 12)
  block_used : ∀ k, x.blockLba s.disk k ≠ 0 → UsedBlock s (x.blockLba s.disk k)
  block_apart : ∀ k, x.blockLba s.disk k ≠ 0 → x.blockLba s.disk k ≠ x.sector 12

/-- The entry was added and nothing was lost. -/
structure EntryAdded (d d' : Image) (x y : Inode) (e : DirEntry) : Prop where
  entries : liveEntries d' y = insert e (liveEntries d x)
  size : y.iSize.toNat = x.iSize.toNat + direntSize
  blocks : dirBlocks d x ⊆ dirBlocks d' y

/-- One entry more. -/
def Inode.grow (x : Inode) : Inode := { x with iSize := x.iSize + UInt32.ofNat direntSize }

@[simp] theorem Inode.sector_grow (x : Inode) (k : ℕ) : x.grow.sector k = x.sector k := rfl

section Entries

variable {d d' : Image} {x y : Inode} {e : DirEntry}

theorem DirEntry.ofBytes_congr {r r' : Image} (h : ∀ i < direntSize, r i = r' i) :
    DirEntry.ofBytes r = DirEntry.ofBytes r' := by
  unfold direntSize at h
  unfold DirEntry.ofBytes
  rw [wordAt_congr fun i hi => h (16 + i) (by omega), wordAt_congr fun i hi => h (20 + i) (by omega)]
  congr 2
  funext k
  exact h k (by omega)

/-- Reading back an entry that was written. -/
theorem DirEntry.ofBytes_bytes (e : DirEntry) : DirEntry.ofBytes e.bytes = e := by
  have hno : wordAt e.bytes 16 = e.iNo := by
    apply wordAt_of_bytes
    intro k hk
    rw [DirEntry.bytes, dif_neg (by omega), if_pos (by omega), Nat.add_sub_cancel_left]
  have htype : wordAt e.bytes 20 = e.fType := by
    apply wordAt_of_bytes
    intro k hk
    rw [DirEntry.bytes, dif_neg (by omega), if_neg (by omega), Nat.add_sub_cancel_left]
  have hname : Vector.ofFn (fun k : Fin 16 => e.bytes k) = e.filename := by
    ext k hk
    simp [DirEntry.bytes]
  rw [DirEntry.ofBytes, hno, htype, hname]

theorem dirEntryAt_congr {b : UInt32} {j : ℕ}
    (h : ∀ i < direntSize, d' (512 * b.toNat + direntSize * j + i) =
      d (512 * b.toNat + direntSize * j + i)) : dirEntryAt d' b j = dirEntryAt d b j :=
  DirEntry.ofBytes_congr h

theorem dirEntryAt_kept {start : ℕ} {B : Finset ℕ} (h : SectorsKept start B d d') {b : UInt32}
    (hb : start ≤ b.toNat) (hB : b.toNat ∉ B) {j : ℕ} (hj : j < 21) :
    dirEntryAt d' b j = dirEntryAt d b j := by
  apply dirEntryAt_congr
  intro i hi
  rw [Nat.add_assoc]
  exact h _ hb hB _ (by unfold direntSize at hi ⊢; omega)

/-- Filling a free place among the blocks that are there. -/
theorem liveEntries_fill (k₀ j₀ : ℕ) (he : e.fType ≠ ftUnknown)
    (hblocks : ∀ k, y.blockLba d' k = x.blockLba d k) (hk₀ : k₀ < 140) (hj₀ : j₀ < 21)
    (hne : x.blockLba d k₀ ≠ 0)
    (hfree : (dirEntryAt d (x.blockLba d k₀) j₀).fType = ftUnknown)
    (hnew : dirEntryAt d' (x.blockLba d k₀) j₀ = e)
    (hkept : ∀ k < 140, x.blockLba d k ≠ 0 → ∀ j < 21,
      x.blockLba d k = x.blockLba d k₀ ∧ j = j₀ ∨
        dirEntryAt d' (x.blockLba d k) j = dirEntryAt d (x.blockLba d k) j) :
    liveEntries d' y = insert e (liveEntries d x) := by
  ext f
  simp only [liveEntries, hblocks, Set.mem_ofPred_eq, Set.mem_insert_iff]
  constructor
  · rintro ⟨hf, k, hk, hk0, j, hj, hentry⟩
    obtain ⟨hb, hj₀⟩ | hsame := hkept k hk hk0 j hj
    · left
      rw [← hentry, hb, hj₀, hnew]
    · right
      exact ⟨hf, k, hk, hk0, j, hj, hsame ▸ hentry⟩
  · rintro (rfl | ⟨hf, k, hk, hk0, j, hj, hentry⟩)
    · exact ⟨he, k₀, hk₀, hne, j₀, hj₀, hnew⟩
    · refine ⟨hf, k, hk, hk0, j, hj, ?_⟩
      obtain ⟨hb, hj₀⟩ | hsame := hkept k hk hk0 j hj
      · rw [hb, hj₀] at hentry
        rw [hentry] at hfree
        exact absurd hfree hf
      · rw [hsame, hentry]

/-- Entering a block that holds the new entry only. -/
theorem liveEntries_extend (k₀ : ℕ) {b : UInt32} (he : e.fType ≠ ftUnknown) (hk₀ : k₀ < 140)
    (hb : b ≠ 0) (hhole : x.blockLba d k₀ = 0)
    (hblocks : ∀ k < 140, y.blockLba d' k = if k = k₀ then b else x.blockLba d k)
    (hnew : dirEntryAt d' b 0 = e)
    (hrest : ∀ j < 21, j ≠ 0 → (dirEntryAt d' b j).fType = ftUnknown)
    (hkept : ∀ k < 140, x.blockLba d k ≠ 0 → ∀ j < 21,
      dirEntryAt d' (x.blockLba d k) j = dirEntryAt d (x.blockLba d k) j) :
    liveEntries d' y = insert e (liveEntries d x) := by
  ext f
  simp only [liveEntries, Set.mem_ofPred_eq, Set.mem_insert_iff]
  constructor
  · rintro ⟨hf, k, hk, hk0, j, hj, hentry⟩
    rw [hblocks k hk] at hk0 hentry
    by_cases h : k = k₀
    · rw [if_pos h] at hentry
      by_cases hj0 : j = 0
      · left
        rw [← hentry, hj0, hnew]
      · rw [← hentry] at hf
        exact absurd (hrest j hj hj0) hf
    · rw [if_neg h] at hk0 hentry
      right
      exact ⟨hf, k, hk, hk0, j, hj, hkept k hk hk0 j hj ▸ hentry⟩
  · rintro (rfl | ⟨hf, k, hk, hk0, j, hj, hentry⟩)
    · refine ⟨he, k₀, hk₀, ?_⟩
      rw [hblocks k₀ hk₀, if_pos rfl]
      exact ⟨hb, 0, by omega, hnew⟩
    · have h : k ≠ k₀ := fun h => hk0 (h ▸ hhole)
      refine ⟨hf, k, hk, ?_⟩
      rw [hblocks k hk, if_neg h]
      exact ⟨hk0, j, hj, by rw [hkept k hk hk0 j hj, hentry]⟩

end Entries

section Loop

variable {s : State} {x : Inode} {b : Buffer} {a : InodePtr} {e : DirEntry}

theorem Buffer.word_of_le {k : ℕ} (h : 4 * k + 4 ≤ b.size) :
    b.word k = .ok (wordAt b.bytes (4 * k)) := by
  simp [Buffer.word, h]

theorem Buffer.setWord_of_le {k : ℕ} {w : UInt32} (h : 4 * k + 4 ≤ b.size) :
    b.setWord k w = .ok (b.put (4 * k) 4 (wordByte w)) :=
  Buffer.copy_of_le h

/-- The block list after the copy loop. -/
theorem copyDirect_spec (x : Inode) (k : ℕ) (hk : 4 * k ≤ b.size) :
    ∃ c, copyDirect x b k = .ok c ∧ c.size = b.size ∧
      (∀ j < k, wordAt c.bytes (4 * j) = x.sector j) ∧
      ∀ j, k ≤ j → wordAt c.bytes (4 * j) = wordAt b.bytes (4 * j) := by
  induction k with
  | zero => exact ⟨b, rfl, rfl, fun j hj => absurd hj (Nat.not_lt_zero j), fun _ _ => rfl⟩
  | succ k ih =>
    obtain ⟨c, hc, hsize, hlow, hhigh⟩ := ih (by omega)
    refine ⟨c.put (4 * k) 4 (wordByte (x.sector k)), ?_, hsize, ?_, ?_⟩
    · rw [copyDirect, hc, ok_bind, Buffer.setWord_of_le (by omega)]
    · intro j hj
      rw [Buffer.put_bytes, wordAt_overlay_word]
      split_ifs with h
      · rw [h]
      · exact hlow j (by omega)
    · intro j hj
      rw [Buffer.put_bytes, wordAt_overlay_word, if_neg (by omega)]
      exact hhigh j (by omega)

/-- The scan finds the first free entry, if there is one. -/
theorem findFreeEntry_spec (m : Image) (n i : ℕ) :
    match findFreeEntry m n i with
    | some j => i ≤ j ∧ j < i + n ∧ wordAt m (direntSize * j + 20) = ftUnknown
    | none => ∀ j, i ≤ j → j < i + n → wordAt m (direntSize * j + 20) ≠ ftUnknown := by
  induction n generalizing i with
  | zero => exact fun j _ _ => by omega
  | succ n ih =>
    rw [findFreeEntry]
    split_ifs with h
    · exact ⟨le_rfl, by omega, h⟩
    · have hih := ih (i + 1)
      cases hfind : findFreeEntry m n (i + 1) with
      | some j =>
        rw [hfind] at hih
        exact ⟨by omega, by omega, hih.2.2⟩
      | none =>
        rw [hfind] at hih
        intro j hij hj
        by_cases hji : j = i
        · rw [hji]
          exact h
        · exact hih j (by omega) (by omega)

/-- `all_blocks` as `sync_dir_entry` sets it up. -/
structure BlockList (x : Inode) (b : Buffer) : Prop where
  size : b.size = 560
  direct : ∀ j < 12, wordAt b.bytes (4 * j) = x.sector j
  rest : ∀ j, 12 ≤ j → wordAt b.bytes (4 * j) = 0

theorem copyDirect_blockList (x : Inode) :
    ∃ c, copyDirect x { size := 560, bytes := zeros } 12 = .ok c ∧ BlockList x c := by
  obtain ⟨c, hc, hsize, hlow, hhigh⟩ :=
    copyDirect_spec (b := { size := 560, bytes := zeros }) x 12 (by dsimp only; omega)
  exact ⟨c, hc, hsize, hlow, fun j hj => (hhigh j hj).trans (wordAt_zeros _)⟩

/-- The type field of an entry in a sector that was read into a buffer. -/
theorem entryType_read {d m : Image} {lba : UInt32} {j : ℕ} (hj : j < 21) :
    wordAt (overlay m 0 512 (slice d (512 * lba.toNat))) (direntSize * j + 20) =
      (dirEntryAt d lba j).fType := by
  rw [dirEntryAt, DirEntry.ofBytes, wordAt_slice, Nat.add_assoc, ← wordAt_slice]
  apply wordAt_congr
  intro i hi
  unfold direntSize
  rw [slice_apply, overlay_inside (by omega) (by omega), Nat.sub_zero, slice_apply, slice_apply,
    Nat.add_assoc]

theorem findFreeEntry_full {d m : Image} {lba : UInt32} (h : FullBlock d lba) :
    findFreeEntry (overlay m 0 512 (slice d (512 * lba.toNat))) 21 0 = none := by
  have hspec := findFreeEntry_spec (overlay m 0 512 (slice d (512 * lba.toNat))) 21 0
  cases hfind : findFreeEntry (overlay m 0 512 (slice d (512 * lba.toNat))) 21 0 with
  | none => rfl
  | some j =>
    rw [hfind] at hspec
    obtain ⟨-, hj, htype⟩ := hspec
    rw [entryType_read (by omega)] at htype
    exact absurd htype (h j (by omega))

theorem findFreeEntry_of_free {d m : Image} {lba : UInt32} (h : ¬ FullBlock d lba) :
    ∃ j < 21, findFreeEntry (overlay m 0 512 (slice d (512 * lba.toNat))) 21 0 = some j ∧
      (dirEntryAt d lba j).fType = ftUnknown := by
  have hspec := findFreeEntry_spec (overlay m 0 512 (slice d (512 * lba.toNat))) 21 0
  cases hfind : findFreeEntry (overlay m 0 512 (slice d (512 * lba.toNat))) 21 0 with
  | none =>
    rw [hfind] at hspec
    refine absurd (fun j hj => ?_) h
    rw [← entryType_read hj]
    exact hspec j (Nat.zero_le j) (by omega)
  | some j =>
    rw [hfind] at hspec
    obtain ⟨-, hj, htype⟩ := hspec
    rw [entryType_read (by omega)] at htype
    exact ⟨j, by omega, rfl, htype⟩

variable {allBlocks ioBuf : Buffer}

/-- A full block is passed over. -/
theorem syncDirLoop_full (fuel : ℕ) {k : ℕ} {lba : UInt32} (hbuf : 512 ≤ ioBuf.size)
    (hword : allBlocks.word k = .ok lba) (hlba : lba ≠ 0) (hmax : lba.toNat ≤ maxLba)
    (hfull : FullBlock s.disk lba) :
    ∃ c, 512 ≤ c.size ∧ syncDirLoop s a e allBlocks (fuel + 1) k ioBuf =
      syncDirLoop s a e allBlocks fuel (k + 1) c := by
  refine ⟨ioBuf.put 0 512 (slice s.disk (512 * lba.toNat)), hbuf, ?_⟩
  rw [syncDirLoop, hword, ok_bind, if_neg hlba, ideRead_of_le hmax Nat.one_pos (by omega), ok_bind,
    s.part.dirEntrySize_eq]
  simp only [Nat.mul_one, Nat.reduceDiv, Buffer.put_bytes, findFreeEntry_full hfull]

/-- While the direct blocks are full the loop goes on with nothing changed. -/
theorem syncDirLoop_skip (hlist : BlockList x allBlocks) (hbuf : 512 ≤ ioBuf.size) {k : ℕ}
    (hk : k ≤ 12) (hne : ∀ i < k, x.sector i ≠ 0) (hmax : ∀ i < k, (x.sector i).toNat ≤ maxLba)
    (hfull : ∀ i < k, FullBlock s.disk (x.sector i)) :
    ∃ c, 512 ≤ c.size ∧ syncDirLoop s a e allBlocks 140 0 ioBuf =
      syncDirLoop s a e allBlocks (140 - k) k c := by
  induction k with
  | zero => exact ⟨ioBuf, hbuf, rfl⟩
  | succ k ih =>
    obtain ⟨c, hc, hloop⟩ := ih (by omega) (fun i hi => hne i (by omega))
      (fun i hi => hmax i (by omega)) (fun i hi => hfull i (by omega))
    have hword : allBlocks.word k = .ok (x.sector k) := by
      rw [Buffer.word_of_le (by rw [hlist.size]; omega), hlist.direct k (by omega)]
    obtain ⟨c', hc', hstep⟩ := syncDirLoop_full (139 - k) hc hword (hne k (by omega))
      (hmax k (by omega)) (hfull k (by omega))
    refine ⟨c', hc', ?_⟩
    rw [hloop, show 140 - k = 139 - k + 1 by omega, hstep]
    congr 1
    omega

theorem growDir_eq {s : State} (hx : s.inodes a = some x) :
    growDir s a = .ok (s.setInode a x.grow) := by
  rw [growDir, hx, deref_some, ok_bind, s.part.dirEntrySize_eq]
  rfl

/-- A free place in a block that is there is filled. -/
theorem syncDirLoop_place {fuel k : ℕ} {lba : UInt32} (hx : s.inodes a = some x)
    (hbuf : 512 ≤ ioBuf.size) (hword : allBlocks.word k = .ok lba) (hlba : lba ≠ 0)
    (hmax : lba.toNat ≤ maxLba) (hfree : ¬ FullBlock s.disk lba) :
    ∃ j < 21, (dirEntryAt s.disk lba j).fType = ftUnknown ∧
      syncDirLoop s a e allBlocks (fuel + 1) k ioBuf = .ok (true,
        (s.setDisk (overlay s.disk (512 * lba.toNat + direntSize * j) direntSize
          e.bytes)).setInode a x.grow) := by
  obtain ⟨j, hj, hfind, htype⟩ := findFreeEntry_of_free (m := ioBuf.bytes) hfree
  refine ⟨j, hj, htype, ?_⟩
  have hoff : direntSize * j + direntSize ≤ 512 := by
    unfold direntSize
    omega
  have hwrite : ideWrite s lba.toNat ((ioBuf.put 0 512 (slice s.disk (512 * lba.toNat))).put
      (direntSize * j) direntSize e.bytes) 0 1 = _ := ideWrite_patched hmax Nat.one_pos hoff hbuf
  rw [syncDirLoop, hword, ok_bind, if_neg hlba, ideRead_of_le hmax Nat.one_pos (by omega),
    ok_bind, s.part.dirEntrySize_eq]
  simp only [Nat.mul_one, Nat.reduceDiv, Buffer.put_bytes, hfind]
  rw [Buffer.copy_of_le (by rw [Buffer.put_size]; unfold direntSize at hoff ⊢; omega), ok_bind]
  exact (bind_of_ok hwrite).trans (bind_of_ok (growDir_eq hx))

/-- A sector that holds one entry. -/
def freshSector (e : DirEntry) : Image := overlay zeros 0 direntSize e.bytes

/-- The last part of `addDirBlock`: the new block is written and the directory grows. -/
theorem writeFresh_eq {k : ℕ} {lba : UInt32} {s : State} (hx : s.inodes a = some x)
    (hbuf : 512 ≤ ioBuf.size) (hword : allBlocks.word k = .ok lba) (hmax : lba.toNat ≤ maxLba) :
    (do
      let ioBuf ← ioBuf.copy 0 512 zeros
      let ioBuf ← ioBuf.copy 0 s.part.dirEntrySize e.bytes
      let lba ← allBlocks.word k
      let s ← ideWrite s lba.toNat ioBuf 0 1
      let s ← growDir s a
      .ok (true, s) : Except Fault (Bool × State)) = .ok (true,
        (s.setDisk (overlay s.disk (512 * lba.toNat) 512 (freshSector e))).setInode a x.grow) := by
  have hsector : ∀ i < 512 * 1,
      slice (overlay (overlay ioBuf.bytes 0 512 zeros) 0 24 e.bytes) 0 i = freshSector e i := by
    intro i hi
    rw [slice_apply, Nat.zero_add, freshSector]
    unfold direntSize
    by_cases h : i < 24
    · rw [overlay_inside (by omega) (by omega), overlay_inside (by omega) (by omega)]
    · rw [overlay_outside (by omega), overlay_inside (by omega) (by omega),
        overlay_outside (by omega), zeros_apply, zeros_apply]
  rw [Buffer.copy_of_le (by omega), ok_bind, s.part.dirEntrySize_eq,
    Buffer.copy_of_le (by rw [Buffer.put_size]; omega), ok_bind, hword, ok_bind,
    ideWrite_of_le hmax Nat.one_pos (by rw [Buffer.put_size, Buffer.put_size]; omega), ok_bind,
    Buffer.put_bytes, Buffer.put_bytes, overlay_congr hsector]
  exact bind_of_ok (growDir_eq hx)

theorem freshSector_entries {d : Image} {lba : UInt32}
    (hbyte : ∀ i < 512, d (512 * lba.toNat + i) = freshSector e i) :
    dirEntryAt d lba 0 = e ∧ ∀ j < 21, j ≠ 0 → (dirEntryAt d lba j).fType = ftUnknown := by
  constructor
  · rw [dirEntryAt, ← DirEntry.ofBytes_bytes e]
    apply DirEntry.ofBytes_congr
    intro i hi
    unfold direntSize at hi
    rw [slice_apply, Nat.mul_zero, Nat.add_zero, hbyte i (by omega),
      freshSector, overlay_inside (by omega) (by unfold direntSize; omega), Nat.sub_zero]
  · intro j hj hj0
    refine wordAt_of_bytes fun i hi => ?_
    rw [slice_apply, Nat.add_assoc, hbyte _ (by unfold direntSize; omega), freshSector,
      overlay_outside (by unfold direntSize; omega), zeros_apply]
    interval_cases i <;> rfl

/-- Taking a block and writing the bitmap back. -/
theorem takeBlock_synced (hm : Mounted s) (h : s.blockBitmap.free.Nonempty) :
    ∃ i ∈ s.blockBitmap.free, ∃ d,
      blockBitmapAlloc s = .ok (some (s.part.dataStartLba + i), s.takeBlock i) ∧
      syncBlock (s.takeBlock i) (s.part.dataStartLba + i) = .ok ((s.takeBlock i).setDisk d) ∧
      SectorsKept s.part.dataStartLba ∅ s.disk d := by
  obtain ⟨i, hi, halloc⟩ := blockBitmapAlloc_of_free h
  have hlt := ((Bitmap.mem_free _ _).mp hi).1
  obtain ⟨d, hsync, hkept⟩ := bitmapSync_block (hm.takeBlock i) (i := i) hlt
  refine ⟨i, hi, d, halloc, ?_, hkept⟩
  have hpart : (s.takeBlock i).part = s.part := rfl
  rw [syncBlock, hpart, ensure_of (by push_cast; omega), ok_bind, Nat.add_sub_cancel_left, hsync]

theorem lba_toNat (hm : Mounted s) {i : ℕ} (hi : i ∈ s.blockBitmap.free) :
    (UInt32.ofNat (s.part.dataStartLba + i)).toNat = s.part.dataStartLba + i := by
  have hle := hm.free_le i hi
  have hmax : maxLba < 2 ^ 32 := by decide
  rw [UInt32.toNat_ofNat', Nat.mod_eq_of_lt (by omega)]

/-- The state in which block `i` was taken, with the bitmap on disk, and the inode changed. -/
def State.linked (s : State) (i : ℕ) (d : Image) (a : InodePtr) (x : Inode) : State :=
  ((s.takeBlock i).setDisk d).setInode a x

@[simp] theorem linked_disk (s : State) (i : ℕ) (d : Image) (a : InodePtr) (x : Inode) :
    (s.linked i d a x).disk = d := rfl

/-- An unused direct index gets a block of its own. -/
theorem addDirBlock_direct {k : ℕ} (hm : Mounted s) (hx : s.inodes a = some x)
    (hlist : BlockList x allBlocks) (hbuf : 512 ≤ ioBuf.size) (hk : k < 12)
    (hfree : s.blockBitmap.free.Nonempty) :
    ∃ i ∈ s.blockBitmap.free, ∃ t, addDirBlock s a e k allBlocks ioBuf = .ok (true, t) ∧
      t.inodes a = some (x.setSector k (UInt32.ofNat (s.part.dataStartLba + i))).grow ∧
      SectorsKept s.part.dataStartLba {s.part.dataStartLba + i} s.disk t.disk ∧
      ∀ j < 512, t.disk (512 * (s.part.dataStartLba + i) + j) = freshSector e j := by
  obtain ⟨i, hi, d, halloc, hsync, hkept⟩ := takeBlock_synced hm hfree
  have hsize := hlist.size
  have hlba := lba_toNat hm hi
  have hmax := hm.free_le i hi
  set b := UInt32.ofNat (s.part.dataStartLba + i) with hb
  set s₁ := s.linked i d a (x.setSector k b) with hs₁
  have hx₁ : s₁.inodes a = some (x.setSector k b) := setInode_inodes_self ..
  have hword : (allBlocks.put (4 * k) 4 (wordByte b)).word k = .ok b := by
    rw [Buffer.word_of_le (by rw [Buffer.put_size]; omega), Buffer.put_bytes, wordAt_overlay_word,
      if_pos rfl]
  have hlink : linkDirBlock ((s.takeBlock i).setDisk d) a k (s.part.dataStartLba + i) allBlocks =
      .ok (some (allBlocks.put (4 * k) 4 (wordByte b)), s₁) := by
    have hx' : ((s.takeBlock i).setDisk d).inodes a = some x := hx
    rw [linkDirBlock, if_pos hk, hx', deref_some, ok_bind, Buffer.setWord_of_le (by omega), ok_bind]
    rfl
  refine ⟨i, hi, (s₁.setDisk (overlay s₁.disk (512 * b.toNat) 512 (freshSector e))).setInode a
    (x.setSector k b).grow, ?_, setInode_inodes_self .., ?_, ?_⟩
  · rw [addDirBlock, halloc, ok_bind]
    dsimp only
    rw [hsync, ok_bind, hlink, ok_bind]
    exact writeFresh_eq hx₁ hbuf hword (by omega)
  · rw [setInode_disk, setDisk_disk, hlba]
    exact (hkept.mono (Finset.empty_subset _)).trans
      (sectorsKept_write (Finset.mem_singleton_self _))
  · intro j hj
    rw [setInode_disk, setDisk_disk, hlba, overlay_at hj]

/-- The indirect table that `sync_dir_entry` writes for its first entry. -/
theorem table_word {b : UInt32} (hlist : BlockList x allBlocks) {j : ℕ} (hj : j < 128) (d : Image)
    (lba : ℕ) :
    wordAt (overlay d (512 * lba) 512
        (slice (allBlocks.put (4 * 12) 4 (wordByte b)).bytes 48)) (512 * lba + 4 * j) =
      if j = 0 then b else 0 := by
  rw [wordAt_overlay_slice (by omega), Buffer.put_bytes, show 48 + 4 * j = 4 * (j + 12) by omega,
    wordAt_overlay_word, hlist.rest _ (by omega)]
  by_cases h : j = 0
  · rw [if_pos h, if_pos (by omega)]
  · rw [if_neg h, if_neg (by omega)]

/-- With every direct block full, a new indirect table and its first block are taken. -/
theorem addDirBlock_table (hm : Mounted s) (hx : s.inodes a = some x)
    (hlist : BlockList x allBlocks) (hbuf : 512 ≤ ioBuf.size)
    (hfree : 2 ≤ s.blockBitmap.free.card) :
    ∃ i ∈ s.blockBitmap.free, ∃ i' ∈ s.blockBitmap.free, i' ≠ i ∧ ∃ t,
      addDirBlock s a e 12 allBlocks ioBuf = .ok (true, t) ∧
      t.inodes a = some (x.setSector 12 (UInt32.ofNat (s.part.dataStartLba + i))).grow ∧
      SectorsKept s.part.dataStartLba {s.part.dataStartLba + i, s.part.dataStartLba + i'}
        s.disk t.disk ∧
      (∀ j < 512, t.disk (512 * (s.part.dataStartLba + i') + j) = freshSector e j) ∧
      ∀ j < 128, wordAt t.disk (512 * (s.part.dataStartLba + i) + 4 * j) =
        if j = 0 then UInt32.ofNat (s.part.dataStartLba + i') else 0 := by
  obtain ⟨i, hi, d, halloc, hsync, hkept⟩ := takeBlock_synced hm (Finset.card_pos.mp (by omega))
  set b := UInt32.ofNat (s.part.dataStartLba + i) with hb
  set s₁ := s.linked i d a (x.setSector 12 b) with hs₁
  have hx₁ : s₁.inodes a = some (x.setSector 12 b) := setInode_inodes_self ..
  have hfree₁ : s₁.blockBitmap.free = s.blockBitmap.free.erase i := free_set_true ..
  have hm₁ : Mounted s₁ := ⟨hm.blockLen, hm.inodeLen, (hm.takeBlock i).free_le⟩
  have hne₁ : s₁.blockBitmap.free.Nonempty := by
    rw [hfree₁, ← Finset.card_pos, Finset.card_erase_of_mem hi]
    omega
  obtain ⟨i', hi', d', halloc', hsync', hkept'⟩ := takeBlock_synced hm₁ hne₁
  have hpart : s₁.part = s.part := rfl
  rw [hpart] at halloc' hsync' hkept'
  rw [hfree₁] at hi'
  obtain ⟨hne, hi''⟩ := Finset.mem_erase.mp hi'
  have hsize := hlist.size
  have hlba' := lba_toNat hm hi''
  have hmax := hm.free_le i hi
  have hmax' := hm.free_le i' hi''
  set b' := UInt32.ofNat (s.part.dataStartLba + i') with hb'
  set c := allBlocks.put (4 * 12) 4 (wordByte b') with hc
  have hword : c.word 12 = .ok b' := by
    rw [Buffer.word_of_le (by rw [hc, Buffer.put_size]; omega), hc, Buffer.put_bytes,
      wordAt_overlay_word, if_pos rfl]
  set s₂ := (s₁.takeBlock i').setDisk
    (overlay d' (512 * (s.part.dataStartLba + i)) 512 (slice c.bytes 48)) with hs₂
  have hlink : linkDirBlock ((s.takeBlock i).setDisk d) a 12 (s.part.dataStartLba + i) allBlocks =
      .ok (some c, s₂) := by
    have hx' : ((s.takeBlock i).setDisk d).inodes a = some x := hx
    rw [linkDirBlock, if_neg (by omega), if_pos rfl, addIndirectTable, hx', deref_some, ok_bind]
    refine (bind_of_ok halloc').trans ?_
    dsimp only
    rw [hsync', ok_bind, Buffer.setWord_of_le (by omega), ok_bind]
    exact bind_of_ok (ideWrite_of_le (by omega) Nat.one_pos (by rw [Buffer.put_size]; omega))
  refine ⟨i, hi, i', hi'', hne, (s₂.setDisk (overlay s₂.disk (512 * b'.toNat) 512
    (freshSector e))).setInode a (x.setSector 12 b).grow, ?_, setInode_inodes_self .., ?_, ?_, ?_⟩
  · rw [addDirBlock, halloc, ok_bind]
    dsimp only
    rw [hsync, ok_bind, hlink, ok_bind]
    exact writeFresh_eq (x := x.setSector 12 b) hx₁ hbuf hword (by omega)
  · rw [setInode_disk, setDisk_disk, hlba', setDisk_disk]
    refine (((hkept.mono (Finset.empty_subset _)).trans (hkept'.mono (Finset.empty_subset _))).trans
      (sectorsKept_write ?_)).trans (sectorsKept_write ?_)
    · exact Finset.mem_insert_self ..
    · exact Finset.mem_insert_of_mem (Finset.mem_singleton_self _)
  · intro j hj
    rw [setInode_disk, setDisk_disk, hlba', overlay_at hj]
  · intro j hj
    rw [setInode_disk, setDisk_disk, hlba', setDisk_disk, ← table_word hlist hj]
    apply wordAt_congr
    intro k hk
    apply overlay_outside
    omega

/-- With fewer than two free blocks there is no room for a table and a block. -/
theorem addDirBlock_short (hm : Mounted s) (hx : s.inodes a = some x)
    (hfree : s.blockBitmap.free.card < 2) :
    addDirBlock s a e 12 allBlocks ioBuf = .error .assert := by
  by_cases hne : s.blockBitmap.free.Nonempty
  · obtain ⟨i, hi, d, halloc, hsync, -⟩ := takeBlock_synced hm hne
    have hfull : (s.linked i d a (x.setSector 12
        (UInt32.ofNat (s.part.dataStartLba + i)))).blockBitmap.free = ∅ := by
      refine (free_set_true ..).trans (Finset.card_eq_zero.mp ?_)
      rw [Finset.card_erase_of_mem hi]
      omega
    have hx' : ((s.takeBlock i).setDisk d).inodes a = some x := hx
    have hlink : linkDirBlock ((s.takeBlock i).setDisk d) a 12 (s.part.dataStartLba + i)
        allBlocks = .error .assert := by
      rw [linkDirBlock, if_neg (by omega), if_pos rfl, addIndirectTable, hx', deref_some, ok_bind]
      exact congrArg (· >>= _) (blockBitmapAlloc_of_full hfull)
    rw [addDirBlock, halloc, ok_bind]
    dsimp only
    rw [hsync, ok_bind, hlink, error_bind]
  · rw [addDirBlock, blockBitmapAlloc_of_full (Finset.not_nonempty_iff_eq_empty.mp hne), error_bind]

end Loop

section Added

variable {s : State} {x : Inode} {a : InodePtr} {e : DirEntry} {d : Image} {ioBuf : Buffer}

theorem blockLba_direct {k : ℕ} (hk : k < 12) : x.blockLba d k = x.sector k := if_pos hk

theorem blockLba_grow (x : Inode) (d : Image) (k : ℕ) : x.grow.blockLba d k = x.blockLba d k := rfl

theorem grow_size (h : x.iSize.toNat ≤ 140 * 512) :
    x.grow.iSize.toNat = x.iSize.toNat + direntSize := by
  rw [Inode.grow, UInt32.toNat_add]
  unfold direntSize
  simp
  omega

theorem WellFormedDir.direct_used (h : WellFormedDir s x) {k : ℕ} (hk : k < 12)
    (hne : x.sector k ≠ 0) : UsedBlock s (x.sector k) := by
  have hused := h.block_used k
  rw [blockLba_direct hk] at hused
  exact hused hne

/-- What the blocks of the directory hold is kept where no block of it is written. -/
theorem WellFormedDir.entries_kept (h : WellFormedDir s x) {B : Finset ℕ}
    (hkept : SectorsKept s.part.dataStartLba B s.disk d) {k j : ℕ}
    (hne : x.blockLba s.disk k ≠ 0) (hB : (x.blockLba s.disk k).toNat ∉ B) (hj : j < 21) :
    dirEntryAt d (x.blockLba s.disk k) j = dirEntryAt s.disk (x.blockLba s.disk k) j :=
  dirEntryAt_kept hkept (h.block_used k hne).start_le hB hj

/-- A write to a direct block leaves the list of blocks. -/
theorem WellFormedDir.blockLba_patched (h : WellFormedDir s x) {k : ℕ} (hk : k < 12)
    (hne : x.sector k ≠ 0) (hkept : SectorsKept s.part.dataStartLba {(x.sector k).toNat} s.disk d)
    (i : ℕ) : x.grow.blockLba d i = x.blockLba s.disk i := by
  have happart : x.sector k ≠ x.sector 12 := by
    have happart := h.block_apart k
    rw [blockLba_direct hk] at happart
    exact happart hne
  refine hkept.blockLba (fun htable => ⟨(h.table_used htable).start_le, ?_⟩) i
  rw [Finset.mem_singleton, UInt32.toNat_inj]
  exact happart.symm

/-- A free place of a direct block takes the entry. -/
theorem added_place (h : WellFormedDir s x) (he : e.fType ≠ ftUnknown) {k j : ℕ} (hk : k < 12)
    (hne : x.sector k ≠ 0) (hj : j < 21)
    (hfree : (dirEntryAt s.disk (x.sector k) j).fType = ftUnknown) :
    EntryAdded s.disk (overlay s.disk (512 * (x.sector k).toNat + direntSize * j) direntSize e.bytes)
      x x.grow e := by
  set d' := overlay s.disk (512 * (x.sector k).toNat + direntSize * j) direntSize e.bytes with hd'
  have hblk : x.blockLba s.disk k = x.sector k := blockLba_direct hk
  have hkept : SectorsKept s.part.dataStartLba {(x.sector k).toNat} s.disk d' :=
    sectorsKept_patch (by unfold direntSize; omega) (Finset.mem_singleton_self _)
  have hblocks : ∀ i, x.grow.blockLba d' i = x.blockLba s.disk i :=
    h.blockLba_patched hk hne hkept
  refine ⟨?_, grow_size h.size_le, ?_⟩
  · refine liveEntries_fill k j he hblocks (by omega) hj ?_ ?_ ?_ ?_
    · rwa [hblk]
    · rwa [hblk]
    · rw [hblk, dirEntryAt]
      refine (DirEntry.ofBytes_congr fun i hi => ?_).trans e.ofBytes_bytes
      rw [slice_apply, hd', overlay_at hi]
    · intro i hi hine l hl
      by_cases hib : x.blockLba s.disk i = x.sector k
      · by_cases hlj : l = j
        · exact .inl ⟨hib.trans hblk.symm, hlj⟩
        · right
          rw [hib]
          apply dirEntryAt_congr
          intro m hm
          apply overlay_outside
          unfold direntSize at hm ⊢
          omega
      · right
        refine h.entries_kept hkept hine ?_ hl
        rw [Finset.mem_singleton, UInt32.toNat_inj]
        exact hib
  · rintro b ⟨hb, htable | ⟨i, hi, hbi⟩⟩
    · exact ⟨hb, .inl htable⟩
    · exact ⟨hb, .inr ⟨i, hi, by rw [hblocks, hbi]⟩⟩

/-- A block that was free is none of those in use. -/
theorem UsedBlock.notMem_free {b : UInt32} {i : ℕ} (hb : UsedBlock s b)
    (hi : i ∈ s.blockBitmap.free) : b.toNat ∉ ({s.part.dataStartLba + i} : Finset ℕ) := by
  rw [Finset.mem_singleton]
  exact hb.ne_of_free hi

theorem ofNat_ne_zero (hm : Mounted s) {i : ℕ} (hi : i ∈ s.blockBitmap.free) :
    UInt32.ofNat (s.part.dataStartLba + i) ≠ 0 := by
  have hlba := lba_toNat hm hi
  have := s.part.dataStartLba_eq
  have := s.part.inodeTableSects_eq
  intro h0
  rw [h0] at hlba
  change 0 = _ at hlba
  omega

/-- The blocks once a new one is entered at a direct index. -/
theorem WellFormedDir.blockLba_linked (h : WellFormedDir s x) {k i : ℕ} (hk : k < 12)
    (hi : i ∈ s.blockBitmap.free)
    (hkept : SectorsKept s.part.dataStartLba {s.part.dataStartLba + i} s.disk d) (b : UInt32)
    (j : ℕ) : (x.setSector k b).grow.blockLba d j = if j = k then b else x.blockLba s.disk j := by
  rw [blockLba_grow, ← hkept.blockLba fun htable =>
    ⟨(h.table_used htable).start_le, (h.table_used htable).notMem_free hi⟩]
  unfold Inode.blockLba
  rw [Inode.sector_setSector _ _ _ _ (by omega), Inode.sector_setSector _ _ _ _ (by omega),
    if_neg (show (12 : ℕ) ≠ k by omega)]
  by_cases hj : j < 12
  · simp only [if_pos hj]
  · simp only [if_neg hj, if_neg (show j ≠ k by omega)]

/-- A new block enters at an index without one. -/
theorem added_direct (hm : Mounted s) (h : WellFormedDir s x) (he : e.fType ≠ ftUnknown)
    {k i : ℕ} (hk : k < 12) (hhole : x.sector k = 0) (hi : i ∈ s.blockBitmap.free)
    (hkept : SectorsKept s.part.dataStartLba {s.part.dataStartLba + i} s.disk d)
    (hnew : ∀ j < 512, d (512 * (s.part.dataStartLba + i) + j) = freshSector e j) :
    EntryAdded s.disk d x (x.setSector k (UInt32.ofNat (s.part.dataStartLba + i))).grow e := by
  have hlba := lba_toNat hm hi
  have hb0 := ofNat_ne_zero hm hi
  set b := UInt32.ofNat (s.part.dataStartLba + i) with hb
  have hblocks : ∀ j < 140, (x.setSector k b).grow.blockLba d j =
      if j = k then b else x.blockLba s.disk j := fun j _ => h.blockLba_linked hk hi hkept b j
  obtain ⟨hfirst, hrest⟩ := freshSector_entries (e := e) (show ∀ j < 512, d (512 * b.toNat + j) = _ by rwa [hlba])
  refine ⟨?_, grow_size h.size_le, ?_⟩
  · refine liveEntries_extend k he (by omega) hb0 ?_ hblocks hfirst hrest ?_
    · rw [blockLba_direct hk, hhole]
    · intro j _ hne l hl
      exact h.entries_kept hkept hne ((h.block_used j hne).notMem_free hi) hl
  · rintro c ⟨hc, htable | ⟨j, hj, hcj⟩⟩
    · refine ⟨hc, .inl ?_⟩
      rw [htable, Inode.sector_grow, Inode.sector_setSector _ _ _ _ (by omega), if_neg (by omega)]
    · refine ⟨hc, .inr ⟨j, hj, ?_⟩⟩
      have hjk : j ≠ k := by
        intro hjk
        rw [hjk, blockLba_direct hk, hhole] at hcj
        exact hc hcj.symm
      rw [hblocks j hj, if_neg hjk, hcj]

/-- The blocks once a new table with one block is entered. -/
theorem table_blockLba {lba : ℕ} {b b' : UInt32} (hlba : b.toNat = lba) (hb0 : b ≠ 0)
    (htable : ∀ j < 128, wordAt d (512 * lba + 4 * j) = if j = 0 then b' else 0) {j : ℕ}
    (hj : j < 140) :
    (x.setSector 12 b).grow.blockLba d j =
      if j < 12 then x.sector j else if j = 12 then b' else 0 := by
  rw [blockLba_grow]
  unfold Inode.blockLba
  rw [Inode.sector_setSector _ _ _ _ (by omega), Inode.sector_setSector _ _ _ _ (by omega),
    if_pos rfl, hlba]
  by_cases hlow : j < 12
  · rw [if_pos hlow, if_pos hlow, if_neg (by omega)]
  · rw [if_neg hlow, if_neg hlow, if_pos ⟨hj, hb0⟩, htable _ (by omega)]
    by_cases h12 : j = 12
    · rw [if_pos (by omega), if_pos h12]
    · rw [if_neg (by omega), if_neg h12]

/-- A directory without a table gets one. -/
theorem added_table (hm : Mounted s) (h : WellFormedDir s x) (he : e.fType ≠ ftUnknown)
    {i i' : ℕ} (hnone : x.sector 12 = 0) (hi : i ∈ s.blockBitmap.free)
    (hi' : i' ∈ s.blockBitmap.free)
    (hkept : SectorsKept s.part.dataStartLba {s.part.dataStartLba + i, s.part.dataStartLba + i'}
      s.disk d)
    (hnew : ∀ j < 512, d (512 * (s.part.dataStartLba + i') + j) = freshSector e j)
    (htable : ∀ j < 128, wordAt d (512 * (s.part.dataStartLba + i) + 4 * j) =
      if j = 0 then UInt32.ofNat (s.part.dataStartLba + i') else 0) :
    EntryAdded s.disk d x (x.setSector 12 (UInt32.ofNat (s.part.dataStartLba + i))).grow e := by
  have hlba' := lba_toNat hm hi'
  have hblocks := fun j (hj : j < 140) =>
    table_blockLba (x := x) (lba_toNat hm hi) (ofNat_ne_zero hm hi) htable hj
  have hold : ∀ j, 12 ≤ j → x.blockLba s.disk j = 0 := by
    intro j hj
    rw [Inode.blockLba, if_neg (by omega), if_neg (fun hand => hand.2 hnone)]
  have hfresh : ∀ c : UInt32, UsedBlock s c →
      c.toNat ∉ ({s.part.dataStartLba + i, s.part.dataStartLba + i'} : Finset ℕ) := by
    intro c hc
    rw [Finset.mem_insert, Finset.mem_singleton]
    exact not_or.mpr ⟨hc.ne_of_free hi, hc.ne_of_free hi'⟩
  obtain ⟨hfirst, hrest⟩ := freshSector_entries (e := e)
    (show ∀ j < 512, d (512 * (UInt32.ofNat (s.part.dataStartLba + i')).toNat + j) = _ by
      rwa [hlba'])
  refine ⟨?_, grow_size h.size_le, ?_⟩
  · refine liveEntries_extend 12 he (by omega) (ofNat_ne_zero hm hi') (hold 12 le_rfl) ?_ hfirst
      hrest ?_
    · intro j hj
      rw [hblocks j hj]
      by_cases hlow : j < 12
      · rw [if_pos hlow, if_neg (by omega), blockLba_direct hlow]
      · rw [if_neg hlow, hold j (by omega)]
    · intro j _ hne l hl
      exact h.entries_kept hkept hne (hfresh _ (h.block_used j hne)) hl
  · rintro c ⟨hc, hctable | ⟨j, hj, hcj⟩⟩
    · exact absurd (hctable.trans hnone) hc
    · refine ⟨hc, .inr ⟨j, hj, ?_⟩⟩
      have hlow : j < 12 := by
        by_contra hlow
        rw [hold j (by omega)] at hcj
        exact hc hcj.symm
      rw [hblocks j hj, if_pos hlow, ← blockLba_direct hlow, hcj]

/-- A directory that has a table loses it to the new one. -/
theorem lost_table (hm : Mounted s) (h : WellFormedDir s x) {i i' : ℕ} (hsome : x.sector 12 ≠ 0)
    (hi : i ∈ s.blockBitmap.free) (hi' : i' ∈ s.blockBitmap.free)
    (htable : ∀ j < 128, wordAt d (512 * (s.part.dataStartLba + i) + 4 * j) =
      if j = 0 then UInt32.ofNat (s.part.dataStartLba + i') else 0) :
    ¬ dirBlocks s.disk x ⊆
      dirBlocks d (x.setSector 12 (UInt32.ofNat (s.part.dataStartLba + i))).grow := by
  intro hsub
  have hused := h.table_used hsome
  have hnew : ∀ k ∈ s.blockBitmap.free, x.sector 12 ≠ UInt32.ofNat (s.part.dataStartLba + k) := by
    intro k hk heq
    apply hused.ne_of_free hk
    rw [heq, lba_toNat hm hk]
  obtain ⟨-, htab | ⟨j, hj, hcj⟩⟩ := hsub ⟨hsome, .inl rfl⟩
  · rw [Inode.sector_grow, Inode.sector_setSector _ _ _ _ (by omega), if_pos rfl] at htab
    exact hnew i hi htab
  · rw [table_blockLba (lba_toNat hm hi) (ofNat_ne_zero hm hi) htable hj] at hcj
    split_ifs at hcj with hlow
    · have happart := h.block_apart j
      rw [blockLba_direct hlow, hcj] at happart
      exact happart hsome rfl
    · exact hnew i' hi' hcj.symm
    · exact hsome hcj.symm

/-- Where the first place for an entry is: among the direct blocks, or past them. -/
theorem direct_cases (d : Image) (x : Inode) :
    (∃ k < 12, (∀ i < k, x.sector i ≠ 0 ∧ FullBlock d (x.sector i)) ∧
      (x.sector k = 0 ∨ ¬ FullBlock d (x.sector k))) ∨
    ∀ i < 12, x.sector i ≠ 0 ∧ FullBlock d (x.sector i) := by
  classical
  by_cases hex : ∃ k, k < 12 ∧ (x.sector k = 0 ∨ ¬ FullBlock d (x.sector k))
  · left
    obtain ⟨hk, hplace⟩ := Nat.find_spec hex
    refine ⟨Nat.find hex, hk, fun i hi => ?_, hplace⟩
    have hmin := Nat.find_min hex hi
    push Not at hmin
    exact hmin (by omega)
  · right
    push Not at hex
    exact hex

/-- Past full direct blocks the loop works with the list that was copied. -/
theorem syncDirEntry_skip {k : ℕ} (hx : s.inodes a = some x) (h : WellFormedDir s x)
    (hbuf : 512 ≤ ioBuf.size) (hk : k ≤ 12)
    (hfull : ∀ i < k, x.sector i ≠ 0 ∧ FullBlock s.disk (x.sector i)) :
    ∃ b c, 512 ≤ b.size ∧ BlockList x c ∧
      syncDirEntry s a e ioBuf = syncDirLoop s a e c (139 - k + 1) k b := by
  obtain ⟨c, hc, hlist⟩ := copyDirect_blockList x
  obtain ⟨b, hb, hloop⟩ := syncDirLoop_skip (s := s) (a := a) (e := e) hlist hbuf hk
    (fun i hi => (hfull i hi).1) (fun i hi => (h.direct_used (by omega) (hfull i hi).1).le_max)
    (fun i hi => (hfull i hi).2)
  refine ⟨b, c, hb, hlist, ?_⟩
  rw [syncDirEntry, hx, deref_some, ok_bind, s.part.dirEntrySize_eq,
    ensure_of (show x.iSize.toNat % 24 = 0 from h.size_dvd), ok_bind, hc, ok_bind, hloop,
    show 140 - k = 139 - k + 1 by omega]

/-- A place among the direct blocks is used as it should be. -/
theorem syncDirEntry_place {k : ℕ} {t : State} (hm : Mounted s) (hx : s.inodes a = some x)
    (h : WellFormedDir s x) (he : e.fType ≠ ftUnknown) (hbuf : 512 ≤ ioBuf.size) (hk : k < 12)
    (hfull : ∀ i < k, x.sector i ≠ 0 ∧ FullBlock s.disk (x.sector i))
    (hplace : x.sector k = 0 ∨ ¬ FullBlock s.disk (x.sector k))
    (ht : syncDirEntry s a e ioBuf = .ok (true, t)) :
    ∃ y, t.inodes a = some y ∧ EntryAdded s.disk t.disk x y e := by
  obtain ⟨b, c, hb, hlist, hsync⟩ := syncDirEntry_skip (e := e) hx h hbuf hk.le hfull
  have hword : c.word k = .ok (x.sector k) := by
    rw [Buffer.word_of_le (by rw [hlist.size]; omega), hlist.direct k hk]
  rw [hsync] at ht
  by_cases hhole : x.sector k = 0
  · rw [syncDirLoop, hword, ok_bind, if_pos hhole] at ht
    by_cases hfree : s.blockBitmap.free.Nonempty
    · obtain ⟨i, hi, u, hu, hinode, hkept, hnew⟩ := addDirBlock_direct hm hx hlist hb hk hfree
      cases hu.symm.trans ht
      exact ⟨_, hinode, added_direct hm h he hk hhole hi hkept hnew⟩
    · rw [addDirBlock, blockBitmapAlloc_of_full (Finset.not_nonempty_iff_eq_empty.mp hfree)] at ht
      cases ht
  · have hused := h.direct_used hk hhole
    obtain ⟨j, hj, hfree, hu⟩ := syncDirLoop_place hx hb hword hhole hused.le_max
      (hplace.resolve_left hhole)
    cases hu.symm.trans ht
    exact ⟨_, setInode_inodes_self .., added_place h he hk hhole hj hfree⟩

/-- With every direct block full a table is made, whether there is one or not. -/
theorem syncDirEntry_full (hx : s.inodes a = some x) (h : WellFormedDir s x)
    (hbuf : 512 ≤ ioBuf.size) (hfull : ∀ i < 12, x.sector i ≠ 0 ∧ FullBlock s.disk (x.sector i)) :
    ∃ b c, 512 ≤ b.size ∧ BlockList x c ∧
      syncDirEntry s a e ioBuf = addDirBlock s a e 12 c b := by
  obtain ⟨b, c, hb, hlist, hsync⟩ := syncDirEntry_skip (e := e) hx h hbuf le_rfl hfull
  have hzero : c.word 12 = .ok 0 := by
    rw [Buffer.word_of_le (by rw [hlist.size]; omega), hlist.rest 12 le_rfl]
  refine ⟨b, c, hb, hlist, ?_⟩
  rw [hsync, syncDirLoop, hzero, ok_bind, if_pos rfl]

/-- A directory that outgrew its direct blocks loses its indirect table. -/
theorem syncDirEntry_loses (hm : Mounted s) (hx : s.inodes a = some x) (h : WellFormedDir s x)
    (hbuf : 512 ≤ ioBuf.size) (hfull : ∀ i < 12, x.sector i ≠ 0 ∧ FullBlock s.disk (x.sector i))
    (hsome : x.sector 12 ≠ 0) (hcard : 2 ≤ s.blockBitmap.free.card) :
    ∃ t y, syncDirEntry s a e ioBuf = .ok (true, t) ∧ t.inodes a = some y ∧
      ¬ dirBlocks s.disk x ⊆ dirBlocks t.disk y := by
  obtain ⟨b, c, hb, hlist, hsync⟩ := syncDirEntry_full (e := e) hx h hbuf hfull
  obtain ⟨i, hi, i', hi', -, t, ht, hinode, -, -, htable⟩ :=
    addDirBlock_table (e := e) hm hx hlist hb hcard
  exact ⟨t, _, hsync.trans ht, hinode, lost_table hm h hsome hi hi' htable⟩

/-- A result of 1 means that the entry was added and nothing lost, exactly when the
directory has no indirect table, or has a place left among its direct blocks, or the
partition has not two free blocks left (no result of 1 is given then). -/
theorem dir_entry_added_iff (s : State) (a : InodePtr) (x : Inode) (e : DirEntry)
    (ioBuf : Buffer) (hm : Mounted s) (hx : s.inodes a = some x) (h : WellFormedDir s x)
    (he : e.fType ≠ ftUnknown) (hbuf : 512 ≤ ioBuf.size) :
    (∀ t, syncDirEntry s a e ioBuf = .ok (true, t) →
      ∃ y, t.inodes a = some y ∧ EntryAdded s.disk t.disk x y e) ↔
    x.sector 12 = 0 ∨ (∃ k < 12, x.sector k = 0 ∨ ¬ FullBlock s.disk (x.sector k)) ∨
      s.blockBitmap.free.card < 2 := by
  obtain ⟨k, hk, hfull, hplace⟩ | hfull := direct_cases s.disk x
  · exact iff_of_true (fun t ht => syncDirEntry_place hm hx h he hbuf hk hfull hplace ht)
      (.inr (.inl ⟨k, hk, hplace⟩))
  have hno : ¬ ∃ k < 12, x.sector k = 0 ∨ ¬ FullBlock s.disk (x.sector k) := by
    rintro ⟨k, hk, hhole | hpart⟩
    · exact (hfull k hk).1 hhole
    · exact hpart (hfull k hk).2
  obtain ⟨b, c, hb, hlist, hsync⟩ := syncDirEntry_full (e := e) hx h hbuf hfull
  by_cases hcard : s.blockBitmap.free.card < 2
  · refine iff_of_true (fun t ht => ?_) (.inr (.inr hcard))
    rw [hsync, addDirBlock_short hm hx hcard] at ht
    cases ht
  by_cases hnone : x.sector 12 = 0
  · refine iff_of_true (fun t ht => ?_) (.inl hnone)
    obtain ⟨i, hi, i', hi', -, u, hu, hinode, hkept, hnew, htable⟩ :=
      addDirBlock_table (e := e) hm hx hlist hb (not_lt.mp hcard)
    cases (hsync.trans hu).symm.trans ht
    exact ⟨_, hinode, added_table hm h he hnone hi hi' hkept hnew htable⟩
  · refine iff_of_false (fun hall => ?_) (by simp [hnone, hno, hcard])
    obtain ⟨t, y, ht, hy, hlost⟩ :=
      syncDirEntry_loses (e := e) hm hx h hbuf hfull hnone (not_lt.mp hcard)
    obtain ⟨z, hz, hadded⟩ := hall t ht
    cases hy.symm.trans hz
    exact hlost hadded.blocks

theorem blankState_mounted (x : Inode) : Mounted (blankState.setInode 0 x) where
  blockLen := rfl
  inodeLen := rfl
  free_le := by
    intro i hi
    have hlt : i < 8 * 512 := ((Bitmap.mem_free _ _).mp hi).1
    change 612 + i ≤ maxLba
    unfold maxLba
    omega

/-- The entry of the examples. -/
def sampleEntry : DirEntry := ⟨Vector.replicate 16 97, 7, ftRegular⟩

theorem emptyDir_sector (k : ℕ) : (inodeInit 5).sector k = 0 := by
  by_cases h : k < 13 <;> simp [inodeInit, Inode.sector, Vector.getD, h]

theorem emptyDir_wellFormed : WellFormedDir (blankState.setInode 0 (inodeInit 5)) (inodeInit 5) where
  size_dvd := rfl
  size_le := by decide
  table_used := fun h => absurd (emptyDir_sector 12) h
  block_used := by
    intro k hk
    simp [Inode.blockLba, emptyDir_sector] at hk
  block_apart := by
    intro k hk
    simp [Inode.blockLba, emptyDir_sector] at hk

/-- The first entry of an empty directory. -/
theorem dir_entry_added_empty : ∃ t y,
    syncDirEntry (blankState.setInode 0 (inodeInit 5)) 0 sampleEntry ⟨1024, zeros⟩ =
      .ok (true, t) ∧
    t.inodes 0 = some y ∧ EntryAdded zeros t.disk (inodeInit 5) y sampleEntry := by
  have hadded := (dir_entry_added_iff (blankState.setInode 0 (inodeInit 5)) 0 (inodeInit 5)
    sampleEntry ⟨1024, zeros⟩ (blankState_mounted _) (setInode_inodes_self ..) emptyDir_wellFormed
    (by decide) (by decide)).mpr (.inl (emptyDir_sector 12))
  obtain ⟨⟨done, t⟩, h, rfl⟩ : ∃ v, syncDirEntry (blankState.setInode 0 (inodeInit 5)) 0 sampleEntry
      ⟨1024, zeros⟩ = .ok v ∧ v.1 = true := by decide
  obtain ⟨y, hy⟩ := hadded t h
  exact ⟨t, y, h, hy⟩

/-- Twelve full direct blocks, and an indirect table with one block that has one entry. -/
def grownDir : Inode where
  iNo := 5
  iSize := 24 * (12 * 21 + 1)
  iOpenCnts := 1
  writeDeny := 0
  iSectors := #v[612, 613, 614, 615, 616, 617, 618, 619, 620, 621, 622, 623, 624]

def grownDirDisk : Image :=
  overlay (overlay (fun i => if i < 512 * 624 then 1 else 0) (512 * 624) 4 (wordByte 625))
    (512 * 625) 24 (fun _ => 1)

def grownDirState : State where
  disk := grownDirDisk
  part := smallPartition
  blockBitmap := ⟨512, fun i => if i < 2 then 0xff else 0⟩
  inodeBitmap := ⟨512, zeros⟩
  inodes := fun _ => some grownDir
  nextInode := 1
  openInodes := [0]
  rootDir := 0
  fileTable := Vector.replicate 32 ⟨0, 0, none⟩
  tasks := fun _ => none
  cur := 0
  heap := fun _ => true

theorem grownDir_direct {k : ℕ} (hk : k < 13) : (grownDir.sector k).toNat = 612 + k := by
  interval_cases k <;> rfl

theorem grownDir_table {k : ℕ} (hk : k < 128) :
    wordAt grownDirDisk (512 * 624 + 4 * k) = if k = 0 then 625 else 0 := by
  have houter : wordAt grownDirDisk (512 * 624 + 4 * k) =
      wordAt (overlay (fun i => if i < 512 * 624 then 1 else 0) (512 * 624) 4 (wordByte 625))
        (512 * 624 + 4 * k) := wordAt_congr fun i hi => overlay_outside (by omega)
  rw [houter, show 512 * 624 + 4 * k = 4 * (128 * 624 + k) by omega,
    show 512 * 624 = 4 * (128 * 624) by omega, wordAt_overlay_word]
  by_cases h : k = 0
  · rw [if_pos (by omega), if_pos h]
  · rw [if_neg (by omega), if_neg h]
    refine wordAt_of_bytes fun i hi => ?_
    rw [if_neg (by omega)]
    interval_cases i <;> rfl

theorem grownDir_block {k : ℕ} (hne : grownDir.blockLba grownDirDisk k ≠ 0) :
    (grownDir.blockLba grownDirDisk k).toNat = if k < 12 then 612 + k else 625 := by
  unfold Inode.blockLba at hne ⊢
  split_ifs with hlow htable
  · exact grownDir_direct (by omega)
  · rw [if_neg hlow, if_pos htable, grownDir_direct (by omega), grownDir_table (by omega)] at hne
    rw [grownDir_direct (by omega), grownDir_table (by omega)]
    split_ifs at hne ⊢ with h0
    · rfl
    · exact absurd rfl hne
  · rw [if_neg hlow, if_neg htable] at hne
    exact absurd rfl hne

theorem grownDir_used {b : UInt32} (h : 612 ≤ b.toNat) (h' : b.toNat < 628) :
    UsedBlock grownDirState b where
  start_le := h
  le_max := by
    unfold maxLba
    omega
  used := by
    change bitmapScanTest ⟨512, fun i => if i < 2 then 0xff else 0⟩ (b.toNat - 612) = true
    obtain ⟨k, hk, hb⟩ : ∃ k < 16, b.toNat - 612 = k := ⟨_, by omega, rfl⟩
    rw [hb]
    interval_cases k <;> rfl

theorem grownDir_wellFormed : WellFormedDir grownDirState grownDir where
  size_dvd := rfl
  size_le := by decide
  table_used := fun _ => grownDir_used (by rw [grownDir_direct (by omega)]; omega)
    (by rw [grownDir_direct (by omega)]; omega)
  block_used := by
    intro k hk
    have hlba := grownDir_block hk
    change (grownDir.blockLba grownDirState.disk k).toNat = _ at hlba
    exact grownDir_used (by split_ifs at hlba <;> omega) (by split_ifs at hlba <;> omega)
  block_apart := by
    intro k hk heq
    have hlba := grownDir_block hk
    change grownDir.blockLba grownDirDisk k = _ at heq
    rw [heq, grownDir_direct (by omega)] at hlba
    split_ifs at hlba <;> omega

theorem grownDir_full {k : ℕ} (hk : k < 12) :
    grownDir.sector k ≠ 0 ∧ FullBlock grownDirDisk (grownDir.sector k) := by
  have hlba := grownDir_direct (show k < 13 by omega)
  constructor
  · intro h0
    rw [h0] at hlba
    change 0 = _ at hlba
    omega
  · intro j hj
    have hones : (dirEntryAt grownDirDisk (grownDir.sector k) j).fType = 0x01010101 := by
      refine wordAt_of_bytes fun i hi => ?_
      have hbyte : ∀ a < 512 * 624, grownDirDisk a = 1 := by
        intro a ha
        rw [grownDirDisk, overlay_outside (by omega), overlay_outside (by omega), if_pos ha]
      rw [slice_apply, hbyte _ (by rw [hlba]; unfold direntSize; omega)]
      interval_cases i <;> rfl
    rw [hones]
    decide

/-- A directory of 253 entries: adding one more replaces its indirect table. -/
theorem sync_dir_entry_drops_table : Mounted grownDirState ∧ WellFormedDir grownDirState grownDir ∧
    ¬ ∀ t, syncDirEntry grownDirState 0 sampleEntry ⟨1024, zeros⟩ = .ok (true, t) →
      ∃ y, t.inodes 0 = some y ∧ EntryAdded grownDirDisk t.disk grownDir y sampleEntry := by
  have hm : Mounted grownDirState :=
    { blockLen := rfl
      inodeLen := rfl
      free_le := by
        intro i hi
        have hlt : i < 8 * 512 := ((Bitmap.mem_free _ _).mp hi).1
        change 612 + i ≤ maxLba
        unfold maxLba
        omega }
  have hcard : 2 ≤ grownDirState.blockBitmap.free.card := by
    apply Finset.one_lt_card.mpr
    exact ⟨16, by rw [Bitmap.mem_free]; decide, 17, by rw [Bitmap.mem_free]; decide, by omega⟩
  refine ⟨hm, grownDir_wellFormed, fun hall => ?_⟩
  obtain ⟨t, y, ht, hy, hlost⟩ := syncDirEntry_loses (e := sampleEntry) hm rfl grownDir_wellFormed
    (show 512 ≤ (⟨1024, zeros⟩ : Buffer).size by decide) (fun _ hi => grownDir_full hi) (by decide)
    hcard
  obtain ⟨z, hz, hadded⟩ := hall t ht
  cases hy.symm.trans hz
  exact hlost hadded.blocks

end Added

end X86System.FileSystem
