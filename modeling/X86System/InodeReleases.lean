import X86System.FileLimits
import X86System.Removal
import X86System.Lookup
import X86System.BitmapSectors

/-!
# Releasing an inode

`inode_release` clears one bit for each block that the record of the inode refers to,
the indirect table among them, and then the bit of its number. Each block that it frees
is one step; the bits that are cleared so far are a set, to which the loop adds one bit
after the other. The memory for its buffers is not checked.
-/
namespace X86System.FileSystem
open Bytes Exec

variable {s t u : State} {a : InodePtr} {n : UInt32} {x y : Inode} {c : Buffer} {k i : ℕ}
  {B B' : Set ℕ} {b : UInt32}

section Freeing

/-- A data block behind the first one. -/
structure DataBlock (s : State) (b : UInt32) : Prop where
  start_lt : s.part.dataStartLba < b.toNat
  le_max : b.toNat ≤ maxLba
  in_bitmap : b.toNat - s.part.dataStartLba < 8 * s.blockBitmap.btmpBytesLen

/-- The bit of a block. -/
def State.bitOf (s : State) (b : UInt32) : ℕ := b.toNat - s.part.dataStartLba

/-- From `s` to `t` the bits in `B` of the block bitmap were cleared and nothing else changed but
the disk, on which no bitmap sector was left behind. -/
structure FreesBits (s t : State) (B : Set ℕ) : Prop where
  part : t.part = s.part
  len : t.blockBitmap.btmpBytesLen = s.blockBitmap.btmpBytesLen
  bits : ∀ i, bitmapScanTest t.blockBitmap i = true ↔
    bitmapScanTest s.blockBitmap i = true ∧ i ∉ B
  inodeBitmap : t.inodeBitmap = s.inodeBitmap
  inodes : t.inodes = s.inodes
  heap : t.heap = s.heap
  mounted : Mounted t
  through : Through s t

theorem FreesBits.refl (hm : Mounted s) : FreesBits s s ∅ :=
  ⟨rfl, rfl, fun i => by simp, rfl, rfl, rfl, hm, Through.refl s⟩

theorem FreesBits.trans (h : FreesBits s t B) (h' : FreesBits t u B') : FreesBits s u (B ∪ B') where
  part := h'.part.trans h.part
  len := h'.len.trans h.len
  bits i := by rw [h'.bits, h.bits, Set.mem_union, not_or, and_assoc]
  inodeBitmap := h'.inodeBitmap.trans h.inodeBitmap
  inodes := h'.inodes.trans h.inodes
  heap := h'.heap.trans h.heap
  mounted := h'.mounted
  through := h.through.trans h'.through

theorem FreesBits.congr (h : FreesBits s t B) (hB : B = B') : FreesBits s t B' := hB ▸ h

theorem DataBlock.congr (h : DataBlock s b) (hpart : t.part = s.part)
    (hlen : t.blockBitmap.btmpBytesLen = s.blockBitmap.btmpBytesLen) : DataBlock t b := by
  refine ⟨?_, h.le_max, ?_⟩
  · rw [hpart]
    exact h.start_lt
  · rw [hpart, hlen]
    exact h.in_bitmap

theorem FreesBits.block (h : FreesBits s t B) (hb : DataBlock s b) : DataBlock t b :=
  hb.congr h.part h.len

/-- The index that the code computes is the bit of the block. -/
theorem DataBlock.index (hb : DataBlock s b) :
    (b - UInt32.ofNat s.part.dataStartLba).toNat = s.bitOf b := by
  have hlt := hb.start_lt
  have hb32 := b.toNat_lt
  have hstart : (UInt32.ofNat s.part.dataStartLba).toNat = s.part.dataStartLba := by
    rw [UInt32.toNat_ofNat', Nat.mod_eq_of_lt (by omega)]
  rw [UInt32.toNat_sub_of_le _ _ (UInt32.le_iff_toNat_le.mpr (by omega)), hstart, State.bitOf]

theorem DataBlock.index_ne (hb : DataBlock s b) :
    b - UInt32.ofNat s.part.dataStartLba ≠ 0 := by
  intro hzero
  have hidx := hb.index
  rw [hzero, State.bitOf] at hidx
  have hlt := hb.start_lt
  have : (0 : UInt32).toNat = 0 := rfl
  omega

/-- One block is given back. -/
theorem freeBlock_frees (hm : Mounted s) (hb : DataBlock s b) :
    ∃ t, freeBlock s b = .ok t ∧ FreesBits s t {s.bitOf b} := by
  have hidx := hb.index
  have hclear : Mounted { s with blockBitmap := bitmapSet s.blockBitmap (s.bitOf b) false } := by
    refine ⟨hm.blockLen, hm.inodeLen, fun i hi => ?_⟩
    obtain ⟨hlt, hbit⟩ := (Bitmap.mem_free _ _).mp hi
    rw [bitmapScanTest_set] at hbit
    by_cases h : s.bitOf b = i
    · have hstart := hb.start_lt
      have hmax := hb.le_max
      unfold State.bitOf at h
      change s.part.dataStartLba + i ≤ maxLba
      omega
    · rw [if_neg h] at hbit
      exact hm.free_le i ((Bitmap.mem_free _ _).mpr ⟨hlt, hbit⟩)
  obtain ⟨d, hsync, -⟩ := bitmapSync_block hclear (i := s.bitOf b) hb.in_bitmap
  have hrun : freeBlock s b = .ok (State.setDisk
      { s with blockBitmap := bitmapSet s.blockBitmap (s.bitOf b) false } d) := by
    rw [freeBlock, hidx]
    exact hsync
  refine ⟨_, hrun, rfl, rfl, fun i => ?_, rfl, rfl, rfl, hclear.of_disk d,
    (freeBlock_through s b).of_ok hrun⟩
  change bitmapScanTest (bitmapSet s.blockBitmap (s.bitOf b) false) i = true ↔ _
  rw [bitmapScanTest_set, Set.mem_singleton_iff]
  by_cases hi : s.bitOf b = i
  · simp [hi]
  · simp [hi, Ne.symm hi]

end Freeing

section Loop

/-- The bits of the blocks that are listed from place `k` on, at most `m` of them. -/
def listedBits (s : State) (c : Buffer) (k m : ℕ) : Set ℕ :=
  {i | ∃ j, k ≤ j ∧ j < k + m ∧ wordAt c.bytes (4 * j) ≠ 0 ∧ i = s.bitOf (wordAt c.bytes (4 * j))}

theorem mem_listedBits {m : ℕ} : i ∈ listedBits s c k m ↔ ∃ j, k ≤ j ∧ j < k + m ∧
    wordAt c.bytes (4 * j) ≠ 0 ∧ i = s.bitOf (wordAt c.bytes (4 * j)) := Iff.rfl

theorem listedBits_zero (s : State) (c : Buffer) (k : ℕ) : listedBits s c k 0 = ∅ := by
  ext i
  rw [mem_listedBits, Set.mem_empty_iff_false, iff_false]
  rintro ⟨j, hj, hj', -⟩
  omega

theorem listedBits_succ (s : State) (c : Buffer) (k m : ℕ) :
    listedBits s c k (m + 1) = listedBits s c k 1 ∪ listedBits s c (k + 1) m := by
  ext i
  rw [Set.mem_union, mem_listedBits, mem_listedBits, mem_listedBits]
  constructor
  · rintro ⟨j, hj, hj', hrest⟩
    by_cases hjk : j = k
    · exact Or.inl ⟨j, hj, by omega, hrest⟩
    · exact Or.inr ⟨j, by omega, by omega, hrest⟩
  · rintro (⟨j, hj, hj', hrest⟩ | ⟨j, hj, hj', hrest⟩)
    · exact ⟨j, hj, by omega, hrest⟩
    · exact ⟨j, by omega, by omega, hrest⟩

theorem listedBits_congr (hpart : t.part = s.part) (m : ℕ) :
    listedBits t c k m = listedBits s c k m := by
  unfold listedBits State.bitOf
  rw [hpart]

/-- One round of the loop of `inode_release`. -/
theorem releaseRound_frees (hm : Mounted s) (hc : 4 * k + 4 ≤ c.size)
    (hblock : wordAt c.bytes (4 * k) ≠ 0 → DataBlock s (wordAt c.bytes (4 * k))) :
    ∃ t, releaseBlocks c 1 k s = .ok t ∧ FreesBits s t (listedBits s c k 1) := by
  have hone : ∀ i, i ∈ listedBits s c k 1 ↔
      wordAt c.bytes (4 * k) ≠ 0 ∧ i = s.bitOf (wordAt c.bytes (4 * k)) := by
    intro i
    constructor
    · rintro ⟨j, hj, hj', hrest⟩
      obtain rfl : j = k := by omega
      exact hrest
    · intro hrest
      exact ⟨k, le_rfl, Nat.lt_succ_self k, hrest⟩
  unfold releaseBlocks
  rw [Buffer.word_of_le hc, ok_bind]
  by_cases hzero : wordAt c.bytes (4 * k) = 0
  · rw [if_pos hzero]
    refine ⟨s, rfl, (FreesBits.refl hm).congr ?_⟩
    ext i
    simp [hone, hzero]
  · have hb := hblock hzero
    obtain ⟨t, hfree, ht⟩ := freeBlock_frees hm hb
    rw [if_neg hzero, ensure_of hb.index_ne, ok_bind, hfree, ok_bind]
    refine ⟨t, rfl, ht.congr ?_⟩
    ext i
    simp [hone, hzero]

theorem releaseBlocks_succ (c : Buffer) (m k : ℕ) (s : State) :
    releaseBlocks c (m + 1) k s = (do
      let s ← releaseBlocks c 1 k s
      releaseBlocks c m (k + 1) s) := by
  rw [releaseBlocks, releaseBlocks]
  cases c.word k with
  | error e => rfl
  | ok b =>
    rw [ok_bind, ok_bind]
    by_cases hb : b = 0
    · rw [if_pos hb, if_pos hb]
      rfl
    · rw [if_neg hb, if_neg hb]
      by_cases hidx : b - UInt32.ofNat s.part.dataStartLba ≠ 0
      · rw [ensure_of hidx, ok_bind, ok_bind]
        cases freeBlock s b <;> rfl
      · rw [ensure_of_not hidx]
        rfl

/-- The loop of `inode_release` clears the bits of the listed blocks. -/
theorem releaseBlocks_frees (m : ℕ) : ∀ {k : ℕ} {s : State}, Mounted s → 4 * (k + m) ≤ c.size →
    (∀ j, k ≤ j → j < k + m → wordAt c.bytes (4 * j) ≠ 0 → DataBlock s (wordAt c.bytes (4 * j))) →
    ∃ t, releaseBlocks c m k s = .ok t ∧ FreesBits s t (listedBits s c k m) := by
  induction m with
  | zero =>
    intro k s hm _ _
    exact ⟨s, rfl, (FreesBits.refl hm).congr (listedBits_zero s c k).symm⟩
  | succ m ih =>
    intro k s hm hc hblocks
    obtain ⟨t, hround, ht⟩ := releaseRound_frees hm (by omega)
      (hblocks k le_rfl (by omega))
    obtain ⟨u, hrest, hu⟩ := ih (k := k + 1) ht.mounted (by omega) fun j hj hj' hne =>
      ht.block (hblocks j (by omega) (by omega) hne)
    refine ⟨u, ?_, (ht.trans hu).congr ?_⟩
    · rw [releaseBlocks_succ, hround, ok_bind, hrest]
    · rw [listedBits_congr ht.part, ← listedBits_succ]

/-- The `while` loop of `inode_release` with its 8-bit index; the number is that of its rounds. -/
def releaseWhile (allBlocks : Buffer) (blockCnt : UInt8) :
    ℕ → UInt8 → State → Except Fault (ℕ × State)
  | 0, blockIdx, s => if blockIdx < blockCnt then .error .diverge else .ok (0, s)
  | fuel + 1, blockIdx, s =>
    if blockIdx < blockCnt then do
      let s ← releaseBlocks allBlocks 1 blockIdx.toNat s
      let (rounds, s) ← releaseWhile allBlocks blockCnt fuel (blockIdx + 1) s
      .ok (rounds + 1, s)
    else .ok (0, s)

/-- The index does not wrap, so that the loop makes one round for each place of the list. -/
theorem releaseWhile_eq (cnt : UInt8) (fuel : ℕ) : ∀ {idx : UInt8} {s t : State} {m : ℕ},
    idx.toNat + m = cnt.toNat → m ≤ fuel → releaseBlocks c m idx.toNat s = .ok t →
    releaseWhile c cnt fuel idx s = .ok (m, t) := by
  induction fuel with
  | zero =>
    intro idx s t m hidx hm hrun
    obtain rfl : m = 0 := by omega
    rw [releaseWhile, if_neg (by rw [UInt8.lt_iff_toNat_lt]; omega)]
    obtain rfl : s = t := Except.ok.inj hrun
    rfl
  | succ fuel ih =>
    intro idx s t m hidx hm hrun
    cases m with
    | zero =>
      rw [releaseWhile, if_neg (by rw [UInt8.lt_iff_toNat_lt]; omega)]
      obtain rfl : s = t := Except.ok.inj hrun
      rfl
    | succ m =>
      have hcnt := cnt.toNat_lt
      have hnext : (idx + 1).toNat = idx.toNat + 1 := by
        rw [UInt8.toNat_add]
        exact Nat.mod_eq_of_lt (by rw [UInt8.toNat_one]; omega)
      rw [releaseBlocks_succ] at hrun
      obtain ⟨v, hround, hrest⟩ := of_bind_eq_ok hrun
      rw [← hnext] at hrest
      rw [releaseWhile, if_pos (by rw [UInt8.lt_iff_toNat_lt]; omega), hround, ok_bind,
        ih (by omega) (by omega) hrest, ok_bind]

end Loop

section Releasing

/-- The bits of the blocks that a record refers to: its data blocks, and the indirect table if it
has one. -/
def State.recordBits (s : State) (x : Inode) : Set ℕ :=
  {i | (∃ k < 140, x.blockLba s.disk k ≠ 0 ∧ i = s.bitOf (x.blockLba s.disk k)) ∨
    x.sector 12 ≠ 0 ∧ i = s.bitOf (x.sector 12)}

/-- Inode `n` can be released: it is what its record says, in memory or on disk, and the record
refers to data blocks behind the first. -/
structure Releasable (s : State) (n : UInt32) : Prop where
  opens : OpenOk s
  mounted : Mounted s
  lt : n.toNat < 4096
  number : (s.view n).iNo = n
  block : ∀ k < 140, (s.view n).blockLba s.disk k ≠ 0 → DataBlock s ((s.view n).blockLba s.disk k)
  table : (s.view n).sector 12 ≠ 0 → DataBlock s ((s.view n).sector 12)

/-- The requests for memory that `inode_open` makes for inode `n`: none if it is open. -/
def State.openRequests (s : State) (n : UInt32) : ℕ := if (s.openInode n).isSome then 0 else 2

/-- `inode_open` gave the inode `x` of number `n`, which is at `a`. -/
structure OpenedAs (s t : State) (n : UInt32) (a : InodePtr) (x : Inode) : Prop where
  inode : t.inodes a = some x
  number : x.iNo = n
  sectors : x.iSectors = (s.view n).iSectors
  disk : t.disk = s.disk
  part : t.part = s.part
  blockBitmap : t.blockBitmap = s.blockBitmap
  inodeBitmap : t.inodeBitmap = s.inodeBitmap
  heap : ∀ k, t.heap k = s.heap (k + s.openRequests n)

/-- The inode is loaded into a new struct. -/
theorem inodeLoad_fresh (hlt : n.toNat < 4096) (h0 : s.heap 0 = true) (h1 : s.heap 1 = true) :
    inodeLoad s n = .ok (s.nextInode, { s with
      heap := fun k => s.heap (k + 2)
      nextInode := s.nextInode + 1
      inodes := Function.update s.inodes s.nextInode
        (some { Inode.ofBytes (diskRecord s n.toNat) with iOpenCnts := 1 })
      openInodes := s.nextInode :: s.openInodes }) := by
  have hsec := recordSector_le s hlt
  have hdata := s.part.dataStartLba_le
  have hend := s.part.end_le
  have hread := fun k (hk : n.toNat * inodeSize % 512 + inodeSize ≤ 512 * k) =>
    record_read s zeros hk
  rw [inodeLoad, inodeLocate_eq s hlt]
  simp only [ok_bind, mallocInode, h0, if_true, sysMalloc, h1, deref_some, decide_eq_true_eq]
  by_cases htwo : 512 - n.toNat * inodeSize % 512 < inodeSize
  · rw [if_pos htwo, ideRead_of_le (by omega) (by omega) (by dsimp only; omega)]
    simp [State.setInode, hread 2 (by unfold inodeSize; omega)]
  · rw [if_neg htwo, ideRead_of_le (by omega) (by omega) (by dsimp only; omega)]
    simp [State.setInode, hread 1 (by omega)]

/-- A struct or a sector buffer that is not there is used all the same. -/
theorem inodeLoad_none (h : ¬ (s.heap 0 = true ∧ s.heap 1 = true)) :
    Returns (inodeLoad s n) fun _ => False := by
  unfold inodeLoad
  refine returns_skip fun pos => ?_
  by_cases h0 : s.heap 0 = true
  · have h1 : s.heap 1 = false := by simpa [h0] using h
    simp only [mallocInode, h0, if_true, sysMalloc, h1]
    exact trivial
  · simp only [mallocInode, h0]
    exact returns_skip fun b => returns_skip fun b => trivial

/-- What `inode_open` gives if it finds memory. -/
theorem Releasable.inodeOpen (h : Releasable s n)
    (hheap : ∀ k < s.openRequests n, s.heap k = true) :
    ∃ a t x, inodeOpen s n = .ok (a, t) ∧ OpenedAs s t n a x := by
  have hfind : findOpen s n s.openInodes = .ok (s.openInode n) :=
    findOpen_eq fun a ha => (h.opens.live a ha).imp fun _ hx => hx.1
  unfold FileSystem.inodeOpen
  rw [hfind, ok_bind]
  cases hopen : s.openInode n with
  | some a =>
    obtain ⟨x, hx, hno⟩ := openInode_iNo hopen
    simp only [hx, deref_some, ok_bind]
    refine ⟨a, _, _, rfl, setInode_inodes_self .., hno, ?_, rfl, rfl, rfl, rfl, fun k => ?_⟩
    · rw [view_of_open hopen hx]
    · rw [State.openRequests, hopen]
      rfl
  | none =>
    have htwo : s.openRequests n = 2 := by
      rw [State.openRequests, hopen]
      rfl
    rw [htwo] at hheap
    have hrecord := view_of_none hopen
    refine ⟨_, _, _, inodeLoad_fresh h.lt (hheap 0 (by omega)) (hheap 1 (by omega)),
      Function.update_self .., ?_, ?_, rfl, rfl, rfl, rfl, fun k => ?_⟩
    · dsimp only
      rw [← hrecord, h.number]
    · rw [hrecord]
    · rw [htwo]

/-- Without that memory it does not return. -/
theorem Releasable.inodeOpen_error (h : Releasable s n)
    (hheap : ¬ ∀ k < s.openRequests n, s.heap k = true) :
    Returns (FileSystem.inodeOpen s n) fun _ => False := by
  have hfind : findOpen s n s.openInodes = .ok (s.openInode n) :=
    findOpen_eq fun a ha => (h.opens.live a ha).imp fun _ hx => hx.1
  cases hopen : s.openInode n with
  | some a =>
    refine absurd (fun k hk => ?_) hheap
    rw [State.openRequests, hopen] at hk
    exact absurd hk (Nat.not_lt_zero k)
  | none =>
    unfold FileSystem.inodeOpen
    rw [hfind, hopen, ok_bind]
    refine inodeLoad_none fun hboth => hheap fun k hk => ?_
    rw [State.openRequests, hopen] at hk
    have hk : k < 2 := hk
    interval_cases k
    · exact hboth.1
    · exact hboth.2

theorem OpenedAs.sector (ho : OpenedAs s t n a x) : x.sector = (s.view n).sector := by
  funext k
  unfold Inode.sector
  rw [ho.sectors]

theorem OpenedAs.blockLba (ho : OpenedAs s t n a x) :
    x.blockLba t.disk = (s.view n).blockLba s.disk := by
  funext k
  unfold Inode.blockLba
  rw [ho.sector, ho.disk]

theorem OpenedAs.mounted (ho : OpenedAs s t n a x) (hm : Mounted s) : Mounted t := by
  constructor <;> rw [ho.part]
  · rw [ho.blockBitmap, hm.blockLen]
  · rw [ho.inodeBitmap, hm.inodeLen]
  · rw [ho.blockBitmap]
    exact hm.free_le

theorem OpenedAs.block (ho : OpenedAs s t n a x) (hb : DataBlock s b) : DataBlock t b :=
  hb.congr ho.part (congrArg Bitmap.btmpBytesLen ho.blockBitmap)

/-- How many places of the block list the loop of `inode_release` looks at. -/
def Inode.blockPlaces (x : Inode) : ℕ := if x.sector 12 ≠ 0 then 140 else 12

/-- What `inode_release` does to the block bitmap: it takes down the block list of the record and
clears the bit of the table and, in 12 or 140 rounds, those of the blocks in the list. -/
structure BlocksFreed (s t : State) (n : UInt32) (x : Inode) (c : Buffer) (u v : State) : Prop where
  load : loadBlocks t x = .ok c
  table : releaseTable t x = .ok u
  loop : releaseBlocks c x.blockPlaces 0 u = .ok v
  frees : FreesBits t v (s.recordBits (s.view n))

theorem OpenedAs.blocksFreed (h : Releasable s n) (ho : OpenedAs s t n a x) :
    ∃ c u v, BlocksFreed s t n x c u v := by
  have hm := ho.mounted h.mounted
  have hbit : t.bitOf = s.bitOf := by
    funext b
    unfold State.bitOf
    rw [ho.part]
  have hmax : (x.sector 12).toNat ≤ maxLba := by
    by_cases hzero : x.sector 12 = 0
    · rw [hzero]
      exact Nat.zero_le _
    · rw [ho.sector] at hzero ⊢
      exact (h.table hzero).le_max
  obtain ⟨b, hcopy, hlist⟩ := copyDirect_blockList x
  obtain ⟨c, hload, hc, hwords⟩ := loadIndirect_words (s := t) hlist hmax
  obtain ⟨u, htable, hu⟩ : ∃ u, releaseTable t x = .ok u ∧
      FreesBits t u {i | x.sector 12 ≠ 0 ∧ i = s.bitOf (x.sector 12)} := by
    unfold releaseTable
    by_cases hzero : x.sector 12 = 0
    · rw [if_neg (not_not.mpr hzero)]
      refine ⟨t, rfl, (FreesBits.refl hm).congr ?_⟩
      ext i
      exact iff_of_false (Set.notMem_empty i) fun hi => hi.1 hzero
    · have hb : DataBlock t (x.sector 12) := ho.block (by
        rw [ho.sector] at hzero ⊢
        exact h.table hzero)
      obtain ⟨u, hfree, hu⟩ := freeBlock_frees hm hb
      rw [if_pos hzero, ensure_of hb.index_ne, ok_bind]
      refine ⟨u, hfree, hu.congr ?_⟩
      ext i
      rw [Set.mem_singleton_iff, hbit]
      exact ⟨fun hi => ⟨hzero, hi⟩, fun hi => hi.2⟩
  have hplaces : x.blockPlaces ≤ 140 := by
    unfold Inode.blockPlaces
    split_ifs <;> omega
  obtain ⟨v, hloop, hv⟩ := releaseBlocks_frees (c := c) x.blockPlaces (k := 0) hu.mounted
    (by omega) fun j _ hj hne => by
      rw [hwords j (by omega), ho.blockLba] at hne ⊢
      exact hu.block (ho.block (h.block j (by omega) hne))
  refine ⟨c, u, v, ?_, htable, hloop, (hu.trans hv).congr ?_⟩
  · rw [loadBlocks, hcopy, ok_bind, hload]
  · ext i
    rw [Set.mem_union, mem_listedBits]
    have hubit : u.bitOf = s.bitOf := by
      funext b
      unfold State.bitOf
      rw [hu.part, ho.part]
    rw [hubit]
    unfold State.recordBits
    rw [← ho.blockLba, ← ho.sector]
    constructor
    · rintro (htab | ⟨j, -, hj, hne, hi⟩)
      · exact Or.inr htab
      · rw [hwords j (by omega)] at hne hi
        exact Or.inl ⟨j, by omega, hne, hi⟩
    · rintro (⟨j, hj, hne, hi⟩ | htab)
      · refine Or.inr ⟨j, Nat.zero_le j, ?_, by rwa [hwords j hj], by rwa [hwords j hj]⟩
        -- behind the direct blocks there is nothing without a table
        unfold Inode.blockPlaces
        split_ifs with hsector
        · omega
        · by_contra hge
          refine hne ?_
          rw [Inode.blockLba, if_neg (by omega), if_neg fun hin => hsector hin.2]
      · exact Or.inl htab

/-- The state after the bit of inode number `n` was cleared. -/
def State.dropInode (s : State) (n : UInt32) : State :=
  { s with inodeBitmap := bitmapSet s.inodeBitmap n.toNat false }

/-- The bit of an inode number is cleared, also on disk. -/
theorem dropInode_sync (hm : Mounted s) (hlt : n.toNat < 4096) :
    ∃ d, bitmapSync (s.dropInode n) n.toNat .inodeBitmap = .ok ((s.dropInode n).setDisk d) ∧
      (Synced s → Synced ((s.dropInode n).setDisk d)) := by
  have hlen := hm.inodeLen
  have h1 := s.part.inodeBitmapLba_eq
  have h2 := s.part.inodeTableLba_eq
  have h3 := s.part.dataStartLba_eq
  have h4 := s.part.dataStartLba_le
  have h5 := s.part.end_le
  have h6 := s.part.inodeBitmapSects_eq
  have hwrite : bitmapSync (s.dropInode n) n.toNat .inodeBitmap = _ :=
    ideWrite_of_le (by dsimp only [State.dropInode]; omega) Nat.one_pos
      (by dsimp only [State.dropInode, bitmapSet_len]; omega)
  refine ⟨_, hwrite, fun hsync => ?_⟩
  exact ((bitmapSync_inodes (s := s.dropInode n) hsync.blockLen hsync.inodeLen hsync.blocks
    n.toNat).of_ok hwrite).1

/-- The bits of the blocks of inode `n` and the bit of its number are cleared, no other bit of
either bitmap changed, and what was the same on disk still is. -/
structure BitsReleased (s t : State) (n : UInt32) : Prop where
  blockLen : t.blockBitmap.btmpBytesLen = s.blockBitmap.btmpBytesLen
  inodeLen : t.inodeBitmap.btmpBytesLen = s.inodeBitmap.btmpBytesLen
  blocks : ∀ i, bitmapScanTest t.blockBitmap i = true ↔
    bitmapScanTest s.blockBitmap i = true ∧ i ∉ s.recordBits (s.view n)
  inodes : ∀ i, bitmapScanTest t.inodeBitmap i = true ↔
    bitmapScanTest s.inodeBitmap i = true ∧ i ≠ n.toNat
  synced : Synced s → Synced t

/-- The loop of `inode_release` with its 8-bit counters ends after 12 or 140 rounds. -/
def LoopEnds (s : State) (n : UInt32) : Prop :=
  ∀ a t x, inodeOpen s n = .ok (a, t) → t.inodes a = some x → ∃ c u v,
    loadBlocks t x = .ok c ∧ releaseTable t x = .ok u ∧
      releaseWhile c (UInt8.ofNat x.blockPlaces) 140 0 u = .ok (x.blockPlaces, v) ∧
      (x.blockPlaces = 12 ∨ x.blockPlaces = 140)

/-- `inode_release` frees exactly what inode `n` refers to. -/
def ReleasesExactly (s : State) (n : UInt32) : Prop :=
  (∃ t, inodeRelease s n = .ok t ∧ BitsReleased s t n) ∧ LoopEnds s n

/-- Memory for the struct and the buffer of `inode_open`, if inode `n` is not open, and for the
buffer of `inode_delete`. -/
def ReleaseMemory (s : State) (n : UInt32) : Prop :=
  ∀ k < s.openRequests n + 1, s.heap k = true

instance (s : State) (n : UInt32) : Decidable (ReleaseMemory s n) :=
  inferInstanceAs (Decidable (∀ k < _, _))

/-- After the bitmaps only the buffer for the record is missing. -/
theorem OpenedAs.inodeRelease_eq (h : Releasable s n) (ho : OpenedAs s t n a x)
    (hopen : FileSystem.inodeOpen s n = .ok (a, t)) :
    ∃ u, BitsReleased s u n ∧ u.inodes a = some x ∧ u.part = s.part ∧ u.heap = t.heap ∧
      inodeRelease s n = (do
        let ioBuf ← deref (sysMalloc u 1024).1
        let v ← inodeDelete u.popHeap n ioBuf
        inodeClose v a) := by
  obtain ⟨c, w, v, hfreed⟩ := ho.blocksFreed h
  have hv := hfreed.frees
  have hthrough : Synced s → Synced v := fun hs =>
    hv.through.lag ∅ none (Lag.of_same hs ho.disk ho.part ho.blockBitmap ho.inodeBitmap)
  obtain ⟨d, hsync, hsynced⟩ := dropInode_sync hv.mounted h.lt
  refine ⟨(v.dropInode n).setDisk d, ⟨hv.len.trans (congrArg _ ho.blockBitmap), ?_, fun i => ?_, fun i => ?_,
    fun hs => hsynced (hthrough hs)⟩, ?_, hv.part.trans ho.part, hv.heap, ?_⟩
  · rw [← ho.inodeBitmap, ← hv.inodeBitmap]
    rfl
  · rw [← ho.blockBitmap]
    exact hv.bits i
  · change bitmapScanTest (bitmapSet v.inodeBitmap n.toNat false) i = true ↔ _
    rw [bitmapScanTest_set, hv.inodeBitmap, ho.inodeBitmap]
    by_cases hi : n.toNat = i
    · simp [hi]
    · simp [hi, Ne.symm hi]
  · exact (congrFun hv.inodes a).trans ho.inode
  · have hloop := hfreed.loop
    unfold Inode.blockPlaces at hloop
    unfold inodeRelease
    rw [hopen, ok_bind]
    dsimp only
    rw [ho.inode, deref_some, ok_bind, ensure_of ho.number, ok_bind, hfreed.load, ok_bind,
      hfreed.table, ok_bind, hloop, ok_bind]
    exact bind_of_ok hsync

theorem BitsReleased.of_same (h : BitsReleased s t n) (hblocks : u.blockBitmap = t.blockBitmap)
    (hinodes : u.inodeBitmap = t.inodeBitmap) (hsync : Synced t → Synced u) : BitsReleased s u n := by
  refine ⟨?_, ?_, ?_, ?_, fun hs => hsync (h.synced hs)⟩
  · rw [hblocks, h.blockLen]
  · rw [hinodes, h.inodeLen]
  · rw [hblocks]
    exact h.blocks
  · rw [hinodes]
    exact h.inodes

/-- `inode_close` concerns neither the disk nor the bitmaps. -/
theorem inodeClose_medium (hx : s.inodes a = some x) : ∃ t, inodeClose s a = .ok t ∧
    t.disk = s.disk ∧ t.part = s.part ∧ t.blockBitmap = s.blockBitmap ∧
      t.inodeBitmap = s.inodeBitmap := by
  unfold inodeClose
  rw [hx, deref_some, ok_bind]
  split_ifs
  · exact ⟨_, rfl, rfl, rfl, rfl, rfl⟩
  · exact ⟨_, rfl, rfl, rfl, rfl, rfl⟩
  · exact ⟨_, rfl, rfl, rfl, rfl, rfl⟩

/-- The loop that runs on the block list of the inode that was opened. -/
theorem OpenedAs.loop (h : Releasable s n) (ho : OpenedAs s t n a x) : ∃ c u v,
    loadBlocks t x = .ok c ∧ releaseTable t x = .ok u ∧
      releaseWhile c (UInt8.ofNat x.blockPlaces) 140 0 u = .ok (x.blockPlaces, v) ∧
      (x.blockPlaces = 12 ∨ x.blockPlaces = 140) := by
  obtain ⟨c, u, v, hfreed⟩ := ho.blocksFreed h
  have hplaces : x.blockPlaces = 12 ∨ x.blockPlaces = 140 := by
    unfold Inode.blockPlaces
    split_ifs
    · exact Or.inr rfl
    · exact Or.inl rfl
  refine ⟨c, u, v, hfreed.load, hfreed.table, releaseWhile_eq _ 140 ?_ ?_ hfreed.loop, hplaces⟩
  · rw [UInt8.toNat_zero, UInt8.toNat_ofNat']
    omega
  · omega

/-- `inode_release` returns only where it found the memory that it does not ask about. -/
theorem Releasable.memory (h : Releasable s n) (hrun : inodeRelease s n = .ok t) :
    ReleaseMemory s n := by
  refine Nat.forall_lt_succ_right.mpr ?_
  by_cases hheap : ∀ k < s.openRequests n, s.heap k = true
  · refine ⟨hheap, ?_⟩
    obtain ⟨a, v, x, hopen, ho⟩ := h.inodeOpen hheap
    obtain ⟨u, -, -, -, hu, heq⟩ := ho.inodeRelease_eq h hopen
    rw [heq] at hrun
    obtain ⟨b, hb, -⟩ := of_bind_eq_ok hrun
    by_contra hnone
    have hfull : ¬ u.heap 0 = true := by
      rw [hu, ho.heap, Nat.zero_add]
      exact hnone
    rw [sysMalloc_of_full hfull] at hb
    cases hb
  · obtain ⟨r, hr, -⟩ := of_bind_eq_ok hrun
    exact ((h.inodeOpen_error hheap).of_ok hr).elim

/-- The file of two bytes is open, with any amount of memory. -/
theorem twoBytes_releasable (heap : ℕ → Bool) : Releasable { twoBytes with heap := heap } 1 where
  opens := by
    refine ⟨List.nodup_singleton 0, fun a ha => ?_, fun a ha => ?_⟩
    · obtain rfl : a = 0 := List.mem_singleton.mp ha
      exact ⟨twoBytesInode, rfl, Nat.one_pos⟩
    · obtain rfl : a = 0 := List.mem_singleton.mp ha
      exact Nat.one_pos
  mounted := ⟨rfl, rfl, twoBytes_mounted.free_le⟩
  lt := by decide
  number := rfl
  block k _ hne := by
    by_cases hk : k = 0
    · subst hk
      have hblock : DataBlock twoBytes 613 := ⟨by decide, by decide, by decide⟩
      exact ⟨hblock.start_lt, hblock.le_max, hblock.in_bitmap⟩
    · have hsector : ∀ j, j ≠ 0 → twoBytesInode.sector j = 0 := by
        intro j hj
        unfold twoBytesInode Inode.sector
        by_cases hj' : j < 13 <;> simp [Vector.getD, hj', Ne.symm hj]
      refine absurd ?_ hne
      change twoBytesInode.blockLba zeros k = 0
      unfold Inode.blockLba
      rw [hsector k hk, hsector 12 (by decide)]
      simp
  table h := absurd rfl h

end Releasing

end X86System.FileSystem
