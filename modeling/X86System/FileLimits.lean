import X86System.FileContents
import X86System.FilePositions

/-!
# The limits of reading and writing

A file has at most 140 blocks. `file_write` compares the new size with that limit and
asserts its block count once more, and both sums are of 32 bits. `file_read` cuts the
count at the end of the file and asserts that the block behind the last byte is below
139. What the two calls do at these limits follows from what they do in the middle of a
file as soon as its bytes are seen as a list.
-/
namespace X86System.FileSystem
open Bytes Exec

variable {s s₀ t : State} {a : InodePtr} {n i nb g : ℕ} {x y : Inode} {f : ℕ → ℕ}
  {own : Finset ℕ} {fd : File}

section Files

/-- How many blocks a file has: none before the first write, then one more than its full
sectors, as far as the indirect table reaches. -/
def Inode.blockCount (x : Inode) : ℕ :=
  if x.sector 0 = 0 then 0 else min 140 (x.iSize.toNat / 512 + 1)

/-- Slot `g` is open for the regular file with the inode `x` at `a`, of at most 140 blocks, all
of them marked used and different from each other. -/
structure RegularFile (s : State) (g : ℕ) (fd : File) (a : InodePtr) (x : Inode) : Prop where
  slot : s.fileTable[g]? = some fd
  pointer : fd.fdInode = some a
  inode : s.inodes a = some x
  size_le : x.iSize.toNat ≤ 140 * 512
  empty : x.sector 0 = 0 → x.iSize = 0
  blocks : ∃ f own, Layout s x x.blockCount f own ∧
    ∀ i ∈ own, i < 8 * s.blockBitmap.btmpBytesLen ∧ bitmapScanTest s.blockBitmap i = true ∧
      s.part.dataStartLba + i ≤ maxLba

theorem RegularFile.setHeap (h : RegularFile s g fd a x) (heap : ℕ → Bool) :
    RegularFile { s with heap := heap } g fd a x where
  slot := h.slot
  pointer := h.pointer
  inode := h.inode
  size_le := h.size_le
  empty := h.empty
  blocks := by
    obtain ⟨f, own, hlayout, hown⟩ := h.blocks
    exact ⟨f, own, hlayout.transfer rfl (fun _ => rfl) fun _ _ _ => rfl, hown⟩

/-- The file stays as it is when its position moves. -/
theorem RegularFile.moved (h : RegularFile s g fd a x) (heap : ℕ → Bool) (q : UInt32) :
    RegularFile ({ s with heap := heap }.setFile g { fd with fdPos := q }) g
      { fd with fdPos := q } a x where
  slot := by
    have hg : g < 32 := (Vector.getElem?_eq_some_iff.mp h.slot).1
    simp [State.setFile, hg]
  pointer := h.pointer
  inode := h.inode
  size_le := h.size_le
  empty := h.empty
  blocks := by
    obtain ⟨f, own, hlayout, hown⟩ := h.blocks
    exact ⟨f, own, hlayout.transfer rfl (fun _ => rfl) fun _ _ _ => rfl, hown⟩

theorem free_set_false {b : Bitmap} (hi : i < 8 * b.btmpBytesLen) :
    (bitmapSet b i false).free = insert i b.free := by
  ext j
  simp only [Bitmap.mem_free, bitmapSet_len, bitmapScanTest_set, Finset.mem_insert]
  by_cases hij : i = j
  · subst hij
    simp [hi]
  · simp [hij, Ne.symm hij]

/-- The bits of some blocks can be cleared. -/
theorem exists_cleared (b : Bitmap) (own : Finset ℕ) (hown : ∀ i ∈ own, i < 8 * b.btmpBytesLen) :
    ∃ b' : Bitmap, b'.btmpBytesLen = b.btmpBytesLen ∧ b'.free = own ∪ b.free := by
  induction own using Finset.induction_on with
  | empty => exact ⟨b, rfl, by simp⟩
  | insert i own _ ih =>
    obtain ⟨b', hlen, hfree⟩ := ih fun j hj => hown j (Finset.mem_insert_of_mem hj)
    have hi := hown i (Finset.mem_insert_self i own)
    refine ⟨bitmapSet b' i false, hlen, ?_⟩
    rw [free_set_false (by rw [hlen]; exact hi), hfree, Finset.insert_union]

theorem length_contents (s : State) (x : Inode) : (s.contents x).length = x.iSize.toNat := by
  unfold State.contents
  rw [List.length_map, List.length_range]

theorem getElem?_contents (s : State) (x : Inode) (hi : i < x.iSize.toNat) :
    (s.contents x)[i]? = some (s.disk (512 * (x.blockLba s.disk (i / 512)).toNat + i % 512)) := by
  unfold State.contents
  rw [List.getElem?_map, List.getElem?_range hi, Option.map_some]

theorem RegularFile.size_cover (h : RegularFile s g fd a x) :
    x.iSize.toNat ≤ 512 * x.blockCount := by
  have hle := h.size_le
  unfold Inode.blockCount
  split_ifs with hzero
  · rw [h.empty hzero]
    exact Nat.zero_le _
  · omega

/-- Below the size limit the block behind the full sectors is there, or the file has none. -/
theorem RegularFile.filled (h : RegularFile s g fd a x) (hlt : x.iSize.toNat < 140 * 512) :
    Filled x.blockCount (s.contents x) := by
  by_cases hzero : x.sector 0 = 0
  · refine Or.inr ⟨if_pos hzero, List.length_eq_zero_iff.mp ?_⟩
    rw [length_contents, h.empty hzero]
    rfl
  · refine Or.inl ?_
    rw [length_contents, Inode.blockCount, if_neg hzero]
    omega

/-- A file holds its bytes: its blocks were free once. -/
theorem RegularFile.holds (h : RegularFile s g fd a x) (hm : Mounted s) :
    ∃ s₀ f own, Holds a x.iNo.toNat s₀ s x x.blockCount f own (s.contents x) ∧ Mounted s₀ ∧
      (x.blockCount = 0 → s₀.blockBitmap.free = s.blockBitmap.free) ∧
      s₀.blockBitmap.free.card = sectorsFor x.blockCount + s.blockBitmap.free.card := by
  obtain ⟨f, own, hlayout, hown⟩ := h.blocks
  obtain ⟨b, hlen, hfree⟩ := exists_cleared s.blockBitmap own fun i hi => (hown i hi).1
  have hdisjoint : Disjoint own s.blockBitmap.free := by
    rw [Finset.disjoint_left]
    intro i hi hfree
    rw [Bitmap.mem_free, (hown i hi).2.1] at hfree
    exact absurd hfree.2 (by decide)
  have hm₀ : Mounted { s with blockBitmap := b } := by
    refine ⟨hlen.trans hm.blockLen, hm.inodeLen, fun i hi => ?_⟩
    rw [hfree, Finset.mem_union] at hi
    obtain hi | hi := hi
    · exact (hown i hi).2.2
    · exact hm.free_le i hi
  refine ⟨{ s with blockBitmap := b }, f, own, ⟨?_, h.inode, rfl, length_contents s x, hlayout,
    fun i hi => ?_⟩, hm₀, fun hnone => ?_, ?_⟩
  · refine ⟨rfl, hm, ?_, ?_, SectorsKept.refl _ _ _, fun _ _ _ _ _ => rfl, fun _ _ => rfl, id⟩
    · rw [hfree]
      exact Finset.subset_union_left
    · rw [hfree, Finset.union_sdiff_cancel_left hdisjoint]
  · rw [length_contents] at hi
    have hcover := h.size_cover
    rw [getElem?_contents s x hi, hlayout.block _ (by omega)]
  · have hempty : own = ∅ := by
      rw [← Finset.card_eq_zero, hlayout.card, hnone]
      rfl
    rw [hfree, hempty, Finset.empty_union]
  · rw [hfree, Finset.card_union_of_disjoint hdisjoint, hlayout.card]

/-- The bytes of a file are the list that it holds. -/
theorem Holds.contents_eq {l : List UInt8} (h : Holds a n s₀ s x nb f own l)
    (hcover : l.length ≤ 512 * nb) : s.contents x = l := by
  refine List.ext_getElem? fun i => ?_
  by_cases hi : i < l.length
  · rw [getElem?_contents s x (by rw [← h.length]; exact hi), h.data i hi,
      h.layout.block _ (by omega)]
  · rw [List.getElem?_eq_none (by rw [length_contents, ← h.length]; omega),
      List.getElem?_eq_none (by omega)]

end Files

section Writing

/-- `file_write` does what its limit promises: -1 with nothing changed where the bytes do not fit
into 140 blocks, and otherwise `count`, with the bytes behind those of the file. -/
def AdmitsWrite (s : State) (g : ℕ) (a : InodePtr) (x : Inode) (src : Image) (count : UInt32) :
    Prop :=
  if 140 * 512 < x.iSize.toNat + count.toNat then fileWrite s g src count = .ok (none, s)
  else ∃ t y, fileWrite s g src count = .ok (some count, t) ∧ t.inodes a = some y ∧
    y.iSize.toNat = x.iSize.toNat + count.toNat ∧
    t.contents y = s.contents x ++ bytesAt src count.toNat

/-- The new size does not wrap, it is not the limit itself, and below the limit the record that
`inode_sync` writes lies in one sector. -/
def WriteFits (x : Inode) (count : UInt32) : Prop :=
  x.iSize.toNat + count.toNat < 2 ^ 32 ∧ x.iSize.toNat + count.toNat ≠ 140 * 512 ∧
    (x.iSize.toNat + count.toNat < 140 * 512 → sectorsOf (x.iNo.toNat % 256) = 1)

instance (x : Inode) (count : UInt32) : Decidable (WriteFits x count) :=
  inferInstanceAs (Decidable (_ ∧ _ ∧ _))

theorem RegularFile.fileInode (h : RegularFile s g fd a x) :
    FileSystem.fileInode s g = .ok a := by
  unfold FileSystem.fileInode
  rw [file_of_slot h.slot, ok_bind, h.pointer, deref_some]

/-- The test at the start of `file_write` is passed and both buffers are there. -/
theorem RegularFile.fileWrite_admitted (h : RegularFile s g fd a x) (hheap : ∀ k, s.heap k = true)
    (src : Image) {count : UInt32} (hsum : (x.iSize + count).toNat ≤ 140 * 512) :
    fileWrite s g src count = (do
      match ← firstFileBlock s.popHeap.popHeap a with
      | (false, s) => .ok (none, s)
      | (true, s) =>
        let used := x.iSize.toNat / 512 + 1
        let willUse := (x.iSize + count).toNat / 512 + 1
        ensure Fault.assert (willUse ≤ 140)
        match ← collectWriteBlocks s a used willUse { size := 512 + 48, bytes := zeros } with
        | (none, s) => .ok (none, s)
        | (some allBlocks, s) =>
          writeData s g a src count allBlocks { size := 512, bytes := zeros }) := by
  unfold fileWrite
  rw [h.fileInode, ok_bind, h.inode, deref_some, ok_bind, if_neg (by omega),
    sysMalloc_of_heap (hheap 0)]
  dsimp only
  rewrite [sysMalloc_of_heap (hheap 1)]
  rfl

/-- At the limit itself the block count is 141, which the assertion refuses. -/
theorem RegularFile.fileWrite_full (h : RegularFile s g fd a x) (hheap : ∀ k, s.heap k = true)
    (src : Image) {count : UInt32} (hsum : x.iSize.toNat + count.toNat = 140 * 512) :
    Returns (fileWrite s g src count) fun r => r.1 = none := by
  have hnat : (x.iSize + count).toNat = 140 * 512 := by
    rw [UInt32.toNat_add, hsum]
  rw [h.fileWrite_admitted hheap src hnat.le]
  refine returns_bind fun ⟨done, v⟩ _ => ?_
  cases done with
  | false => rfl
  | true => exact returns_ensure fun hle => absurd hle (by rw [hnat]; decide)

/-- Where the file does not grow, no allocation can fail. -/
theorem collectWriteBlocks_shrink {used will : ℕ} (hle : will ≤ used) (c : Buffer) :
    Returns (collectWriteBlocks s a used will c) fun r => r.1 ≠ none := by
  have hnone : ∀ (k : ℕ) (c : Buffer) (s : State), allocFileBlocks a will k used c s =
      .ok (some c, s) := by
    intro k c s
    cases k <;> rw [allocFileBlocks, if_neg (by omega)]
  unfold collectWriteBlocks addFileBlocks
  refine returns_ite (fun _ => returns_skip fun c => Option.some_ne_none c) fun hne => ?_
  refine returns_ite (fun hdirect => ?_) fun hindirect => returns_ite (fun _ => by omega) fun _ => ?_
  · refine returns_skip fun x => returns_skip fun lba => returns_ensure fun _ =>
      returns_skip fun c => ?_
    rw [hnone]
    exact Option.some_ne_none c
  · refine returns_skip fun x => returns_ensure fun _ => returns_skip fun c => ?_
    rw [hnone, ok_bind]
    exact returns_skip fun s => Option.some_ne_none c

/-- A size that wraps passes the test, and `file_write` does not return -1. -/
theorem RegularFile.fileWrite_wraps (h : RegularFile s g fd a x) (hheap : ∀ k, s.heap k = true)
    (src : Image) {count : UInt32} (hwrap : 2 ^ 32 ≤ x.iSize.toNat + count.toNat) :
    Returns (fileWrite s g src count) fun r => r.1 ≠ none := by
  have hle := h.size_le
  have hcount := count.toNat_lt
  have hnat : (x.iSize + count).toNat = x.iSize.toNat + count.toNat - 2 ^ 32 := by
    rw [UInt32.toNat_add]
    omega
  have hblock : x.sector 0 ≠ 0 := by
    intro hzero
    have hempty : x.iSize.toNat = 0 := by
      rw [h.empty hzero]
      rfl
    omega
  have hfirst : firstFileBlock s.popHeap.popHeap a = .ok (true, s.popHeap.popHeap) := by
    unfold firstFileBlock
    rw [show s.popHeap.popHeap.inodes a = some x from h.inode, deref_some, ok_bind, if_neg hblock]
  rw [h.fileWrite_admitted hheap src (by omega), hfirst, ok_bind]
  dsimp only
  refine returns_ensure fun _ => Returns.bind (collectWriteBlocks_shrink (by omega) _)
    fun ⟨c, t⟩ hc => ?_
  cases c with
  | none => exact absurd rfl hc
  | some c =>
    refine returns_skip fun x => returns_skip fun f => returns_skip fun r => returns_skip fun x =>
      returns_skip fun t => nofun

/-- The data of a file are behind the inode table. -/
theorem Holds.contents_setRecord {l : List UInt8} (h : Holds a n s₀ s x nb f own l)
    (hcover : l.length ≤ 512 * nb) {m : ℕ} (hm : m < 4096) (r : Image) :
    (s.setRecord m r).contents x = l := by
  rw [h.length] at hcover
  have h1 := s.part.dataStartLba_eq
  have h2 := s.part.inodeTableSects_eq
  have hbelow : ∀ e, 512 * s.part.dataStartLba ≤ e → (s.setRecord m r).disk e = s.disk e := by
    intro e he
    refine setEntry_outside hm (Or.inr ?_)
    unfold inodeSize
    omega
  rw [← h.contents_eq (by rw [h.length]; exact hcover)]
  unfold State.contents
  refine List.map_congr_left fun p hp => ?_
  have hp := List.mem_range.mp hp
  have hlba : x.blockLba (s.setRecord m r).disk (p / 512) = x.blockLba s.disk (p / 512) := by
    unfold Inode.blockLba
    split_ifs with hdirect hind
    · rfl
    · have htable := h.layout.table (by omega)
      exact wordAt_congr fun e he => hbelow _ (by omega)
    · rfl
  have hblock := h.layout.block (p / 512) (by omega)
  rw [hlba, hbelow _ (by omega)]

/-- Below the limit `file_write` appends, if it gets the record of the file back to the disk. -/
theorem RegularFile.fileWrite_appends (h : RegularFile s g fd a x) (hm : Mounted s)
    (hroot : 0 ∉ s.blockBitmap.free) (hheap : ∀ k, s.heap k = true) (src : Image)
    (count : UInt32) (hsize : x.iSize.toNat + count.toNat < 140 * 512)
    (hfree : sectorsFor ((x.iSize.toNat + count.toNat) / 512 + 1) ≤
      sectorsFor x.blockCount + s.blockBitmap.free.card) :
    ∃ b t y, b.size = 512 ∧ t.inodes a = some y ∧ y.iNo = x.iNo ∧
      y.iSize.toNat = x.iSize.toNat + count.toNat ∧
      (∀ m < 4096, ∀ r, (t.setRecord m r).contents y = s.contents x ++ bytesAt src count.toNat) ∧
      fileWrite s g src count = (do
        let u ← inodeSync t y b
        .ok (some count, u)) := by
  obtain ⟨s₀, f, own, hholds, hm₀, hsame, hcard⟩ := h.holds hm
  have hfilled := h.filled (by omega)
  rw [← length_contents s x] at hsize hfree
  obtain ⟨b, t, y, f', own', hb, ht, hrun⟩ := fileWrite_eq_sync src count hholds hfilled hm₀
    (fun hnone => by rw [hsame hnone]; exact hroot) hheap h.slot h.pointer hsize
    (by rw [hcard]; exact hfree)
  have hlength := ht.length
  rw [List.length_append, length_bytesAt, length_contents] at hlength
  refine ⟨b, t, y, hb, ht.inode, UInt32.toNat_inj.mp ht.iNo, hlength.symm,
    fun m hm r => ht.contents_setRecord ?_ hm r, hrun⟩
  rw [List.length_append, length_bytesAt]
  omega

/-- `file_write` admits exactly what fits if and only if the new size does not wrap, is not the
limit itself, and the record of the file lies in one sector where bytes are written. -/
theorem file_write_limit (h : RegularFile s g fd a x) (hm : Mounted s)
    (hroot : 0 ∉ s.blockBitmap.free) (hheap : ∀ k, s.heap k = true) (src : Image) (count : UInt32)
    (hfree : sectorsFor (min 140 ((x.iSize.toNat + count.toNat) / 512 + 1)) ≤
      sectorsFor x.blockCount + s.blockBitmap.free.card) :
    AdmitsWrite s g a x src count ↔ WriteFits x count := by
  unfold AdmitsWrite WriteFits
  by_cases hbig : 140 * 512 < x.iSize.toNat + count.toNat
  · rw [if_pos hbig]
    by_cases hwrap : x.iSize.toNat + count.toNat < 2 ^ 32
    · refine iff_of_true ?_ ⟨hwrap, by omega, fun hlt => by omega⟩
      have hnat : (x.iSize + count).toNat = x.iSize.toNat + count.toNat := by
        rw [UInt32.toNat_add, Nat.mod_eq_of_lt hwrap]
      unfold fileWrite
      rw [h.fileInode, ok_bind, h.inode, deref_some, ok_bind, hnat, if_pos (by omega)]
    · refine iff_of_false (fun hrun => ?_) fun hfits => hwrap hfits.1
      exact (h.fileWrite_wraps hheap src (by omega)).of_ok hrun rfl
  rw [if_neg hbig]
  by_cases hfull : x.iSize.toNat + count.toNat = 140 * 512
  · refine iff_of_false (fun ⟨t, y, hrun, _⟩ => ?_) fun hfits => hfits.2.1 hfull
    exact nomatch (h.fileWrite_full hheap src hfull).of_ok hrun
  obtain ⟨b, t, y, hb, hy, hno, hsize, hcontents, hrun⟩ :=
    h.fileWrite_appends hm hroot hheap src count (by omega)
      (by rw [Nat.min_eq_right (by omega)] at hfree; exact hfree)
  rw [hrun]
  by_cases hone : sectorsOf (x.iNo.toNat % 256) = 1
  · refine iff_of_true ?_ ⟨by omega, hfull, fun _ => hone⟩
    have hsync : inodeSync t y b = _ := inodeSync_eq (by rw [hno, hone, hb])
    exact ⟨t.setRecord (y.iNo.toNat % 256) y.pure.bytes, y, by rw [hsync, ok_bind], hy, hsize,
      hcontents _ (by omega) _⟩
  · refine iff_of_false (fun ⟨u, z, hok, _⟩ => ?_) fun hfits => hone (hfits.2.2 (by omega))
    have htwo : sectorsOf (x.iNo.toNat % 256) = 2 := by
      unfold sectorsOf at hone ⊢
      split_ifs at hone ⊢ <;> simp_all
    rw [inodeSync_overrun (by rw [hno, htwo, hb]; decide), error_bind] at hok
    cases hok

/-- The empty file of a blank disk. -/
theorem freshFile_regular (n : UInt32) :
    RegularFile (freshFile n) 3 ⟨0, 2, some 0⟩ 0 { inodeInit n with iOpenCnts := 1 } where
  slot := rfl
  pointer := rfl
  inode := rfl
  size_le := Nat.zero_le _
  empty _ := rfl
  blocks := ⟨id, ∅, ((freshFile_empty n).holds_none (freshFile_mounted n) rfl).1.layout,
    fun i hi => absurd hi (Finset.notMem_empty i)⟩

/-- All blocks but those of the first byte of the bitmap are free. -/
theorem freshFile_room (n : UInt32) : 141 ≤ (freshFile n).blockBitmap.free.card := by
  have hsub : Finset.Ico 8 149 ⊆ (freshFile n).blockBitmap.free := by
    intro i hi
    have hi := Finset.mem_Ico.mp hi
    refine (Bitmap.mem_free _ _).mpr ⟨show i < 8 * 512 by omega, ?_⟩
    change bitmapScanTest ⟨512, fun i => if i = 0 then 1 else 0⟩ i = false
    have hbyte : ¬ i < 8 := by omega
    simp [bitmapScanTest, hbyte]
  calc 141 = (Finset.Ico 8 149).card := rfl
    _ ≤ _ := Finset.card_le_card hsub

/-- Five bytes fit into an empty file. -/
theorem file_write_limit_five :
    AdmitsWrite (freshFile 1) 3 0 { inodeInit 1 with iOpenCnts := 1 } zeros 5 :=
  (file_write_limit (freshFile_regular 1) (freshFile_mounted 1) (freshFile_root 1) (fun _ => rfl)
    zeros 5 (le_trans (show _ ≤ 141 by decide)
      ((freshFile_room 1).trans (Nat.le_add_left _ _)))).mpr (by decide)

/-- All that the limit lets through, 71680 bytes, stops an empty file in an assertion. -/
theorem file_write_full : RegularFile (freshFile 1) 3 ⟨0, 2, some 0⟩ 0
      { inodeInit 1 with iOpenCnts := 1 } ∧
    sectorsFor 140 ≤ (freshFile 1).blockBitmap.free.card ∧
    ¬ AdmitsWrite (freshFile 1) 3 0 { inodeInit 1 with iOpenCnts := 1 } zeros 71680 := by
  refine ⟨freshFile_regular 1, freshFile_room 1, fun hadmits => ?_⟩
  obtain ⟨t, y, hrun, -⟩ := hadmits
  exact nomatch ((freshFile_regular 1).fileWrite_full (fun _ => rfl) zeros (by decide)).of_ok hrun

end Writing

section Reading

/-- The end of what is asked for does not wrap, and it lies below block 139 unless the position is
at the end of the file. -/
def ReadFits (fd : File) (x : Inode) (count : UInt32) : Prop :=
  fd.fdPos.toNat + count.toNat < 2 ^ 32 ∧ (fd.fdPos = x.iSize ∨
    fd.fdPos.toNat + min count.toNat (x.iSize.toNat - fd.fdPos.toNat) < 139 * 512)

instance (fd : File) (x : Inode) (count : UInt32) : Decidable (ReadFits fd x count) :=
  inferInstanceAs (Decidable (_ ∧ _))

/-- `file_read` as far as its first assertion. -/
theorem RegularFile.fileRead_asserts (h : RegularFile s g fd a x) (hheap0 : s.heap 0 = true)
    (hheap1 : s.heap 1 = true) (dst : Image) (count : UInt32)
    (hmore : ¬ (x.iSize < fd.fdPos + count ∧ readSize fd x count = 0)) :
    Returns (fileRead s g dst count) fun r => r.1 = some (readSize fd x count) ∧
      (fd.fdPos + readSize fd x count).toNat / 512 < 139 := by
  unfold fileRead
  rw [file_of_slot h.slot, ok_bind, h.fileInode, ok_bind, h.inode, deref_some, ok_bind,
    if_neg hmore, sysMalloc_of_heap hheap0]
  dsimp only
  rw [sysMalloc_of_heap (s := s.popHeap) hheap1]
  exact returns_ensure fun hlt => returns_skip fun c => returns_skip fun r => ⟨rfl, hlt.2⟩

theorem length_read (l : List UInt8) {p count : ℕ} {out : List UInt8}
    (h : readBytes l p count = some out) : out.length = min count (l.length - p) := by
  unfold readBytes at h
  split_ifs at h
  rw [← Option.some.inj h, List.length_take, List.length_drop]

/-- In front of the end of the file there is something to read. -/
theorem readBytes_of_lt (l : List UInt8) {p count : ℕ} (hp : p < l.length) (hcount : 0 < count) :
    ∃ out, readBytes l p count = some out := by
  unfold readBytes
  refine ⟨_, if_neg fun h => ?_⟩
  have hlen := congrArg List.length h.1
  rw [List.length_take, List.length_drop, List.length_nil] at hlen
  omega

theorem readBytes_of_ge (l : List UInt8) {p count : ℕ} (hp : l.length ≤ p) (hcount : 0 < count) :
    readBytes l p count = none := by
  unfold readBytes
  rw [List.drop_eq_nil_of_le hp, List.take_nil, if_pos ⟨rfl, hcount⟩]

/-- A sum that wraps is taken for one inside the file: the whole count is read. -/
theorem readSize_of_wrap (count : UInt32) (hpos : fd.fdPos.toNat ≤ x.iSize.toNat)
    (hwrap : 2 ^ 32 ≤ fd.fdPos.toNat + count.toNat) :
    ¬ x.iSize < fd.fdPos + count ∧ readSize fd x count = count := by
  have hcount := count.toNat_lt
  have hlt := x.iSize.toNat_lt
  have hno : ¬ x.iSize < fd.fdPos + count := by
    rw [UInt32.lt_iff_toNat_lt, UInt32.toNat_add]
    omega
  exact ⟨hno, if_neg hno⟩

/-- Where the sum wraps the clamp is skipped: `file_read` does not say -1 and names a count that
is larger than any file. -/
theorem RegularFile.not_reads_of_wrap (h : RegularFile s g fd a x) (hheap : ∀ k, s.heap k = true)
    (hpos : fd.fdPos.toNat ≤ x.iSize.toNat) (dst : Image) {count : UInt32}
    (hwrap : 2 ^ 32 ≤ fd.fdPos.toNat + count.toNat) :
    ¬ ReadsAs s g fd dst count (readBytes (s.contents x) fd.fdPos.toNat count.toNat) := by
  intro hread
  have hlen := length_contents s x
  have hle := h.size_le
  obtain ⟨hno, hsize⟩ := readSize_of_wrap count hpos hwrap
  have hspec := h.fileRead_asserts (hheap 0) (hheap 1) dst count fun hcond => hno hcond.1
  cases hout : readBytes (s.contents x) fd.fdPos.toNat count.toNat with
  | none =>
    rw [hout] at hread
    exact nomatch (hspec.of_ok hread).1
  | some out =>
    rw [hout] at hread
    obtain ⟨dst', -, -, hrun⟩ := hread
    have hsome := congrArg UInt32.toNat (Option.some.inj (hspec.of_ok hrun).1)
    have hshort := length_read _ hout
    rw [hsize, UInt32.toNat_ofNat'] at hsome
    omega

/-- In front of the end of a file `file_read` has something to read. -/
theorem readSize_more {count : UInt32} (hlt : fd.fdPos.toNat < x.iSize.toNat) :
    ¬ (x.iSize < fd.fdPos + count ∧ readSize fd x count = 0) := by
  rintro ⟨hbeyond, hzero⟩
  unfold readSize at hzero
  rw [if_pos hbeyond, UInt32.sub_eq_iff_eq_add, UInt32.zero_add] at hzero
  rw [hzero] at hlt
  exact lt_irrefl _ hlt

/-- Where a buffer of `file_read` is missing it says -1. -/
theorem RegularFile.fileRead_none (h : RegularFile s g fd a x)
    (hlt : fd.fdPos.toNat < x.iSize.toNat) (hheap : ¬ (s.heap 0 = true ∧ s.heap 1 = true))
    (dst : Image) (count : UInt32) : ∃ t, fileRead s g dst count = .ok (none, dst, t) := by
  unfold fileRead
  rw [file_of_slot h.slot, ok_bind, h.fileInode, ok_bind, h.inode, deref_some, ok_bind,
    if_neg (readSize_more hlt)]
  cases h0 : s.heap 0 with
  | false =>
    rw [sysMalloc_of_none h0]
    exact ⟨_, rfl⟩
  | true =>
    cases h1 : s.heap 1 with
    | false =>
      rw [sysMalloc_of_heap h0]
      dsimp only
      rw [sysMalloc_of_none (s := s.popHeap) h1]
      exact ⟨_, rfl⟩
    | true => exact absurd ⟨h0, h1⟩ hheap

/-- The assertion refuses to read up to block 139. -/
theorem RegularFile.not_reads_of_last (h : RegularFile s g fd a x) (hheap0 : s.heap 0 = true)
    (hheap1 : s.heap 1 = true) (dst : Image) {count : UInt32} (hcount : 0 < count.toNat)
    (hlt : fd.fdPos.toNat < x.iSize.toNat)
    (hlast : 139 * 512 ≤ fd.fdPos.toNat + min count.toNat (x.iSize.toNat - fd.fdPos.toNat)) :
    ¬ ReadsAs s g fd dst count (readBytes (s.contents x) fd.fdPos.toNat count.toNat) := by
  intro hread
  have hlen := length_contents s x
  have hle := h.size_le
  obtain ⟨out, hout⟩ := readBytes_of_lt (s.contents x) (by rw [hlen]; exact hlt) hcount
  rw [hout] at hread
  obtain ⟨dst', -, -, hrun⟩ := hread
  obtain ⟨hsome, hassert⟩ :=
    (h.fileRead_asserts hheap0 hheap1 dst count (readSize_more hlt)).of_ok hrun
  have hsize := congrArg UInt32.toNat (Option.some.inj hsome)
  have hshort := length_read _ hout
  rw [UInt32.toNat_ofNat'] at hsize
  rw [UInt32.toNat_add, ← hsize] at hassert
  omega

/-- What `file_read` reads where nothing is in its way. -/
theorem RegularFile.reads_of_fits (h : RegularFile s g fd a x) (hm : Mounted s)
    (hheap0 : s.heap 0 = true) (hheap1 : s.heap 1 = true)
    (hpos : fd.fdPos.toNat ≤ x.iSize.toNat) (dst : Image) {count : UInt32}
    (hcount : 0 < count.toNat) (hfits : ReadFits fd x count) :
    ReadsAs s g fd dst count (readBytes (s.contents x) fd.fdPos.toNat count.toNat) := by
  obtain ⟨s₀, f, own, hholds, hm₀, -, -⟩ := h.holds hm
  have hlen := length_contents s x
  have hend : fd.fdPos = x.iSize ↔ fd.fdPos.toNat = x.iSize.toNat := UInt32.toNat_inj.symm
  have hcover : (s.contents x).length ≤ 512 * x.blockCount := by
    rw [hlen]
    exact h.size_cover
  obtain ⟨hwrap, hlast⟩ := hfits
  refine fileRead_of_last hholds hm₀ hheap0 hheap1 h.slot h.pointer (by omega) hcover hwrap
    (fun hmore last hlast' => ?_) dst
  have hlt := hmore hcount
  rw [hlen] at hlt hlast'
  have hfit := hlast.resolve_left fun heq => absurd (hend.mp heq) hlt.ne
  have hblocks : x.blockCount = min 140 (x.iSize.toNat / 512 + 1) := by
    refine if_neg fun hzero => ?_
    rw [h.empty hzero] at hlt
    exact absurd hlt (Nat.not_lt_zero _)
  omega

/-- `file_read` reads what the file holds, and no more, if and only if the end of what is asked
for does not wrap and what there is of it ends below block 139. -/
theorem file_read_limit (h : RegularFile s g fd a x) (hm : Mounted s)
    (hheap : ∀ k, s.heap k = true) (hpos : fd.fdPos.toNat ≤ x.iSize.toNat) (dst : Image)
    (count : UInt32) (hcount : 0 < count.toNat) :
    ReadsAs s g fd dst count (readBytes (s.contents x) fd.fdPos.toNat count.toNat) ↔
      ReadFits fd x count := by
  have hend : fd.fdPos = x.iSize ↔ fd.fdPos.toNat = x.iSize.toNat := UInt32.toNat_inj.symm
  constructor
  · intro hread
    have hwrap : fd.fdPos.toNat + count.toNat < 2 ^ 32 := by
      by_contra hge
      exact h.not_reads_of_wrap hheap hpos dst (Nat.not_lt.mp hge) hread
    refine ⟨hwrap, ?_⟩
    by_cases hlt : fd.fdPos.toNat < x.iSize.toNat
    · right
      by_contra hge
      exact h.not_reads_of_last (hheap 0) (hheap 1) dst hcount hlt (Nat.not_lt.mp hge) hread
    · exact Or.inl (hend.mpr (by omega))
  · exact h.reads_of_fits hm (hheap 0) (hheap 1) hpos dst hcount

/-- A file of two bytes in data block 1, read from its second byte on. -/
def twoBytesInode : Inode :=
  { inodeInit 1 with
    iSize := 2
    iOpenCnts := 1
    iSectors := (Vector.replicate 13 0).set 0 613 }

theorem fileSlot_lt : 3 < 32 := by decide

def twoBytes : State := { freshFile 1 with
  blockBitmap := ⟨512, fun i => if i = 0 then 3 else 0⟩
  inodes := fun a => if a = 0 then some twoBytesInode else none
  nextInode := 1
  fileTable := (Vector.replicate 32 ⟨0, 0, none⟩).set 3 ⟨1, 1, some 0⟩ fileSlot_lt }

theorem twoBytes_mounted : Mounted twoBytes := by
  refine ⟨rfl, rfl, fun i hi => ?_⟩
  have hlt : i < 8 * 512 := ((Bitmap.mem_free _ _).mp hi).1
  have hmax : maxLba = 163839 := by decide
  change 612 + i ≤ maxLba
  omega

theorem twoBytes_regular : RegularFile twoBytes 3 ⟨1, 1, some 0⟩ 0 twoBytesInode where
  slot := rfl
  pointer := rfl
  inode := rfl
  size_le := by decide
  empty h := absurd h (by decide)
  blocks := by
    have hcount : twoBytesInode.blockCount = 1 := by decide
    rw [hcount]
    refine ⟨fun _ => 1, {1}, ⟨by decide, by decide, by decide, fun k hk => ?_,
      fun h => absurd h (by decide), ?_, ?_⟩, ?_⟩
    · obtain rfl : k = 0 := Nat.lt_one_iff.mp hk
      rfl
    · simp [slots]
    · simp [slots]
    · intro i hi
      obtain rfl := Finset.mem_singleton.mp hi
      decide

/-- One of the seven bytes that are asked for is there. -/
theorem file_read_limit_seven : ReadsAs twoBytes 3 ⟨1, 1, some 0⟩ zeros 7
    (readBytes (twoBytes.contents twoBytesInode) 1 7) :=
  (file_read_limit twoBytes_regular twoBytes_mounted (fun _ => rfl) (by decide) zeros 7
    (by decide)).mpr (by decide)

/-- With the largest count the sum wraps, and more than the file has is read. -/
theorem file_read_wraps : RegularFile twoBytes 3 ⟨1, 1, some 0⟩ 0 twoBytesInode ∧
    ¬ ReadsAs twoBytes 3 ⟨1, 1, some 0⟩ zeros 4294967295
      (readBytes (twoBytes.contents twoBytesInode) 1 4294967295) :=
  ⟨twoBytes_regular, twoBytes_regular.not_reads_of_wrap (fun _ => rfl) (by decide) zeros
    (by decide)⟩

end Reading

end X86System.FileSystem
