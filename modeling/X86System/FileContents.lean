import X86System.FileReads

/-!
# The contents of files

After any series of writes to an empty file, reading it from any position gives back
what was written there, and no other file has changed. This needs that the record of
the file can be written back at all: `file_write` hands `inode_sync` the buffer of one
sector, and `inode_sync` keeps the low byte of the inode number.
-/
namespace X86System.FileSystem
open Bytes Exec

/-- Calls of `file_write` one after the other, each with its buffer and count. -/
def fileWrites (g : ℕ) :
    List (Image × UInt32) → State → Except Fault (List (Option UInt32) × State)
  | [], s => .ok ([], s)
  | (src, count) :: ws, s => do
    let (r, s) ← fileWrite s g src count
    let (rs, s) ← fileWrites g ws s
    .ok (r :: rs, s)

/-- Everything that is written, in order. -/
def written (ws : List (Image × UInt32)) : List UInt8 := ws.flatMap fun w => bytesAt w.1 w.2.toNat

/-- The bytes of a file. -/
def State.contents (s : State) (x : Inode) : List UInt8 :=
  (List.range x.iSize.toNat).map fun p =>
    s.disk (512 * (x.blockLba s.disk (p / 512)).toNat + p % 512)

/-- Slot `g` is open for the regular file with the inode at `a`, which has no data yet: no block,
or the one that a write of no bytes gave it. -/
structure EmptyFile (s : State) (g : ℕ) (a : InodePtr) (x : Inode) : Prop where
  slot : ∃ fd, s.fileTable[g]? = some fd ∧ fd.fdInode = some a ∧ fd.fdFlag ≠ pipeFlag
  inode : s.inodes a = some x
  size : x.iSize = 0
  noBlocks : ∀ k < 13, k ≠ 0 → x.sector k = 0
  first : x.sector 0 = 0 ∨ UsedBlock s (x.sector 0) ∧
    (x.sector 0).toNat < s.part.dataStartLba + 8 * s.blockBitmap.btmpBytesLen

/-- The blocks of the file `y` are marked used and are not that of the file `x`. -/
structure Apart (s : State) (x y : Inode) : Prop where
  block : ∀ k, 512 * k < y.iSize.toNat →
    UsedBlock s (y.blockLba s.disk k) ∧ y.blockLba s.disk k ≠ x.sector 0
  table : y.sector 12 ≠ 0 → UsedBlock s (y.sector 12) ∧ y.sector 12 ≠ x.sector 0

/-- Every file but the one with the inode `x` at `a` is what it was. -/
structure OthersKept (s t : State) (a : InodePtr) (x : Inode) : Prop where
  inodes : ∀ b, b ≠ a → t.inodes b = s.inodes b
  records : ∀ m < 4096, m ≠ x.iNo.toNat → ∀ i < inodeSize, diskRecord t m i = diskRecord s m i
  contents : ∀ y, Apart s x y → t.contents y = s.contents y

variable {s s₀ t : State} {a : InodePtr} {n i nb g : ℕ} {x y : Inode} {f : ℕ → ℕ}
  {own : Finset ℕ} {l : List UInt8}

/-- Whether block 0 of the file is there already. -/
def Inode.firstBlock (x : Inode) : ℕ := if x.sector 0 = 0 then 0 else 1

section Others

/-- The used blocks of a file decide its contents. -/
theorem contents_of_used (hused : ∀ b, UsedBlock s b → b ≠ x.sector 0 →
      ∀ i < 512, t.disk (512 * b.toNat + i) = s.disk (512 * b.toNat + i))
    (hy : Apart s x y) : t.contents y = s.contents y := by
  have htable : ∀ k, y.blockLba t.disk k = y.blockLba s.disk k := by
    intro k
    unfold Inode.blockLba
    split_ifs with hdirect hind
    · rfl
    · obtain ⟨hb, hne⟩ := hy.table hind.2
      apply wordAt_congr
      intro e he
      rw [Nat.add_assoc]
      exact hused _ hb hne _ (by omega)
    · rfl
  unfold State.contents
  refine List.map_congr_left fun p hp => ?_
  have hp := List.mem_range.mp hp
  obtain ⟨hb, hne⟩ := hy.block (p / 512) (by omega)
  rw [htable]
  exact hused _ hb hne _ (by omega)

end Others

section Runs

theorem sectorsFor_mono {j k : ℕ} (h : j ≤ k) : sectorsFor j ≤ sectorsFor k := by
  unfold sectorsFor
  split_ifs <;> omega

theorem length_written_cons (w : Image × UInt32) (ws : List (Image × UInt32)) :
    (written (w :: ws)).length = w.2.toNat + (written ws).length := by
  unfold written
  rw [List.flatMap_cons, List.length_append, length_bytesAt]

/-- Each write of a series appends its bytes. -/
theorem fileWrites_holds (hm₀ : Mounted s₀) (hheap : ∀ k, s₀.heap k = true)
    (hn : SyncsFromSector n) (ws : List (Image × UInt32)) : ∀ {s : State} {x : Inode} {nb : ℕ}
      {f : ℕ → ℕ} {own : Finset ℕ} {l : List UInt8} {fd : File}, Holds a n s₀ s x nb f own l →
      Filled nb l → (nb = 0 → 0 ∉ s₀.blockBitmap.free) → s.fileTable[g]? = some fd →
      fd.fdInode = some a → fd.fdFlag ≠ pipeFlag → l.length + (written ws).length < 139 * 512 →
      (ws ≠ [] →
        sectorsFor ((l.length + (written ws).length) / 512 + 1) ≤ s₀.blockBitmap.free.card) →
      ∃ t y nb' f' own' fd', fileWrites g ws s = .ok (ws.map fun w => some w.2, t) ∧
        Holds a n s₀ t y nb' f' own' (l ++ written ws) ∧ Filled nb' (l ++ written ws) ∧
        t.fileTable[g]? = some fd' ∧ fd'.fdInode = some a := by
  induction ws with
  | nil =>
    intro s x nb f own l fd h hfilled _ hslot hfd _ _ _
    refine ⟨s, x, nb, f, own, fd, rfl, ?_, ?_, hslot, hfd⟩
    · simpa [written] using h
    · simpa [written] using hfilled
  | cons w ws ih =>
    intro s x nb f own l fd h hfilled hroot hslot hfd hflag hsize hfree
    have hlen := length_written_cons w ws
    have hfree := hfree (List.cons_ne_nil w ws)
    rw [hlen] at hsize hfree
    obtain ⟨t, y, f', own', hwrite, ht⟩ := fileWrite_holds w.1 w.2 h hfilled hm₀
      hroot (h.takes.memory hheap) hslot hfd hn (by omega)
      ((sectorsFor_mono (by omega)).trans hfree)
    have hfileSlot : FileSlot s g := by
      intro fd' hfd'
      obtain rfl := Option.some.inj (hslot.symm.trans hfd')
      exact hflag
    have hstill : Still s t := (fileWrite_still hfileSlot w.1 w.2).of_ok hwrite
    obtain ⟨fd', hslot', hflag', hinode⟩ := hstill.tables.symm.slot hslot
    have happend : (l ++ bytesAt w.1 w.2.toNat).length = l.length + w.2.toNat := by
      rw [List.length_append, length_bytesAt]
    rw [← happend] at ht
    obtain ⟨u, z, nb', f'', own'', fd'', hwrites, hu, hfilled', hslot'', hfd''⟩ :=
      ih ht (Or.inl rfl) (fun h => by omega) hslot' (hinode.trans hfd) (hflag'.trans_ne hflag)
        (by omega) (fun _ => by rw [happend, Nat.add_assoc]; exact hfree)
    rw [List.append_assoc] at hu hfilled'
    refine ⟨u, z, nb', f'', own'', fd'', ?_, hu, hfilled', hslot'', hfd''⟩
    rw [fileWrites, hwrite, ok_bind]
    dsimp only
    rw [hwrites, ok_bind]
    rfl

/-- `s₀` is the state `s` before the empty file `x` had its first block. -/
structure BeforeFirst (s₀ s : State) (x : Inode) : Prop where
  mounted : Mounted s₀
  part : s₀.part = s.part
  disk : s₀.disk = s.disk
  inodes : s₀.inodes = s.inodes
  heap : s₀.heap = s.heap
  card : s₀.blockBitmap.free.card = s.blockBitmap.free.card + x.firstBlock
  used : ∀ b, UsedBlock s b → b ≠ x.sector 0 → UsedBlock s₀ b

/-- A file without blocks. -/
theorem EmptyFile.holds_none (h : EmptyFile s g a x) (hm : Mounted s) (hzero : x.sector 0 = 0) :
    Holds a x.iNo.toNat s s x 0 id ∅ [] ∧ BeforeFirst s s x := by
  have hsectors : ∀ k < 12, 0 ≤ k → x.sector k = 0 := by
    intro k hk _
    by_cases hk0 : k = 0
    · rw [hk0, hzero]
    · exact h.noBlocks k (by omega) hk0
  refine ⟨⟨Takes.refl hm, h.inode, rfl, ?_, ?_, fun i hi => absurd hi (Nat.not_lt_zero i)⟩,
    hm, rfl, rfl, rfl, rfl, ?_, fun b hb _ => hb⟩
  · rw [h.size]
    rfl
  · refine ⟨by decide, hsectors, fun _ => h.noBlocks 12 (by decide) (by decide),
      fun k hk => absurd hk (Nat.not_lt_zero k), fun hlt => absurd hlt (by decide), ?_, rfl⟩
    simp [slots]
  · rw [Inode.firstBlock, if_pos hzero, Nat.add_zero]

theorem UsedBlock.ne_zero {b : UInt32} (h : UsedBlock s b) : b ≠ 0 := by
  intro heq
  have hstart := h.start_le
  have h3 := s.part.dataStartLba_eq
  have h4 := s.part.inodeTableSects_eq
  have hz : (0 : UInt32).toNat = 0 := rfl
  rw [heq] at hstart
  omega

/-- A file with the block that a write of no bytes gave it: the block was free before. -/
theorem EmptyFile.holds_one (h : EmptyFile s g a x) (hm : Mounted s)
    (hblock : UsedBlock s (x.sector 0))
    (hlt : (x.sector 0).toNat < s.part.dataStartLba + 8 * s.blockBitmap.btmpBytesLen) :
    ∃ s₀ i, Holds a x.iNo.toNat s₀ s x 1 (fun _ => i) {i} [] ∧ BeforeFirst s₀ s x := by
  have hstart := hblock.start_le
  have hmax := hblock.le_max
  set i := (x.sector 0).toNat - s.part.dataStartLba with hi
  have hused : i ∉ s.blockBitmap.free := by
    rw [Bitmap.mem_free, hi, hblock.used]
    simp
  set s₀ : State := { s with blockBitmap := bitmapSet s.blockBitmap i false } with hs₀
  have hfree : s₀.blockBitmap.free = insert i s.blockBitmap.free := by
    ext j
    simp only [hs₀, Bitmap.mem_free, bitmapSet_len, bitmapScanTest_set, Finset.mem_insert]
    by_cases hij : i = j
    · subst hij
      simp
      omega
    · simp [hij, Ne.symm hij]
  have hm₀ : Mounted s₀ := by
    refine ⟨hm.blockLen, hm.inodeLen, fun j hj => ?_⟩
    rw [hfree, Finset.mem_insert] at hj
    obtain rfl | hj := hj
    · change s.part.dataStartLba + i ≤ maxLba
      omega
    · exact hm.free_le j hj
  have htakes : Takes a x.iNo.toNat s₀ s {i} := by
    refine ⟨rfl, hm, ?_, ?_, SectorsKept.refl _ _ _, fun _ _ _ _ _ => rfl, fun _ _ => rfl, id⟩
    · rw [hfree]
      exact Finset.singleton_subset_iff.mpr (Finset.mem_insert_self ..)
    · rw [hfree, Finset.sdiff_singleton_eq_erase, Finset.erase_insert hused]
  have hlayout : Layout s x 1 (fun _ => i) {i} := by
    refine ⟨by decide, fun k hk hk' => h.noBlocks k (by omega) (by omega),
      fun _ => h.noBlocks 12 (by decide) (by decide), fun k hk => ?_,
      fun hlt => absurd hlt (by decide), ?_, ?_⟩
    · obtain rfl : k = 0 := by omega
      rw [blockLba_direct (by omega)]
      omega
    · simp [slots]
    · simp [slots]
  refine ⟨s₀, i, ⟨htakes, h.inode, rfl, ?_, hlayout, fun j hj => absurd hj (Nat.not_lt_zero j)⟩,
    hm₀, rfl, rfl, rfl, rfl, ?_, fun b hb hbne => ?_⟩
  · rw [h.size]
    rfl
  · rw [hfree, Finset.card_insert_of_notMem hused, Inode.firstBlock, if_neg hblock.ne_zero]
  · have hstart' := hb.start_le
    have hdiff : i ≠ b.toNat - s.part.dataStartLba := by
      intro heq
      exact hbne (UInt32.toNat_inj.mp (by omega))
    refine ⟨hb.start_le, hb.le_max, ?_⟩
    rw [hs₀]
    dsimp only
    rw [bitmapScanTest_set, if_neg hdiff]
    exact hb.used

/-- An empty file holds no bytes. -/
theorem EmptyFile.holds (h : EmptyFile s g a x) (hm : Mounted s)
    (hroot : 0 ∉ s.blockBitmap.free) :
    ∃ s₀ nb f own, Holds a x.iNo.toNat s₀ s x nb f own [] ∧ Filled nb [] ∧
      (nb = 0 → 0 ∉ s₀.blockBitmap.free) ∧ BeforeFirst s₀ s x := by
  obtain hzero | ⟨hblock, hlt⟩ := h.first
  · obtain ⟨hholds, hbefore⟩ := h.holds_none hm hzero
    exact ⟨s, 0, id, ∅, hholds, Or.inr ⟨rfl, rfl⟩, fun _ => hroot, hbefore⟩
  · obtain ⟨s₀, i, hholds, hbefore⟩ := h.holds_one hm hblock hlt
    exact ⟨s₀, 1, _, _, hholds, Or.inl rfl, fun hnb => absurd hnb (by decide), hbefore⟩

/-- After any series of writes to an empty file whose record fits the buffer of one sector, each
write has returned its count, every read gives back what was written and the other files are
unchanged. -/
theorem file_contents_kept (s : State) (g : ℕ) (a : InodePtr) (x : Inode) (hm : Mounted s)
    (hroot : 0 ∉ s.blockBitmap.free) (hheap : ∀ k, s.heap k = true) (hfile : EmptyFile s g a x)
    (hsync : SyncsFromSector x.iNo.toNat) (ws : List (Image × UInt32))
    (hsize : (written ws).length < 139 * 512)
    (hfree : ws ≠ [] → sectorsFor ((written ws).length / 512 + 1) ≤
      s.blockBitmap.free.card + x.firstBlock) :
    ∃ t, fileWrites g ws s = .ok (ws.map fun w => some w.2, t) ∧ OthersKept s t a x ∧
      (∃ fd, t.fileTable[g]? = some fd ∧ fd.fdInode = some a) ∧
      ∀ h fd, t.fileTable[h]? = some fd → fd.fdInode = some a → ∀ p count dst,
        p.toNat ≤ (written ws).length → p.toNat + count.toNat < 2 ^ 32 →
        ReadsAs (t.setFile h { fd with fdPos := p }) h { fd with fdPos := p } dst count
          (readBytes (written ws) p.toNat count.toNat) := by
  obtain ⟨fd, hslot, hfd, hflag⟩ := hfile.slot
  obtain ⟨s₀, nb, f, own, hholds, hfilled, hroot₀, hbefore⟩ := hfile.holds hm hroot
  have hm₀ := hbefore.mounted
  have hheap₀ : ∀ k, s₀.heap k = true := by
    rw [hbefore.heap]
    exact hheap
  obtain ⟨t, y, nb', f', own', fd', hrun, ht, hfilled', hslot', hfd'⟩ := fileWrites_holds hm₀ hheap₀
    hsync ws hholds hfilled hroot₀ hslot hfd hflag
    (by rw [List.length_nil, Nat.zero_add]; exact hsize)
    (fun hne => by rw [List.length_nil, Nat.zero_add, hbefore.card]; exact hfree hne)
  rw [List.nil_append] at ht hfilled'
  refine ⟨t, hrun, ⟨fun b hb => ?_, fun m hm' hne i hi => ?_, fun z hz => ?_⟩, ⟨fd', hslot', hfd'⟩,
    fun h fd hslot hfd p count dst hp hcount => ?_⟩
  · rw [ht.takes.inodes b hb, hbefore.inodes]
  · rw [ht.takes.records m hm' hne i hi]
    unfold diskRecord
    rw [hbefore.disk, hbefore.part]
  · refine contents_of_used (fun b hb hne i hi => ?_) hz
    rw [ht.takes.used_kept (hbefore.used b hb hne) i hi, hbefore.disk]
  · exact fileRead_holds (ht.setFile h { fd with fdPos := p }) hfilled' hm₀ (ht.takes.memory hheap₀)
      (setFile_self (Vector.getElem?_eq_some_iff.mp hslot).1) hfd hp hsize hcount dst

end Runs

section Sample

/-- A disk on which the file with inode number `n` is open and empty. -/
def freshFile (n : UInt32) : State := { blankState with
  blockBitmap := ⟨512, fun i => if i = 0 then 1 else 0⟩
  inodes := fun a => if a = 0 then some { inodeInit n with iOpenCnts := 1 } else none
  openInodes := [0]
  fileTable := (Vector.replicate 32 ⟨0, 0, none⟩).set 3 ⟨0, 2, some 0⟩ }

theorem freshFile_mounted (n : UInt32) : Mounted (freshFile n) := by
  refine ⟨rfl, rfl, fun i hi => ?_⟩
  have hlt : i < 8 * 512 := ((Bitmap.mem_free _ _).mp hi).1
  have hmax : maxLba = 163839 := by decide
  change 612 + i ≤ maxLba
  omega

theorem freshFile_empty (n : UInt32) :
    EmptyFile (freshFile n) 3 0 { inodeInit n with iOpenCnts := 1 } where
  slot := ⟨⟨0, 2, some 0⟩, rfl, rfl, by decide⟩
  inode := rfl
  size := rfl
  noBlocks k hk _ := by
    change (Vector.replicate 13 (0 : UInt32)).getD k 0 = 0
    simp [Vector.getD, hk]
  first := Or.inl rfl

theorem freshFile_root (n : UInt32) : 0 ∉ (freshFile n).blockBitmap.free := by
  intro h
  have hclear : bitmapScanTest ⟨512, fun i => if i = 0 then 1 else 0⟩ 0 = false :=
    ((Bitmap.mem_free _ _).mp h).2
  exact absurd hclear (by decide)

/-- Block 5 is free. -/
theorem freshFile_free (n : UInt32) : 0 < (freshFile n).blockBitmap.free.card := by
  have hclear : bitmapScanTest ⟨512, fun i => if i = 0 then 1 else 0⟩ 5 = false := by decide
  have hlt : 5 < 8 * 512 := by decide
  exact Finset.card_pos.mpr ⟨5, (Bitmap.mem_free _ _).mpr ⟨hlt, hclear⟩⟩

/-- Two bytes, and then the one behind them, are read back. -/
theorem file_contents_kept_abc :
    ∃ t, fileWrites 3 [(fun i => if i = 0 then 97 else 98, 2), (fun _ => 99, 1)] (freshFile 1) =
        .ok ([some 2, some 1], t) ∧
      ∀ fd, t.fileTable[3]? = some fd → fd.fdInode = some 0 →
        ReadsAs (t.setFile 3 { fd with fdPos := 1 }) 3 { fd with fdPos := 1 } zeros 7
          (some [98, 99]) := by
  have hfree := freshFile_free 1
  obtain ⟨t, hrun, -, -, hread⟩ := file_contents_kept (freshFile 1) 3 0
    { inodeInit 1 with iOpenCnts := 1 } (freshFile_mounted 1) (freshFile_root 1) (fun _ => rfl)
    (freshFile_empty 1) (by decide) [(fun i => if i = 0 then 97 else 98, 2), (fun _ => 99, 1)]
    (by decide) (fun _ => Nat.le_add_right_of_le hfree)
  exact ⟨t, hrun, fun fd hslot hfd => hread 3 fd hslot hfd 1 7 zeros (by decide) (by decide)⟩

/-- The record of inode 6 straddles two sectors, so that writing one byte overruns the buffer. -/
theorem file_write_overrun :
    Mounted (freshFile 6) ∧ 0 ∉ (freshFile 6).blockBitmap.free ∧
      (∀ k, (freshFile 6).heap k = true) ∧
      EmptyFile (freshFile 6) 3 0 { inodeInit 6 with iOpenCnts := 1 } ∧
      0 < (freshFile 6).blockBitmap.free.card ∧
      ¬ ∃ r, fileWrites 3 [(zeros, 1)] (freshFile 6) = .ok r := by
  refine ⟨freshFile_mounted 6, freshFile_root 6, fun _ => rfl, freshFile_empty 6, freshFile_free 6, ?_⟩
  obtain ⟨e, he, -⟩ : ∃ e, fileWrites 3 [(zeros, 1)] (freshFile 6) = .error e ∧ True := by
    decide
  rintro ⟨r, hr⟩
  cases he.symm.trans hr

end Sample

end X86System.FileSystem
