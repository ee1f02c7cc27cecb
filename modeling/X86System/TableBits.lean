import X86System.WriteThrough

/-!
# The bit of an indirect table

`file_write` writes the sector of each bit that it sets, except in one place: where a file
gets its indirect table, the bit of the table is set in memory only. It comes to the disk
with the bit of the first data block behind it, if both bits lie in one sector.
-/
namespace X86System.FileSystem
open Bytes Exec Transition

variable {s t u : State} {D : Finset ℕ} {o : Option ℕ} {a : InodePtr} {g i j k n lba : ℕ}
  {x y : Inode} {b c : Buffer} {count : UInt32}

section SameBitmaps

/-- Neither the bitmaps nor their sectors changed. -/
structure SameBitmaps (s t : State) : Prop where
  part : t.part = s.part
  blockBitmap : t.blockBitmap = s.blockBitmap
  inodeBitmap : t.inodeBitmap = s.inodeBitmap
  disk : ∀ i, 512 * s.part.blockBitmapLba ≤ i → i < 512 * s.part.inodeTableLba →
    t.disk i = s.disk i

/-- Byte `i` of the block bitmap is not on the disk. -/
def Behind (s : State) (i : ℕ) : Prop :=
  i < 512 * s.part.blockBitmapSects ∧
    s.disk (512 * s.part.blockBitmapLba + i) ≠ s.blockBitmap.bits i

theorem SameBitmaps.of_same (hdisk : t.disk = s.disk) (hpart : t.part = s.part)
    (hblocks : t.blockBitmap = s.blockBitmap) (hinodes : t.inodeBitmap = s.inodeBitmap) :
    SameBitmaps s t := ⟨hpart, hblocks, hinodes, fun i _ _ => congrFun hdisk i⟩

theorem SameBitmaps.refl (s : State) : SameBitmaps s s := SameBitmaps.of_same rfl rfl rfl rfl

theorem SameBitmaps.trans (h : SameBitmaps s t) (h' : SameBitmaps t u) : SameBitmaps s u where
  part := h'.part.trans h.part
  blockBitmap := h'.blockBitmap.trans h.blockBitmap
  inodeBitmap := h'.inodeBitmap.trans h.inodeBitmap
  disk i hlo hhi := by
    rw [← h.part] at hlo hhi
    rw [h'.disk i hlo hhi]
    rw [h.part] at hlo hhi
    exact h.disk i hlo hhi

instance : IsTrans State SameBitmaps where
  trans _ _ _ := SameBitmaps.trans

theorem SameBitmaps.symm (h : SameBitmaps s t) : SameBitmaps t s where
  part := h.part.symm
  blockBitmap := h.blockBitmap.symm
  inodeBitmap := h.inodeBitmap.symm
  disk i hlo hhi := by
    rw [h.part] at hlo hhi
    exact (h.disk i hlo hhi).symm

/-- A byte of the block bitmap on the disk. -/
theorem SameBitmaps.block (h : SameBitmaps s t) (hi : i < 512 * s.part.blockBitmapSects) :
    t.disk (512 * s.part.blockBitmapLba + i) = s.disk (512 * s.part.blockBitmapLba + i) := by
  have h1 := s.part.inodeBitmapLba_eq
  have h2 := s.part.inodeTableLba_eq
  exact h.disk _ (by omega) (by omega)

theorem SameBitmaps.lag (h : SameBitmaps s t) (hs : Lag D o s) : Lag D o t := by
  have h1 := s.part.inodeBitmapLba_eq
  have h2 := s.part.inodeTableLba_eq
  have h3 := s.part.inodeBitmapSects_eq
  constructor
  · rw [h.blockBitmap, h.part, hs.blockLen]
  · rw [h.inodeBitmap, h.part, hs.inodeLen]
  · rw [h.blockBitmap, h.part]
    intro i hi hD
    rw [h.block hi]
    exact hs.blocks i hi hD
  · rw [h.inodeBitmap, h.part]
    intro i hi
    rw [h.disk _ (by omega) (by omega)]
    exact hs.inodes i hi

theorem SameBitmaps.synced (h : SameBitmaps s t) : Synced t ↔ Synced s :=
  ⟨fun ht => h.symm.lag ht, fun hs => h.lag hs⟩

theorem Behind.bitmaps (hs : Behind s i) (h : SameBitmaps s t) : Behind t i := by
  unfold Behind
  rw [h.part, h.blockBitmap, h.block hs.1]
  exact hs

theorem SameBitmaps.setInode (h : SameBitmaps s t) (a : InodePtr) (x : Inode) : SameBitmaps s (t.setInode a x) :=
  h.trans (SameBitmaps.of_same rfl rfl rfl rfl)

/-- What is behind is not on the disk. -/
theorem Behind.not_synced (hs : Behind s i) : ¬ Synced s :=
  fun h => hs.2 (h.blocks i hs.1 (Finset.notMem_empty _))

theorem ideWrite_bitmaps (hoff : OffBitmaps s.part lba n) (b : Buffer) (off : ℕ) :
    Leads SameBitmaps s (ideWrite s lba b off n) id := by
  refine returns_ensure fun _ => returns_ensure fun _ => returns_ensure fun _ => ?_
  refine ⟨rfl, rfl, rfl, fun i hlo hhi => ?_⟩
  unfold OffBitmaps at hoff
  change overlay s.disk (512 * lba) (512 * n) _ i = s.disk i
  exact overlay_outside (by omega)

theorem inodeSync_bitmaps (s : State) (x : Inode) (b : Buffer) :
    Leads SameBitmaps s (inodeSync s x b) id := by
  refine Returns.bind (inodeLocate_returns s _) fun pos hpos => returns_ensure fun _ => ?_
  refine returns_ite (fun _ => ?_) fun _ => ?_
  · exact returns_skip fun _ => returns_skip fun b => ideWrite_bitmaps (Or.inr hpos) b 0
  · exact returns_skip fun _ => returns_skip fun b => ideWrite_bitmaps (Or.inr hpos) b 0

end SameBitmaps

section Data

variable {allBlocks ioBuf : Buffer} {src : Image}

/-- A list of blocks for `file_write`, none of them a sector of a bitmap. -/
structure OffList (p : Partition) (b : Buffer) : Prop where
  size : b.size = 560
  words : WordsOff p b

theorem advance_bitmaps (s : State) (g : ℕ) (m : UInt32) : Leads SameBitmaps s (advance s g m) id :=
  returns_skip fun _ => SameBitmaps.of_same rfl rfl rfl rfl

/-- The loop that fills the blocks of a file. -/
theorem writeLoop_bitmaps (g : ℕ) (a : InodePtr) (src : Image) (fuel : ℕ) :
    ∀ {s : State}, OffList s.part allBlocks → ∀ (done left : ℕ) (first : Bool) (ioBuf : Buffer),
      Leads SameBitmaps s (writeLoop g a src allBlocks fuel done left first ioBuf s) Prod.snd := by
  induction fuel with
  | zero => exact fun _ done left first ioBuf => returns_ite (fun _ => SameBitmaps.refl _) fun _ => trivial
  | succ fuel ih =>
    intro s hlist done left first ioBuf
    refine returns_ite (fun _ => SameBitmaps.refl s) fun _ => ?_
    refine returns_skip fun b => returns_skip fun x => returns_bind fun lba hlba => ?_
    have hidx : x.iSize.toNat / 512 < 140 := by
      obtain ⟨hle, -⟩ := of_ensure_eq_ok hlba
      have hsize := hlist.size
      omega
    refine returns_skip fun b => returns_skip fun b => ?_
    refine Returns.bind (ideWrite_bitmaps (hlist.words.word hidx hlba) b 0) fun t ht => ?_
    refine Returns.bind (advance_bitmaps _ g _) fun u hu => ?_
    have hu : SameBitmaps s u := (SameBitmaps.setInode ht a _).trans hu
    exact (ih (hu.part ▸ hlist) _ _ _ _).mono fun _ hv => hu.trans hv

theorem writeData_bitmaps (s : State) (hlist : OffList s.part allBlocks) (g : ℕ) (a : InodePtr)
    (src : Image) (count : UInt32) (ioBuf : Buffer) : Leads SameBitmaps s (writeData s g a src count allBlocks ioBuf) Prod.snd := by
  refine returns_skip fun x => returns_skip fun f => ?_
  have hset : SameBitmaps s (s.setFile g { f with fdPos := x.iSize - 1 }) :=
    SameBitmaps.of_same rfl rfl rfl rfl
  refine Returns.bind (writeLoop_bitmaps g a src _ (hset.part ▸ hlist) 0 _ true ioBuf)
    fun ⟨b, t⟩ ht => returns_skip fun y => ?_
  refine Returns.bind (inodeSync_bitmaps t y b) fun u hu => ?_
  exact hset.trans (ht.trans hu)

end Data

section Allocating

variable {allBlocks : Buffer} {lba : UInt32}

/-- The least free block `i` was taken and the sector of its bit was written. -/
structure Allots (s t : State) (i : ℕ) : Prop where
  least : s.blockBitmap.nth 0 i
  part : t.part = s.part
  blockBitmap : t.blockBitmap = bitmapSet s.blockBitmap i true
  lag : ∀ D o, Lag D o s → Lag (D.erase (i / 4096)) o t
  behind : ∀ j, j / 512 ≠ i / 4096 → Behind s j → Behind t j
  rest : ∀ lba, OffBitmaps s.part lba 1 → ∀ m < 512, t.disk (512 * lba + m) = s.disk (512 * lba + m)

/-- Blocks were taken and the sectors of their bits were written. -/
structure Allotted (s t : State) : Prop where
  part : t.part = s.part
  free : t.blockBitmap.free ⊆ s.blockBitmap.free
  lag : ∀ D o, Lag D o s → Lag D o t
  behind : ∀ j, (∀ i ∈ s.blockBitmap.free, j / 512 ≠ i / 4096) → Behind s j → Behind t j

theorem Allotted.refl (s : State) : Allotted s s :=
  ⟨rfl, Finset.Subset.refl _, fun _ _ h => h, fun _ _ h => h⟩

theorem Allotted.trans (h : Allotted s t) (h' : Allotted t u) : Allotted s u where
  part := h'.part.trans h.part
  free := h'.free.trans h.free
  lag D o hs := h'.lag D o (h.lag D o hs)
  behind j hj hs := h'.behind j (fun i hi => hj i (h.free hi)) (h.behind j hj hs)

theorem Allots.allotted (h : Allots s t i) : Allotted s t where
  part := h.part
  free := by
    rw [h.blockBitmap, free_set_true]
    exact Finset.erase_subset _ _
  lag D o hs := (h.lag D o hs).mono (Finset.erase_subset _ _)
  behind j hj hs := h.behind j (hj i h.least.1) hs

theorem SameBitmaps.allotted (h : SameBitmaps s t) : Allotted s t where
  part := h.part
  free := by rw [h.blockBitmap]
  lag _ _ hs := h.lag hs
  behind _ _ hs := hs.bitmaps h

/-- `bitmap_sync` changes one sector of the block bitmap. -/
theorem bitmapSync_sector (s : State) (i : ℕ) : Returns (bitmapSync s i .blockBitmap) fun t =>
    t.part = s.part ∧ t.blockBitmap = s.blockBitmap ∧ t.inodes = s.inodes ∧
      ∀ m, m / 512 ≠ s.part.blockBitmapLba + i / 4096 → t.disk m = s.disk m := by
  refine returns_ensure fun _ => returns_ensure fun _ => returns_ensure fun _ => ?_
  refine ⟨rfl, rfl, rfl, fun m hm => ?_⟩
  change overlay s.disk (512 * (s.part.blockBitmapLba + i / 4096)) (512 * 1) _ m = s.disk m
  exact overlay_outside (by omega)

/-- Taking a block and writing its bit, with other changes in memory between. -/
theorem takeSync_allots (hi : s.blockBitmap.nth 0 i)
    (hlen : s.blockBitmap.btmpBytesLen = 512 * s.part.blockBitmapSects)
    (hu : SameBitmaps (s.takeBlock i) u) (hdisk : u.disk = s.disk) :
    Returns (bitmapSync u i .blockBitmap) fun t => Allots s t i ∧ t.inodes = u.inodes := by
  have hlt := ((Bitmap.mem_free _ _).mp hi.1).1
  have h1 := s.part.inodeBitmapLba_eq
  have h2 := s.part.inodeTableLba_eq
  refine Returns.intro fun t ht => ?_
  obtain ⟨hpart, hblocks, hinodes, hother⟩ := (bitmapSync_sector u i).of_ok ht
  rw [hu.part, hdisk] at hother
  have hother : ∀ m, m / 512 ≠ s.part.blockBitmapLba + i / 4096 → t.disk m = s.disk m := hother
  refine ⟨⟨hi, hpart.trans hu.part, hblocks.trans hu.blockBitmap, fun D o h => ?_,
    fun j hj hs => ?_, fun lba hoff m hm => hother _ ?_⟩, hinodes⟩
  · refine ((bitmapSync_blocks (hu.lag (h.takeBlock i)) i).of_ok ht).1.mono fun j hj => ?_
    obtain ⟨hne, hmem⟩ := Finset.mem_erase.mp hj
    exact Finset.mem_erase.mpr ⟨hne, (Finset.mem_insert.mp hmem).resolve_left hne⟩
  · have hne : j ≠ i / 8 := by
      rintro rfl
      omega
    have hbits : t.blockBitmap.bits j = s.blockBitmap.bits j := by
      rw [hblocks, hu.blockBitmap]
      exact Function.update_of_ne hne _ _
    unfold Behind
    rw [hpart, hu.part, hbits]
    change j < 512 * s.part.blockBitmapSects ∧
      t.disk (512 * s.part.blockBitmapLba + j) ≠ s.blockBitmap.bits j
    rw [hother _ (by omega)]
    exact hs
  · unfold OffBitmaps at hoff
    omega

theorem OffList.setWord (h : OffList s.part c) (hlba : OffBitmaps s.part lba.toNat 1) :
    Returns (c.setWord k lba) (OffList s.part) := by
  refine Returns.intro fun b hb => ⟨?_, h.words.setWord hlba hb⟩
  obtain ⟨-, hb⟩ := of_ensure_eq_ok hb
  obtain rfl := Except.ok.inj hb
  exact h.size

/-- The address of a new block comes into the list, and into the inode if it is direct. -/
theorem linkFileBlock_off (hlist : OffList s.part c) (hlba : OffBitmaps s.part lba.toNat 1)
    (a : InodePtr) (k : ℕ) : Returns (linkFileBlock s a k lba c) fun r =>
      SameBitmaps s r.2 ∧ r.2.disk = s.disk ∧ OffList s.part r.1 := by
  refine returns_ite (fun _ => ?_) fun _ => ?_
  · refine returns_skip fun x => returns_ensure fun _ => ?_
    exact Returns.bind (hlist.setWord hlba) fun b hb => ⟨(SameBitmaps.refl s).setInode a _, rfl, hb⟩
  · exact Returns.bind (hlist.setWord hlba) fun b hb => ⟨SameBitmaps.refl s, rfl, hb⟩

/-- What the allocation loops of `file_write` do to the bitmaps. -/
structure Extends (s t : State) (more : Prop) : Prop where
  allotted : Allotted s t
  first : more → ∃ i u, Allots s u i ∧ Allotted u t

theorem allocFileBlocks_extends (a : InodePtr) (will fuel : ℕ) : ∀ {s : State} {c : Buffer} {k : ℕ},
    Lag D o s → OffList s.part c → Returns (allocFileBlocks a will fuel k c s) fun r =>
      Extends s r.2 (k < will) ∧ ∀ b, r.1 = some b → OffList s.part b := by
  induction fuel with
  | zero =>
    intro s c k h hlist
    refine returns_ite (fun _ => trivial) fun hge => ?_
    refine ⟨⟨Allotted.refl s, fun hlt => absurd hlt hge⟩, fun b hb => ?_⟩
    rwa [← Option.some.inj hb]
  | succ fuel ih =>
    intro s c k h hlist
    refine returns_ite (fun _ => ?_) fun hge => ?_
    · refine Returns.bind (blockBitmapAlloc_returns s) fun r ⟨i, hi, hr⟩ => ?_
      subst hr
      have hnew := offBitmaps_new h hi.1
      refine Returns.bind (linkFileBlock_off (s := s.takeBlock i) hlist hnew a k)
        fun ⟨b, u⟩ ⟨hu, hdisk, hb⟩ => ?_
      have hidx : s.part.dataStartLba + i - u.part.dataStartLba = i := by
        rw [hu.part]
        exact Nat.add_sub_cancel_left _ _
      dsimp only
      rw [hidx]
      refine Returns.bind (takeSync_allots hi h.blockLen hu hdisk) fun v ⟨hv, _⟩ => ?_
      have hv' := hv.allotted
      refine (ih (hv'.lag D o h) (hv.part ▸ hb)).mono fun r ⟨hr, hlist'⟩ => ?_
      refine ⟨⟨hv'.trans hr.allotted, fun _ => ⟨i, v, hv, hr.allotted⟩⟩, fun b hb => ?_⟩
      rw [← hv.part]
      exact hlist' b hb
    · refine ⟨⟨Allotted.refl s, fun hlt => absurd hlt hge⟩, fun b hb => ?_⟩
      rwa [← Option.some.inj hb]

end Allocating

section Collecting

variable {used will : ℕ}

/-- Every word of the sector array. -/
theorem Inode.Apart.word (h : x.Apart s) (k : ℕ) : OffBitmaps s.part (x.sector k).toNat 1 := by
  by_cases h12 : k < 12
  · exact h.sector h12
  · by_cases heq : k = 12
    · rw [heq]
      exact h.table
    · have hzero : x.sector k = 0 := by
        unfold Inode.sector
        simp [Vector.getD, show ¬ k < 13 by omega]
      rw [hzero]
      exact offBitmaps_zero _

/-- The indirect table is read behind the direct blocks. -/
theorem ideRead_off (hx : x.Apart s) (hlist : OffList s.part c) (hne : x.sector 12 ≠ 0) :
    Returns (ideRead s (x.sector 12).toNat c 48 1) (OffList s.part) := by
  refine returns_ensure fun _ => returns_ensure fun _ => returns_ensure fun _ => ?_
  refine ⟨hlist.size, fun k hk => ?_⟩
  rw [Buffer.put_bytes]
  by_cases h12 : k < 12
  · have hout : ∀ i < 4, overlay c.bytes 48 (512 * 1) (slice s.disk (512 * (x.sector 12).toNat))
        (4 * k + i) = c.bytes (4 * k + i) := fun i hi => overlay_outside (by omega)
    rw [wordAt_congr hout]
    exact hlist.words k hk
  · have hblock := hx.blocks k hk
    rw [Inode.blockLba, if_neg h12, if_pos ⟨hk, hne⟩] at hblock
    rwa [show 4 * k = 48 + 4 * (k - 12) by omega, wordAt_overlay_slice (by omega)]

theorem lastFileBlock_off (hx : s.inodes a = some x) (hoff : x.Apart s) (hlist : OffList s.part c)
    (used : ℕ) : Returns (lastFileBlock s a used c) (OffList s.part) := by
  refine returns_deref fun y hy => ?_
  obtain rfl := Option.some.inj (hx.symm.trans hy)
  refine returns_ite (fun _ => hlist.setWord (hoff.word _)) fun _ => returns_ensure fun hne => ?_
  exact ideRead_off hoff hlist hne

theorem extendFileTable_off (h : Lag D o s) (hx : s.inodes a = some x) (hoff : x.Apart s)
    (hlist : OffList s.part c) (used will : ℕ) :
    Returns (extendFileTable s a used will c) fun r =>
      Allotted s r.2 ∧ ∀ b, r.1 = some b → OffList s.part b := by
  refine returns_deref fun y hy => returns_ensure fun hne => ?_
  obtain rfl := Option.some.inj (hx.symm.trans hy)
  refine Returns.bind (ideRead_off hoff hlist hne) fun b hb => ?_
  refine Returns.bind (allocFileBlocks_extends a will will h hb) fun ⟨r, t⟩ ⟨ht, hr⟩ => ?_
  cases r with
  | none => exact ⟨ht.allotted, fun _ hb => nomatch hb⟩
  | some d =>
    have htable : OffBitmaps t.part (x.sector 12).toNat 1 := by
      rw [ht.allotted.part]
      exact hoff.table
    refine Returns.bind (ideWrite_bitmaps htable d 48) fun u hu => ?_
    exact ⟨ht.allotted.trans (SameBitmaps.allotted hu), hr⟩

/-- The bit of a block that was just taken is in memory only. -/
theorem takeBlock_behind (h : Synced s) (hi : i ∈ s.blockBitmap.free) :
    Behind (s.takeBlock i) (i / 8) := by
  obtain ⟨hlt, hclear⟩ := (Bitmap.mem_free _ _).mp hi
  have hlen := h.blockLen
  have hbyte : i / 8 < 512 * s.part.blockBitmapSects := by omega
  refine ⟨hbyte, fun heq => ?_⟩
  have heq : s.disk (512 * s.part.blockBitmapLba + i / 8) =
      (bitmapSet s.blockBitmap i true).bits (i / 8) := heq
  have hset : bitmapScanTest (bitmapSet s.blockBitmap i true) i = bitmapScanTest s.blockBitmap i := by
    unfold bitmapScanTest
    rw [← heq, h.blocks _ hbyte (Finset.notMem_empty _)]
  rw [bitmapScanTest_set, if_pos rfl, hclear] at hset
  cases hset

/-- The least free block comes first. -/
theorem nth_zero_le {btmp : Bitmap} (hi : btmp.nth 0 i) (hj : j ∈ btmp.free) : i ≤ j := by
  have hempty := Finset.card_eq_zero.mp hi.2
  have hnone := Finset.filter_eq_empty_iff.mp hempty hj
  omega

theorem nth_unique {btmp : Bitmap} (hi : btmp.nth k i) (hj : btmp.nth k j) : i = j := by
  by_contra hne
  wlog hlt : i < j generalizing i j
  · exact this hj hi (Ne.symm hne) (by omega)
  have hsub : btmp.free.filter (· < i) ⊆ btmp.free.filter (· < j) :=
    Finset.monotone_filter_right _ fun m _ hm => lt_trans hm hlt
  have hmem : i ∈ btmp.free.filter (· < j) := Finset.mem_filter.mpr ⟨hi.1, hlt⟩
  rw [← Finset.eq_of_subset_of_card_le hsub (by rw [hi.2, hj.2])] at hmem
  exact absurd (Finset.mem_filter.mp hmem).2 (lt_irrefl i)

/-- Situation 2: the bit of the table lags behind, unless that of the next block is in its
sector. -/
theorem addFileTable_synced (h : Synced s) (hx : s.inodes a = some x) (hoff : x.Apart s)
    (hlist : OffList s.part c) (hlt : used < will) :
    Returns (addFileTable s a used will c) fun r =>
      r.2.part = s.part ∧ (∀ b, r.1 = some b → OffList s.part b) ∧
        ∃ i j, s.blockBitmap.nth 0 i ∧ s.blockBitmap.nth 1 j ∧
          (Synced r.2 ↔ i / 4096 = j / 4096) := by
  refine returns_deref fun y hy => ?_
  obtain rfl := Option.some.inj (hx.symm.trans hy)
  refine Returns.bind (hlist.setWord (hoff.word _)) fun b hb => ?_
  refine Returns.bind (blockBitmapAlloc_returns s) fun r ⟨i, hi, hr⟩ => ?_
  subst hr
  refine returns_ensure fun _ => ?_
  have hlag : Lag {i / 4096} none ((s.takeBlock i).setInode a
      (x.setSector 12 (UInt32.ofNat (s.part.dataStartLba + i)))) := (h.takeBlock i).setInode a _
  refine Returns.bind (allocFileBlocks_extends a will will hlag hb) fun ⟨r, t⟩ ⟨ht, hr⟩ => ?_
  obtain ⟨j, u, hu, hrest⟩ := ht.first hlt
  have hj := nth_succ_of_take hi hu.least
  have hsynced : Synced t ↔ i / 4096 = j / 4096 := by
    constructor
    · intro hsync
      by_contra hne
      have hle := nth_zero_le hi hj.1
      have hbyte : i / 8 / 512 = i / 4096 := Nat.div_div_eq_div_mul _ _ _
      have hbehind := (takeBlock_behind h hi.1).bitmaps ((SameBitmaps.refl _).setInode a
        (x.setSector 12 (UInt32.ofNat (s.part.dataStartLba + i))))
      refine Behind.not_synced (hrest.behind (i / 8) (fun m hm => ?_)
        (hu.behind (i / 8) (by omega) hbehind)) hsync
      have hle' := nth_zero_le hu.least (hu.allotted.free hm)
      have hdiv := Nat.div_le_div_right (c := 4096) hle
      have hdiv' := Nat.div_le_div_right (c := 4096) hle'
      omega
    · intro heq
      refine (hrest.lag _ _ (hu.lag _ _ hlag)).mono fun m hm => ?_
      obtain ⟨hne, hmem⟩ := Finset.mem_erase.mp hm
      exact absurd ((Finset.mem_singleton.mp hmem).trans heq) hne
  cases r with
  | none => exact ⟨ht.allotted.part, fun _ hb => (nomatch hb), i, j, hi, hj, hsynced⟩
  | some d =>
    have htable : OffBitmaps t.part (s.part.dataStartLba + i) 1 := by
      rw [ht.allotted.part]
      exact offBitmaps_data s.part i 1
    refine Returns.bind (ideWrite_bitmaps htable d 48) fun v hv => ?_
    exact ⟨hv.part.trans ht.allotted.part, hr, i, j, hi, hj, hv.synced.trans hsynced⟩

/-- The blocks of a write are off the bitmaps, and only a new indirect table is missed. -/
structure Collects (s t : State) (b : Option Buffer) (needsTable : Prop) : Prop where
  part : t.part = s.part
  list : ∀ d, b = some d → OffList s.part d
  synced : ¬ needsTable → Synced t
  missed : needsTable → ∃ i j, s.blockBitmap.nth 0 i ∧ s.blockBitmap.nth 1 j ∧
    (Synced t ↔ i / 4096 = j / 4096)

theorem collectWriteBlocks_collects (h : Synced s) (hx : s.inodes a = some x) (hoff : x.Apart s)
    (hlist : OffList s.part c) (used will : ℕ) :
    Returns (collectWriteBlocks s a used will c) fun r =>
      Collects s r.2 r.1 (used ≤ 12 ∧ 12 < will) := by
  refine returns_ite (fun heq => ?_) fun _ => returns_ite (fun hdirect => ?_) fun hindirect => ?_
  · refine Returns.bind (lastFileBlock_off hx hoff hlist used) fun b hb => ?_
    refine ⟨rfl, fun d hd => ?_, fun _ => h, fun hneeds => by omega⟩
    rwa [← Option.some.inj hd]
  · refine returns_deref fun y hy => ?_
    obtain rfl := Option.some.inj (hx.symm.trans hy)
    refine returns_bind fun lba hlba => returns_ensure fun _ => ?_
    obtain ⟨-, hlba⟩ := of_ensure_eq_ok hlba
    obtain rfl := Except.ok.inj hlba
    refine Returns.bind (hlist.setWord (hoff.word _)) fun b hb => ?_
    refine (allocFileBlocks_extends a will will h hb).mono fun r ⟨ht, hr⟩ => ?_
    exact ⟨ht.allotted.part, hr, fun _ => ht.allotted.lag _ _ h, fun hneeds => by omega⟩
  · refine returns_ite (fun hused => ?_) fun hused => ?_
    · refine (addFileTable_synced h hx hoff hlist (by omega)).mono fun r ⟨hpart, hr, hmissed⟩ => ?_
      exact ⟨hpart, hr, fun hno => absurd ⟨hused, by omega⟩ hno, fun _ => hmissed⟩
    · refine (extendFileTable_off h hx hoff hlist used will).mono fun r ⟨ht, hr⟩ => ?_
      exact ⟨ht.part, hr, fun _ => ht.lag _ _ h, fun hneeds => absurd hneeds.1 hused⟩

end Collecting

section Writing

variable {f : File} {src : Image}

/-- How many blocks `file_write` takes for block 0 of a file. -/
def Inode.firstBlocks (x : Inode) : ℕ := if x.sector 0 = 0 then 1 else 0

/-- A write gives the file its indirect table, and the bit of the table is in another sector of
the bitmap than that of the next free block. -/
structure MissesTable (s : State) (x : Inode) (count : UInt32) : Prop where
  fits : (x.iSize + count).toNat ≤ 512 * 140
  memory : s.heap 0 = true ∧ s.heap 1 = true
  direct : x.iSize.toNat < 512 * 12
  indirect : 512 * 12 ≤ (x.iSize + count).toNat
  apart : ∃ i j, s.blockBitmap.nth x.firstBlocks i ∧ s.blockBitmap.nth (x.firstBlocks + 1) j ∧
    i / 4096 ≠ j / 4096

/-- Block 0 of a file is there. -/
structure Begun (s t : State) (a : InodePtr) (x : Inode) : Prop where
  part : t.part = s.part
  synced : Synced t
  inode : ∃ y, t.inodes a = some y ∧ y.Apart t
  free : ∀ k i, t.blockBitmap.nth k i → s.blockBitmap.nth (k + x.firstBlocks) i

/-- The inode with its first block. -/
theorem Inode.Apart.begin (h : x.Apart s) (ht : Allots s t i) {w : UInt32}
    (hw : OffBitmaps s.part w.toNat 1) : (x.setSector 0 w).Apart t := by
  have hsector : ∀ k, (x.setSector 0 w).sector k = if k = 0 then w else x.sector k :=
    fun k => Inode.sector_setSector x 0 k w (by omega)
  constructor
  · intro k hk
    rw [ht.part]
    unfold Inode.blockLba
    rw [hsector, hsector, if_neg (show ¬ 12 = 0 by omega)]
    have hblock := h.blocks k hk
    unfold Inode.blockLba at hblock
    split_ifs at hblock ⊢ with h12 hzero htable
    · exact hw
    · exact hblock
    · have hrest : ∀ m < 4, t.disk (512 * (x.sector 12).toNat + 4 * (k - 12) + m) =
          s.disk (512 * (x.sector 12).toNat + 4 * (k - 12) + m) := by
        intro m hm
        rw [Nat.add_assoc]
        exact ht.rest _ h.table _ (by omega)
      rwa [wordAt_congr hrest]
    · exact hblock
  · rw [hsector, if_neg (by omega), ht.part]
    exact h.table

theorem firstFileBlock_begun (h : Synced s) (hx : s.inodes a = some x) (hoff : x.Apart s) :
    Returns (firstFileBlock s a) fun r => r.1 = true ∧ Begun s r.2 a x := by
  refine returns_deref fun y hy => ?_
  obtain rfl := Option.some.inj (hx.symm.trans hy)
  refine returns_ite (fun hzero => ?_) fun hne => ?_
  · refine Returns.bind (blockBitmapAlloc_returns s) fun r ⟨i, hi, hr⟩ => ?_
    subst hr
    have hnew := offBitmaps_new h hi.1
    refine returns_ensure fun _ => ?_
    have hu := (SameBitmaps.refl (s.takeBlock i)).setInode a
      (x.setSector 0 (UInt32.ofNat (s.part.dataStartLba + i)))
    change Returns (bitmapSync _ (s.part.dataStartLba + i - s.part.dataStartLba) _ >>= _) _
    rw [Nat.add_sub_cancel_left]
    refine Returns.bind (takeSync_allots hi h.blockLen hu rfl) fun t ⟨ht, hinodes⟩ => ?_
    refine ⟨rfl, ht.part, ht.allotted.lag _ _ h, ⟨_, ?_, hoff.begin ht hnew⟩, fun k j hj => ?_⟩
    · rw [hinodes]
      exact setInode_inodes_self ..
    · rw [ht.blockBitmap] at hj
      rw [Inode.firstBlocks, if_pos hzero]
      exact nth_succ_of_take hi hj
  · refine ⟨rfl, rfl, h, ⟨x, hx, hoff⟩, fun k j hj => ?_⟩
    rwa [Inode.firstBlocks, if_neg hne]

/-- The buffer for the list of blocks when it is new. -/
theorem offList_zeros (p : Partition) : OffList p { size := 560, bytes := zeros } where
  size := rfl
  words k _ := by
    rw [wordAt_zeros]
    exact offBitmaps_zero p

/-- A write leaves the bit of a new table behind, and nothing else. -/
theorem fileWrite_synced (h : Synced s) (hs : PointersApart s) (hfile : s.file g = .ok f)
    (hinode : f.fdInode = some a) (hx : s.inodes a = some x) (src : Image) (count : UInt32) :
    Returns (fileWrite s g src count) fun r => Synced r.2 ↔ ¬ MissesTable s x count := by
  have hopen : fileInode s g = .ok a := by
    rw [fileInode, hfile, ok_bind, hinode, deref_some]
  have hpop : Synced s.popHeap := h.of_same rfl rfl rfl rfl
  have hpop' : Synced s.popHeap.popHeap := hpop.of_same rfl rfl rfl rfl
  rw [fileWrite, hopen, ok_bind, hx, deref_some, ok_bind]
  refine returns_ite (fun hbig => iff_of_true h fun hm => absurd hm.fits (by omega)) fun hfits => ?_
  by_cases h0 : s.heap 0 = true
  · rw [sysMalloc_of_heap h0]
    dsimp only
    by_cases h1 : s.popHeap.heap 0 = true
    · rw [sysMalloc_of_heap h1]
      dsimp only
      have hoff : x.Apart s.popHeap.popHeap := (hs.opened a x hx).congr rfl rfl rfl
      refine Returns.bind (firstFileBlock_begun hpop' hx hoff) fun ⟨done, t⟩ ⟨hdone, ht⟩ => ?_
      obtain rfl : done = true := hdone
      obtain ⟨y, hy, hyoff⟩ := ht.inode
      refine returns_ensure fun _ => ?_
      refine Returns.bind (collectWriteBlocks_collects ht.synced hy hyoff (offList_zeros _) _ _)
        fun ⟨b, u⟩ hu => ?_
      have hmissed : Synced u ↔ ¬ MissesTable s x count := by
        by_cases hneeds : x.iSize.toNat / 512 + 1 ≤ 12 ∧ 12 < (x.iSize + count).toNat / 512 + 1
        · obtain ⟨i, j, hi, hj, hiff⟩ := hu.missed hneeds
          have hi := ht.free 0 i hi
          have hj := ht.free 1 j hj
          rw [Nat.zero_add] at hi
          rw [Nat.add_comm] at hj
          rw [hiff]
          constructor
          · intro heq hm
            obtain ⟨i', j', hi', hj', hne⟩ := hm.apart
            rw [nth_unique hi' hi, nth_unique hj' hj] at hne
            exact hne heq
          · intro hno
            by_contra hne
            exact hno ⟨by omega, ⟨h0, h1⟩, by omega, by omega, i, j, hi, hj, hne⟩
        · refine iff_of_true (hu.synced hneeds) fun hm => hneeds ?_
          have hdirect := hm.direct
          have hindirect := hm.indirect
          omega
      cases b with
      | none => exact hmissed
      | some b =>
        refine (writeData_bitmaps u ?_ g a src count _).mono fun r hr => hr.synced.trans hmissed
        rw [hu.part]
        exact hu.list b rfl
    · rw [sysMalloc_of_none (Bool.eq_false_of_not_eq_true h1)]
      exact iff_of_true hpop' fun hm => h1 hm.memory.2
  · rw [sysMalloc_of_none (Bool.eq_false_of_not_eq_true h0)]
    exact iff_of_true hpop fun hm => h0 hm.memory.1

/-- `sys_write` that gives a file its indirect table and leaves the bit of the table behind. -/
def State.missesTable (s : State) : Call → Prop
  | .write fd _ count => 0 ≤ fd ∧ fd ≠ 1 ∧ ∃ g f a x, fdLocal2Global s fd.toNat = .ok g ∧
    s.file g = .ok f ∧ f.fdFlag ≠ pipeFlag ∧ forWriting f.fdFlag ∧ f.fdInode = some a ∧
    s.inodes a = some x ∧ MissesTable s x count
  | _ => False

theorem sysWrite_synced (h : Synced s) (hs : PointersApart s) (fd : ℤ) (src : Image)
    (count : UInt32) :
    Returns (sysWrite s fd src count) fun t => Synced t ↔ ¬ s.missesTable (.write fd src count) := by
  refine returns_ite (fun hneg => iff_of_true h fun hm => absurd hm.1 (by omega)) fun _ => ?_
  refine returns_bind fun pipe hpipe => ?_
  obtain ⟨g, hg, hpipe⟩ := of_bind_eq_ok hpipe
  obtain ⟨f, hf, hpipe⟩ := of_bind_eq_ok hpipe
  have hpipe : decide (f.fdFlag = pipeFlag) = pipe := Except.ok.inj hpipe
  rw [hg, ok_bind, hf, ok_bind]
  -- what the descriptor leads to
  have hsame : ∀ {g' f'}, fdLocal2Global s fd.toNat = .ok g' → s.file g' = .ok f' →
      g = g' ∧ f = f' := by
    intro g' f' hg' hf'
    obtain rfl : g = g' := Except.ok.inj (hg.symm.trans hg')
    exact ⟨rfl, Except.ok.inj (hf.symm.trans hf')⟩
  refine returns_ite (fun hstream => iff_of_true h ?_) fun hplain => ?_
  · rintro ⟨-, hne, g', f', a, x, hg', hf', hnopipe, -⟩
    obtain ⟨rfl, rfl⟩ := hsame hg' hf'
    rw [← hpipe, decide_eq_true_eq] at hstream
    exact hstream.elim hnopipe hne
  · refine returns_ite (fun hwrite => ?_) fun hread => iff_of_true h ?_
    · cases hinode : f.fdInode with
      | none =>
        rw [fileWrite, fileInode, hf, ok_bind, hinode]
        trivial
      | some a =>
        cases hx : s.inodes a with
        | none =>
          rw [fileWrite, fileInode, hf, ok_bind, hinode, deref_some, ok_bind, hx]
          trivial
        | some x =>
          refine Returns.bind (fileWrite_synced h hs hf hinode hx src count) fun r hr => ?_
          refine hr.trans (not_congr ⟨fun hm => ?_, ?_⟩)
          · rw [← hpipe, decide_eq_true_eq, not_or] at hplain
            exact ⟨by omega, hplain.2, g, f, a, x, hg, hf, hplain.1, hwrite, hinode, hx, hm⟩
          · rintro ⟨-, -, g', f', a', x', hg', hf', -, -, hinode', hx', hm⟩
            obtain ⟨rfl, rfl⟩ := hsame hg' hf'
            obtain rfl := Option.some.inj (hinode.symm.trans hinode')
            obtain rfl := Option.some.inj (hx.symm.trans hx')
            exact hm
    · rintro ⟨-, -, g', f', a, x, hg', hf', -, hwrite, -⟩
      obtain ⟨rfl, rfl⟩ := hsame hg' hf'
      exact hread hwrite

end Writing

end X86System.FileSystem
