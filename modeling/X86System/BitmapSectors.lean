import X86System.OpenCounts
import X86System.InodeRecords

/-!
# The bitmaps on disk

A bitmap is changed in memory and its sectors are written later. Which sectors of the
block bitmap may differ from memory is a set; an allocation adds the sector of its bit
and `bitmap_sync` removes the sector it writes. Of the inode bitmap at most one bit, that
of an inode number under creation, differs. Every other write has to miss the sectors
of both bitmaps.
-/
namespace X86System.FileSystem
open Bytes Exec

/-- The bitmap on disk while the bit of a new inode number is set in memory only. -/
def pendingBitmap (btmp : Bitmap) : Option ℕ → Bitmap
  | none => btmp
  | some n => bitmapSet btmp n false

/-- Outside the sectors `D` of the block bitmap, and but for the new inode number `o`, the bitmaps
on disk are those in memory. -/
structure Lag (D : Finset ℕ) (o : Option ℕ) (s : State) : Prop where
  blockLen : s.blockBitmap.btmpBytesLen = 512 * s.part.blockBitmapSects
  inodeLen : s.inodeBitmap.btmpBytesLen = 512 * s.part.inodeBitmapSects
  blocks : ∀ i < 512 * s.part.blockBitmapSects, i / 512 ∉ D →
    s.disk (512 * s.part.blockBitmapLba + i) = s.blockBitmap.bits i
  inodes : ∀ i < 512 * s.part.inodeBitmapSects,
    s.disk (512 * s.part.inodeBitmapLba + i) = (pendingBitmap s.inodeBitmap o).bits i

/-- The bitmap sectors on disk are the bitmaps in memory. -/
def Synced (s : State) : Prop := Lag ∅ none s

variable {s t u : State} {D D' : Finset ℕ} {o : Option ℕ} {a : InodePtr} {i k lba n : ℕ}
  {x y : Inode} {b c : Buffer}

section Lags

theorem Lag.mono (h : Lag D o s) (hD : D ⊆ D') : Lag D' o s :=
  ⟨h.blockLen, h.inodeLen, fun i hi hD' => h.blocks i hi fun hmem => hD' (hD hmem), h.inodes⟩

/-- Only the disk, the layout and the bitmaps matter. -/
theorem Lag.of_same (h : Lag D o s) (hdisk : t.disk = s.disk) (hpart : t.part = s.part)
    (hblocks : t.blockBitmap = s.blockBitmap) (hinodes : t.inodeBitmap = s.inodeBitmap) :
    Lag D o t := by
  obtain ⟨h1, h2, h3, h4⟩ := h
  constructor <;> rw [hpart]
  · rw [hblocks, h1]
  · rw [hinodes, h2]
  · rw [hdisk, hblocks]
    exact h3
  · rw [hdisk, hinodes]
    exact h4

/-- The `n` sectors from `lba` on are none of the bitmaps' sectors. -/
def OffBitmaps (p : Partition) (lba n : ℕ) : Prop :=
  lba + n ≤ p.blockBitmapLba ∨ p.inodeTableLba ≤ lba

theorem Lag.write (h : Lag D o s) (hoff : OffBitmaps s.part lba n) (src : Image) :
    Lag D o (s.setDisk (overlay s.disk (512 * lba) (512 * n) src)) := by
  have h1 := s.part.inodeBitmapLba_eq
  have h2 := s.part.inodeTableLba_eq
  unfold OffBitmaps at hoff
  refine ⟨h.blockLen, h.inodeLen, fun i hi hD => ?_, fun i hi => ?_⟩
  · have hi : i < 512 * s.part.blockBitmapSects := hi
    rw [setDisk_disk, setDisk_part, overlay_outside (by omega)]
    exact h.blocks i hi hD
  · have hi : i < 512 * s.part.inodeBitmapSects := hi
    rw [setDisk_disk, setDisk_part, overlay_outside (by omega)]
    exact h.inodes i hi

/-- A change of bit `i` of the block bitmap in memory. -/
theorem Lag.setBlock (h : Lag D o s) (i : ℕ) (v : Bool) :
    Lag (insert (i / 4096) D) o { s with blockBitmap := bitmapSet s.blockBitmap i v } := by
  refine ⟨h.blockLen, h.inodeLen, fun j hj hD => ?_, h.inodes⟩
  rw [Finset.mem_insert, not_or] at hD
  have hne : j ≠ i / 8 := by
    intro heq
    exact hD.1 (by omega)
  change s.disk (512 * s.part.blockBitmapLba + j) = Function.update s.blockBitmap.bits (i / 8) _ j
  rw [Function.update_of_ne hne]
  exact h.blocks j hj hD.2

/-- `bitmap_sync` brings the sector of a bit up to date. -/
theorem bitmapSync_blocks (h : Lag D o s) (i : ℕ) :
    Returns (bitmapSync s i .blockBitmap) fun t => Lag (D.erase (i / 4096)) o t ∧
      t.part = s.part ∧ t.blockBitmap = s.blockBitmap ∧ t.inodes = s.inodes := by
  unfold bitmapSync ideWrite
  refine returns_ensure fun _ => returns_ensure fun _ => returns_ensure fun hfit => ?_
  refine ⟨?_, rfl, rfl, rfl⟩
  have hlen := h.blockLen
  have h1 := s.part.inodeBitmapLba_eq
  dsimp only at hfit
  refine ⟨hlen, h.inodeLen, fun j hj hD => ?_, fun j hj => ?_⟩
  · have hj : j < 512 * s.part.blockBitmapSects := hj
    change overlay s.disk (512 * (s.part.blockBitmapLba + i / 4096)) (512 * 1)
      (slice s.blockBitmap.bits (i / 4096 * 512)) (512 * s.part.blockBitmapLba + j) =
        s.blockBitmap.bits j
    by_cases hsec : j / 512 = i / 4096
    · rw [overlay_inside (by omega) (by omega), slice_apply]
      congr 1
      omega
    · rw [overlay_outside (by omega)]
      exact h.blocks j hj fun hmem => hD (Finset.mem_erase.mpr ⟨hsec, hmem⟩)
  · have hj : j < 512 * s.part.inodeBitmapSects := hj
    change overlay s.disk (512 * (s.part.blockBitmapLba + i / 4096)) (512 * 1)
      (slice s.blockBitmap.bits (i / 4096 * 512)) (512 * s.part.inodeBitmapLba + j) = _
    rw [overlay_outside (by omega)]
    exact h.inodes j hj

/-- The inode bitmap has one sector, which is written whole. -/
theorem bitmapSync_inodes (hblocks : s.blockBitmap.btmpBytesLen = 512 * s.part.blockBitmapSects)
    (hinodes : s.inodeBitmap.btmpBytesLen = 512 * s.part.inodeBitmapSects)
    (h : ∀ i < 512 * s.part.blockBitmapSects, i / 512 ∉ D →
      s.disk (512 * s.part.blockBitmapLba + i) = s.blockBitmap.bits i) (i : ℕ) :
    Returns (bitmapSync s i .inodeBitmap) fun t => Lag D none t ∧ t.part = s.part := by
  unfold bitmapSync ideWrite
  refine returns_ensure fun _ => returns_ensure fun _ => returns_ensure fun hfit => ⟨?_, rfl⟩
  have h1 := s.part.inodeBitmapLba_eq
  have h2 := s.part.inodeBitmapSects_eq
  dsimp only at hfit
  have hi : i / 4096 = 0 := by omega
  refine ⟨hblocks, hinodes, fun j hj hD => ?_, fun j hj => ?_⟩
  · have hj : j < 512 * s.part.blockBitmapSects := hj
    change overlay s.disk (512 * (s.part.inodeBitmapLba + i / 4096)) (512 * 1)
      (slice s.inodeBitmap.bits (i / 4096 * 512)) (512 * s.part.blockBitmapLba + j) = _
    rw [overlay_outside (by omega)]
    exact h j hj hD
  · have hj : j < 512 * s.part.inodeBitmapSects := hj
    change overlay s.disk (512 * (s.part.inodeBitmapLba + i / 4096)) (512 * 1)
      (slice s.inodeBitmap.bits (i / 4096 * 512)) (512 * s.part.inodeBitmapLba + j) =
        s.inodeBitmap.bits j
    rw [overlay_inside (by omega) (by omega), slice_apply, hi]
    congr 1
    omega

end Lags

section Allocating

/-- What an allocation returns is the least free block: `bitmap_scan` stops when there is none. -/
theorem blockBitmapAlloc_returns (s : State) :
    Returns (blockBitmapAlloc s) fun r => ∃ i, s.blockBitmap.nth 0 i ∧
      r = (some (s.part.dataStartLba + i), s.takeBlock i) := by
  refine returns_bind fun r hr => ?_
  obtain ⟨i, rfl, hi⟩ := bitmapScan_nth hr
  exact ⟨i, hi, rfl⟩

theorem Lag.takeBlock (h : Lag D o s) (i : ℕ) : Lag (insert (i / 4096) D) o (s.takeBlock i) :=
  h.setBlock i true

/-- A new block lies behind the bitmaps. -/
theorem offBitmaps_new (h : Lag D o s) (hi : i ∈ s.blockBitmap.free) :
    OffBitmaps s.part (UInt32.ofNat (s.part.dataStartLba + i)).toNat 1 := by
  have hlt := ((Bitmap.mem_free _ _).mp hi).1
  have hlen := h.blockLen
  have h1 := s.part.inodeBitmapLba_eq
  have h2 := s.part.inodeTableLba_eq
  have h3 := s.part.dataStartLba_eq
  have h4 := s.part.dataStartLba_le
  have h5 := s.part.end_le
  have hmax : maxLba = 163839 := by decide
  rw [UInt32.toNat_ofNat', Nat.mod_eq_of_lt (by omega)]
  exact Or.inr (by omega)

theorem offBitmaps_zero (p : Partition) : OffBitmaps p (0 : UInt32).toNat 1 := by
  have h := p.blockBitmapLba_eq
  have hz : (0 : UInt32).toNat = 0 := rfl
  exact Or.inl (by omega)

end Allocating

section Through

/-- What lags behind in `s` is all that does in `t`. -/
structure Through (s t : State) : Prop where
  part : t.part = s.part
  lag : ∀ D o, Lag D o s → Lag D o t

theorem Through.refl (s : State) : Through s s := ⟨rfl, fun _ _ h => h⟩

theorem Through.trans (h : Through s t) (h' : Through t u) : Through s u :=
  ⟨h'.part.trans h.part, fun D o hlag => h'.lag D o (h.lag D o hlag)⟩

/-- A step that does not concern the disk or the bitmaps. -/
theorem Through.of_same (hdisk : t.disk = s.disk) (hpart : t.part = s.part)
    (hblocks : t.blockBitmap = s.blockBitmap) (hinodes : t.inodeBitmap = s.inodeBitmap) :
    Through s t := ⟨hpart, fun _ _ h => h.of_same hdisk hpart hblocks hinodes⟩

/-- A program that leaves no bitmap sector behind. `π` finds the state in its result. -/
def Throughs {α : Type} (s : State) (r : Except Fault α) (π : α → State) : Prop :=
  Returns r fun v => Through s (π v)

variable {α β : Type} {π : α → State} {ρ : β → State}

theorem Throughs.bind {r : Except Fault α} {f : α → Except Fault β} (h : Throughs s r π)
    (hf : ∀ v, Through s (π v) → Throughs (π v) (f v) ρ) : Throughs s (r >>= f) ρ :=
  Returns.bind h fun v hv => (hf v hv).mono fun _ hw => hv.trans hw

/-- A first change of the state, then the rest. -/
theorem Throughs.after {r : Except Fault α} (h : Through s t) (hr : Throughs t r π) :
    Throughs s r π := hr.mono fun _ hv => h.trans hv

theorem ideWrite_through {off : ℕ} (hoff : OffBitmaps s.part lba n) :
    Throughs s (ideWrite s lba b off n) id :=
  returns_ensure fun _ => returns_ensure fun _ => returns_ensure fun _ =>
    ⟨rfl, fun _ _ h => h.write hoff _⟩

/-- A bit is changed and its sector written at once. -/
theorem bitmapSync_through (s : State) (i : ℕ) (v : Bool) :
    Throughs s (bitmapSync { s with blockBitmap := bitmapSet s.blockBitmap i v } i .blockBitmap)
      id := by
  refine Returns.intro fun t ht => ?_
  have hpart : t.part = s.part := (bitmapSync_still _ _ _).of_ok ht |>.part
  refine ⟨hpart, fun D o h => ?_⟩
  refine ((bitmapSync_blocks (h.setBlock i v) i).of_ok ht).1.mono fun j hj => ?_
  obtain ⟨hne, hmem⟩ := Finset.mem_erase.mp hj
  exact (Finset.mem_insert.mp hmem).resolve_left hne

theorem freeBlock_through (s : State) (lba : UInt32) : Throughs s (freeBlock s lba) id :=
  bitmapSync_through s _ false

/-- The records of the inode table lie behind the bitmaps. -/
theorem replaceRecord_through {pos : InodePosition} {src : Image}
    (hpos : s.part.inodeTableLba ≤ pos.secLba) : Throughs s (replaceRecord s pos b src) id := by
  refine returns_ensure fun _ => returns_ite (fun _ => ?_) fun _ => ?_
  · exact returns_skip fun _ => returns_skip fun _ => ideWrite_through (Or.inr hpos)
  · exact returns_skip fun _ => returns_skip fun _ => ideWrite_through (Or.inr hpos)

theorem inodeLocate_returns (s : State) (n : UInt32) :
    Returns (inodeLocate s n) fun pos => s.part.inodeTableLba ≤ pos.secLba :=
  returns_ensure fun _ => Nat.le_add_right _ _

theorem inodeSync_through (s : State) (x : Inode) (b : Buffer) :
    Throughs s (inodeSync s x b) id :=
  Returns.bind (inodeLocate_returns s _) fun _ hpos => replaceRecord_through hpos

theorem inodeDelete_through (s : State) (n : UInt32) (b : Buffer) :
    Throughs s (inodeDelete s n b) id :=
  returns_ensure fun _ =>
    Returns.bind (inodeLocate_returns s _) fun _ hpos => replaceRecord_through hpos

end Through

end X86System.FileSystem
