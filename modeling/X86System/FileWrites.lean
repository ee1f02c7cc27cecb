import X86System.FileBlocks
import X86System.Slots

/-!
# What writing leaves in a file

A file that started empty holds a list of bytes: its size is the length of the list and
byte `i` lies in block `i / 512`. The loop of `file_write` adds one piece after the
other, the first behind the old end and each later one at the start of a block, and
`file_write` as a whole appends `count` bytes.
-/
namespace X86System.FileSystem
open Bytes Exec

variable {s s₀ t : State} {a : InodePtr} {n i k nb used will : ℕ} {x y : Inode} {c : Buffer}
  {f f' : ℕ → ℕ} {own : Finset ℕ} {l : List UInt8}

/-- Since `s₀` the file with inode number `n` was filled with the bytes `l`, in `nb` blocks. -/
structure Holds (a : InodePtr) (n : ℕ) (s₀ s : State) (x : Inode) (nb : ℕ) (f : ℕ → ℕ)
    (own : Finset ℕ) (l : List UInt8) : Prop where
  takes : Takes a n s₀ s own
  inode : s.inodes a = some x
  iNo : x.iNo.toNat = n
  length : l.length = x.iSize.toNat
  layout : Layout s x nb f own
  data : ∀ i < l.length,
    l[i]? = some (s.disk (512 * (s.part.dataStartLba + f (i / 512)) + i % 512))

/-- The `count` bytes at `src`. -/
def bytesAt (src : Image) (count : ℕ) : List UInt8 := (List.range count).map src

@[simp] theorem length_bytesAt (src : Image) (count : ℕ) : (bytesAt src count).length = count := by
  unfold bytesAt
  simp

theorem getElem?_bytesAt {src : Image} {count : ℕ} (h : i < count) :
    (bytesAt src count)[i]? = some (src i) := by
  unfold bytesAt
  simp [h]

/-- Taking some bytes and then those behind them. -/
theorem bytesAt_append (src : Image) (j k : ℕ) :
    bytesAt src j ++ bytesAt (slice src j) k = bytesAt src (j + k) := by
  unfold bytesAt
  rw [List.range_add, List.map_append, List.map_map]
  rfl

section Sectors

/-- The list of blocks is all that the layout depends on. -/
theorem Layout.transfer (h : Layout s x nb f own) (hpart : t.part = s.part)
    (hsector : ∀ j, y.sector j = x.sector j)
    (htable : 12 < nb → ∀ e < 512, t.disk (512 * (s.part.dataStartLba + f 140) + e) =
      s.disk (512 * (s.part.dataStartLba + f 140) + e)) : Layout t y nb f own := by
  refine ⟨h.le, fun j hj hj' => ?_, fun hnb => ?_, fun j hj => ?_, fun hnb => ?_, h.inj, h.own_eq⟩
  · rw [hsector]
    exact h.unused j hj hj'
  · rw [hsector]
    exact h.noTable hnb
  · have hlba : y.blockLba t.disk j = x.blockLba s.disk j := by
      unfold Inode.blockLba
      rw [hsector j, hsector 12]
      split_ifs with hdirect hind
      · rfl
      · apply wordAt_congr
        intro e he
        rw [h.table (by omega), Nat.add_assoc]
        exact htable (by omega) _ (by omega)
      · rfl
    rw [hlba, hpart]
    exact h.block j hj
  · rw [hsector, hpart]
    exact h.table hnb

/-- A block of the file is written; the list of its blocks stays. -/
theorem Layout.write (h : Layout s x nb f own) (hk : k < nb) {src : Image}
    (hpart : t.part = s.part)
    (hdisk : t.disk = overlay s.disk (512 * (s.part.dataStartLba + f k)) 512 src)
    (hsector : ∀ j, y.sector j = x.sector j) : Layout t y nb f own := by
  have hle := h.le
  refine h.transfer hpart hsector fun hnb e he => ?_
  have hne : f 140 ≠ f k := by
    intro heq
    have := h.inj (mem_slots.mpr (Or.inr ⟨hnb, rfl⟩)) (mem_slots.mpr (Or.inl hk)) heq
    omega
  rw [hdisk]
  exact overlay_outside (by omega)

/-- The sector that the loop writes: what it keeps of the old one, then the new bytes. -/
theorem writeSector_eq {b : Buffer} {lba off : ℕ} {first : Bool} (chunk : ℕ) (src : Image)
    (hlba : lba ≤ maxLba) (hb : b.size = 512) (hchunk : off + chunk ≤ 512)
    (hfirst : first = true ∨ off = 0) :
    ∃ b₁ r, (if first then ideRead s lba b 0 1 else .ok b) = .ok b₁ ∧
      b₁.copy off chunk src = .ok (b₁.put off chunk src) ∧ b₁.size = 512 ∧
      ideWrite s lba (b₁.put off chunk src) 0 1 =
        .ok (s.setDisk (overlay s.disk (512 * lba) 512 r)) ∧
      (∀ j < off, r j = s.disk (512 * lba + j)) ∧ ∀ j < chunk, r (off + j) = src j := by
  have hwrite : ∀ b₁ : Buffer, b₁.size = 512 → ideWrite s lba (b₁.put off chunk src) 0 1 =
      .ok (s.setDisk (overlay s.disk (512 * lba) 512 (overlay b₁.bytes off chunk src))) := by
    intro b₁ hb₁
    rw [ideWrite_of_le hlba (by omega) (by rw [Buffer.put_size]; omega), Nat.mul_one]
    congr 3
    funext j
    rw [slice_apply, Nat.zero_add, Buffer.put_bytes]
  obtain rfl | hfirst := Bool.eq_false_or_eq_true first
  · refine ⟨b.put 0 512 (slice s.disk (512 * lba)),
      overlay (overlay b.bytes 0 512 (slice s.disk (512 * lba))) off chunk src, ?_,
      Buffer.copy_of_le (by rw [Buffer.put_size]; omega), hb, hwrite _ hb, fun j hj => ?_,
      fun j hj => overlay_at hj⟩
    · exact ideRead_of_le hlba (by omega) (by omega)
    · rw [overlay_outside (by omega), overlay_inside (by omega) (by omega), slice_apply,
        Nat.sub_zero]
  · subst hfirst
    have hoff : off = 0 := by
      obtain h | h := hfirst
      · cases h
      · exact h
    refine ⟨b, overlay b.bytes off chunk src, rfl, Buffer.copy_of_le (by omega), hb, hwrite b hb,
      fun j hj => by omega, fun j hj => overlay_at hj⟩

end Sectors

section Loop

theorem Takes.setFile {new : Finset ℕ} (h : Takes a n s t new) (g : ℕ) (fd : File) :
    Takes a n s (t.setFile g fd) new :=
  h.write (M := ∅) (Finset.empty_subset _) rfl rfl rfl (SectorsKept.refl _ _ _)
    (fun _ _ _ _ _ => rfl) (fun _ _ => rfl) id

theorem file_of_slot {g : ℕ} {fd : File} (h : s.fileTable[g]? = some fd) : s.file g = .ok fd := by
  unfold State.file
  rw [h]

theorem advance_of_slot {g : ℕ} {fd : File} (h : s.fileTable[g]? = some fd) (m : UInt32) :
    advance s g m = .ok (s.setFile g { fd with fdPos := fd.fdPos + m }) := by
  unfold advance
  rw [file_of_slot h, ok_bind]

/-- The bytes that were written behind the old end of the file. -/
theorem Holds.piece {chunk off : ℕ} {src r : Image} (fd : File) (h : Holds a n s₀ s x nb f own l)
    (hk : k < nb) (hdiv : l.length / 512 = k) (hoff : l.length % 512 = off)
    (hchunk : off + chunk ≤ 512) (hlt : l.length + chunk < 2 ^ 32)
    (hold : ∀ j < off, r j = s.disk (512 * (s.part.dataStartLba + f k) + j))
    (hnew : ∀ j < chunk, r (off + j) = src j) (g : ℕ) :
    Holds a n s₀ (((s.setDisk (overlay s.disk (512 * (s.part.dataStartLba + f k)) 512 r)).setInode a
        { x with iSize := x.iSize + UInt32.ofNat chunk }).setFile g fd)
      { x with iSize := x.iSize + UInt32.ofNat chunk } nb f own (l ++ bytesAt src chunk) := by
  have hslot : k ∈ slots nb := mem_slots.mpr (Or.inl hk)
  refine ⟨?_, setInode_inodes_self .., h.iNo, ?_, h.layout.write hk rfl rfl fun _ => rfl,
    fun i hi => ?_⟩
  · exact ((h.takes.writeSector (h.layout.mem_own hslot) r).setInode _).setFile g fd
  · have hlen := h.length
    rw [List.length_append, length_bytesAt, UInt32.toNat_add, UInt32.toNat_ofNat']
    omega
  · rw [List.length_append, length_bytesAt] at hi
    change _ = some (overlay s.disk (512 * (s.part.dataStartLba + f k)) 512 r
      (512 * (s.part.dataStartLba + f (i / 512)) + i % 512))
    by_cases hlow : i < l.length
    · rw [List.getElem?_append_left hlow, h.data i hlow]
      by_cases hblock : i / 512 = k
      · rw [hblock, overlay_at (by omega), hold _ (by omega)]
      · have hne : f (i / 512) ≠ f k := fun heq =>
          hblock (h.layout.inj (mem_slots.mpr (Or.inl (by omega))) hslot heq)
        rw [overlay_outside (by omega)]
    · have hblock : i / 512 = k := by omega
      have hrest : i % 512 = off + (i - l.length) := by omega
      rw [List.getElem?_append_right (by omega), getElem?_bytesAt (by omega), hblock, hrest,
        overlay_at (by omega), hnew _ (by omega)]

/-- The loop of `file_write` appends `left` bytes. -/
theorem writeLoop_holds {g : ℕ} (src : Image) (hg : g < 32) (hm₀ : Mounted s₀) (fuel : ℕ) :
    ∀ (done left : ℕ) (first : Bool) {b : Buffer} {s : State} {x : Inode} {l : List UInt8},
      Holds a n s₀ s x nb f own l → l.length + left < 512 * nb → left ≤ fuel → b.size = 512 →
      c.size = 560 →
      (∀ k, l.length / 512 ≤ k → k < nb →
        (wordAt c.bytes (4 * k)).toNat = s.part.dataStartLba + f k) →
      (0 < left → first = true ∨ l.length % 512 = 0) →
      ∃ b' t y, writeLoop g a src c fuel done left first b s = .ok (b', t) ∧ b'.size = 512 ∧
        Holds a n s₀ t y nb f own (l ++ bytesAt (slice src done) left) := by
  induction fuel with
  | zero =>
    intro done left first b s x l h _ hfuel hb _ _ _
    obtain rfl : left = 0 := by omega
    refine ⟨b, s, x, ?_, hb, ?_⟩
    · rw [writeLoop, if_pos rfl]
    · simpa [bytesAt] using h
  | succ fuel ih =>
    intro done left first b s x l h hsize hfuel hb hc hwords hfirst
    by_cases hleft : left = 0
    · subst hleft
      refine ⟨b, s, x, ?_, hb, ?_⟩
      · rw [writeLoop, if_pos rfl]
      · simpa [bytesAt] using h
    have hnb := h.layout.le
    set k := l.length / 512 with hk
    have hkn : k < nb := by omega
    have hlen : x.iSize.toNat = l.length := h.length.symm
    set off := l.length % 512 with hoff
    set chunk := min left (512 - off) with hchunk
    have hlba : (wordAt c.bytes (4 * k)).toNat = s.part.dataStartLba + f k := hwords k le_rfl hkn
    have hmax : s.part.dataStartLba + f k ≤ maxLba := by
      rw [h.takes.part]
      exact h.takes.lba_le hm₀ (h.layout.mem_own (mem_slots.mpr (Or.inl hkn)))
    obtain ⟨b₁, r, hread, hcopy, hb₁, hwrite, hold, hnew⟩ :=
      writeSector_eq (s := s) (b := b.put 0 512 zeros) chunk (slice src done)
        hmax hb (by omega) (hfirst (by omega))
    have hslot : ∃ fd, s.fileTable[g]? = some fd := ⟨s.fileTable[g], Vector.getElem?_eq_getElem hg⟩
    obtain ⟨fd, hfd⟩ := hslot
    have hpiece := h.piece { fd with fdPos := fd.fdPos + UInt32.ofNat chunk } hkn hk.symm
      hoff.symm (by omega) (by omega) hold hnew g
    have hadvance := advance_of_slot (s := (s.setDisk (overlay s.disk
      (512 * (s.part.dataStartLba + f k)) 512 r)).setInode a
        { x with iSize := x.iSize + UInt32.ofNat chunk }) hfd (UInt32.ofNat chunk)
    have hstep : writeLoop g a src c (fuel + 1) done left first b s =
        writeLoop g a src c fuel (done + chunk) (left - chunk) false
          (b₁.put off chunk (slice src done))
          (((s.setDisk (overlay s.disk (512 * (s.part.dataStartLba + f k)) 512 r)).setInode a
            { x with iSize := x.iSize + UInt32.ofNat chunk }).setFile g
              { fd with fdPos := fd.fdPos + UInt32.ofNat chunk }) := by
      rw [writeLoop, if_neg hleft, Buffer.copy_of_le (by omega), ok_bind, h.inode, deref_some,
        ok_bind, hlen, ← hk, Buffer.word_of_le (by omega), ok_bind, hlba]
      dsimp only
      rw [← hoff, ← hchunk, hread, ok_bind, hcopy, ok_bind, hwrite, ok_bind,
        hadvance, ok_bind]
    obtain ⟨b', t, y, hrun, hb', ht⟩ := ih (done + chunk) (left - chunk)
      false (b := b₁.put off chunk (slice src done)) hpiece
      (by rw [List.length_append, length_bytesAt]; omega) (by omega) hb₁ hc
      (fun j hj hj' => by
        rw [List.length_append, length_bytesAt] at hj
        exact hwords j (by omega) hj')
      (fun hmore => by
        right
        rw [List.length_append, length_bytesAt]
        omega)
    refine ⟨b', t, y, hstep.trans hrun, hb', ?_⟩
    rw [List.append_assoc, ← slice_slice, bytesAt_append, Nat.add_sub_cancel' (by omega)] at ht
    exact ht

end Loop

section Writing

/-- The number of blocks: one more than the full sectors, or none before the first write. -/
def Filled (nb : ℕ) (l : List UInt8) : Prop := nb = l.length / 512 + 1 ∨ nb = 0 ∧ l = []

/-- The record of inode `n` can be written back from the buffer of one sector. -/
def SyncsFromSector (n : ℕ) : Prop := n < 256 ∧ n * inodeSize % 512 + inodeSize ≤ 512

instance (n : ℕ) : Decidable (SyncsFromSector n) := inferInstanceAs (Decidable (_ ∧ _))

theorem Takes.card (h : Takes a n s₀ s own) :
    own.card + s.blockBitmap.free.card = s₀.blockBitmap.free.card := by
  rw [h.free, Nat.add_comm]
  exact Finset.card_sdiff_add_card_eq_card h.fresh

/-- The state after memory was given out. -/
def State.popHeap (s : State) : State := { s with heap := fun k => s.heap (k + 1) }

theorem sysMalloc_of_heap (h : s.heap 0 = true) (size : ℕ) :
    sysMalloc s size = (some { size := size, bytes := zeros }, s.popHeap) := by
  unfold sysMalloc
  rw [if_pos h]
  rfl

theorem sysMalloc_of_none (h : s.heap 0 = false) (size : ℕ) :
    sysMalloc s size = (none, s.popHeap) := by
  unfold sysMalloc
  rw [h]
  rfl

theorem Holds.malloc (h : Holds a n s₀ s x nb f own l) :
    Holds a n s₀ s.popHeap x nb f own l where
  takes := h.takes.write (M := ∅) (Finset.empty_subset _) rfl rfl rfl (SectorsKept.refl _ _ _)
    (fun _ _ _ _ _ => rfl) (fun _ _ => rfl) fun hs k => hs (k + 1)
  inode := h.inode
  iNo := h.iNo
  length := h.length
  layout := h.layout.transfer rfl (fun _ => rfl) fun _ _ _ => rfl
  data := h.data

theorem Holds.setFile (h : Holds a n s₀ s x nb f own l) (g : ℕ) (fd : File) :
    Holds a n s₀ (s.setFile g fd) x nb f own l where
  takes := h.takes.setFile g fd
  inode := h.inode
  iNo := h.iNo
  length := h.length
  layout := h.layout.transfer rfl (fun _ => rfl) fun _ _ _ => rfl
  data := h.data

/-- The first write of a file gives it a block. -/
theorem firstFileBlock_holds (h : Holds a n s₀ s x nb f own l) (hfilled : Filled nb l)
    (hroot : nb = 0 → 0 ∉ s₀.blockBitmap.free) (hfree : 0 < s₀.blockBitmap.free.card) :
    ∃ t y f' own', firstFileBlock s a = .ok (true, t) ∧
      Holds a n s₀ t y (l.length / 512 + 1) f' own' l := by
  obtain hnb | ⟨hnb, hl⟩ := hfilled
  · unfold firstFileBlock
    rw [h.inode, deref_some, ok_bind, if_neg (h.layout.sector_ne (by omega) (by omega)), ← hnb]
    exact ⟨s, x, f, own, rfl, h⟩
  subst hnb
  have hzero : ∀ k < 13, x.sector k = 0 := by
    intro k hk
    by_cases hdirect : k < 12
    · exact h.layout.unused k hdirect (Nat.zero_le k)
    · obtain rfl : k = 12 := by omega
      exact h.layout.noTable (Nat.zero_le 12)
  have hown : own = ∅ := by
    rw [← Finset.card_eq_zero, h.layout.card]
    rfl
  have hcard := h.takes.card
  rw [hown, Finset.card_empty, Nat.zero_add] at hcard
  have hsome : 0 < s.blockBitmap.free.card := by omega
  obtain ⟨i, hi, halloc⟩ := blockBitmapAlloc_of_free (Finset.card_pos.mp hsome)
  have hmax := h.takes.mounted.free_le i hi
  set b := UInt32.ofNat (s.part.dataStartLba + i) with hb
  obtain ⟨d, hsync, htake, hkept⟩ :=
    takes_one (a := a) (n := n) h.takes.mounted hi (x.setSector 0 b)
  have hi0 : i ≠ 0 := by
    rintro rfl
    rw [h.takes.free, hown, Finset.sdiff_empty] at hi
    exact hroot rfl hi
  have hrun : firstFileBlock s a = .ok (true, ((s.takeBlock i).setInode a
      (x.setSector 0 b)).setDisk d) := by
    unfold firstFileBlock
    rw [h.inode, deref_some, ok_bind, if_pos (hzero 0 (by omega)), halloc, ok_bind]
    dsimp only
    rw [show ((s.takeBlock i).setInode a (x.setSector 0 b)).part = s.part from rfl,
      Nat.add_sub_cancel_left, ensure_of hi0, ok_bind, hsync, ok_bind]
  have hsector : ∀ j, (x.setSector 0 b).sector j = if j = 0 then b else x.sector j := fun j =>
    Inode.sector_setSector x 0 j b (by omega)
  have hall := h.takes.trans htake
  rw [hown, Finset.empty_union] at hall
  subst hl
  refine ⟨_, x.setSector 0 b, fun _ => i, {i}, hrun, hall, setInode_inodes_self .., h.iNo, h.length,
    ⟨by decide, fun k hk hk' => ?_, fun _ => ?_, fun k hk => ?_, fun hlt => ?_, ?_, rfl⟩,
    fun k hk => ?_⟩
  · have hk0 : k ≠ 0 := Nat.ne_of_gt hk'
    rw [hsector, if_neg hk0]
    exact hzero k (by omega)
  · rw [hsector, if_neg (by omega)]
    exact hzero 12 (by omega)
  · obtain rfl : k = 0 := Nat.lt_one_iff.mp hk
    rw [blockLba_direct (by omega), hsector, if_pos rfl, toNat_lba s hmax]
    rfl
  · simp at hlt
  · simp [slots]
  · simp at hk

/-- The record of the file is written back. -/
theorem Holds.sync (h : Holds a n s₀ s x nb f own l) (hn : SyncsFromSector n) {b : Buffer}
    (hb : b.size = 512) :
    ∃ t, inodeSync s x b = .ok t ∧ Holds a n s₀ t x nb f own l := by
  have hmod : x.iNo.toNat % 256 = n := by
    rw [h.iNo, Nat.mod_eq_of_lt hn.1]
  have hone : sectorsOf n = 1 := by
    have hn := hn.2
    unfold sectorsOf
    exact if_neg (by omega)
  have hsync : inodeSync s x b = _ := inodeSync_eq (by rw [hmod, hone]; omega)
  rw [hmod] at hsync
  have hbelow : ∀ e, 512 * s.part.dataStartLba ≤ e →
      (s.setRecord n x.pure.bytes).disk e = s.disk e := by
    intro e he
    have h1 := s.part.dataStartLba_eq
    have h2 := s.part.inodeTableSects_eq
    refine setEntry_outside (show n < 4096 by have := hn.1; omega) (Or.inr ?_)
    unfold inodeSize
    omega
  have hkept : SectorsKept s.part.dataStartLba ∅ s.disk (s.setRecord n x.pure.bytes).disk := by
    intro e he _ j _
    exact hbelow _ (by omega)
  refine ⟨_, hsync, ?_, h.inode, h.iNo, h.length,
    h.layout.transfer rfl (fun _ => rfl) fun _ e _ => hbelow _ (by omega), fun i hi => ?_⟩
  · exact h.takes.write (M := ∅) (Finset.empty_subset _) rfl rfl rfl
      (hkept.mono (Finset.empty_subset _))
      (fun m _ hne j hj => diskRecord_setRecord_ne hne hj) (fun _ _ => rfl) id
  · rw [h.data i hi]
    exact congrArg some (hbelow _ (by omega)).symm

/-- The blocks for a write were added to those of the file. -/
theorem Holds.collect (h : Holds a n s₀ s x used f own l) (hm₀ : Mounted s₀)
    (hused : used = l.length / 512 + 1) (hle : used ≤ will) (hwill : will ≤ 140)
    (hfree : sectorsFor will ≤ s₀.blockBitmap.free.card) :
    ∃ c t y f' own', collectWriteBlocks s a used will { size := 560, bytes := zeros } =
        .ok (some c, t) ∧ c.size = 560 ∧ Holds a n s₀ t y will f' own' l ∧
      ∀ k, l.length / 512 ≤ k → k < will →
        (wordAt c.bytes (4 * k)).toNat = t.part.dataStartLba + f' k := by
  have hcard := h.takes.card
  rw [h.layout.card] at hcard
  obtain ⟨c, t, y, f', own', hrun, hc⟩ := collectWriteBlocks_collected (n := n) h.takes hm₀ h.inode
    h.layout (by omega) hle hwill (by omega)
  have hpart : t.part = s.part := hc.takes.part.trans h.takes.part.symm
  refine ⟨c, t, y, f', own', hrun, hc.size, ⟨hc.takes, hc.inode, ?_, ?_, hc.layout, fun i hi => ?_⟩,
    fun k hk hk' => ?_⟩
  · rw [hc.iNo, h.iNo]
  · rw [hc.iSize, h.length]
  · have hk : i / 512 < used := by omega
    rw [h.data i hi, hpart, hc.same _ (mem_slots.mpr (Or.inl hk)), hc.data _ hk _ (by omega)]
  · rw [hc.words k (by omega) hk', hc.layout.block k hk']

/-- `file_write` appends `count` bytes; writing back the record is all that is left. -/
theorem fileWrite_eq_sync {g : ℕ} {fd : File} (src : Image) (count : UInt32)
    (h : Holds a n s₀ s x nb f own l) (hfilled : Filled nb l) (hm₀ : Mounted s₀)
    (hroot : nb = 0 → 0 ∉ s₀.blockBitmap.free) (hheap : ∀ k, s.heap k = true)
    (hslot : s.fileTable[g]? = some fd) (hfd : fd.fdInode = some a)
    (hsize : l.length + count.toNat < 140 * 512)
    (hfree : sectorsFor ((l.length + count.toNat) / 512 + 1) ≤ s₀.blockBitmap.free.card) :
    ∃ b t y f' own', b.size = 512 ∧
      Holds a n s₀ t y ((l.length + count.toNat) / 512 + 1) f' own' (l ++ bytesAt src count.toNat) ∧
      fileWrite s g src count = (do
        let u ← inodeSync t y b
        .ok (some count, u)) := by
  have hlen : x.iSize.toNat = l.length := h.length.symm
  have hsum : (x.iSize + count).toNat = l.length + count.toNat := by
    rw [UInt32.toNat_add, hlen]
    omega
  have hsome : 0 < s₀.blockBitmap.free.card := by
    unfold sectorsFor at hfree
    split_ifs at hfree <;> omega
  have hg : g < 32 := (Vector.getElem?_eq_some_iff.mp hslot).1
  have hinode : fileInode s g = .ok a := by
    unfold fileInode
    rw [file_of_slot hslot, ok_bind, hfd, deref_some]
  obtain ⟨t₁, x₁, f₁, own₁, hfirst, h₁⟩ := firstFileBlock_holds h.malloc.malloc hfilled hroot hsome
  obtain ⟨c, t₂, x₂, f₂, own₂, hcollect, hc, h₂, hwords⟩ := h₁.collect hm₀ rfl
    (show _ ≤ (l.length + count.toNat) / 512 + 1 by omega) (by omega) hfree
  obtain ⟨fd₂, hfd₂⟩ : ∃ fd, t₂.fileTable[g]? = some fd :=
    ⟨t₂.fileTable[g], Vector.getElem?_eq_getElem hg⟩
  obtain ⟨b, t₃, x₃, hloop, hb, h₃⟩ := writeLoop_holds (g := g) src hg hm₀ count.toNat
    0 count.toNat true (b := { size := 512, bytes := zeros })
    (h₂.setFile g { fd₂ with fdPos := x₂.iSize - 1 }) (by omega) le_rfl rfl hc hwords
    fun _ => Or.inl rfl
  have hdata : writeData t₂ g a src count c { size := 512, bytes := zeros } = (do
      let u ← inodeSync t₃ x₃ b
      .ok (some count, u)) := by
    unfold writeData
    rw [h₂.inode, deref_some, ok_bind, file_of_slot hfd₂, ok_bind]
    dsimp only
    rw [hloop, ok_bind]
    dsimp only
    rw [h₃.inode, deref_some, ok_bind]
  refine ⟨b, t₃, x₃, f₂, own₂, hb, ?_, ?_⟩
  · have hzero : slice src 0 = src := by
      funext j
      rw [slice_apply, Nat.zero_add]
    rw [hzero] at h₃
    exact h₃
  · unfold fileWrite
    rw [hinode, ok_bind, h.inode, deref_some, ok_bind, hsum, if_neg (by omega)]
    rw [sysMalloc_of_heap (hheap 0)]
    dsimp only
    rw [sysMalloc_of_heap (hheap 1)]
    dsimp only
    rw [hfirst, ok_bind]
    dsimp only
    rw [ensure_of (by omega), ok_bind, hlen, hcollect, ok_bind]
    exact hdata

/-- `file_write` appends `count` bytes. -/
theorem fileWrite_holds {g : ℕ} {fd : File} (src : Image) (count : UInt32)
    (h : Holds a n s₀ s x nb f own l) (hfilled : Filled nb l) (hm₀ : Mounted s₀)
    (hroot : nb = 0 → 0 ∉ s₀.blockBitmap.free) (hheap : ∀ k, s.heap k = true)
    (hslot : s.fileTable[g]? = some fd) (hfd : fd.fdInode = some a) (hn : SyncsFromSector n)
    (hsize : l.length + count.toNat < 139 * 512)
    (hfree : sectorsFor ((l.length + count.toNat) / 512 + 1) ≤ s₀.blockBitmap.free.card) :
    ∃ t y f' own', fileWrite s g src count = .ok (some count, t) ∧
      Holds a n s₀ t y ((l.length + count.toNat) / 512 + 1) f' own'
        (l ++ bytesAt src count.toNat) := by
  obtain ⟨b, t, y, f', own', hb, ht, hrun⟩ :=
    fileWrite_eq_sync src count h hfilled hm₀ hroot hheap hslot hfd (by omega) hfree
  obtain ⟨u, hsync, hu⟩ := ht.sync hn hb
  refine ⟨u, y, f', own', ?_, hu⟩
  rw [hrun, hsync, ok_bind]

end Writing

end X86System.FileSystem
