import X86System.FileWrites

/-!
# What reading a file returns

A file with the bytes `l` and the position `p` is read as if it were the list: `count`
bytes of `l` from `p` on, or what there is of them. `file_read` collects the addresses
of the blocks that it needs, and its loop copies one piece of a block after the other.
-/
namespace X86System.FileSystem
open Bytes Exec

variable {s s₀ t : State} {a : InodePtr} {n i k nb start last : ℕ} {x y : Inode} {c : Buffer}
  {f : ℕ → ℕ} {own : Finset ℕ} {l : List UInt8}

/-- Reading `count` bytes at position `p` of a file with the bytes `l`; `none` stands for -1. -/
def readBytes (l : List UInt8) (p count : ℕ) : Option (List UInt8) :=
  if (l.drop p).take count = [] ∧ 0 < count then none else some ((l.drop p).take count)

section Collecting

theorem copySectors_spec (x : Inode) (m : ℕ) : ∀ (idx : ℕ) {c : Buffer}, 4 * (idx + m) ≤ c.size →
    ∃ c', copySectors x m idx c = .ok c' ∧ c'.size = c.size ∧
      ∀ j, wordAt c'.bytes (4 * j) =
        if idx ≤ j ∧ j < idx + m then x.sector j else wordAt c.bytes (4 * j) := by
  induction m with
  | zero =>
    intro idx c _
    refine ⟨c, rfl, rfl, fun j => ?_⟩
    rw [if_neg (by omega)]
  | succ m ih =>
    intro idx c hc
    obtain ⟨c', hrun, hsize, hwords⟩ := ih (idx + 1)
      (c := c.put (4 * idx) 4 (wordByte (x.sector idx))) (by rw [Buffer.put_size]; omega)
    refine ⟨c', ?_, hsize, fun j => ?_⟩
    · rw [copySectors, Buffer.setWord_of_le (by omega), ok_bind, hrun]
    · rw [hwords, Buffer.put_bytes, wordAt_overlay_word]
      by_cases hj : j = idx
      · subst hj
        rw [if_neg (by omega), if_pos rfl, if_pos (by omega)]
      · rw [if_neg hj]
        exact if_congr (by omega) rfl rfl

/-- The addresses that `file_read` collects are those of the blocks. -/
theorem collectReadBlocks_spec (hstart : start ≤ last) (hlast : last < 140)
    (htable : 12 ≤ last → x.sector 12 ≠ 0 ∧ (x.sector 12).toNat ≤ maxLba) :
    ∃ c, collectReadBlocks s x start last { size := 560, bytes := zeros } = .ok c ∧
      c.size = 560 ∧ ∀ k, start ≤ k → k ≤ last → wordAt c.bytes (4 * k) = x.blockLba s.disk k := by
  unfold collectReadBlocks
  by_cases hone : start = last
  · subst hone
    by_cases hdirect : start < 12
    · rw [if_pos rfl, if_pos hdirect, Buffer.setWord_of_le (by dsimp only; omega)]
      refine ⟨_, rfl, rfl, fun k hk hk' => ?_⟩
      obtain rfl : k = start := by omega
      rw [Buffer.put_bytes, wordAt_overlay_word, if_pos rfl, blockLba_direct hdirect]
    · obtain ⟨hne, hmax⟩ := htable (by omega)
      rw [if_pos rfl, if_neg hdirect, ideRead_of_le hmax (by omega) (by dsimp only; omega)]
      exact ⟨_, rfl, rfl, fun k hk hk' => wordAt_table hne (by omega) (by omega) _ _⟩
  rw [if_neg hone]
  by_cases hdirect : last < 12
  · obtain ⟨c, hrun, hsize, hwords⟩ := copySectors_spec x (last + 1 - start) start
      (c := { size := 560, bytes := zeros }) (by dsimp only; omega)
    rw [if_pos hdirect]
    refine ⟨c, hrun, hsize, fun k hk hk' => ?_⟩
    rw [hwords, if_pos (by omega), blockLba_direct (by omega)]
  · obtain ⟨hne, hmax⟩ := htable (by omega)
    obtain ⟨c, hrun, hsize, hwords⟩ := copySectors_spec x (12 - start) start
      (c := { size := 560, bytes := zeros }) (by dsimp only; omega)
    rw [if_neg hdirect, hrun, ok_bind, ensure_of hne, ok_bind,
      ideRead_of_le hmax (by omega) (by simp [hsize])]
    refine ⟨_, rfl, hsize, fun k hk hk' => ?_⟩
    by_cases hkd : k < 12
    · have hbefore : wordAt (overlay c.bytes 48 (512 * 1) (slice s.disk (512 * (x.sector 12).toNat)))
          (4 * k) = wordAt c.bytes (4 * k) :=
        wordAt_congr fun e he => overlay_outside (by omega)
      rw [Buffer.put_bytes, hbefore, hwords, if_pos (by omega), blockLba_direct hkd]
    · exact wordAt_table hne (by omega) (by omega) _ _

end Collecting

section Loop

variable {g : ℕ} {fd : File}

theorem setFile_setFile (s : State) (g : ℕ) (fd fd' : File) :
    (s.setFile g fd).setFile g fd' = s.setFile g fd' := by
  unfold State.setFile
  simp

theorem setFile_same (h : s.fileTable[g]? = some fd) : s.setFile g fd = s := by
  obtain ⟨hg, hget⟩ := Vector.getElem?_eq_some_iff.mp h
  have hsame : s.fileTable.setIfInBounds g fd = s.fileTable := by
    ext j hj
    rw [Vector.getElem_setIfInBounds hj]
    split_ifs with hgj
    · subst hgj
      exact hget.symm
    · rfl
  unfold State.setFile
  rw [hsame]

/-- The loop of `file_read` copies `left` bytes and moves the position behind them. -/
theorem readLoop_reads (lba : ℕ → ℕ) (fuel : ℕ) : ∀ (done left : ℕ) {b : Buffer} (dst : Image)
    {s : State} (fd : File), s.fileTable[g]? = some fd → left ≤ fuel → b.size = 512 →
    c.size = 560 → fd.fdPos.toNat + left ≤ l.length → l.length ≤ 140 * 512 →
    (∀ k, fd.fdPos.toNat / 512 ≤ k → 512 * k < fd.fdPos.toNat + left →
      (wordAt c.bytes (4 * k)).toNat = lba k ∧ lba k ≤ maxLba) →
    (∀ i < l.length, l[i]? = some (s.disk (512 * lba (i / 512) + i % 512))) →
    ∃ dst', readLoop g c fuel done left b dst s =
        .ok (dst', s.setFile g { fd with fdPos := fd.fdPos + UInt32.ofNat left }) ∧
      (∀ i < left, l[fd.fdPos.toNat + i]? = some (dst' (done + i))) ∧
      ∀ i, i < done ∨ done + left ≤ i → dst' i = dst i := by
  have hnone : ∀ {s : State} {fd : File}, s.fileTable[g]? = some fd →
      s.setFile g { fd with fdPos := fd.fdPos + UInt32.ofNat 0 } = s := by
    intro s fd hfd
    have hsame : { fd with fdPos := fd.fdPos + UInt32.ofNat 0 } = fd := by simp
    rw [hsame, setFile_same hfd]
  induction fuel with
  | zero =>
    intro done left b dst s fd hfd hfuel _ _ _ _ _ _
    obtain rfl : left = 0 := by omega
    refine ⟨dst, ?_, fun i hi => absurd hi (Nat.not_lt_zero i), fun _ _ => rfl⟩
    rw [readLoop, if_pos rfl, hnone hfd]
  | succ fuel ih =>
    intro done left b dst s fd hfd hfuel hb hc hend hlen hwords hdata
    by_cases hleft : left = 0
    · subst hleft
      refine ⟨dst, ?_, fun i hi => absurd hi (Nat.not_lt_zero i), fun _ _ => rfl⟩
      rw [readLoop, if_pos rfl, hnone hfd]
    set p := fd.fdPos.toNat with hp
    set chunk := min left (512 - p % 512) with hchunk
    obtain ⟨hlba, hmax⟩ := hwords (p / 512) le_rfl (by omega)
    set b' := (b.put 0 512 zeros).put 0 512 (slice s.disk (512 * lba (p / 512))) with hb'
    have hadvance := advance_of_slot hfd (UInt32.ofNat chunk)
    have hstep : readLoop g c (fuel + 1) done left b dst s =
        readLoop g c fuel (done + chunk) (left - chunk) b'
          (overlay dst done chunk (slice b'.bytes (p % 512)))
          (s.setFile g { fd with fdPos := fd.fdPos + UInt32.ofNat chunk }) := by
      rw [readLoop, if_neg hleft, file_of_slot hfd, ok_bind, Buffer.word_of_le (by omega), ok_bind,
        Buffer.copy_of_le (by omega), ok_bind, hlba, ideRead_of_le hmax (by omega) (by
          rw [Buffer.put_size]; omega), ok_bind]
      rw [← hchunk, hadvance, ok_bind]
    have hpos : (fd.fdPos + UInt32.ofNat chunk).toNat = p + chunk := by
      rw [UInt32.toNat_add, UInt32.toNat_ofNat', ← hp]
      omega
    have hg := (Vector.getElem?_eq_some_iff.mp hfd).1
    obtain ⟨dst', hrun, hnew, hold⟩ := ih (done + chunk) (left - chunk)
      (b := b') (overlay dst done chunk (slice b'.bytes (p % 512)))
      { fd with fdPos := fd.fdPos + UInt32.ofNat chunk } (setFile_self (s := s) hg) (by omega)
      hb hc (by dsimp only; omega) hlen
      (fun k hk hk' => by
        dsimp only at hk hk'
        exact hwords k (by omega) (by omega)) hdata
    dsimp only at hrun hnew
    refine ⟨dst', ?_, fun i hi => ?_, fun i hi => ?_⟩
    · have hsum : fd.fdPos + UInt32.ofNat chunk + UInt32.ofNat (left - chunk) =
          fd.fdPos + UInt32.ofNat left := by
        rw [UInt32.add_assoc, ← UInt32.ofNat_add, Nat.add_sub_cancel' (by omega)]
      rw [hstep, hrun, setFile_setFile, hsum]
    · by_cases hlow : i < chunk
      · have hblock : (p + i) / 512 = p / 512 := by omega
        have hrest : (p + i) % 512 = p % 512 + i := by omega
        rw [hold _ (Or.inl (by omega)), overlay_at hlow, hdata _ (by omega), hblock, hrest,
          slice_apply, hb', Buffer.put_bytes, overlay_inside (by omega) (by omega), slice_apply,
          Nat.sub_zero]
      · have hrest := hnew (i - chunk) (by omega)
        rw [hpos, show p + chunk + (i - chunk) = p + i by omega,
          show done + chunk + (i - chunk) = done + i by omega] at hrest
        exact hrest
    · rw [hold i (by omega), overlay_outside (by omega)]

end Loop

section Reading

/-- `file_read` through slot `g` returns what the list of bytes says: -1 with nothing changed, or
the bytes, with the position moved behind them and nothing but memory and that slot changed. -/
def ReadsAs (s : State) (g : ℕ) (fd : File) (dst : Image) (count : UInt32) :
    Option (List UInt8) → Prop
  | none => fileRead s g dst count = .ok (none, dst, s)
  | some out => ∃ dst', bytesAt dst' out.length = out ∧ (∀ i, out.length ≤ i → dst' i = dst i) ∧
      fileRead s g dst count = .ok (some (UInt32.ofNat out.length), dst',
        s.popHeap.popHeap.setFile g { fd with fdPos := fd.fdPos + UInt32.ofNat out.length })

/-- How many bytes `file_read` takes: the count, or what there is behind the position. -/
theorem toNat_readSize {fd : File} {count : UInt32} (hpos : fd.fdPos.toNat ≤ x.iSize.toNat)
    (hwrap : fd.fdPos.toNat + count.toNat < 2 ^ 32) :
    (readSize fd x count).toNat = min count.toNat (x.iSize.toNat - fd.fdPos.toNat) := by
  have hsum : (fd.fdPos + count).toNat = fd.fdPos.toNat + count.toNat := by
    rw [UInt32.toNat_add, Nat.mod_eq_of_lt hwrap]
  unfold readSize
  by_cases hlt : x.iSize < fd.fdPos + count
  · rw [if_pos hlt, UInt32.toNat_sub_of_le _ _ (UInt32.le_iff_toNat_le.mpr hpos)]
    rw [UInt32.lt_iff_toNat_lt, hsum] at hlt
    omega
  · rw [if_neg hlt]
    rw [UInt32.lt_iff_toNat_lt, hsum] at hlt
    omega

/-- Reading back what a file holds, where the assertion on the last block lets it through. -/
theorem fileRead_of_last {g : ℕ} {fd : File} {count : UInt32} (h : Holds a n s₀ s x nb f own l)
    (hm₀ : Mounted s₀) (hheap0 : s.heap 0 = true) (hheap1 : s.heap 1 = true)
    (hslot : s.fileTable[g]? = some fd) (hfd : fd.fdInode = some a)
    (hpos : fd.fdPos.toNat ≤ l.length) (hcover : l.length ≤ 512 * nb)
    (hwrap : fd.fdPos.toNat + count.toNat < 2 ^ 32)
    (hlast : (0 < count.toNat → fd.fdPos.toNat < l.length) → ∀ last,
      last = (fd.fdPos.toNat + min count.toNat (l.length - fd.fdPos.toNat)) / 512 →
      last < 139 ∧ (12 ≤ last → 12 < nb)) (dst : Image) :
    ReadsAs s g fd dst count (readBytes l fd.fdPos.toNat count.toNat) := by
  have hsizeNat : x.iSize.toNat = l.length := h.length.symm
  set p := fd.fdPos.toNat with hp
  have hinode : fileInode s g = .ok a := by
    unfold fileInode
    rw [file_of_slot hslot, ok_bind, hfd, deref_some]
  have hsum : (fd.fdPos + count).toNat = p + count.toNat := by
    rw [UInt32.toNat_add, ← hp, Nat.mod_eq_of_lt hwrap]
  have hbeyond : x.iSize < fd.fdPos + count ↔ l.length < p + count.toNat := by
    rw [UInt32.lt_iff_toNat_lt, hsum, hsizeNat]
  -- the number of bytes that are read
  have hsize : (readSize fd x count).toNat = min count.toNat (l.length - p) := by
    rw [toNat_readSize (by rw [hsizeNat]; exact hpos) hwrap, hsizeNat]
  have houtLen : ((l.drop p).take count.toNat).length = min count.toNat (l.length - p) := by
    rw [List.length_take, List.length_drop]
  have hnil : (l.drop p).take count.toNat = [] ↔ min count.toNat (l.length - p) = 0 := by
    rw [← houtLen, List.length_eq_zero_iff]
  set m := min count.toNat (l.length - p) with hm
  have hzero : readSize fd x count = 0 ↔ m = 0 := by
    rw [← hsize]
    exact ⟨fun h => by rw [h]; rfl, fun h => UInt32.toNat_inj.mp h⟩
  unfold readBytes
  by_cases hend : m = 0 ∧ 0 < count.toNat
  · rw [if_pos ⟨hnil.mpr hend.1, hend.2⟩]
    have hcond : x.iSize < fd.fdPos + count ∧ readSize fd x count = 0 :=
      ⟨hbeyond.mpr (by omega), hzero.mpr hend.1⟩
    change fileRead s g dst count = _
    unfold fileRead
    rw [file_of_slot hslot, ok_bind, hinode, ok_bind, h.inode, deref_some, ok_bind, if_pos hcond]
  rw [if_neg (fun h => hend ⟨hnil.mp h.1, h.2⟩)]
  have hcond : ¬ (x.iSize < fd.fdPos + count ∧ readSize fd x count = 0) := by
    rintro ⟨hlt, h0⟩
    have := hbeyond.mp hlt
    exact hend ⟨hzero.mp h0, by omega⟩
  have hlastNat : (fd.fdPos + readSize fd x count).toNat = p + m := by
    rw [UInt32.toNat_add, hsize, ← hp]
    omega
  have hle := h.layout.le
  obtain ⟨hlast, hblocks⟩ := hlast (fun hcount => by
    by_contra hge
    exact hend ⟨by omega, hcount⟩) _ rfl
  have htable : 12 ≤ (p + m) / 512 → x.sector 12 ≠ 0 ∧ (x.sector 12).toNat ≤ maxLba := by
    intro hindirect
    have hnb := hblocks hindirect
    refine ⟨h.layout.table_ne hnb, ?_⟩
    rw [h.layout.table hnb, h.takes.part]
    exact h.takes.lba_le hm₀ (h.layout.mem_own (mem_slots.mpr (Or.inr ⟨hnb, rfl⟩)))
  obtain ⟨c, hcollect, hc, hwords⟩ := collectReadBlocks_spec (s := s.popHeap.popHeap) (x := x)
    (show p / 512 ≤ (p + m) / 512 by omega) (by omega) htable
  obtain ⟨dst', hrun, hnew, hold⟩ := readLoop_reads (g := g) (c := c) (l := l)
    (fun k => s.part.dataStartLba + f k) m 0 m (b := { size := 512, bytes := zeros }) dst
    (s := s.popHeap.popHeap) fd hslot le_rfl rfl hc (by omega) (by omega) (fun k hk hk' => by
      have hnb : k < nb := by omega
      constructor
      · rw [hwords k hk (by omega)]
        exact h.layout.block k hnb
      · rw [h.takes.part]
        exact h.takes.lba_le hm₀ (h.layout.mem_own (mem_slots.mpr (Or.inl hnb)))) h.data
  refine ⟨dst', ?_, fun i hi => hold i (by omega), ?_⟩
  · refine List.ext_getElem? fun i => ?_
    by_cases hi : i < m
    · rw [getElem?_bytesAt (by omega), List.getElem?_take, if_pos (by omega), List.getElem?_drop,
        hnew i hi, Nat.zero_add]
    · rw [List.getElem?_eq_none (by rw [length_bytesAt]; omega),
        List.getElem?_eq_none (by omega)]
  · unfold fileRead
    rw [file_of_slot hslot, ok_bind, hinode, ok_bind, h.inode, deref_some, ok_bind, if_neg hcond,
      sysMalloc_of_heap hheap0]
    dsimp only
    rw [sysMalloc_of_heap (s := s.popHeap) hheap1]
    dsimp only
    rw [hlastNat, ensure_of (by omega), ok_bind, hcollect, ok_bind, hsize, hrun, ok_bind]
    have hback : readSize fd x count = UInt32.ofNat m := by
      rw [← hsize, UInt32.ofNat_toNat]
    rw [houtLen, hback]

/-- Reading back what a file holds. -/
theorem fileRead_holds {g : ℕ} {fd : File} {count : UInt32} (h : Holds a n s₀ s x nb f own l)
    (hfilled : Filled nb l) (hm₀ : Mounted s₀) (hheap : ∀ k, s.heap k = true)
    (hslot : s.fileTable[g]? = some fd) (hfd : fd.fdInode = some a)
    (hpos : fd.fdPos.toNat ≤ l.length) (hlen : l.length < 139 * 512)
    (hwrap : fd.fdPos.toNat + count.toNat < 2 ^ 32) (dst : Image) :
    ReadsAs s g fd dst count (readBytes l fd.fdPos.toNat count.toNat) := by
  refine fileRead_of_last h hm₀ (hheap 0) (hheap 1) hslot hfd hpos ?_ hwrap (fun _ last hlast => ?_) dst
  · obtain hnb | ⟨-, hl⟩ := hfilled
    · omega
    · rw [hl]
      exact Nat.zero_le _
  · obtain hnb | ⟨-, hl⟩ := hfilled
    · omega
    · rw [hl, List.length_nil] at hpos hlast
      omega

end Reading

end X86System.FileSystem
