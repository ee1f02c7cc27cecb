import X86System.Sessions
import X86System.FileWrites
import X86System.Lookup

/-!
# Listing a directory

`dir_read` keeps no place between two calls but the number of bytes of entries that it
has returned: each call walks the blocks again from the first one, counts the live
entries that it passes, and stops at the one with the count of `dir_pos`. Over all calls
this lists the live entries in the order of their places, and a search finds what is
listed.
-/
namespace X86System.FileSystem
open Bytes Exec

variable {s t u : State} {x : Inode} {c b : Buffer} {e : DirEntry} {disk : Image}

/-- `struct dir`: the inode, the position of `dir_read` and its buffer of one sector. -/
structure DirStream where
  inode : InodePtr
  dirPos : UInt32
  dirBuf : Buffer

/-- The loop of `dir_read` over one sector, from entry `idx` on, `fuel` of them; `pos` is
`cur_dir_entry_pos`. -/
def readSector (buf : Image) (dirPos entrySize : UInt32) :
    ℕ → ℕ → UInt32 → Except Fault (Option DirEntry × UInt32)
  | 0, _, pos => .ok (none, pos)
  | fuel + 1, idx, pos =>
    let p := slice buf (direntSize * idx)
    if wordAt p 20 ≠ ftUnknown then
      if pos < dirPos then readSector buf dirPos entrySize fuel (idx + 1) (pos + entrySize)
      else do
        ensure Fault.assert (pos = dirPos)
        .ok (some (DirEntry.ofBytes p), pos)
    else readSector buf dirPos entrySize fuel (idx + 1) pos

/-- The loop of `dir_read` over the blocks from `blockIdx` on, `fuel` of them. -/
def readDirBlocks (s : State) (iSize dirPos : UInt32) (allBlocks : Buffer) :
    ℕ → ℕ → UInt32 → Buffer → Except Fault (Option DirEntry × Buffer)
  | 0, _, _, dirBuf => .ok (none, dirBuf)
  | fuel + 1, blockIdx, pos, dirBuf =>
    if iSize ≤ dirPos then .ok (none, dirBuf)
    else do
      let lba ← allBlocks.word blockIdx
      if lba = 0 then readDirBlocks s iSize dirPos allBlocks fuel (blockIdx + 1) pos dirBuf
      else
        let dirBuf ← dirBuf.copy 0 512 zeros
        let dirBuf ← ideRead s lba.toNat dirBuf 0 1
        match ← readSector dirBuf.bytes dirPos (UInt32.ofNat s.part.dirEntrySize)
            (512 / s.part.dirEntrySize) 0 pos with
        | (some e, _) => .ok (some e, dirBuf)
        | (none, pos) =>
          readDirBlocks s iSize dirPos allBlocks fuel (blockIdx + 1) pos dirBuf

/-- `dir_read`; `none` stands for NULL. -/
def dirRead (s : State) (dir : DirStream) : Except Fault (Option DirEntry × DirStream) := do
  let x ← deref (s.inodes dir.inode)
  let allBlocks ← copyDirect x { size := 560, bytes := zeros } 12
  let allBlocks ← loadIndirect s x allBlocks
  let blockCnt := if x.sector 12 ≠ 0 then 140 else 12
  match ← readDirBlocks s x.iSize dir.dirPos allBlocks blockCnt 0 0 dir.dirBuf with
  | (some e, dirBuf) =>
    .ok (some e, { dir with
      dirPos := dir.dirPos + UInt32.ofNat s.part.dirEntrySize
      dirBuf := dirBuf })
  | (none, dirBuf) => .ok (none, { dir with dirBuf := dirBuf })

/-- `m` calls of `dir_read` one after the other. -/
def dirReads (s : State) : ℕ → DirStream → Except Fault (List (Option DirEntry) × DirStream)
  | 0, dir => .ok ([], dir)
  | m + 1, dir => do
    let (e, dir) ← dirRead s dir
    let (es, dir) ← dirReads s m dir
    .ok (e :: es, dir)

/-- A live entry. -/
def DirEntry.live (e : DirEntry) : Bool := e.fType ≠ ftUnknown

/-- The live entries of a directory in the order of their places. -/
def listing (disk : Image) (x : Inode) : List DirEntry := (dirEntries disk x).filter DirEntry.live

/-- The name of an entry: the bytes before the first NUL. -/
def DirEntry.name (e : DirEntry) : List UInt8 := e.filename.toList.takeWhile (· ≠ 0)

/-- A directory that may have holes anywhere: its size is that of its live entries, which have
different names, and unused entries are zero. -/
structure ListedDir (s : State) (x : Inode) : Prop where
  table_le : (x.sector 12).toNat ≤ maxLba
  block_le : ∀ k < 140, (x.blockLba s.disk k).toNat ≤ maxLba
  size_eq : x.iSize.toNat = direntSize * (listing s.disk x).length
  unused : ∀ e ∈ dirEntries s.disk x, e.live = false → e = DirEntry.ofBytes zeros
  distinct : ((listing s.disk x).map DirEntry.name).Nodup

/-- A directory whose blocks can be read, with different names, whose unused entries are zero. -/
structure NamedDir (s : State) (x : Inode) : Prop where
  table_le : (x.sector 12).toNat ≤ maxLba
  block_le : ∀ k < 140, (x.blockLba s.disk k).toNat ≤ maxLba
  unused : ∀ e ∈ dirEntries s.disk x, e.live = false → e = DirEntry.ofBytes zeros
  distinct : ((listing s.disk x).map DirEntry.name).Nodup

theorem ListedDir.namedDir (h : ListedDir s x) : NamedDir s x :=
  ⟨h.table_le, h.block_le, h.unused, h.distinct⟩

section Reading

/-- The position that a walk has reached which passes `m` live entries and looks for entry `i`. -/
def cursor (i m : ℕ) : UInt32 := UInt32.ofNat (direntSize * min i m)

theorem toNat_cursor {i m : ℕ} (hi : i ≤ 2940) : (cursor i m).toNat = direntSize * min i m := by
  unfold cursor direntSize
  rw [UInt32.toNat_ofNat', Nat.mod_eq_of_lt]
  omega

/-- The sector loop finds entry `i` of the directory if it is one of the sector's, where `j` live
entries came before. -/
theorem readSector_eq (buf : Image) {i : ℕ} (hi : i ≤ 2940) (fuel : ℕ) : ∀ (idx j : ℕ), j ≤ i →
    ∀ L, L = ((List.range' idx fuel).map fun k =>
      DirEntry.ofBytes (slice buf (direntSize * k))).filter DirEntry.live →
    readSector buf (cursor i i) (UInt32.ofNat direntSize) fuel idx (cursor i j) =
      .ok (L[i - j]?, cursor i (j + L.length)) := by
  induction fuel with
  | zero =>
    intro idx j _ L hL
    subst hL
    rfl
  | succ fuel ih =>
    intro idx j hj L hL
    have hlive : (DirEntry.ofBytes (slice buf (direntSize * idx))).live =
        decide (wordAt (slice buf (direntSize * idx)) 20 ≠ ftUnknown) := rfl
    rw [List.range'_succ, List.map_cons, List.filter_cons, hlive] at hL
    unfold readSector
    dsimp only
    by_cases htype : wordAt (slice buf (direntSize * idx)) 20 ≠ ftUnknown
    · rw [decide_eq_true htype, if_pos rfl] at hL
      subst hL
      have hself := toNat_cursor (m := i) hi
      have hpos := toNat_cursor (m := j) hi
      rw [Nat.min_self] at hself
      rw [Nat.min_eq_right hj] at hpos
      rw [if_pos htype]
      by_cases hlt : j < i
      · have hnext : cursor i j + UInt32.ofNat direntSize = cursor i (j + 1) := by
          apply UInt32.toNat_inj.mp
          have hsucc := toNat_cursor (m := j + 1) hi
          rw [Nat.min_eq_right hlt] at hsucc
          rw [UInt32.toNat_add, UInt32.toNat_ofNat', hpos, hsucc]
          unfold direntSize
          omega
        rw [if_pos (by rw [UInt32.lt_iff_toNat_lt, hself, hpos]; unfold direntSize; omega), hnext,
          ih (idx + 1) (j + 1) hlt _ rfl]
        have hidx : i - j = i - (j + 1) + 1 := by omega
        rw [hidx, List.getElem?_cons_succ, List.length_cons, Nat.add_right_comm, Nat.add_assoc]
      · obtain rfl : j = i := by omega
        rw [if_neg (UInt32.lt_irrefl _), ensure_of rfl, ok_bind, Nat.sub_self, List.getElem?_cons_zero]
        unfold cursor
        rw [Nat.min_self, Nat.min_eq_left (by omega)]
    · rw [decide_eq_false htype, if_neg Bool.false_ne_true] at hL
      rw [if_neg htype]
      exact ih (idx + 1) j hj L hL

/-- The entries of the blocks from `k` on, `m` of them. -/
def blockEntries (disk : Image) (x : Inode) (k m : ℕ) : List DirEntry :=
  (List.range' k m).flatMap fun k => if x.blockLba disk k = 0 then []
    else (List.range 21).map (dirEntryAt disk (x.blockLba disk k))

theorem blockEntries_succ (disk : Image) (x : Inode) (k m : ℕ) : blockEntries disk x k (m + 1) =
    (if x.blockLba disk k = 0 then []
      else (List.range 21).map (dirEntryAt disk (x.blockLba disk k))) ++
        blockEntries disk x (k + 1) m := by
  unfold blockEntries
  rw [List.range'_succ, List.flatMap_cons]

theorem dirEntries_eq (disk : Image) (x : Inode) :
    dirEntries disk x = blockEntries disk x 0 140 := by
  have hrange : List.range 140 = List.range' 0 140 := List.range_eq_range'
  unfold dirEntries blockEntries
  rw [hrange]

/-- Without an indirect table the blocks behind the direct ones are holes. -/
theorem dirEntries_direct (htable : x.sector 12 = 0) :
    dirEntries disk x = blockEntries disk x 0 12 := by
  have hrest : blockEntries disk x 12 128 = [] := by
    unfold blockEntries
    refine List.flatMap_eq_nil_iff.mpr fun k hk => if_pos ?_
    have hk := List.mem_range'_1.mp hk
    rw [Inode.blockLba, if_neg (by omega), if_neg fun h => h.2 htable]
  have hsplit : List.range' 0 140 = List.range' 0 12 ++ List.range' 12 128 :=
    (List.range'_append_1 (s := 0) (m := 12) (n := 128)).symm
  rw [dirEntries_eq]
  unfold blockEntries at hrest ⊢
  rw [hsplit, List.flatMap_append, hrest, List.append_nil]

/-- The block loop finds entry `i` of the directory among the blocks from `k` on, where `j` live
entries came before. -/
theorem readDirBlocks_eq (hread : ∀ k < 140, (x.blockLba s.disk k).toNat ≤ maxLba)
    (hc : c.size = 560) (hwords : ∀ k < 140, wordAt c.bytes (4 * k) = x.blockLba s.disk k) {i : ℕ}
    (hi : i ≤ 2940) (hmore : ¬ x.iSize ≤ cursor i i) (fuel : ℕ) : ∀ (k j : ℕ) {b : Buffer}, j ≤ i →
      k + fuel ≤ 140 → b.size = 512 → ∃ b', b'.size = 512 ∧
        readDirBlocks s x.iSize (cursor i i) c fuel k (cursor i j) b =
          .ok (((blockEntries s.disk x k fuel).filter DirEntry.live)[i - j]?, b') := by
  induction fuel with
  | zero =>
    intro k j b _ _ hb
    exact ⟨b, hb, rfl⟩
  | succ fuel ih =>
    intro k j b hj hk hb
    have hword : c.word k = .ok (x.blockLba s.disk k) := by
      rw [Buffer.word_of_le (by omega), hwords k (by omega)]
    unfold readDirBlocks
    rw [if_neg hmore, hword, ok_bind, blockEntries_succ]
    by_cases hzero : x.blockLba s.disk k = 0
    · rw [if_pos hzero, if_pos hzero, List.nil_append]
      exact ih (k + 1) j hj (by omega) hb
    rw [if_neg hzero, if_neg hzero, List.filter_append, Buffer.copy_of_le (by omega), ok_bind,
      ideRead_of_le (hread k (by omega)) Nat.one_pos (by rw [Buffer.put_size]; omega), ok_bind,
      Nat.mul_one, s.part.dirEntrySize_eq]
    have hb₁ : ((b.put 0 512 zeros).put 0 512
        (slice s.disk (512 * (x.blockLba s.disk k).toNat))).size = 512 := hb
    set L := ((List.range 21).map (dirEntryAt s.disk (x.blockLba s.disk k))).filter DirEntry.live
      with hL
    have hsector := readSector_eq (overlay (b.put 0 512 zeros).bytes 0 512
      (slice s.disk (512 * (x.blockLba s.disk k).toNat))) hi 21 0 j hj L (by
        rw [hL, ← List.range_eq_range']
        exact congrArg _ (List.map_congr_left fun m hm =>
          (dirEntry_read (List.mem_range.mp hm)).symm))
    have hsize : UInt32.ofNat 24 = UInt32.ofNat direntSize := rfl
    rw [Buffer.put_bytes, hsize, hsector, ok_bind]
    by_cases hin : i - j < L.length
    · rw [List.getElem?_append_left hin, List.getElem?_eq_getElem hin]
      exact ⟨_, hb₁, rfl⟩
    · obtain ⟨b', hb', hrest⟩ := ih (k + 1) (j + L.length) (by omega) (by omega) hb₁
      rw [List.getElem?_append_right (by omega), List.getElem?_eq_none (by omega)]
      refine ⟨b', hb', ?_⟩
      rw [Nat.sub_sub]
      exact hrest

theorem length_blockEntries (disk : Image) (x : Inode) (m : ℕ) : ∀ k,
    (blockEntries disk x k m).length ≤ 21 * m := by
  induction m with
  | zero => exact fun _ => le_rfl
  | succ m ih =>
    intro k
    have hrest := ih (k + 1)
    rw [blockEntries_succ, List.length_append]
    split_ifs with hzero
    · rw [List.length_nil]
      omega
    · rw [List.length_map, List.length_range]
      omega

theorem length_listing (disk : Image) (x : Inode) : (listing disk x).length ≤ 2940 := by
  have hle := length_blockEntries disk x 140 0
  rw [← dirEntries_eq] at hle
  exact (List.length_filter_le _ _).trans hle

/-- One call of `dir_read` at entry `i`: it returns this entry and moves on, or NULL at the end. -/
theorem dirRead_eq (h : ListedDir s x) {dir : DirStream} {i : ℕ} (hx : s.inodes dir.inode = some x)
    (hpos : dir.dirPos = cursor i i) (hi : i ≤ (listing s.disk x).length)
    (hbuf : dir.dirBuf.size = 512) :
    ∃ b, b.size = 512 ∧ dirRead s dir = .ok ((listing s.disk x)[i]?, { dir with
      dirPos := cursor (min (i + 1) (listing s.disk x).length) (min (i + 1) (listing s.disk x).length)
      dirBuf := b }) := by
  have hlen := length_listing s.disk x
  have hself := toNat_cursor (i := i) (m := i) (by omega)
  rw [Nat.min_self] at hself
  obtain ⟨b, hcopy, hlist⟩ := copyDirect_blockList x
  obtain ⟨c, hload, hc, hwords⟩ := loadIndirect_words (s := s) hlist h.table_le
  unfold dirRead
  rw [hx, deref_some, ok_bind, hcopy, ok_bind, hload, ok_bind, hpos]
  dsimp only
  by_cases hend : i = (listing s.disk x).length
  · -- at the end the first test of the loop returns
    have hle : x.iSize ≤ cursor i i := by
      rw [UInt32.le_iff_toNat_le, hself, h.size_eq, hend]
    have hnone : ∀ m, readDirBlocks s x.iSize (cursor i i) c (m + 1) 0 0 dir.dirBuf =
        .ok (none, dir.dirBuf) := fun m => if_pos hle
    have hloop : readDirBlocks s x.iSize (cursor i i) c (if x.sector 12 ≠ 0 then 140 else 12) 0 0
        dir.dirBuf = .ok (none, dir.dirBuf) := by
      split_ifs
      · exact hnone 139
      · exact hnone 11
    refine ⟨dir.dirBuf, hbuf, ?_⟩
    rw [hloop, ok_bind, List.getElem?_eq_none (by omega), Nat.min_eq_right (by omega), ← hend, ← hpos]
  · have hlt : i < (listing s.disk x).length := by omega
    have hmore : ¬ x.iSize ≤ cursor i i := by
      rw [UInt32.le_iff_toNat_le, hself, h.size_eq]
      unfold direntSize
      omega
    have hzero : (0 : UInt32) = cursor i 0 := by
      unfold cursor
      rw [Nat.min_eq_right (Nat.zero_le i)]
      rfl
    have hloop : ∃ b', b'.size = 512 ∧ readDirBlocks s x.iSize (cursor i i) c
        (if x.sector 12 ≠ 0 then 140 else 12) 0 0 dir.dirBuf = .ok ((listing s.disk x)[i]?, b') := by
      split_ifs with htable
      · have hrun := readDirBlocks_eq h.block_le hc hwords (i := i) (by omega) hmore 140 0 0
          (Nat.zero_le i) le_rfl hbuf
        rw [← dirEntries_eq, ← hzero] at hrun
        exact hrun
      · have hrun := readDirBlocks_eq h.block_le hc hwords (i := i) (by omega) hmore 12 0 0
          (Nat.zero_le i) (by omega) hbuf
        rw [← dirEntries_direct (not_not.mp htable), ← hzero] at hrun
        exact hrun
    obtain ⟨b', hb', hrun⟩ := hloop
    refine ⟨b', hb', ?_⟩
    rw [hrun, ok_bind, List.getElem?_eq_getElem hlt, Nat.min_eq_left (by omega)]
    have hnext : cursor i i + UInt32.ofNat s.part.dirEntrySize = cursor (i + 1) (i + 1) := by
      have hsucc := toNat_cursor (i := i + 1) (m := i + 1) (by omega)
      rw [Nat.min_self] at hsucc
      apply UInt32.toNat_inj.mp
      rw [UInt32.toNat_add, UInt32.toNat_ofNat', hself, hsucc, s.part.dirEntrySize_eq]
      unfold direntSize
      omega
    rw [← hnext]

/-- `m` calls of `dir_read` from entry `i` on. -/
theorem dirReads_eq (h : ListedDir s x) (m : ℕ) : ∀ (i : ℕ) (dir : DirStream),
    s.inodes dir.inode = some x → dir.dirPos = cursor i i → i ≤ (listing s.disk x).length →
    dir.dirBuf.size = 512 → ∃ dir', dirReads s m dir =
      .ok ((List.range' i m).map fun k => (listing s.disk x)[k]?, dir') := by
  induction m with
  | zero => exact fun i dir _ _ _ _ => ⟨dir, rfl⟩
  | succ m ih =>
    intro i dir hx hpos hi hbuf
    obtain ⟨b, hb, hread⟩ := dirRead_eq h hx hpos hi hbuf
    obtain ⟨dir', hreads⟩ := ih (min (i + 1) (listing s.disk x).length) { dir with
      dirPos := cursor (min (i + 1) (listing s.disk x).length) (min (i + 1) (listing s.disk x).length)
      dirBuf := b } hx rfl (Nat.min_le_right _ _) hb
    refine ⟨dir', ?_⟩
    rw [dirReads, hread, ok_bind]
    dsimp only
    rw [hreads, ok_bind, List.range'_succ, List.map_cons]
    dsimp only
    congr 3
    -- at the end the position stays, and every further call returns NULL
    by_cases hend : i < (listing s.disk x).length
    · rw [Nat.min_eq_left (by omega)]
    · refine List.ext_getElem? fun k => ?_
      rw [List.getElem?_map, List.getElem?_map]
      by_cases hk : k < m
      · rw [List.getElem?_range' hk, List.getElem?_range' hk, Option.map_some, Option.map_some,
          List.getElem?_eq_none (by omega), List.getElem?_eq_none (by omega)]
      · rw [List.getElem?_eq_none (by rw [List.length_range']; omega),
          List.getElem?_eq_none (by rw [List.length_range']; omega)]

end Reading

section Searching

/-- Comparing a C string with the bytes of a longer list. -/
theorem strMatches_iff : ∀ {name l : List UInt8}, 0 ∉ name → name.length < l.length →
    (strMatches (fun i => l.getD i 0) name = true ↔ l.takeWhile (· ≠ 0) = name)
  | _, [], _, hlen => absurd hlen (Nat.not_lt_zero _)
  | [], b :: l, _, _ => by
    by_cases hb : b = 0 <;> simp [strMatches, hb]
  | c :: name, b :: l, hname, hlen => by
    obtain ⟨hc, hname⟩ := not_or.mp (mt List.mem_cons.mpr hname)
    have hslice : slice (fun i => (b :: l).getD i 0) 1 = fun i => l.getD i 0 := by
      funext i
      rw [slice_apply, Nat.add_comm, List.getD_cons_succ]
    have hrest := strMatches_iff hname (Nat.lt_of_succ_lt_succ hlen)
    unfold strMatches
    rw [hslice, Bool.and_eq_true, hrest, List.getD_cons_zero, decide_eq_true_eq]
    by_cases hb : b = 0
    · subst hb
      simp [hc]
    · simp [hb]

/-- `strcmp` compares the names. -/
theorem named_iff {name : List UInt8} (hlen : name.length < maxFileNameLen) (hname : 0 ∉ name) :
    e.named name = true ↔ e.name = name := by
  have hlength : e.filename.toList.length = 16 := by simp
  have hbytes : strMatches e.bytes name =
      strMatches (fun i => e.filename.toList.getD i 0) name := by
    refine strMatches_congr fun i hi => ?_
    have hi : i < 16 := by
      unfold maxFileNameLen at hlen
      omega
    simp [DirEntry.bytes, hi]
  unfold DirEntry.named
  rw [hbytes]
  exact strMatches_iff hname (by rw [hlength]; exact hlen)

theorem mem_listing : e ∈ listing disk x ↔ e ∈ dirEntries disk x ∧ e.live = true := List.mem_filter

/-- An unused place has no name. -/
theorem name_zeros : (DirEntry.ofBytes zeros).name = [] := by decide

/-- The first place with a name is the listed entry of this name. -/
theorem find_named_iff (h : NamedDir s x) {name : List UInt8} (hne : name ≠ [])
    (hlen : name.length < maxFileNameLen) (hname : 0 ∉ name) :
    (dirEntries s.disk x).find? (·.named name) = some e ↔
      e ∈ listing s.disk x ∧ e.name = name := by
  have hfound : ∀ e, (dirEntries s.disk x).find? (·.named name) = some e →
      e ∈ listing s.disk x ∧ e.name = name := by
    intro e he
    have hmem := List.mem_of_find?_eq_some he
    have hmatch := List.find?_some he
    have hnamed := (named_iff hlen hname).mp hmatch
    refine ⟨mem_listing.mpr ⟨hmem, ?_⟩, hnamed⟩
    by_contra hdead
    rw [h.unused e hmem (Bool.eq_false_iff.mpr hdead), name_zeros] at hnamed
    exact hne hnamed.symm
  refine ⟨hfound e, fun ⟨hmem, hnamed⟩ => ?_⟩
  cases hfind : (dirEntries s.disk x).find? (·.named name) with
  | none =>
    have hnone := List.find?_eq_none.mp hfind e (mem_listing.mp hmem).1
    exact absurd ((named_iff hlen hname).mpr hnamed) hnone
  | some e' =>
    obtain ⟨hmem', hnamed'⟩ := hfound e' hfind
    rw [List.inj_on_of_nodup_map h.distinct hmem' hmem (hnamed'.trans hnamed.symm)]

/-- `search_dir_entry` that gets its two buffers is a lookup. -/
theorem searchDirEntry_eq {d : Dir} {name : List UInt8} {r : Option DirEntry}
    (h0 : s.heap 0 = true) (h1 : s.heap 1 = true) (hx : s.inodes (d.inode s) = some x)
    (hr : lookupIn s x name = .ok r) :
    searchDirEntry s d name = .ok (r, s.popHeap.popHeap) := by
  have hsame : lookupIn s.popHeap.popHeap x name = lookupIn s x name := lookupIn_congr rfl rfl rfl
  have hlookup := hsame.trans hr
  have hinode : s.popHeap.inodes (d.inode s.popHeap) = some x := by
    cases d <;> exact hx
  have hload : ∀ b, loadIndirect s.popHeap x b = loadIndirect s.popHeap.popHeap x b := fun _ => rfl
  unfold searchDirEntry
  rw [sysMalloc_of_heap h0]
  dsimp only
  rw [hinode, deref_some, ok_bind, sysMalloc_of_heap (s := s.popHeap) h1]
  simp only [hload]
  unfold lookupIn at hlookup
  obtain ⟨b, hb, hlookup⟩ := of_bind_eq_ok hlookup
  obtain ⟨b', hb', hlookup⟩ := of_bind_eq_ok hlookup
  rw [hb, ok_bind, hb', ok_bind, hlookup, ok_bind, ensure_of Option.isSome_some, ok_bind]

/-- The inode of the root directory of the sample disk. -/
def sampleInode : Inode := { (inodeInit 0).setSector 0 612 with iSize := 96, iOpenCnts := 1 }

theorem sampleRoot_listed : ListedDir sampleSession.fs sampleInode where
  table_le := by decide
  block_le := by decide
  size_eq := by decide
  unused := by decide +kernel
  distinct := by decide

end Searching

end X86System.FileSystem
