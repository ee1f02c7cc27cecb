import X86System.DirReads
import X86System.SearchFrames

/-!
# Finding a name that was created

`create_dir_entry` copies up to 16 bytes of a name into a field of 16 bytes; a name of 16
bytes has no NUL there, and `strcmp` runs on into the bytes of the inode number. What an
entry compares equal with is the string up to the first NUL of the whole entry.
-/
namespace X86System.FileSystem
open Bytes Exec

variable {s t : State} {x y : Inode} {a : InodePtr} {d d' : Image} {e : DirEntry}
  {name : List UInt8} {ioBuf : Buffer}

section Strings

/-- The C string that starts at the name of an entry. -/
def DirEntry.cString (e : DirEntry) : List UInt8 :=
  ((List.range direntSize).map e.bytes).takeWhile (· ≠ 0)

/-- The string ends within the entry. -/
def DirEntry.Terminated (e : DirEntry) : Prop := ∃ i < direntSize, e.bytes i = 0

/-- Comparing a name with a string that ends within `n` bytes. -/
theorem strMatches_iff_takeWhile (n : ℕ) : ∀ {m : Image} {name : List UInt8}, 0 ∉ name →
    (∃ i < n, m i = 0) →
    (strMatches m name = true ↔ ((List.range n).map m).takeWhile (· ≠ 0) = name) := by
  induction n with
  | zero => exact fun _ ⟨i, hi, _⟩ => absurd hi (Nat.not_lt_zero i)
  | succ n ih =>
    intro m name hname hend
    have hmap : (List.range (n + 1)).map m = m 0 :: (List.range n).map (slice m 1) := by
      rw [List.range_succ_eq_map, List.map_cons, List.map_map]
      refine congrArg _ (List.map_congr_left fun i _ => ?_)
      show m (i + 1) = slice m 1 i
      rw [slice_apply, Nat.add_comm]
    rw [hmap]
    by_cases hzero : m 0 = 0
    · cases name with
      | nil => simp [strMatches, hzero]
      | cons c l =>
        have hc : c ≠ 0 := fun h => hname (h ▸ List.mem_cons_self)
        simp [strMatches, hzero, hc.symm]
    · obtain ⟨i, hi, hmi⟩ := hend
      obtain ⟨i, rfl⟩ : ∃ j, i = j + 1 := by
        cases i with
        | zero => exact absurd hmi hzero
        | succ i => exact ⟨i, rfl⟩
      have hend' : ∃ i < n, slice m 1 i = 0 :=
        ⟨i, by omega, by rw [slice_apply, Nat.add_comm]; exact hmi⟩
      cases name with
      | nil => simp [strMatches, hzero]
      | cons c l =>
        have hrest := ih (fun h => hname (List.mem_cons_of_mem c h)) hend'
        rw [strMatches, Bool.and_eq_true, hrest, List.takeWhile_cons, if_pos (by simpa using hzero),
          List.cons_eq_cons, decide_eq_true_eq]

/-- The bytes of an entry that is in memory. -/
theorem bytes_ofBytes (p : Image) {i : ℕ} (hi : i < direntSize) :
    (DirEntry.ofBytes p).bytes i = p i := by
  unfold direntSize at hi
  unfold DirEntry.bytes DirEntry.ofBytes
  split_ifs with hname hno
  · simp
  · rw [wordByte_wordAt (by omega)]
    congr 1
    omega
  · rw [wordByte_wordAt (by omega)]
    congr 1
    omega

/-- An entry whose string ends within it compares equal with this string only. -/
theorem compares_cString (he : e.Terminated) (hname : 0 ∉ name) :
    Compares name (fun e => e.cString = name) e := by
  rintro p rfl
  have hbytes : (List.range direntSize).map (DirEntry.ofBytes p).bytes =
      (List.range direntSize).map p :=
    List.map_congr_left fun i hi => bytes_ofBytes p (List.mem_range.mp hi)
  obtain ⟨i, hi, hzero⟩ := he
  rw [bytes_ofBytes p hi] at hzero
  have hiff := strMatches_iff_takeWhile direntSize hname ⟨i, hi, hzero⟩
  rw [Bool.eq_iff_iff, hiff, decide_eq_true_eq, DirEntry.cString, hbytes]

theorem strMatches_iff_getD : ∀ {m : Image} {name : List UInt8}, strMatches m name = true ↔
    (∀ i < name.length, m i = name.getD i 0) ∧ m name.length = 0
  | m, [] => by simp [strMatches]
  | m, c :: l => by
    rw [strMatches, Bool.and_eq_true, strMatches_iff_getD, decide_eq_true_eq, List.length_cons]
    constructor
    · rintro ⟨hc, hl, hend⟩
      refine ⟨fun i hi => ?_, ?_⟩
      · cases i with
        | zero => exact hc
        | succ i =>
          have hi := hl i (by omega)
          rwa [slice_apply, Nat.add_comm] at hi
      · rwa [slice_apply, Nat.add_comm] at hend
    · rintro ⟨hl, hend⟩
      refine ⟨hl 0 (Nat.succ_pos _), fun i hi => ?_, ?_⟩
      · rw [slice_apply, Nat.add_comm]
        exact hl (i + 1) (by omega)
      · rwa [slice_apply, Nat.add_comm]

variable {no ty : UInt32}

/-- What `create_dir_entry` makes of a name that passes its check. -/
theorem createDirEntry_bytes (h : createDirEntry name no ty = .ok e) :
    name.length ≤ maxFileNameLen ∧ e.iNo = no ∧ (∀ i < 16, e.bytes i = name.getD i 0) ∧
      ∀ i < 4, e.bytes (16 + i) = wordByte no i := by
  obtain ⟨u, hu, h⟩ := of_bind_eq_ok h
  obtain rfl := Except.ok.inj h
  refine ⟨(returns_of_ensure Fault.assert).of_ok hu, rfl, fun i hi => ?_, fun i hi => ?_⟩
  · simp [DirEntry.bytes, hi]
  · rw [DirEntry.bytes, dif_neg (by omega), if_pos (by omega), Nat.add_sub_cancel_left]

theorem created_terminated (h : createDirEntry name no ty = .ok e) (hno : no.toNat < 4096) :
    e.Terminated := by
  obtain ⟨-, -, -, hbytes⟩ := createDirEntry_bytes h
  refine ⟨18, by decide, ?_⟩
  rw [hbytes 2 (by omega), wordByte, Nat.div_eq_of_lt (by omega)]
  rfl

/-- The string of a new entry is its name, unless a name of 16 bytes runs on into the number. -/
theorem created_cString_iff (h : createDirEntry name no ty = .ok e) (hzero : 0 ∉ name)
    (hno : no.toNat < 4096) :
    e.cString = name ↔ name.length < maxFileNameLen ∨ no.toNat % 256 = 0 := by
  have hend := created_terminated h hno
  obtain ⟨hlen, -, hname, hnumber⟩ := createDirEntry_bytes h
  unfold maxFileNameLen at hlen ⊢
  rw [DirEntry.cString, ← strMatches_iff_takeWhile direntSize hzero hend, strMatches_iff_getD,
    and_iff_right fun i hi => hname i (by omega)]
  by_cases hshort : name.length < 16
  · rw [hname _ hshort, List.getD_eq_default _ _ le_rfl]
    simp [hshort]
  · have hfull : name.length = 16 + 0 := by omega
    rw [hfull, hnumber 0 (by omega), wordByte, pow_zero, Nat.div_one]
    simp [← UInt8.toNat_inj]

end Strings

section Places

/-- An entry that is free. -/
def freeEntry : DirEntry := DirEntry.ofBytes zeros

/-- A directory whose entries have a type and a name, whose free entries are clear, and none of
whose blocks is listed twice. -/
structure NamedPlaces (s : State) (x : Inode) : Prop extends WellFormedDir s x where
  unused : ∀ e ∈ dirEntries s.disk x, e.live = false → e = freeEntry
  typed : ∀ e ∈ dirEntries s.disk x, e.fType.toNat ≤ 2
  named : ∀ e ∈ dirEntries s.disk x, e.live = true → e.filename[0] ≠ 0
  block_inj : ∀ k < 140, ∀ k' < 140, x.blockLba s.disk k ≠ 0 →
    x.blockLba s.disk k = x.blockLba s.disk k' → k = k'

/-- `sync_dir_entry` takes a new block: there is a hole before any free place. -/
def TakesBlock (d : Image) (x : Inode) : Prop :=
  ∃ k < 12, x.sector k = 0 ∧ ∀ i < k, x.sector i ≠ 0 ∧ FullBlock d (x.sector i)

theorem blockEntries_append (d : Image) (x : Inode) (k m n : ℕ) :
    blockEntries d x k (m + n) = blockEntries d x k m ++ blockEntries d x (k + m) n := by
  unfold blockEntries
  rw [← List.range'_append_1, List.flatMap_append]

/-- The entries before a block, in it and behind it. -/
theorem dirEntries_split (d : Image) (x : Inode) {k : ℕ} (hk : k < 140) :
    dirEntries d x = blockEntries d x 0 k ++ ((if x.blockLba d k = 0 then []
      else (List.range 21).map (dirEntryAt d (x.blockLba d k))) ++
        blockEntries d x (k + 1) (139 - k)) := by
  rw [dirEntries_eq, show 140 = k + (139 - k + 1) by omega, blockEntries_append, blockEntries_succ,
    Nat.zero_add]

theorem blockEntries_congr {k m : ℕ} (h : ∀ i, k ≤ i → i < k + m →
    y.blockLba d' i = x.blockLba d i ∧ (x.blockLba d i ≠ 0 → ∀ j < 21,
      dirEntryAt d' (x.blockLba d i) j = dirEntryAt d (x.blockLba d i) j)) :
    blockEntries d' y k m = blockEntries d x k m := by
  unfold blockEntries
  refine List.flatMap_congr fun i hi => ?_
  obtain ⟨hki, hik⟩ := List.mem_range'_1.mp hi
  obtain ⟨hlba, hentries⟩ := h i hki hik
  rw [hlba]
  split_ifs with hzero
  · rfl
  · exact List.map_congr_left fun j hj => hentries hzero j (List.mem_range.mp hj)

/-- One entry of a sector is replaced. -/
theorem map_range_patched {α : Type} {f g : ℕ → α} {n j : ℕ} (hj : j < n)
    (h : ∀ i < n, i ≠ j → g i = f i) : ∃ P Q, (List.range n).map f = P ++ f j :: Q ∧
      (List.range n).map g = P ++ g j :: Q := by
  have hrange : List.range n = List.range j ++ j :: List.range' (j + 1) (n - j - 1) := by
    have happend := List.range'_append_1 (s := 0) (m := j) (n := n - j - 1 + 1)
    rw [Nat.zero_add, show j + (n - j - 1 + 1) = n by omega] at happend
    rw [List.range_eq_range', List.range_eq_range', ← List.range'_succ, happend]
  have hfront : (List.range j).map g = (List.range j).map f := List.map_congr_left fun i hi => by
    have := List.mem_range.mp hi
    exact h i (by omega) (by omega)
  have hback : (List.range' (j + 1) (n - j - 1)).map g = (List.range' (j + 1) (n - j - 1)).map f :=
    List.map_congr_left fun i hi => by
      have := List.mem_range'_1.mp hi
      exact h i (by omega) (by omega)
  refine ⟨(List.range j).map f, (List.range' (j + 1) (n - j - 1)).map f, ?_, ?_⟩
  · rw [hrange, List.map_append, List.map_cons]
  · rw [hrange, List.map_append, List.map_cons, hfront, hback]

theorem NamedPlaces.block_le (h : NamedPlaces s x) (k : ℕ) :
    (x.blockLba s.disk k).toNat ≤ maxLba := by
  by_cases hzero : x.blockLba s.disk k = 0
  · rw [hzero]
    exact Nat.zero_le _
  · exact (h.block_used k hzero).le_max

theorem NamedPlaces.table_le (h : NamedPlaces s x) : (x.sector 12).toNat ≤ maxLba := by
  by_cases hzero : x.sector 12 = 0
  · rw [hzero]
    exact Nat.zero_le _
  · exact (h.table_used hzero).le_max

/-- A free place of a block that is there takes the entry. -/
theorem NamedPlaces.patched (h : NamedPlaces s x) {k j : ℕ} (hk : k < 12) (hne : x.sector k ≠ 0)
    (hj : j < 21) (hfree : (dirEntryAt s.disk (x.sector k) j).fType = ftUnknown)
    (hd : d = overlay s.disk (512 * (x.sector k).toNat + direntSize * j) direntSize e.bytes) :
    (∃ P Q, dirEntries s.disk x = P ++ freeEntry :: Q ∧ dirEntries d x.grow = P ++ e :: Q) ∧
      ∀ i, x.grow.blockLba d i = x.blockLba s.disk i := by
  subst hd
  have hlba : x.blockLba s.disk k = x.sector k := blockLba_direct hk
  have hkept : SectorsKept s.part.dataStartLba {(x.sector k).toNat} s.disk
      (overlay s.disk (512 * (x.sector k).toNat + direntSize * j) direntSize e.bytes) :=
    sectorsKept_patch (by unfold direntSize; omega) (Finset.mem_singleton_self _)
  have hblocks := h.blockLba_patched hk hne hkept
  have hothers : ∀ i < 140, i ≠ k → x.blockLba s.disk i ≠ 0 → ∀ l < 21,
      dirEntryAt (overlay s.disk (512 * (x.sector k).toNat + direntSize * j) direntSize e.bytes)
        (x.blockLba s.disk i) l = dirEntryAt s.disk (x.blockLba s.disk i) l := by
    intro i hi hik hine l hl
    refine h.entries_kept hkept hine ?_ hl
    rw [Finset.mem_singleton, UInt32.toNat_inj, ← hlba]
    exact fun hsame => hik (h.block_inj i hi k (by omega) hine hsame)
  obtain ⟨P, Q, hP, hP'⟩ := map_range_patched (f := dirEntryAt s.disk (x.sector k))
    (g := dirEntryAt (overlay s.disk (512 * (x.sector k).toNat + direntSize * j) direntSize e.bytes)
      (x.sector k)) hj fun l hl hlj => by
        apply dirEntryAt_congr
        intro m hm
        apply overlay_outside
        unfold direntSize at hm ⊢
        omega
  have hnew : dirEntryAt (overlay s.disk (512 * (x.sector k).toNat + direntSize * j) direntSize
      e.bytes) (x.sector k) j = e := by
    refine (DirEntry.ofBytes_congr fun i hi => ?_).trans e.ofBytes_bytes
    rw [slice_apply, overlay_at hi]
  have hold : dirEntryAt s.disk (x.sector k) j = freeEntry := by
    refine h.unused _ (mem_dirEntries.mpr ⟨k, by omega, ?_, j, hj, ?_⟩) ?_
    · rwa [hlba]
    · rw [hlba]
    · simp [DirEntry.live, hfree]
  refine ⟨⟨blockEntries s.disk x 0 k ++ P, Q ++ blockEntries s.disk x (k + 1) (139 - k), ?_, ?_⟩,
    hblocks⟩
  · rw [dirEntries_split s.disk x (show k < 140 by omega), hlba, if_neg hne, hP, hold]
    simp
  · rw [dirEntries_split _ x.grow (show k < 140 by omega), hblocks, hlba, if_neg hne, hP', hnew,
      blockEntries_congr (x := x) fun i _ hi => ⟨hblocks i, hothers i (by omega) (by omega)⟩,
      blockEntries_congr (x := x) fun i hi hi' => ⟨hblocks i, hothers i (by omega) (by omega)⟩]
    simp

/-- The sector of a new block. -/
theorem map_freshSector {lba : UInt32} (hbyte : ∀ i < 512, d (512 * lba.toNat + i) =
    freshSector e i) : (List.range 21).map (dirEntryAt d lba) =
      e :: List.replicate 20 freeEntry := by
  have hfirst := (freshSector_entries hbyte).1
  have hrest : ∀ j ∈ List.range' 1 20, dirEntryAt d lba j = freeEntry := by
    intro j hj
    obtain ⟨hj1, hj20⟩ := List.mem_range'_1.mp hj
    refine DirEntry.ofBytes_congr fun i hi => ?_
    unfold direntSize at hi
    rw [slice_apply, Nat.add_assoc, hbyte _ (by unfold direntSize; omega), freshSector,
      overlay_outside (by unfold direntSize; omega), zeros_apply, zeros_apply]
  have hmap : (List.range' 1 20).map (dirEntryAt d lba) = List.replicate 20 freeEntry :=
    List.eq_replicate_iff.mpr ⟨by simp, fun b hb => by
      obtain ⟨j, hj, rfl⟩ := List.mem_map.mp hb
      exact hrest j hj⟩
  rw [List.range_eq_range', List.range'_succ, List.map_cons, hfirst, hmap]

/-- A new block enters at a direct index. -/
theorem NamedPlaces.linked (hm : Mounted s) (h : NamedPlaces s x) {k i : ℕ} (hk : k < 12)
    (hhole : x.sector k = 0) (hi : i ∈ s.blockBitmap.free)
    (hkept : SectorsKept s.part.dataStartLba {s.part.dataStartLba + i} s.disk d)
    (hnew : ∀ j < 512, d (512 * (s.part.dataStartLba + i) + j) = freshSector e j)
    (hy : y = (x.setSector k (UInt32.ofNat (s.part.dataStartLba + i))).grow) :
    ∃ P Q, dirEntries s.disk x = P ++ Q ∧
      dirEntries d y = P ++ e :: (List.replicate 20 freeEntry ++ Q) := by
  have hlba := lba_toNat hm hi
  have hb0 := ofNat_ne_zero hm hi
  set b := UInt32.ofNat (s.part.dataStartLba + i) with hb
  subst hy
  have hblocks := h.blockLba_linked hk hi hkept b
  have hothers : ∀ j, j ≠ k → (x.setSector k b).grow.blockLba d j = x.blockLba s.disk j ∧
      (x.blockLba s.disk j ≠ 0 → ∀ l < 21,
        dirEntryAt d (x.blockLba s.disk j) l = dirEntryAt s.disk (x.blockLba s.disk j) l) := by
    intro j hj
    refine ⟨by rw [hblocks, if_neg hj], fun hne l hl => ?_⟩
    exact h.entries_kept hkept hne ((h.block_used j hne).notMem_free hi) hl
  refine ⟨blockEntries s.disk x 0 k, blockEntries s.disk x (k + 1) (139 - k), ?_, ?_⟩
  · rw [dirEntries_split s.disk x (show k < 140 by omega), blockLba_direct hk, hhole, if_pos rfl,
      List.nil_append]
  · rw [dirEntries_split d _ (show k < 140 by omega), hblocks k, if_pos rfl, if_neg hb0,
      map_freshSector (by rwa [hlba]),
      blockEntries_congr (x := x) fun j _ hj => hothers j (by omega),
      blockEntries_congr (x := x) fun j hj _ => hothers j (by omega), List.cons_append]

/-- A successful `sync_dir_entry` puts the entry into a free place, or first into a new block. -/
theorem syncDirEntry_places (hm : Mounted s) (hx : s.inodes a = some x) (h : NamedPlaces s x)
    (hbuf : 512 ≤ ioBuf.size) (hplace : ∃ k < 12, x.sector k = 0 ∨ ¬ FullBlock s.disk (x.sector k))
    (ht : syncDirEntry s a e ioBuf = .ok (true, t)) :
    ∃ y P Z Z' Q, t.inodes a = some y ∧ dirEntries s.disk x = P ++ (Z ++ Q) ∧
      dirEntries t.disk y = P ++ e :: (Z' ++ Q) ∧ (y.sector 12).toNat ≤ maxLba ∧
      (∀ k < 140, (y.blockLba t.disk k).toNat ≤ maxLba) ∧
      (¬ TakesBlock s.disk x ∧ Z = [freeEntry] ∧ Z' = [] ∨
        TakesBlock s.disk x ∧ Z = [] ∧ Z' = List.replicate 20 freeEntry) := by
  obtain ⟨k, hk, hfull, hfirst⟩ | hall := direct_cases s.disk x
  · obtain ⟨b, c, hb, hlist, hsync⟩ :=
      syncDirEntry_skip (e := e) hx h.toWellFormedDir hbuf hk.le hfull
    have hword : c.word k = .ok (x.sector k) := by
      rw [Buffer.word_of_le (by rw [hlist.size]; omega), hlist.direct k hk]
    rw [hsync] at ht
    by_cases hhole : x.sector k = 0
    · rw [syncDirLoop, hword, ok_bind, if_pos hhole] at ht
      by_cases hfree : s.blockBitmap.free.Nonempty
      · obtain ⟨i, hi, u, hu, hinode, hkept, hnew⟩ := addDirBlock_direct hm hx hlist hb hk hfree
        cases hu.symm.trans ht
        obtain ⟨P, Q, hP, hP'⟩ := h.linked hm hk hhole hi hkept hnew rfl
        refine ⟨_, P, [], _, Q, hinode, hP, hP', ?_, fun j _ => ?_,
          Or.inr ⟨⟨k, hk, hhole, hfull⟩, rfl, rfl⟩⟩
        · rw [Inode.sector_grow, Inode.sector_setSector _ _ _ _ (by omega), if_neg (by omega)]
          exact h.table_le
        · rw [h.blockLba_linked hk hi hkept]
          split_ifs
          · rw [lba_toNat hm hi]
            exact hm.free_le i hi
          · exact h.block_le j
      · rw [addDirBlock, blockBitmapAlloc_of_full (Finset.not_nonempty_iff_eq_empty.mp hfree)] at ht
        cases ht
    · have hused := h.direct_used hk hhole
      obtain ⟨j, hj, hfree, hu⟩ := syncDirLoop_place hx hb hword hhole hused.le_max
        (hfirst.resolve_left hhole)
      cases hu.symm.trans ht
      obtain ⟨⟨P, Q, hP, hP'⟩, hblocks⟩ := h.patched hk hhole hj hfree rfl
      refine ⟨_, P, [freeEntry], [], Q, setInode_inodes_self .., hP, hP', h.table_le, fun i _ => ?_,
        Or.inl ⟨?_, rfl, rfl⟩⟩
      · have hle := h.block_le i
        rw [← hblocks i] at hle
        exact hle
      · rintro ⟨k', hk', hzero, hbefore⟩
        rcases Nat.lt_trichotomy k k' with hlt | rfl | hgt
        · exact (hfirst.resolve_left hhole) (hbefore k hlt).2
        · exact hhole hzero
        · exact (hfull k' hgt).1 hzero
  · obtain ⟨k, hk, hno⟩ := hplace
    exact absurd hno (not_or.mpr ⟨(hall k hk).1, not_not.mpr (hall k hk).2⟩)

theorem freeEntry_terminated : freeEntry.Terminated := ⟨0, by decide, rfl⟩

theorem freeEntry_cString : freeEntry.cString = [] := by decide

/-- The high bytes of a type are zero. -/
theorem terminated_of_typed (he : e.fType.toNat ≤ 2) : e.Terminated := by
  refine ⟨21, by decide, ?_⟩
  have hbyte : e.bytes 21 = wordByte e.fType 1 := rfl
  rw [hbyte, wordByte, Nat.div_eq_of_lt (by omega)]
  rfl

/-- The entries that the empty name compares equal with are the free ones. -/
theorem NamedPlaces.cString_nil (h : NamedPlaces s x) (he : e ∈ dirEntries s.disk x) :
    e.cString = [] ↔ e.live = false := by
  have hend := terminated_of_typed (h.typed e he)
  have hfirst : e.bytes 0 = e.filename[0] := rfl
  rw [DirEntry.cString, ← strMatches_iff_takeWhile direntSize List.not_mem_nil hend, strMatches,
    decide_eq_true_eq, hfirst]
  constructor
  · intro hzero
    by_contra hlive
    exact h.named e he (by simpa using hlive) hzero
  · intro hdead
    rw [h.unused e he hdead]
    rfl

end Places

section Finding

/-- Another place is free than the one that `sync_dir_entry` takes. -/
def SparePlace (d : Image) (x : Inode) : Prop :=
  TakesBlock d x ∨ 2 ≤ (dirEntries d x).countP fun e => !e.live

variable {dir : Dir} {no ty : UInt32} {l : List DirEntry}

/-- A lookup finds the first entry whose string is the name. -/
theorem lookupIn_cString (hend : ∀ e ∈ dirEntries s.disk x, e.Terminated) (hname : 0 ∉ name)
    (htable : (x.sector 12).toNat ≤ maxLba)
    (hread : ∀ k < 140, (x.blockLba s.disk k).toNat ≤ maxLba) :
    lookupIn s x name = .ok ((dirEntries s.disk x).find? fun e => e.cString = name) :=
  lookupIn_find (fun e he => compares_cString (hend e he) hname) htable hread

theorem find?_cString_none (h : ∀ e ∈ l, e.cString ≠ name) :
    (l.find? fun e => e.cString = name) = none :=
  List.find?_eq_none.mpr fun e he => by simpa using h e he

/-- Where only free entries have no name, the search for the empty name finds one of them. -/
theorem find?_cString_nil (hall : ∀ e ∈ l, e.cString = [] → e = freeEntry)
    (hex : ∃ e ∈ l, e.cString = []) : (l.find? fun e => e.cString = []) = some freeEntry := by
  cases hfind : l.find? fun e => e.cString = [] with
  | none =>
    obtain ⟨e, he, hnil⟩ := hex
    have hno := List.find?_eq_none.mp hfind e he
    simp [hnil] at hno
  | some e =>
    have hnil : e.cString = [] := by simpa using List.find?_some hfind
    rw [hall e (List.mem_of_find?_eq_some hfind) hnil]

/-- What a new name must do: it is found with its number, and every other name as before. -/
structure NameAdded (s t : State) (dir : Dir) (name : List UInt8) (no : UInt32) : Prop where
  found : ∃ e u, searchDirEntry t dir name = .ok (some e, u) ∧ e.iNo = no
  others : ∀ name', 0 ∉ name' → name' ≠ name → ∃ r u u',
    searchDirEntry s dir name' = .ok (r, u) ∧ searchDirEntry t dir name' = .ok (r, u')

/-- The same of the entries in their order. -/
structure Inserted (before after : List DirEntry) (name : List UInt8) (no : UInt32) : Prop where
  found : ∃ e, (after.find? fun e => e.cString = name) = some e ∧ e.iNo = no
  others : ∀ name', 0 ∉ name' → name' ≠ name →
    (after.find? fun e => e.cString = name') = before.find? fun e => e.cString = name'

variable {P Q Z Z' : List DirEntry}

/-- The entry `e` takes the place of a free one, or comes with free ones. -/
theorem inserted_iff (hfree : ∀ f ∈ P ++ (Z ++ Q), f.cString = [] → f = freeEntry)
    (hplace : ∃ f ∈ P ++ (Z ++ Q), f.cString = [])
    (hZ : Z = [freeEntry] ∧ Z' = [] ∨ Z = [] ∧ Z' = List.replicate 20 freeEntry)
    (hno : e.iNo = no) (hnew : ∀ f ∈ P ++ (Z ++ Q), f.cString ≠ name) :
    Inserted (P ++ (Z ++ Q)) (P ++ e :: (Z' ++ Q)) name no ↔
      e.cString = name ∧ ∃ f ∈ P ++ (Z' ++ Q), f.cString = [] := by
  have hname : name ≠ [] := by
    rintro rfl
    obtain ⟨f, hf, hnil⟩ := hplace
    exact hnew f hf hnil
  have hZnil : ∀ f ∈ Z, f = freeEntry := by
    rcases hZ with ⟨rfl, -⟩ | ⟨rfl, -⟩ <;> simp
  have hZ'nil : ∀ f ∈ Z', f = freeEntry := by
    rcases hZ with ⟨-, rfl⟩ | ⟨-, rfl⟩ <;> simp
  have hP : ∀ f ∈ P, f ∈ P ++ (Z ++ Q) := fun f hf => List.mem_append_left _ hf
  have hQ : ∀ f ∈ Q, f ∈ P ++ (Z ++ Q) := fun f hf =>
    List.mem_append_right _ (List.mem_append_right _ hf)
  have hskip : ∀ {M : List UInt8} {Z : List DirEntry}, M ≠ [] → (∀ f ∈ Z, f = freeEntry) →
      (Z.find? fun e => e.cString = M) = none := by
    intro M Z hM hZ
    refine find?_cString_none fun f hf => ?_
    rw [hZ f hf, freeEntry_cString]
    exact hM.symm
  have hPnone := find?_cString_none fun f hf => hnew f (hP f hf)
  have hQnone := find?_cString_none fun f hf => hnew f (hQ f hf)
  have hown : (P ++ e :: (Z' ++ Q)).find? (fun e => e.cString = name) =
      if e.cString = name then some e else none := by
    rw [List.find?_append, hPnone, Option.none_or, List.find?_cons, List.find?_append,
      hskip hname hZ'nil, hQnone]
    split_ifs with heq <;> simp [heq]
  constructor
  · intro h
    obtain ⟨e', he', -⟩ := h.found
    rw [hown] at he'
    have heq : e.cString = name := by
      by_contra hne
      rw [if_neg hne] at he'
      cases he'
    refine ⟨heq, ?_⟩
    have hsame := h.others [] List.not_mem_nil hname.symm
    rw [find?_cString_nil hfree hplace] at hsame
    have hmem := List.mem_of_find?_eq_some hsame
    have hne : freeEntry ≠ e := by
      rintro rfl
      exact hname (heq.symm.trans freeEntry_cString)
    refine ⟨freeEntry, ?_, freeEntry_cString⟩
    simpa [hne] using hmem
  · rintro ⟨heq, f, hf, hnil⟩
    refine ⟨⟨e, by rw [hown, if_pos heq], hno⟩, fun M _ hM => ?_⟩
    by_cases hempty : M = []
    · subst hempty
      rw [find?_cString_nil hfree hplace]
      refine find?_cString_nil (fun g hg hgnil => ?_) ⟨f, by simp at hf ⊢; tauto, hnil⟩
      rcases List.mem_append.mp hg with hg | hg
      · exact hfree g (hP g hg) hgnil
      rcases List.mem_cons.mp hg with rfl | hg
      · exact absurd (heq.symm.trans hgnil) hname
      rcases List.mem_append.mp hg with hg | hg
      · exact hZ'nil g hg
      · exact hfree g (hQ g hg) hgnil
    · have hne : e.cString ≠ M := fun h => hM (h.symm.trans heq)
      rw [List.find?_append, List.find?_append, List.find?_cons, List.find?_append,
        List.find?_append, hskip hempty hZnil, hskip hempty hZ'nil]
      simp [hne]

/-- Searches in a directory whose strings end within their entries are searches of its list. -/
theorem searchDirEntry_cString (h0 : s.heap 0 = true) (h1 : s.heap 1 = true)
    (hx : s.inodes (dir.inode s) = some x) (hend : ∀ e ∈ dirEntries s.disk x, e.Terminated)
    (htable : (x.sector 12).toNat ≤ maxLba)
    (hread : ∀ k < 140, (x.blockLba s.disk k).toNat ≤ maxLba) (hname : 0 ∉ name) :
    searchDirEntry s dir name =
      .ok ((dirEntries s.disk x).find? fun e => e.cString = name, s.popHeap.popHeap) :=
  searchDirEntry_eq h0 h1 hx (lookupIn_cString hend hname htable hread)

/-- A place that is free besides the one that was taken. -/
theorem NamedPlaces.spare_iff (h : NamedPlaces s x) (hP : dirEntries s.disk x = P ++ (Z ++ Q))
    (hZ : ¬ TakesBlock s.disk x ∧ Z = [freeEntry] ∧ Z' = [] ∨
      TakesBlock s.disk x ∧ Z = [] ∧ Z' = List.replicate 20 freeEntry) :
    (∃ f ∈ P ++ (Z' ++ Q), f.cString = []) ↔ SparePlace s.disk x := by
  unfold SparePlace
  rcases hZ with ⟨htakes, rfl, rfl⟩ | ⟨htakes, rfl, rfl⟩
  · have hmem : ∀ f ∈ P ++ Q, f.cString = [] ↔ (!f.live) = true := by
      intro f hf
      rw [h.cString_nil (by rw [hP]; simp at hf ⊢; tauto), Bool.not_eq_true']
    have hcount : (dirEntries s.disk x).countP (fun e => !e.live) =
        (P ++ Q).countP (fun e => !e.live) + 1 := by
      have hdead : (!freeEntry.live) = true := rfl
      rw [hP, List.countP_append, List.countP_append, List.countP_append, List.countP_singleton,
        if_pos hdead]
      omega
    rw [hcount, or_iff_right htakes, List.nil_append]
    constructor
    · rintro ⟨f, hf, hnil⟩
      have hpos : 0 < (P ++ Q).countP fun e => !e.live :=
        List.countP_pos_iff.mpr ⟨f, hf, (hmem f hf).mp hnil⟩
      omega
    · intro htwo
      have hpos : 0 < (P ++ Q).countP fun e => !e.live := by omega
      obtain ⟨f, hf, hdead⟩ := List.countP_pos_iff.mp hpos
      exact ⟨f, hf, (hmem f hf).mpr hdead⟩
  · refine iff_of_true ⟨freeEntry, ?_, freeEntry_cString⟩ (Or.inl htakes)
    simp

/-- A name that `create_dir_entry` accepts is found again, and no other name is touched, if and
only if it has at most 15 bytes or the low byte of its inode number is 0, and, for the sake of the
empty name, a free place is left. -/
theorem created_name_found_iff (hm : Mounted s) (hx : s.inodes (dir.inode s) = some x)
    (h : NamedPlaces s x) (hfree : ∃ k < 12, x.sector k ≠ 0 ∧ ¬ FullBlock s.disk (x.sector k))
    (h0 : s.heap 0 = true) (h1 : s.heap 1 = true) (hzero : 0 ∉ name)
    (hno : 1 ≤ no.toNat ∧ no.toNat < 4096) (hcreate : createDirEntry name no ty = .ok e)
    (hbuf : 512 ≤ ioBuf.size) (hnew : ∃ u, searchDirEntry s dir name = .ok (none, u))
    (hsync : syncDirEntry s (dir.inode s) e ioBuf = .ok (true, t)) :
    NameAdded s t dir name no ↔
      (name.length < maxFileNameLen ∨ no.toNat % 256 = 0) ∧ SparePlace s.disk x := by
  have hplace : ∃ k < 12, x.sector k = 0 ∨ ¬ FullBlock s.disk (x.sector k) :=
    hfree.imp fun k hk => ⟨hk.1, Or.inr hk.2.2⟩
  obtain ⟨y, P, Z, Z', Q, hy, hP, hP', htable, hread, hZ⟩ :=
    syncDirEntry_places hm hx h hbuf hplace hsync
  have hroot : t.rootDir = s.rootDir :=
    (syncDirEntry_same ⟨fun _ _ => rfl, fun _ _ _ => rfl, fun _ _ => rfl⟩ _ _ _ _).of_ok hsync
  have hheap : t.heap = s.heap :=
    (syncDirEntry_same ⟨fun _ _ => rfl, fun _ _ _ => rfl, fun _ _ => rfl⟩ _ _ _ _).of_ok hsync
  have hinode : dir.inode t = dir.inode s := by
    cases dir with
    | root => exact hroot
    | opened a => rfl
  have hcases : Z = [freeEntry] ∧ Z' = [] ∨ Z = [] ∧ Z' = List.replicate 20 freeEntry :=
    hZ.imp And.right And.right
  have hold : ∀ f ∈ dirEntries s.disk x, f.Terminated := fun f hf =>
    terminated_of_typed (h.typed f hf)
  have hterm : ∀ f ∈ dirEntries t.disk y, f.Terminated := by
    intro f hf
    have hZ' : ∀ f ∈ Z', f = freeEntry := by
      rcases hcases with ⟨-, rfl⟩ | ⟨-, rfl⟩ <;> simp
    rw [hP] at hold
    rw [hP'] at hf
    rcases List.mem_append.mp hf with hf | hf
    · exact hold f (List.mem_append_left _ hf)
    rcases List.mem_cons.mp hf with rfl | hf
    · exact created_terminated hcreate hno.2
    rcases List.mem_append.mp hf with hf | hf
    · rw [hZ' f hf]
      exact freeEntry_terminated
    · exact hold f (List.mem_append_right _ (List.mem_append_right _ hf))
  have hbefore : ∀ {M : List UInt8}, 0 ∉ M → searchDirEntry s dir M = _ := fun hM =>
    searchDirEntry_cString h0 h1 hx hold h.table_le (fun k _ => h.block_le k) hM
  have hafter : ∀ {M : List UInt8}, 0 ∉ M → searchDirEntry t dir M = _ := fun hM =>
    searchDirEntry_cString (hheap ▸ h0) (hheap ▸ h1) (hinode ▸ hy) hterm htable hread hM
  have hlist : NameAdded s t dir name no ↔
      Inserted (dirEntries s.disk x) (dirEntries t.disk y) name no := by
    constructor
    · intro hadded
      obtain ⟨e', u, hfound, hno'⟩ := hadded.found
      rw [hafter hzero] at hfound
      refine ⟨⟨e', (Prod.mk.inj (Except.ok.inj hfound)).1, hno'⟩, fun M hM hne => ?_⟩
      obtain ⟨r, v, v', hr, hr'⟩ := hadded.others M hM hne
      rw [hbefore hM] at hr
      rw [hafter hM] at hr'
      rw [(Prod.mk.inj (Except.ok.inj hr)).1, (Prod.mk.inj (Except.ok.inj hr')).1]
    · intro hins
      obtain ⟨e', hfound, hno'⟩ := hins.found
      refine ⟨⟨e', _, by rw [hafter hzero, hfound], hno'⟩, fun M hM hne => ?_⟩
      exact ⟨_, _, _, hbefore hM, by rw [hafter hM, hins.others M hM hne]⟩
  obtain ⟨u, hnone⟩ := hnew
  rw [hbefore hzero] at hnone
  have hnone := (Prod.mk.inj (Except.ok.inj hnone)).1
  have hnil : ∀ f ∈ dirEntries s.disk x, f.cString = [] → f = freeEntry := fun f hf hf' =>
    h.unused f hf ((h.cString_nil hf).mp hf')
  have hspare : ∃ f ∈ dirEntries s.disk x, f.cString = [] := by
    obtain ⟨k, hk, hne, hpart⟩ := hfree
    unfold FullBlock at hpart
    push Not at hpart
    obtain ⟨j, hj, hdead⟩ := hpart
    have hlba : x.blockLba s.disk k = x.sector k := blockLba_direct hk
    have hmem : dirEntryAt s.disk (x.sector k) j ∈ dirEntries s.disk x :=
      mem_dirEntries.mpr ⟨k, by omega, by rwa [hlba], j, hj, by rw [hlba]⟩
    exact ⟨_, hmem, (h.cString_nil hmem).mpr (by simp [DirEntry.live, hdead])⟩
  have hother : ∀ f ∈ dirEntries s.disk x, f.cString ≠ name := fun f hf => by
    simpa using List.find?_eq_none.mp hnone f hf
  rw [hP] at hnil hspare hother
  rw [hlist, hP, hP', inserted_iff hnil hspare hcases (createDirEntry_bytes hcreate).2.1 hother,
    created_cString_iff hcreate hzero hno.2, h.spare_iff hP hZ]

end Finding

section Sample

theorem sampleSession_mounted : Mounted sampleSession.fs where
  blockLen := rfl
  inodeLen := rfl
  free_le := by
    intro i hi
    have hlt : i < 8 * 512 := ((Bitmap.mem_free _ _).mp hi).1
    change 612 + i ≤ maxLba
    unfold maxLba
    omega

/-- The root directory of the sample disk has one block. -/
theorem sampleInode_blockLba (k : ℕ) :
    sampleInode.blockLba sampleDisk k = if k = 0 then 612 else 0 := by
  have hsector : ∀ k, sampleInode.sector k = if k = 0 then 612 else 0 := by
    intro k
    by_cases hk : k < 13
    · interval_cases k <;> rfl
    · rw [if_neg (by omega)]
      simp [Inode.sector, Vector.getD, hk]
  unfold Inode.blockLba
  rw [hsector, hsector]
  by_cases hk : k < 12
  · rw [if_pos hk]
  · rw [if_neg hk, if_neg (by simp), if_neg (by omega)]

theorem sampleRoot_places : NamedPlaces sampleSession.fs sampleInode where
  size_dvd := rfl
  size_le := by decide
  table_used h := absurd rfl h
  block_used k hk := by
    have hlba : sampleInode.blockLba sampleSession.fs.disk k = if k = 0 then 612 else 0 :=
      sampleInode_blockLba k
    rw [hlba] at hk ⊢
    split_ifs at hk ⊢ with hzero
    · exact ⟨by decide, by decide, by decide⟩
    · exact absurd rfl hk
  block_apart k hk := hk
  unused := by decide +kernel
  typed := by decide
  named := by decide
  block_inj k _ k' _ hk hsame := by
    have hlba : ∀ k, sampleInode.blockLba sampleSession.fs.disk k = if k = 0 then 612 else 0 :=
      sampleInode_blockLba
    rw [hlba] at hk
    rw [hlba, hlba] at hsame
    by_cases hzero : k = 0
    · by_cases hzero' : k' = 0
      · omega
      · rw [if_pos hzero, if_neg hzero'] at hsame
        exact absurd hsame (by decide)
    · rw [if_neg hzero] at hk
      exact absurd rfl hk

/-- The file `g` in the root directory. -/
theorem created_name_found_g : ∃ e t, createDirEntry [0x67] 3 ftRegular = .ok e ∧
    syncDirEntry sampleSession.fs 0 e ⟨512, zeros⟩ = .ok (true, t) ∧
    (NameAdded sampleSession.fs t .root [0x67] 3 ↔
      ([0x67].length < maxFileNameLen ∨ (3 : UInt32).toNat % 256 = 0) ∧
        SparePlace sampleDisk sampleInode) := by
  obtain ⟨e, hcreate, ⟨ok, t⟩, hsync, rfl⟩ : ∃ e, createDirEntry [0x67] 3 ftRegular = .ok e ∧
      ∃ v, syncDirEntry sampleSession.fs 0 e ⟨512, zeros⟩ = .ok v ∧ v.1 = true := by
    decide
  obtain ⟨⟨r, u⟩, hnone, rfl⟩ : ∃ v, searchDirEntry sampleSession.fs .root [0x67] = .ok v ∧
      v.1 = none := by
    decide +kernel
  exact ⟨e, t, hcreate, hsync, created_name_found_iff sampleSession_mounted rfl sampleRoot_places
    ⟨0, by decide, by decide, by unfold FullBlock; decide⟩ rfl rfl (by decide) (by decide)
    hcreate le_rfl ⟨u, hnone⟩ hsync⟩

/-- A name of 16 bytes for inode 3 is not found. -/
theorem long_name_lost : ∃ e t, createDirEntry (List.replicate 16 0x61) 3 ftRegular = .ok e ∧
    (∃ u, searchDirEntry sampleSession.fs .root (List.replicate 16 0x61) = .ok (none, u)) ∧
    syncDirEntry sampleSession.fs 0 e ⟨512, zeros⟩ = .ok (true, t) ∧
    (∃ u, searchDirEntry t .root (List.replicate 16 0x61) = .ok (none, u)) ∧
    ¬ NameAdded sampleSession.fs t .root (List.replicate 16 0x61) 3 := by
  obtain ⟨e, hcreate, ⟨ok, t⟩, hsync, rfl, ⟨⟨r, u⟩, hlost, rfl⟩⟩ :
      ∃ e, createDirEntry (List.replicate 16 0x61) 3 ftRegular = .ok e ∧
        ∃ v, syncDirEntry sampleSession.fs 0 e ⟨512, zeros⟩ = .ok v ∧ v.1 = true ∧
          ∃ w, searchDirEntry v.2 .root (List.replicate 16 0x61) = .ok w ∧ w.1 = none := by
    decide +kernel
  obtain ⟨⟨r, v⟩, hnone, rfl⟩ : ∃ w,
      searchDirEntry sampleSession.fs .root (List.replicate 16 0x61) = .ok w ∧ w.1 = none := by
    decide +kernel
  refine ⟨e, t, hcreate, ⟨v, hnone⟩, hsync, ⟨u, hlost⟩, fun hadded => ?_⟩
  obtain ⟨e', u', hfound, -⟩ := hadded.found
  cases hlost.symm.trans hfound

end Sample

end X86System.FileSystem
