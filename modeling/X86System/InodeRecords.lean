import X86System.InodeTable

/-!
# Independence of the inode records

Locating a record and replacing it is one write to entry `n` of the table, in the
one-sector and in the two-sector case. Opening an inode decodes that entry. Since
`inode_sync` keeps only the low byte of the number, it writes entry `n % 256`.
-/
namespace X86System.FileSystem
open Bytes Exec

/-- The bytes of record `n` on disk. -/
def diskRecord (s : State) (n : ℕ) : Image :=
  entry s.disk (512 * s.part.inodeTableLba) inodeSize n

/-- The state after record `n` was replaced. -/
def State.setRecord (s : State) (n : ℕ) (r : Image) : State :=
  s.setDisk (setEntry s.disk (512 * s.part.inodeTableLba) inodeSize n r)

/-- How many sectors record `n` touches. -/
def sectorsOf (n : ℕ) : ℕ := if 512 - n * inodeSize % 512 < inodeSize then 2 else 1

section Records

variable {s : State} {n m : ℕ} {r : Image}

theorem diskRecord_setRecord_self {i : ℕ} (hi : i < inodeSize) :
    diskRecord (s.setRecord n r) n i = r i := entry_setEntry_self hi

theorem diskRecord_setRecord_ne {i : ℕ} (h : m ≠ n) (hi : i < inodeSize) :
    diskRecord (s.setRecord n r) m i = diskRecord s m i := entry_setEntry_ne h hi

/-- The table ends where the data blocks start, so that its sectors are on the disk. -/
theorem recordSector_le (s : State) (hn : n < 4096) :
    s.part.inodeTableLba + n * inodeSize / 512 < s.part.dataStartLba := by
  have h1 := s.part.dataStartLba_eq
  have h2 := s.part.inodeTableSects_eq
  unfold inodeSize
  omega

end Records

section Locate

variable {s : State} {n : UInt32} {buf : Buffer} {src : Image}

theorem inodeLocate_eq (s : State) (hn : n.toNat < 4096) :
    inodeLocate s n = .ok
      { twoSec := 512 - n.toNat * inodeSize % 512 < inodeSize
        secLba := s.part.inodeTableLba + n.toNat * inodeSize / 512
        offSize := n.toNat * inodeSize % 512 } := by
  simp [inodeLocate, hn]

/-- Read, change and write back the sectors from `lba` on. -/
theorem replaceSectors_eq {lba off k : ℕ} (hlba : lba ≤ maxLba) (hk : 0 < k)
    (hoff : off + inodeSize ≤ 512 * k) (hbuf : 512 * k ≤ buf.size) :
    (do
      let buf ← ideRead s lba buf 0 k
      let buf ← buf.copy off inodeSize src
      ideWrite s lba buf 0 k) =
      .ok (s.setDisk (overlay s.disk (512 * lba + off) inodeSize src)) := by
  rw [ideRead_of_le hlba hk (by omega), ok_bind, Buffer.copy_of_le (by rw [Buffer.put_size]; omega), ok_bind]
  exact ideWrite_patched hlba hk hoff hbuf

/-- Both cases of the two write routines replace entry `n` of the table. -/
theorem replaceRecord_eq (hn : n.toNat < 4096) (hbuf : 512 * sectorsOf n.toNat ≤ buf.size) :
    (do
      let pos ← inodeLocate s n
      replaceRecord s pos buf src) = .ok (s.setRecord n.toNat src) := by
  have hsec := recordSector_le s hn
  have hdata := s.part.dataStartLba_le
  have hend := s.part.end_le
  have haddr : 512 * (s.part.inodeTableLba + n.toNat * inodeSize / 512) +
      n.toNat * inodeSize % 512 = 512 * s.part.inodeTableLba + n.toNat * inodeSize := by omega
  rw [inodeLocate_eq s hn, ok_bind, replaceRecord, ensure_of (by dsimp only; omega), ok_bind]
  dsimp only
  unfold sectorsOf at hbuf
  unfold inodeSize at hbuf
  by_cases htwo : 512 - n.toNat * inodeSize % 512 < inodeSize
  · rw [if_pos (decide_eq_true htwo)]
    unfold inodeSize at htwo
    rw [if_pos htwo] at hbuf
    rw [replaceSectors_eq (by omega) (by omega) (by unfold inodeSize; omega) (by omega), haddr]
    rfl
  · rw [if_neg (by simpa using htwo)]
    unfold inodeSize at htwo
    rw [if_neg htwo] at hbuf
    rw [replaceSectors_eq (by omega) (by omega) (by unfold inodeSize; omega) (by omega), haddr]
    rfl

/-- A buffer that is shorter than the sectors of the record is overrun. -/
theorem replaceRecord_overrun (hn : n.toNat < 4096) (hbuf : buf.size < 512 * sectorsOf n.toNat) :
    (do
      let pos ← inodeLocate s n
      replaceRecord s pos buf src) = .error .overrun := by
  have hsec := recordSector_le s hn
  have hdata := s.part.dataStartLba_le
  have hend := s.part.end_le
  rw [inodeLocate_eq s hn, ok_bind, replaceRecord, ensure_of (by dsimp only; omega), ok_bind]
  dsimp only
  unfold sectorsOf at hbuf
  by_cases htwo : 512 - n.toNat * inodeSize % 512 < inodeSize
  · rw [if_pos htwo] at hbuf
    rw [if_pos (decide_eq_true htwo), ideRead_of_lt (by omega) (by omega) (by omega), error_bind]
  · rw [if_neg htwo] at hbuf
    rw [if_neg (by simpa using htwo), ideRead_of_lt (by omega) (by omega) (by omega), error_bind]

end Locate

section Contents

/-- Two records that agree on their 76 bytes decode to the same inode. -/
theorem Inode.ofBytes_congr {r r' : Image} (h : ∀ i < inodeSize, r i = r' i) :
    Inode.ofBytes r = Inode.ofBytes r' := by
  have hword : ∀ a, a + 4 ≤ inodeSize → wordAt r a = wordAt r' a := fun a ha =>
    wordAt_congr fun i hi => h _ (by omega)
  unfold inodeSize at hword
  unfold Inode.ofBytes
  rw [hword 0 (by omega), hword 4 (by omega), hword 8 (by omega), hword 12 (by omega)]
  congr 2
  funext k
  exact hword _ (by omega)

/-- Decoding a record gives back the inode it was made from. -/
theorem Inode.ofBytes_bytes (x : Inode) :
    Inode.ofBytes x.bytes = { x with iOpenCnts := x.iOpenCnts % 2 ^ 32 } := by
  have hword : ∀ k, wordAt x.bytes (4 * k) = x.word k := fun k => wordAt_ofWords _ _
  have h0 : wordAt x.bytes 0 = x.iNo := hword 0
  have h1 : wordAt x.bytes 4 = x.iSize := hword 1
  have h2 : wordAt x.bytes 8 = UInt32.ofNat x.iOpenCnts := hword 2
  have h3 : wordAt x.bytes 12 = x.writeDeny := hword 3
  have hsect : Vector.ofFn (fun k : Fin 13 => wordAt x.bytes (16 + 4 * k)) = x.iSectors := by
    ext k hk
    rw [Vector.getElem_ofFn, show 16 + 4 * k = 4 * (k + 4) by omega, hword]
    simp [Inode.word, hk]
  rw [Inode.ofBytes, h0, h1, h2, h3, hsect, UInt32.toNat_ofNat']

@[simp] theorem Inode.ofBytes_pure (x : Inode) : Inode.ofBytes x.pure.bytes = x.pure :=
  x.pure.ofBytes_bytes

/-- No inode on `open_inodes` has this number. -/
def NotOpen (s : State) (n : UInt32) : Prop :=
  ∀ a ∈ s.openInodes, ∃ x, s.inodes a = some x ∧ x.iNo ≠ n

theorem findOpen_none {s : State} {n : UInt32} {l : List InodePtr}
    (h : ∀ a ∈ l, ∃ x, s.inodes a = some x ∧ x.iNo ≠ n) : findOpen s n l = .ok none := by
  induction l with
  | nil => rfl
  | cons a l ih =>
    obtain ⟨x, hx, hne⟩ := h a (List.mem_cons_self ..)
    rw [findOpen, hx, deref_some, ok_bind, if_neg hne]
    exact ih fun b hb => h b (List.mem_cons_of_mem _ hb)

/-- Record `n` was read into a new inode, the first of `open_inodes`. -/
structure Loaded (s t : State) (n : UInt32) : Prop where
  openInodes : t.openInodes = s.nextInode :: s.openInodes
  inode : t.inodes s.nextInode =
    some { Inode.ofBytes (diskRecord s n.toNat) with iOpenCnts := 1 }
  others : ∀ a, a ≠ s.nextInode → t.inodes a = s.inodes a
  disk : t.disk = s.disk
  heap : ∀ k, t.heap k = s.heap (k + 2)

/-- The sectors of a record hold the record at its offset. -/
theorem record_read (s : State) (b : Image) {n k : ℕ} (hk : n * inodeSize % 512 + inodeSize ≤ 512 * k) :
    Inode.ofBytes (slice (overlay b 0 (512 * k)
      (slice s.disk (512 * (s.part.inodeTableLba + n * inodeSize / 512))))
        (n * inodeSize % 512)) = Inode.ofBytes (diskRecord s n) := by
  apply Inode.ofBytes_congr
  intro i hi
  rw [slice_apply, overlay_inside (by omega) (by omega), slice_apply, diskRecord, entry,
    slice_apply]
  congr 1
  omega

theorem inodeLoad_loaded {s : State} {n : UInt32} (hn : n.toNat < 4096)
    (h0 : s.heap 0 = true) (h1 : s.heap 1 = true) :
    ∃ t, inodeLoad s n = .ok (s.nextInode, t) ∧ Loaded s t n := by
  have hsec := recordSector_le s hn
  have hdata := s.part.dataStartLba_le
  have hend := s.part.end_le
  have hread := fun k (hk : n.toNat * inodeSize % 512 + inodeSize ≤ 512 * k) =>
    record_read s zeros hk
  rw [inodeLoad, inodeLocate_eq s hn]
  simp only [ok_bind, mallocInode, h0, if_true, sysMalloc, h1, deref_some, decide_eq_true_eq]
  by_cases htwo : 512 - n.toNat * inodeSize % 512 < inodeSize
  · rw [if_pos htwo, ideRead_of_le (by omega) (by omega) (by dsimp only; omega)]
    refine ⟨_, rfl, rfl, ?_, fun a ha => ?_, rfl, fun _ => rfl⟩
    · simp [State.setInode, hread 2 (by unfold inodeSize; omega)]
    · simp [State.setInode, ha]
  · rw [if_neg htwo, ideRead_of_le (by omega) (by omega) (by dsimp only; omega)]
    refine ⟨_, rfl, rfl, ?_, fun a ha => ?_, rfl, fun _ => rfl⟩
    · simp [State.setInode, hread 1 (by omega)]
    · simp [State.setInode, ha]

/-- The inode that `inode_open` brings in is the decoded record. -/
theorem inodeOpen_load {s : State} {n : UInt32} (hn : n.toNat < 4096) (hopen : NotOpen s n)
    (h0 : s.heap 0 = true) (h1 : s.heap 1 = true) :
    ∃ t, inodeOpen s n = .ok (s.nextInode, t) ∧ t.openInodes = s.nextInode :: s.openInodes ∧
      t.inodes s.nextInode =
        some { Inode.ofBytes (diskRecord s n.toNat) with iOpenCnts := 1 } := by
  obtain ⟨t, ht, hloaded⟩ := inodeLoad_loaded hn h0 h1
  refine ⟨t, ?_, hloaded.openInodes, hloaded.inode⟩
  rw [inodeOpen, findOpen_none hopen, ok_bind, ht]

end Contents

section Independence

/-- Record `n` holds `r` and every other record is what it was. -/
structure RecordReplaced (s t : State) (n : ℕ) (r : Image) : Prop where
  stored : ∀ i < inodeSize, diskRecord t n i = r i
  others : ∀ m < 4096, m ≠ n → ∀ i < inodeSize, diskRecord t m i = diskRecord s m i

/-- In every later state with the same record, opening the inode finds `x`. -/
def OpensAs (t : State) (x : Inode) : Prop :=
  ∀ u : State, u.part = t.part →
    (∀ i < inodeSize, diskRecord u x.iNo.toNat i = diskRecord t x.iNo.toNat i) →
    NotOpen u x.iNo → u.heap 0 = true → u.heap 1 = true →
    ∃ a v, inodeOpen u x.iNo = .ok (a, v) ∧ v.openInodes = a :: u.openInodes ∧
      v.inodes a = some { x.pure with iOpenCnts := 1 }

/-- The three routines treat record `x.iNo` as an entry of its own. -/
structure RecordKept (s : State) (x : Inode) (ioBuf : Buffer) : Prop where
  synced : ∃ t, inodeSync s x ioBuf = .ok t ∧
    RecordReplaced s t x.iNo.toNat x.pure.bytes ∧ OpensAs t x
  deleted : ∃ t, inodeDelete s x.iNo ioBuf = .ok t ∧ RecordReplaced s t x.iNo.toNat zeros

variable {s : State} {x : Inode} {buf : Buffer}

theorem setRecord_replaced (s : State) (n : ℕ) (r : Image) :
    RecordReplaced s (s.setRecord n r) n r :=
  ⟨fun _ hi => diskRecord_setRecord_self hi, fun _ _ hne _ hi => diskRecord_setRecord_ne hne hi⟩

/-- The slot that `inode_sync` writes. -/
theorem syncSlot (x : Inode) : x.iNo.toUInt8.toUInt32.toNat = x.iNo.toNat % 256 := by
  simp

theorem inodeSync_eq (hbuf : 512 * sectorsOf (x.iNo.toNat % 256) ≤ buf.size) :
    inodeSync s x buf = .ok (s.setRecord (x.iNo.toNat % 256) x.pure.bytes) := by
  rw [← syncSlot] at hbuf ⊢
  exact replaceRecord_eq (by rw [syncSlot]; omega) hbuf

theorem inodeSync_overrun (hbuf : buf.size < 512 * sectorsOf (x.iNo.toNat % 256)) :
    inodeSync s x buf = .error .overrun := by
  rw [← syncSlot] at hbuf
  exact replaceRecord_overrun (by rw [syncSlot]; omega) hbuf

theorem inodeDelete_eq {n : UInt32} (hn : n.toNat < 4096)
    (hbuf : 512 * sectorsOf n.toNat ≤ buf.size) :
    inodeDelete s n buf = .ok (s.setRecord n.toNat zeros) := by
  rw [inodeDelete, ensure_of hn, ok_bind]
  exact replaceRecord_eq hn hbuf

theorem inodeDelete_overrun {n : UInt32} (hn : n.toNat < 4096)
    (hbuf : buf.size < 512 * sectorsOf n.toNat) : inodeDelete s n buf = .error .overrun := by
  rw [inodeDelete, ensure_of hn, ok_bind]
  exact replaceRecord_overrun hn hbuf

theorem opensAs_of_stored {t : State} (hx : x.iNo.toNat < 4096)
    (h : ∀ i < inodeSize, diskRecord t x.iNo.toNat i = x.pure.bytes i) : OpensAs t x := by
  intro u _ hu hopen h0 h1
  obtain ⟨v, hv, hlist, hfound⟩ := inodeOpen_load hx hopen h0 h1
  refine ⟨_, v, hv, hlist, ?_⟩
  rw [hfound, Inode.ofBytes_congr fun i hi => (hu i hi).trans (h i hi), Inode.ofBytes_pure]

/-- The condition under which `inode_sync` leaves the table as it should: the low byte
of the number is the number, or both records hold the inode already. -/
def SyncsOwnRecord (s : State) (x : Inode) : Prop :=
  x.iNo.toNat < 256 ∨ ∀ i < inodeSize, diskRecord s x.iNo.toNat i = x.pure.bytes i ∧
    diskRecord s (x.iNo.toNat % 256) i = x.pure.bytes i

theorem replaced_iff (hx : x.iNo.toNat < 4096) :
    RecordReplaced s (s.setRecord (x.iNo.toNat % 256) x.pure.bytes) x.iNo.toNat x.pure.bytes ↔
      SyncsOwnRecord s x := by
  by_cases hsmall : x.iNo.toNat < 256
  · rw [Nat.mod_eq_of_lt hsmall]
    exact iff_of_true (setRecord_replaced ..) (.inl hsmall)
  have hne : x.iNo.toNat ≠ x.iNo.toNat % 256 := by omega
  constructor
  · intro h
    refine .inr fun i hi => ⟨?_, ?_⟩
    · rw [← h.stored i hi, diskRecord_setRecord_ne hne hi]
    · rw [← h.others _ (by omega) hne.symm i hi, diskRecord_setRecord_self hi]
  · intro h
    have hboth := h.resolve_left hsmall
    constructor
    · intro i hi
      rw [diskRecord_setRecord_ne hne hi, (hboth i hi).1]
    · intro m _ _ i hi
      by_cases hm : m = x.iNo.toNat % 256
      · rw [hm, diskRecord_setRecord_self hi, (hboth i hi).2]
      · exact diskRecord_setRecord_ne hm hi

/-- The records are independent of one another exactly when the buffer holds the
sectors that are transferred and the inode number fits in a byte, or both the record
and the one that `inode_sync` takes for it hold the inode already. -/
theorem inode_records_independent (s : State) (x : Inode) (ioBuf : Buffer)
    (hx : x.iNo.toNat < 4096) :
    RecordKept s x ioBuf ↔
      512 * sectorsOf x.iNo.toNat ≤ ioBuf.size ∧
      512 * sectorsOf (x.iNo.toNat % 256) ≤ ioBuf.size ∧ SyncsOwnRecord s x := by
  constructor
  · intro h
    have hdelete : 512 * sectorsOf x.iNo.toNat ≤ ioBuf.size := by
      by_contra hlt
      obtain ⟨t, ht, _⟩ := h.deleted
      rw [inodeDelete_overrun hx (by omega)] at ht
      cases ht
    have hsync : 512 * sectorsOf (x.iNo.toNat % 256) ≤ ioBuf.size := by
      by_contra hlt
      obtain ⟨t, ht, _⟩ := h.synced
      rw [inodeSync_overrun (by omega)] at ht
      cases ht
    refine ⟨hdelete, hsync, ?_⟩
    obtain ⟨t, ht, hreplaced, _⟩ := h.synced
    rw [inodeSync_eq hsync] at ht
    cases ht
    exact (replaced_iff hx).mp hreplaced
  · rintro ⟨hdelete, hsync, hown⟩
    have hreplaced := (replaced_iff hx).mpr hown
    exact ⟨⟨_, inodeSync_eq hsync, hreplaced, opensAs_of_stored hx hreplaced.stored⟩,
      ⟨_, inodeDelete_eq hx hdelete, setRecord_replaced ..⟩⟩

/-- Record 6 straddles two sectors. -/
theorem inode_records_independent_six :
    RecordKept blankState (inodeInit 6) ⟨1024, zeros⟩ :=
  (inode_records_independent blankState (inodeInit 6) ⟨1024, zeros⟩ (by decide)).mpr
    ⟨by decide, by decide, .inl (by decide)⟩

/-- Writing back inode 257 leaves its record blank and fills record 1. -/
theorem inode_sync_wrong_record : ¬ RecordKept blankState (inodeInit 257) ⟨1024, zeros⟩ := by
  intro h
  obtain ⟨t, ht, hreplaced, _⟩ := h.synced
  rw [inodeSync_eq (by decide)] at ht
  cases ht
  exact absurd (hreplaced.stored 0 (by decide)) (by decide)

end Independence

end X86System.FileSystem
