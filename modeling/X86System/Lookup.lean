import X86System.OpenCounts
import X86System.InodeRecords
import X86System.DirEntries
import Mathlib.Data.List.Find

/-!
# What a directory number stands for

`inode_open` of a number finds the open inode with this number, or else the record on
disk; the entries of a directory are those in its blocks. A walk opens and closes
directories on its way, which changes neither what is on disk nor what a number
stands for.
-/
namespace X86System.FileSystem
open Bytes Exec

variable {s t u : State} {a b : InodePtr} {n : UInt32} {x y : Inode} {h : Multiset InodePtr}
  {name : List UInt8}

/-- The inode on `open_inodes` that `inode_open` finds. -/
def State.openInode (s : State) (n : UInt32) : Option InodePtr :=
  s.openInodes.find? fun a => (s.inodes a).map Inode.iNo = some n

/-- What `inode_open` makes of an inode number. -/
def State.view (s : State) (n : UInt32) : Inode :=
  ((s.openInode n).bind s.inodes).getD (Inode.ofBytes (diskRecord s n.toNat))

/-- The search of `search_dir_entry` through the blocks of an inode. -/
def lookupIn (s : State) (x : Inode) (name : List UInt8) : Except Fault (Option DirEntry) := do
  let allBlocks ← copyDirect x { size := 560, bytes := zeros } 12
  let allBlocks ← loadIndirect s x allBlocks
  searchBlocks s name allBlocks (some { size := 512, bytes := zeros }) 140 0

/-- The entry of a name in directory `n`. -/
def State.lookup (s : State) (n : UInt32) (name : List UInt8) : Except Fault (Option DirEntry) :=
  lookupIn s (s.view n) name

section Lookups

theorem findOpen_eq {l : List InodePtr} (hlive : ∀ a ∈ l, ∃ x, s.inodes a = some x) :
    findOpen s n l = .ok (l.find? fun a => (s.inodes a).map Inode.iNo = some n) := by
  induction l with
  | nil => rfl
  | cons a l ih =>
    obtain ⟨x, hx⟩ := hlive a List.mem_cons_self
    rw [findOpen, hx, deref_some, ok_bind, ih fun b hb => hlive b (List.mem_cons_of_mem _ hb)]
    by_cases hn : x.iNo = n <;> simp [hx, hn]

theorem copyDirect_congr (hxy : x.iSectors = y.iSectors) (allBlocks : Buffer) (k : ℕ) :
    copyDirect x allBlocks k = copyDirect y allBlocks k := by
  have hsector : x.sector = y.sector := by
    funext k
    unfold Inode.sector
    rw [hxy]
  induction k with
  | zero => rfl
  | succ k ih => rw [copyDirect, copyDirect, ih, hsector]

theorem searchBlocks_congr (hdisk : t.disk = s.disk) (hpart : t.part = s.part)
    (allBlocks : Buffer) (buf : Option Buffer) (fuel : ℕ) : ∀ k : ℕ,
    searchBlocks t name allBlocks buf fuel k = searchBlocks s name allBlocks buf fuel k := by
  induction fuel with
  | zero => exact fun _ => rfl
  | succ fuel ih =>
    intro k
    simp only [searchBlocks, ideRead, hdisk, hpart, ih]

/-- A lookup reads the disk and the sectors of the inode. -/
theorem lookupIn_congr (hdisk : t.disk = s.disk) (hpart : t.part = s.part)
    (hxy : y.iSectors = x.iSectors) : lookupIn t y name = lookupIn s x name := by
  have hsector : y.sector = x.sector := by
    funext k
    unfold Inode.sector
    rw [hxy]
  unfold lookupIn
  simp only [copyDirect_congr hxy, loadIndirect, hsector, ideRead, hdisk,
    searchBlocks_congr hdisk hpart]

/-- All places of a directory in the order in which they are searched. -/
def dirEntries (disk : Image) (x : Inode) : List DirEntry :=
  (List.range 140).flatMap fun k =>
    if x.blockLba disk k = 0 then [] else (List.range 21).map (dirEntryAt disk (x.blockLba disk k))

theorem mem_dirEntries {disk : Image} {e : DirEntry} : e ∈ dirEntries disk x ↔
    ∃ k < 140, x.blockLba disk k ≠ 0 ∧ ∃ j < 21, dirEntryAt disk (x.blockLba disk k) j = e := by
  unfold dirEntries
  rw [List.mem_flatMap]
  refine exists_congr fun k => ?_
  rw [List.mem_range]
  refine and_congr_right fun _ => ?_
  split_ifs with hzero
  · simp [hzero]
  · rw [List.mem_map]
    simp [hzero]

/-- `!strcmp(dir_e->filename, name)` -/
def DirEntry.named (e : DirEntry) (name : List UInt8) : Bool := strMatches e.bytes name

theorem strMatches_congr : ∀ {m m' : Image} {name : List UInt8},
    (∀ i ≤ name.length, m i = m' i) → strMatches m name = strMatches m' name
  | m, m', [], h => by simp [strMatches, h 0 le_rfl]
  | m, m', c :: l, h => by
    have hrest : strMatches (slice m 1) l = strMatches (slice m' 1) l :=
      strMatches_congr fun i hi => h (1 + i) (by rw [List.length_cons]; omega)
    simp [strMatches, h 0 (Nat.zero_le _), hrest]

/-- A short name is compared within the entry. -/
theorem named_read (p : Image) {name : List UInt8} (hname : name.length < maxFileNameLen) :
    strMatches p name = (DirEntry.ofBytes p).named name := by
  refine strMatches_congr fun i hi => ?_
  have hi : i < 16 := by
    unfold maxFileNameLen at hname
    omega
  simp [DirEntry.bytes, DirEntry.ofBytes, hi]

/-- An entry of a sector that was read into a buffer. -/
theorem dirEntry_read {d m : Image} {lba : UInt32} {j : ℕ} (hj : j < 21) :
    DirEntry.ofBytes (slice (overlay m 0 512 (slice d (512 * lba.toNat))) (direntSize * j)) =
      dirEntryAt d lba j := by
  refine DirEntry.ofBytes_congr fun i hi => ?_
  unfold direntSize at hi ⊢
  rw [slice_apply, overlay_inside (by omega) (by omega), slice_apply, slice_apply, Nat.sub_zero,
    Nat.add_assoc]

/-- Comparing the name with what is stored at entry `e` says what `q` says of the entry. -/
def Compares (name : List UInt8) (q : DirEntry → Bool) (e : DirEntry) : Prop :=
  ∀ p, DirEntry.ofBytes p = e → strMatches p name = q e

theorem compares_named (hname : name.length < maxFileNameLen) (e : DirEntry) :
    Compares name (·.named name) e := by
  rintro p rfl
  exact named_read p hname

variable {q : DirEntry → Bool}

theorem searchSector_eq (m : Image) (fuel : ℕ) : ∀ k : ℕ,
    (∀ j ∈ List.range' k fuel, Compares name q (DirEntry.ofBytes (slice m (direntSize * j)))) →
    searchSector m name fuel k = ((List.range' k fuel).map fun j =>
      DirEntry.ofBytes (slice m (direntSize * j))).find? q := by
  induction fuel with
  | zero => exact fun _ _ => rfl
  | succ fuel ih =>
    intro k hq
    rw [List.range'_succ] at hq
    have hhead := hq k List.mem_cons_self _ rfl
    have hrest := ih (k + 1) fun j hj => hq j (List.mem_cons_of_mem k hj)
    rw [List.range'_succ, List.map_cons, List.find?_cons, ← hhead, searchSector, hrest]
    cases strMatches (slice m (direntSize * k)) name <;> rfl

theorem searchSector_read {lba : UInt32} (m : Image)
    (hq : ∀ j < 21, Compares name q (dirEntryAt s.disk lba j)) :
    searchSector (overlay m 0 512 (slice s.disk (512 * lba.toNat))) name 21 0 =
      ((List.range 21).map (dirEntryAt s.disk lba)).find? q := by
  have hplace : ∀ j < 21, DirEntry.ofBytes
      (slice (overlay m 0 512 (slice s.disk (512 * lba.toNat))) (direntSize * j)) =
        dirEntryAt s.disk lba j := fun j hj => dirEntry_read hj
  have hplaces : (List.range 21).map (fun j => DirEntry.ofBytes
      (slice (overlay m 0 512 (slice s.disk (512 * lba.toNat))) (direntSize * j))) =
        (List.range 21).map (dirEntryAt s.disk lba) :=
    List.map_congr_left fun j hj => hplace j (List.mem_range.mp hj)
  rw [searchSector_eq (q := q) _ 21 0 fun j hj => ?_, ← List.range_eq_range', hplaces]
  have hj : j < 21 := by simpa using List.mem_range'_1.mp hj
  rw [hplace j hj]
  exact hq j hj

/-- The block list that `search_dir_entry` reads. -/
theorem loadIndirect_words {b : Buffer} (hlist : BlockList x b)
    (htable : (x.sector 12).toNat ≤ maxLba) : ∃ c, loadIndirect s x b = .ok c ∧
      c.size = 560 ∧ ∀ k < 140, wordAt c.bytes (4 * k) = x.blockLba s.disk k := by
  unfold loadIndirect
  split_ifs with h
  · refine ⟨_, ideRead_of_le htable (by omega) (by rw [hlist.size]), hlist.size, fun k hk => ?_⟩
    rw [Buffer.put_bytes, Inode.blockLba]
    split_ifs with hdirect hin
    · have hout : ∀ i < 4, overlay b.bytes 48 (512 * 1)
          (slice s.disk (512 * (x.sector 12).toNat)) (4 * k + i) = b.bytes (4 * k + i) :=
        fun i hi => overlay_outside (by omega)
      rw [wordAt_congr hout, hlist.direct k hdirect]
    · have hk : 4 * k = 48 + 4 * (k - 12) := by omega
      rw [hk, wordAt_overlay_slice (by omega)]
    · exact absurd ⟨hk, h⟩ hin
  · refine ⟨b, rfl, hlist.size, fun k hk => ?_⟩
    rw [Inode.blockLba]
    split_ifs with hdirect hin
    · exact hlist.direct k hdirect
    · exact absurd hin.2 h
    · exact hlist.rest k (by omega)

theorem searchBlocks_eq {c b : Buffer} (hq : ∀ e ∈ dirEntries s.disk x, Compares name q e)
    (hsize : c.size = 560) (hwords : ∀ k < 140, wordAt c.bytes (4 * k) = x.blockLba s.disk k)
    (hread : ∀ k < 140, (x.blockLba s.disk k).toNat ≤ maxLba) (hb : b.size = 512) (fuel : ℕ) :
    ∀ k, k + fuel = 140 → searchBlocks s name c (some b) fuel k =
      .ok (((List.range' k fuel).flatMap fun k => if x.blockLba s.disk k = 0 then []
        else (List.range 21).map (dirEntryAt s.disk (x.blockLba s.disk k))).find? q) := by
  induction fuel with
  | zero => exact fun _ _ => rfl
  | succ fuel ih =>
    intro k hk
    have hword : c.word k = .ok (x.blockLba s.disk k) := by
      rw [Buffer.word_of_le (by omega), hwords k (by omega)]
    have hentries : 512 / s.part.dirEntrySize = 21 := by rw [s.part.dirEntrySize_eq]
    have hblock : ideRead s _ b 0 1 = _ := ideRead_of_le (hread k (by omega)) Nat.one_pos (by omega)
    rw [searchBlocks, hword, ok_bind, List.range'_succ, List.flatMap_cons, List.find?_append]
    by_cases hzero : x.blockLba s.disk k = 0
    · rw [if_pos hzero, if_pos hzero, ih (k + 1) (by omega), List.find?_nil, Option.none_or]
    · rw [if_neg hzero, if_neg hzero, deref_some, ok_bind, hblock, ok_bind, hentries,
        Buffer.put_bytes, Nat.mul_one, searchSector_read _ fun j hj => ?_, ih (k + 1) (by omega)]
      · cases ((List.range 21).map (dirEntryAt s.disk (x.blockLba s.disk k))).find? q <;> rfl
      · exact hq _ (mem_dirEntries.mpr ⟨k, by omega, hzero, j, hj, rfl⟩)

/-- A lookup in readable blocks finds the first place that compares equal. -/
theorem lookupIn_find (hq : ∀ e ∈ dirEntries s.disk x, Compares name q e)
    (htable : (x.sector 12).toNat ≤ maxLba)
    (hread : ∀ k < 140, (x.blockLba s.disk k).toNat ≤ maxLba) :
    lookupIn s x name = .ok ((dirEntries s.disk x).find? q) := by
  obtain ⟨b, hcopy, hlist⟩ := copyDirect_blockList x
  obtain ⟨c, hload, hsize, hwords⟩ := loadIndirect_words (s := s) hlist htable
  have hrange : List.range' 0 140 = List.range 140 := List.range_eq_range'.symm
  have hblocks := searchBlocks_eq hq hsize hwords hread (b := ⟨512, zeros⟩) rfl 140 0 rfl
  unfold lookupIn
  rw [hcopy, ok_bind, hload, ok_bind, hblocks, hrange]
  rfl

/-- A lookup in readable blocks finds the first place with the name. -/
theorem lookupIn_eq (hname : name.length < maxFileNameLen)
    (htable : (x.sector 12).toNat ≤ maxLba)
    (hread : ∀ k < 140, (x.blockLba s.disk k).toNat ≤ maxLba) :
    lookupIn s x name = .ok ((dirEntries s.disk x).find? (·.named name)) :=
  lookupIn_find (fun e _ => compares_named hname e) htable hread

end Lookups

section Walking

/-- An inode but for its open count, which is all that a lookup changes. -/
def Inode.place (x : Inode) : Inode := { x with iOpenCnts := 0 }

/-- From `s` to `t` the handles in `h` were opened; the disk and what numbers stand for
did not change, and memory is left. -/
structure Walks (s t : State) (h : Multiset InodePtr) : Prop where
  opens : Opens s t h
  disk : t.disk = s.disk
  heap : ∀ k, t.heap k = true
  list : ∃ l, t.openInodes = l ++ s.openInodes
  kept : ∀ a ∈ s.openInodes, (t.inodes a).map Inode.place = (s.inodes a).map Inode.place
  loaded : ∀ a ∈ t.openInodes, a ∉ s.openInodes → ∃ x, t.inodes a = some x ∧
    s.openInode x.iNo = none ∧ x.place = (s.view x.iNo).place

/-- The inode at `a` is what number `n` stood for in `s`. -/
def Sees (s t : State) (a : InodePtr) (n : UInt32) : Prop :=
  ∃ x, t.inodes a = some x ∧ x.iNo = n ∧ x.place = (s.view n).place

theorem Walks.refl (hs : OpenOk s) (hheap : ∀ k, s.heap k = true) : Walks s s 0 :=
  ⟨Opens.refl hs, rfl, hheap, ⟨[], rfl⟩, fun _ _ => rfl, fun _ ha hna => absurd ha hna⟩

theorem iNo_of_place (h : y.place = x.place) : y.iNo = x.iNo := congrArg (·.iNo) h

theorem iSectors_of_place (h : y.place = x.place) : y.iSectors = x.iSectors :=
  congrArg (·.iSectors) h

/-- An open inode in the first state is the same but for its count. -/
theorem Walks.kept_inode (hw : Walks s t h) (ha : a ∈ s.openInodes) (hx : s.inodes a = some x) :
    ∃ y, t.inodes a = some y ∧ y.place = x.place := by
  have hkept := hw.kept a ha
  rw [hx] at hkept
  cases hy : t.inodes a with
  | none => simp [hy] at hkept
  | some y =>
    exact ⟨y, rfl, by simpa [hy] using hkept⟩

theorem Walks.iNo (hw : Walks s t h) (ha : a ∈ s.openInodes) :
    (t.inodes a).map Inode.iNo = (s.inodes a).map Inode.iNo := hw.opens.old a ha

theorem Walks.find?_old (hw : Walks s t h) :
    (s.openInodes.find? fun a => (t.inodes a).map Inode.iNo = some n) = s.openInode n :=
  List.find?_congr fun a ha => by rw [hw.iNo ha]

/-- What is found among the open inodes is new, or was found before. -/
theorem Walks.openInode (hw : Walks s t h) (hn : t.openInode n = some a) :
    a ∈ t.openInodes ∧ (a ∉ s.openInodes ∨ s.openInode n = some a) := by
  have hmem : a ∈ t.openInodes := List.mem_of_find?_eq_some hn
  refine ⟨hmem, ?_⟩
  obtain ⟨l, hl⟩ := hw.list
  unfold State.openInode at hn
  rw [hl, List.find?_append, hw.find?_old] at hn
  rcases hfound : l.find? fun a => (t.inodes a).map Inode.iNo = some n with _ | b
  · rw [hfound, Option.none_or] at hn
    exact Or.inr hn
  · rw [hfound, Option.some_or] at hn
    obtain rfl : b = a := Option.some.inj hn
    refine Or.inl fun ha => ?_
    have hnodup := hw.opens.ok.nodup
    rw [hl] at hnodup
    exact List.disjoint_of_nodup_append hnodup (List.mem_of_find?_eq_some hfound) ha

theorem Walks.openInode_none (hw : Walks s t h) (hn : t.openInode n = none) :
    s.openInode n = none := by
  obtain ⟨l, hl⟩ := hw.list
  unfold State.openInode at hn
  rw [hl, List.find?_append, hw.find?_old, Option.or_eq_none_iff] at hn
  exact hn.2

theorem openInode_iNo (hn : s.openInode n = some a) :
    ∃ x, s.inodes a = some x ∧ x.iNo = n := by
  have hfound := List.find?_some hn
  simpa using hfound

theorem view_of_open (hn : s.openInode n = some a) (hx : s.inodes a = some x) :
    s.view n = x := by
  simp [State.view, hn, hx]

theorem view_of_none (hn : s.openInode n = none) :
    s.view n = Inode.ofBytes (diskRecord s n.toNat) := by
  simp [State.view, hn]

/-- The open inode of a number is what the number stood for. -/
theorem Walks.sees (hw : Walks s t h) (hn : t.openInode n = some a) : Sees s t a n := by
  obtain ⟨x, hx, hno⟩ := openInode_iNo hn
  obtain ⟨hmem, hnew | hold⟩ := hw.openInode hn
  · obtain ⟨y, hy, -, hplace⟩ := hw.loaded a hmem hnew
    obtain rfl : x = y := Option.some.inj (hx.symm.trans hy)
    exact ⟨x, hx, hno, hno ▸ hplace⟩
  · obtain ⟨y, hy, -⟩ := openInode_iNo hold
    obtain ⟨z, hz, hplace⟩ := hw.kept_inode (List.mem_of_find?_eq_some hold) hy
    obtain rfl : x = z := Option.some.inj (hx.symm.trans hz)
    exact ⟨x, hx, hno, view_of_open hold hy ▸ hplace⟩

/-- `sys_malloc` finds memory. -/
theorem Walks.malloc (hw : Walks s t h) (size : ℕ) : ∃ u,
    sysMalloc t size = (some { size := size, bytes := zeros }, u) ∧ Walks s u h ∧
      u.inodes = t.inodes ∧ u.rootDir = t.rootDir := by
  refine ⟨{ t with heap := fun k => t.heap (k + 1) }, ?_, ?_, rfl, rfl⟩
  · simp [sysMalloc, hw.heap 0]
  · have hstill : Still t { t with heap := fun k => t.heap (k + 1) } :=
      Still.medium t t.disk t.blockBitmap t.inodeBitmap _
    exact ⟨hw.opens.still hstill, hw.disk, fun k => hw.heap (k + 1), hw.list, hw.kept, hw.loaded⟩

/-- A store to an open inode that leaves its number and sectors. -/
theorem Walks.store {h' : Multiset InodePtr} (hw : Walks s t h) (hx : t.inodes a = some x)
    (hplace : y.place = x.place) (ho : Opens s (t.setInode a y) h') :
    Walks s (t.setInode a y) h' := by
  refine ⟨ho, hw.disk, hw.heap, hw.list, fun b hb => ?_, fun b hb hnb => ?_⟩
  · by_cases hba : b = a
    · subst hba
      rw [setInode_inodes_self, ← hw.kept b hb, hx, Option.map_some, Option.map_some, hplace]
    · rw [setInode_inodes_of_ne _ _ _ hba]
      exact hw.kept b hb
  · by_cases hba : b = a
    · subst hba
      obtain ⟨z, hz, hnone, hloaded⟩ := hw.loaded b hb hnb
      obtain rfl : x = z := Option.some.inj (hx.symm.trans hz)
      have hno := iNo_of_place hplace
      exact ⟨y, setInode_inodes_self .., hno ▸ hnone, by rw [hno, hplace, hloaded]⟩
    · rw [setInode_inodes_of_ne _ _ _ hba]
      exact hw.loaded b hb hnb

/-- `inode_open` of a number finds what it stands for. -/
theorem Walks.opened (hw : Walks s t h) (hlt : n.toNat < 4096) (hno : (s.view n).iNo = n) :
    ∃ a u, inodeOpen t n = .ok (a, u) ∧ Walks s u (a ::ₘ h) ∧ Sees s u a n := by
  have hlive : ∀ a ∈ t.openInodes, ∃ x, t.inodes a = some x := fun a ha =>
    (hw.opens.ok.live a ha).imp fun _ hx => hx.1
  have hfind : findOpen t n t.openInodes = .ok (t.openInode n) := findOpen_eq hlive
  obtain ⟨l, hl⟩ := hw.list
  cases hn : t.openInode n with
  | none =>
    obtain ⟨u, hu, hload⟩ := inodeLoad_loaded hlt (hw.heap 0) (hw.heap 1)
    have hopen : inodeOpen t n = .ok (t.nextInode, u) := by
      rw [inodeOpen, hfind, hn, ok_bind, hu]
    have hnone := hw.openInode_none hn
    have hinode : u.inodes t.nextInode = some { s.view n with iOpenCnts := 1 } := by
      rw [hload.inode, view_of_none hnone, diskRecord, diskRecord, hw.disk, hw.opens.part]
    have hold : ∀ a ∈ t.openInodes, u.inodes a = t.inodes a := fun a ha =>
      hload.others a (hw.opens.ok.used a ha).ne
    have hmem : ∀ a ∈ s.openInodes, a ∈ t.openInodes := fun a ha =>
      hl ▸ List.mem_append_right l ha
    refine ⟨_, u, hopen, ⟨((inodeOpen_opens hw.opens n).of_ok hopen).1, hload.disk.trans hw.disk,
      fun k => (hload.heap k).trans (hw.heap _), ⟨t.nextInode :: l, ?_⟩, fun a ha => ?_,
      fun a ha hna => ?_⟩, _, hinode, hno, rfl⟩
    · rw [hload.openInodes, hl, List.cons_append]
    · rw [hold a (hmem a ha)]
      exact hw.kept a ha
    · rw [hload.openInodes] at ha
      rcases List.mem_cons.mp ha with rfl | ha
      · exact ⟨_, hinode, hno.symm ▸ hnone, by rw [hno]; rfl⟩
      · rw [hold a ha]
        exact hw.loaded a ha hna
  | some a =>
    obtain ⟨x, hx, hxn⟩ := openInode_iNo hn
    obtain ⟨y, hy, hyn, hplace⟩ := hw.sees hn
    obtain rfl : x = y := Option.some.inj (hx.symm.trans hy)
    have hopen : inodeOpen t n = .ok (a, t.setInode a { x with iOpenCnts := x.iOpenCnts + 1 }) := by
      rw [inodeOpen, hfind, hn, ok_bind]
      simp only [hx, deref_some, ok_bind]
    have hopens := ((inodeOpen_opens hw.opens n).of_ok hopen).1
    exact ⟨a, _, hopen, hw.store hx rfl hopens, _, setInode_inodes_self .., hxn, hplace⟩

theorem Walks.dirOpen (hw : Walks s t h) (hlt : n.toNat < 4096) (hno : (s.view n).iNo = n) :
    ∃ a u, dirOpen t n = .ok (.opened a, u) ∧ Walks s u (a ::ₘ h) ∧ Sees s u a n := by
  obtain ⟨v, hm, hv, -, -⟩ := hw.malloc 520
  obtain ⟨a, u, hopen, hu, hsees⟩ := hv.opened hlt hno
  refine ⟨a, u, ?_, hu, hsees⟩
  simp only [FileSystem.dirOpen, hm, deref_some, ok_bind, hopen]

/-- A directory that is held is closed. -/
theorem Walks.dirClose {d : Dir} (hw : Walks s t (d.handles + h)) :
    ∃ u, dirClose t d = .ok u ∧ Walks s u h := by
  cases d with
  | root =>
    refine ⟨t, rfl, ?_⟩
    simpa [Dir.handles] using hw
  | opened a =>
    have hw : Walks s t (a ::ₘ h) := by simpa [Dir.handles] using hw
    have ha : a ∈ t.openInodes := hw.opens.mem_of_held (Multiset.mem_cons_self a h)
    obtain ⟨x, hx, hpos⟩ := hw.opens.ok.live a ha
    have hopens := inodeClose_opens hw.opens
    obtain ⟨l, hl⟩ := hw.list
    show ∃ u, inodeClose t a = .ok u ∧ _
    by_cases hone : x.iOpenCnts = 1
    · -- the last handle: the inode was not open in the first state
      have hclose : inodeClose t a = .ok { t with
          openInodes := t.openInodes.erase a, inodes := Function.update t.inodes a none } := by
        rw [inodeClose, hx, deref_some, ok_bind, if_pos hone]
      have hna : a ∉ s.openInodes := by
        intro hmem
        have hcnt := hw.opens.count a
        have hold := hw.opens.start.openCount_pos.mpr hmem
        rw [openCount_of_mem ha hx, Multiset.count_cons_self] at hcnt
        omega
      have hal : a ∈ l := by
        rw [hl] at ha
        exact (List.mem_append.mp ha).resolve_right hna
      have hne : ∀ b ∈ t.openInodes.erase a, b ≠ a := fun b hb hba =>
        hw.opens.ok.nodup.not_mem_erase (hba ▸ hb)
      refine ⟨_, hclose, hopens.of_ok hclose, hw.disk, hw.heap, ⟨l.erase a, ?_⟩, fun b hb => ?_,
        fun b hb hnb => ?_⟩
      · dsimp only
        rw [hl, List.erase_append_left _ hal]
      · have hba : b ≠ a := fun h => hna (h ▸ hb)
        dsimp only
        rw [Function.update_of_ne hba]
        exact hw.kept b hb
      · dsimp only at hb ⊢
        rw [Function.update_of_ne (hne b hb)]
        exact hw.loaded b (List.mem_of_mem_erase hb) hnb
    · have hclose : inodeClose t a = .ok (t.setInode a { x with iOpenCnts := x.iOpenCnts - 1 }) := by
        rw [inodeClose, hx, deref_some, ok_bind, if_neg hone, if_neg hpos.ne']
      exact ⟨_, hclose, hw.store hx rfl (hopens.of_ok hclose)⟩

/-- `inode_close` of an inode that is held. -/
theorem Walks.inodeClose (hw : Walks s t (a ::ₘ h)) :
    ∃ u, inodeClose t a = .ok u ∧ Walks s u h := by
  have hd : Walks s t ((Dir.opened a).handles + h) := by simpa [Dir.handles] using hw
  exact hd.dirClose

end Walking

end X86System.FileSystem
