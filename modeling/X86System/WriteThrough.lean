import X86System.DescriptorCalls
import X86System.InodeReleases
import X86System.OpenAccounts

/-!
# Bitmaps are written through

Between two system calls the bitmaps on disk are those in memory. A call that takes or gives
back a block writes the sector of its bit, and one that makes a file or a directory writes the
inode bitmap at its end. What a call writes besides has to miss the sectors of the bitmaps:
it goes to blocks that inodes and tables refer to.
-/
namespace X86System.FileSystem
open Bytes Exec

variable {s t u : State} {D : Finset ℕ} {o : Option ℕ} {a : InodePtr} {i k n : ℕ} {x y : Inode}
  {b c : Buffer}

/-- Neither a block of an inode nor its indirect table is a sector of a bitmap. -/
structure Inode.Apart (s : State) (x : Inode) : Prop where
  blocks : ∀ k < 140, OffBitmaps s.part (x.blockLba s.disk k).toNat 1
  table : OffBitmaps s.part (x.sector 12).toNat 1

/-- Nothing that an inode refers to, in memory or in the inode table, is a sector of a bitmap. -/
structure PointersApart (s : State) : Prop where
  opened : ∀ a x, s.inodes a = some x → x.Apart s
  records : ∀ n < 4096, (Inode.ofBytes (diskRecord s n)).Apart s

section Pointers

theorem Inode.Apart.congr (h : x.Apart s) (hxy : y.iSectors = x.iSectors)
    (hdisk : t.disk = s.disk) (hpart : t.part = s.part) : y.Apart t := by
  have hsector : ∀ k, y.sector k = x.sector k := fun k => by rw [Inode.sector, hxy, Inode.sector]
  constructor
  · intro k hk
    have hblock := h.blocks k hk
    unfold Inode.blockLba at hblock ⊢
    rw [hsector, hsector, hdisk, hpart]
    exact hblock
  · rw [hsector, hpart]
    exact h.table

theorem Inode.Apart.sector (h : x.Apart s) (hk : k < 12) :
    OffBitmaps s.part (x.sector k).toNat 1 := by
  have hblock := h.blocks k (by omega)
  rwa [Inode.blockLba, if_pos hk] at hblock

/-- An inode without blocks. -/
theorem apart_empty (s : State) (hx : x.iSectors = Vector.replicate 13 0) : x.Apart s := by
  have hsector : ∀ k, x.sector k = 0 := by
    intro k
    rw [Inode.sector, hx]
    by_cases hk : k < 13 <;> simp [Vector.getD, hk]
  constructor
  · intro k hk
    have hzero : x.blockLba s.disk k = 0 := by
      unfold Inode.blockLba
      rw [hsector, hsector]
      split_ifs with h12 h140
      · rfl
      · exact absurd rfl h140.2
      · rfl
    rw [hzero]
    exact offBitmaps_zero _
  · rw [hsector]
    exact offBitmaps_zero _

/-- Inodes that were there or in the inode table. -/
theorem PointersApart.of_inodes (h : PointersApart s) (hdisk : t.disk = s.disk)
    (hpart : t.part = s.part) (hinodes : ∀ b y, t.inodes b = some y →
      (∃ c x, s.inodes c = some x ∧ y.iSectors = x.iSectors) ∨
        y.iSectors = Vector.replicate 13 0 ∨
        ∃ n < 4096, y.iSectors = (Inode.ofBytes (diskRecord s n)).iSectors) :
    PointersApart t where
  opened b y hy := by
    obtain ⟨c, x, hx, hsame⟩ | hzero | ⟨n, hn, hsame⟩ := hinodes b y hy
    · exact (h.opened c x hx).congr hsame hdisk hpart
    · exact apart_empty t hzero
    · exact (h.records n hn).congr hsame hdisk hpart
  records n hn := by
    have hrecord : diskRecord t n = diskRecord s n := by
      unfold diskRecord
      rw [hdisk, hpart]
    rw [hrecord]
    exact (h.records n hn).congr rfl hdisk hpart

theorem PointersApart.of_same (h : PointersApart s) (hinodes : t.inodes = s.inodes)
    (hdisk : t.disk = s.disk) (hpart : t.part = s.part) : PointersApart t :=
  h.of_inodes hdisk hpart fun b y hy => Or.inl ⟨b, y, hinodes ▸ hy, rfl⟩

/-- No direct block of an inode in memory is a sector of a bitmap. -/
def DirectApart (s : State) : Prop :=
  ∀ a x, s.inodes a = some x → ∀ k < 12, OffBitmaps s.part (x.sector k).toNat 1

theorem PointersApart.direct (h : PointersApart s) (hinodes : t.inodes = s.inodes)
    (hpart : t.part = s.part) : DirectApart t := by
  intro a x hx k hk
  rw [hinodes] at hx
  rw [hpart]
  exact (h.opened a x hx).sector hk

/-- A store to one inode. -/
theorem PointersApart.update (h : PointersApart s) (hdisk : t.disk = s.disk)
    (hpart : t.part = s.part) {v : Option Inode} (hinodes : t.inodes = Function.update s.inodes a v)
    (hv : ∀ y, v = some y → (∃ c x, s.inodes c = some x ∧ y.iSectors = x.iSectors) ∨
      y.iSectors = Vector.replicate 13 0 ∨
      ∃ n < 4096, y.iSectors = (Inode.ofBytes (diskRecord s n)).iSectors) : PointersApart t := by
  refine h.of_inodes hdisk hpart fun b y hy => ?_
  rw [hinodes] at hy
  by_cases hba : b = a
  · subst hba
    rw [Function.update_self] at hy
    exact hv y hy
  · rw [Function.update_of_ne hba] at hy
    exact Or.inl ⟨b, y, hy, rfl⟩

/-- A search leaves the medium alone, and what it opens refers to no bitmap. -/
structure Consults (s t : State) : Prop where
  browsed : Browsed s t
  apart : PointersApart s → PointersApart t

instance : IsTrans State Consults where
  trans _ _ _ h h' := ⟨h.browsed.trans h'.browsed, fun hs => h'.apart (h.apart hs)⟩

theorem Consults.refl (s : State) : Consults s s := ⟨Browsed.refl s, id⟩

theorem Consults.popHeap (s : State) : Consults s s.popHeap :=
  ⟨sysMalloc_browsed s 0, fun hs => hs.of_same rfl rfl rfl⟩

theorem mallocInode_consults (s : State) : Consults s (mallocInode s).2 := by
  refine ⟨mallocInode_browsed s, fun hs => ?_⟩
  unfold mallocInode
  split_ifs
  · refine hs.update rfl rfl rfl fun y hy => Or.inr (Or.inl ?_)
    rw [← Option.some.inj hy]
  · exact (Consults.popHeap s).apart hs

theorem inodeLoad_apart (n : UInt32) (hs : PointersApart s) :
    Returns (inodeLoad s n) fun v => PointersApart v.2 := by
  by_cases hn : n.toNat < 4096
  · by_cases hheap : s.heap 0 = true ∧ s.heap 1 = true
    · rw [inodeLoad_fresh hn hheap.1 hheap.2]
      refine hs.update rfl rfl rfl fun y hy => Or.inr (Or.inr ⟨n.toNat, hn, ?_⟩)
      rw [← Option.some.inj hy]
    · exact (inodeLoad_none hheap).mono fun _ h => h.elim
  · unfold inodeLoad inodeLocate
    rw [ensure_of_not hn]
    trivial

theorem inodeOpen_apart (n : UInt32) (hs : PointersApart s) :
    Returns (inodeOpen s n) fun v => PointersApart v.2 := by
  refine returns_skip fun r => ?_
  cases r with
  | none => exact inodeLoad_apart n hs
  | some a =>
    refine returns_deref fun x hx => hs.update rfl rfl rfl fun y hy => Or.inl ⟨a, x, hx, ?_⟩
    rw [← Option.some.inj hy]

theorem inodeClose_apart (a : InodePtr) (hs : PointersApart s) :
    Returns (inodeClose s a) PointersApart := by
  refine returns_deref fun x hx => returns_ite (fun _ => ?_) fun _ => ?_
  · exact hs.update rfl rfl rfl fun y hy => nomatch hy
  · refine hs.update rfl rfl rfl fun y hy => Or.inl ⟨a, x, hx, ?_⟩
    rw [← Option.some.inj hy]

theorem consults_browsing : Browsing Consults where
  refl := Consults.refl
  sysMalloc s _ := Consults.popHeap s
  inodeOpen s n := by
    refine Returns.intro fun v hv => ⟨(inodeOpen_browsed s n).of_ok hv, fun hs => ?_⟩
    exact (inodeOpen_apart n hs).of_ok hv
  inodeClose s a := by
    refine Returns.intro fun v hv => ⟨(inodeClose_browsed s a).of_ok hv, fun hs => ?_⟩
    exact (inodeClose_apart a hs).of_ok hv

theorem Browsed.through (h : Browsed s t) : Through s t :=
  Through.of_same h.disk h.part h.blockBitmap h.inodeBitmap

end Pointers

section Entering

variable {allBlocks ioBuf : Buffer} {blockIdx lba : ℕ} {e : DirEntry} {p : Partition} {w : UInt32}

/-- The block addresses in a list are those of no bitmap sectors. -/
def WordsOff (p : Partition) (b : Buffer) : Prop :=
  ∀ k < 140, OffBitmaps p (wordAt b.bytes (4 * k)).toNat 1

theorem WordsOff.setWord (h : WordsOff p b) (hw : OffBitmaps p w.toNat 1)
    (hset : b.setWord k w = .ok c) : WordsOff p c := by
  obtain ⟨-, hset⟩ := of_ensure_eq_ok hset
  obtain rfl := Except.ok.inj hset
  intro j hj
  rw [Buffer.put_bytes, wordAt_overlay_word]
  split_ifs
  · exact hw
  · exact h j hj

theorem WordsOff.word (h : WordsOff p b) (hk : k < 140) (hword : b.word k = .ok w) :
    OffBitmaps p w.toNat 1 := by
  obtain ⟨-, hword⟩ := of_ensure_eq_ok hword
  obtain rfl := Except.ok.inj hword
  exact h k hk

/-- The data blocks lie behind the bitmaps. -/
theorem offBitmaps_data (p : Partition) (i n : ℕ) : OffBitmaps p (p.dataStartLba + i) n := by
  have h := p.dataStartLba_eq
  exact Or.inr (by omega)

theorem Lag.ideWrite (h : Lag D o s) (hoff : OffBitmaps s.part lba n) (b : Buffer) (off : ℕ) :
    Returns (ideWrite s lba b off n) fun t => Lag D o t ∧ t.part = s.part ∧ t.inodes = s.inodes := by
  refine Returns.intro fun t ht => ?_
  have hthrough := (ideWrite_through hoff).of_ok ht
  obtain ⟨d, hd⟩ := (ideWrite_disk s lba b off n).of_ok ht
  obtain rfl : t = s.setDisk d := hd
  exact ⟨hthrough.lag D o h, hthrough.part, rfl⟩

/-- The sector of a block that was just taken is written. -/
theorem Lag.syncTaken (h : Lag D o s) (i : ℕ) :
    Returns (bitmapSync (s.takeBlock i) i .blockBitmap) fun t =>
      Lag D o t ∧ t.part = s.part ∧ t.inodes = s.inodes := by
  refine (bitmapSync_blocks (h.takeBlock i) i).mono fun t ⟨ht, hpart, _, hinodes⟩ => ?_
  refine ⟨ht.mono fun j hj => ?_, hpart, hinodes⟩
  obtain ⟨hne, hmem⟩ := Finset.mem_erase.mp hj
  exact (Finset.mem_insert.mp hmem).resolve_left hne

theorem Lag.syncBlock (h : Lag D o s) (i : ℕ) :
    Returns (syncBlock (s.takeBlock i) (s.part.dataStartLba + i)) fun t =>
      Lag D o t ∧ t.part = s.part ∧ t.inodes = s.inodes := by
  refine returns_ensure fun _ => ?_
  change Returns (bitmapSync (s.takeBlock i) (s.part.dataStartLba + i - s.part.dataStartLba)
    .blockBitmap) _
  rw [Nat.add_sub_cancel_left]
  exact h.syncTaken i

theorem Lag.setInode (h : Lag D o s) (a : InodePtr) (x : Inode) : Lag D o (s.setInode a x) :=
  h.of_same rfl rfl rfl rfl

theorem growDir_lag (h : Lag D o s) (a : InodePtr) :
    Returns (growDir s a) fun t => Lag D o t ∧ t.part = s.part :=
  returns_skip fun _ => ⟨h.setInode a _, rfl⟩

/-- A new block is entered, behind a new table if it is the thirteenth. -/
theorem linkDirBlock_lag (h : Lag D o s) (hwords : WordsOff s.part allBlocks) (hidx : blockIdx ≤ 12)
    (hnew : OffBitmaps s.part (UInt32.ofNat (s.part.dataStartLba + i)).toNat 1) :
    Returns (linkDirBlock s a blockIdx (s.part.dataStartLba + i) allBlocks) fun r =>
      Lag D o r.2 ∧ r.2.part = s.part ∧ ∀ c, r.1 = some c → WordsOff s.part c := by
  refine returns_ite (fun _ => ?_) fun hge => ?_
  · refine returns_skip fun x => returns_bind fun c hc => ⟨h.setInode a _, rfl, fun d hd => ?_⟩
    obtain rfl := Option.some.inj hd
    exact hwords.setWord hnew hc
  · obtain rfl : blockIdx = 12 := by omega
    rw [if_pos rfl]
    refine returns_skip fun x => Returns.bind (blockBitmapAlloc_returns _) fun r ⟨j, hj, hr⟩ => ?_
    subst hr
    have hx := h.setInode a (x.setSector 12 (UInt32.ofNat (s.part.dataStartLba + i)))
    have hnext := offBitmaps_new hx hj.1
    refine Returns.bind (hx.syncBlock j) fun t ⟨ht, hpart, _⟩ => returns_bind fun c hc => ?_
    have hoff : OffBitmaps t.part (s.part.dataStartLba + i) 1 := by
      rw [hpart]
      exact offBitmaps_data s.part i 1
    refine Returns.bind (ht.ideWrite hoff c 48) fun u ⟨hu, hpart', _⟩ => ?_
    refine ⟨hu, hpart'.trans hpart, fun d hd => ?_⟩
    obtain rfl := Option.some.inj hd
    exact hwords.setWord hnext hc

/-- A directory gets a new block. -/
theorem addDirBlock_lag (h : Lag D o s) (hwords : WordsOff s.part allBlocks) (hidx : blockIdx ≤ 12)
    (e : DirEntry) (ioBuf : Buffer) :
    Returns (addDirBlock s a e blockIdx allBlocks ioBuf) fun r =>
      Lag D o r.2 ∧ r.2.part = s.part := by
  refine Returns.bind (blockBitmapAlloc_returns s) fun r ⟨i, hi, hr⟩ => ?_
  subst hr
  have hnew := offBitmaps_new h hi.1
  refine Returns.bind (h.syncBlock i) fun t ⟨ht, hpart, _⟩ => ?_
  rw [← hpart] at hwords hnew
  have hlink := linkDirBlock_lag (a := a) ht hwords hidx hnew
  rw [hpart] at hlink
  refine Returns.bind hlink fun ⟨c, u⟩ ⟨hu, hpart', hoff⟩ => ?_
  cases c with
  | none => exact ⟨hu, hpart'⟩
  | some c =>
    refine returns_skip fun b => returns_skip fun b => returns_bind fun lba hlba => ?_
    have hlba := (hoff c rfl).word (by omega) hlba
    rw [← hpart'] at hlba
    refine Returns.bind (hu.ideWrite hlba b 0) fun v ⟨hv, hpart'', _⟩ => ?_
    refine Returns.bind (growDir_lag hv a) fun w ⟨hw, hpart₃⟩ => ?_
    exact ⟨hw, hpart₃.trans (hpart''.trans hpart')⟩

/-- Entering a name leaves no bitmap sector behind. -/
theorem syncDirLoop_lag (h : Lag D o s) (hsize : allBlocks.size = 560)
    (hwords : WordsOff s.part allBlocks) (hrest : wordAt allBlocks.bytes (4 * 12) = 0)
    (e : DirEntry) (fuel : ℕ) : ∀ (blockIdx : ℕ) (ioBuf : Buffer), blockIdx ≤ 12 →
    Returns (syncDirLoop s a e allBlocks fuel blockIdx ioBuf) fun r =>
      Lag D o r.2 ∧ r.2.part = s.part := by
  induction fuel with
  | zero => exact fun _ _ _ => ⟨h, rfl⟩
  | succ fuel ih =>
    intro blockIdx ioBuf hidx
    refine returns_bind fun lba hlba => returns_ite (fun _ => ?_) fun hne => ?_
    · exact addDirBlock_lag h hwords hidx e ioBuf
    · have hoff := hwords.word (by omega) hlba
      have hlt : blockIdx < 12 := by
        refine lt_of_le_of_ne hidx fun h12 => hne ?_
        subst h12
        rw [Buffer.word_of_le (by omega), hrest] at hlba
        exact (Except.ok.inj hlba).symm
      refine returns_skip fun b => ?_
      cases findFreeEntry b.bytes (512 / s.part.dirEntrySize) 0 with
      | none => exact ih (blockIdx + 1) b (by omega)
      | some idx =>
        refine returns_skip fun b => Returns.bind (h.ideWrite hoff b 0) fun t ⟨ht, hpart, _⟩ => ?_
        exact Returns.bind (growDir_lag ht a) fun u ⟨hu, hpart'⟩ => ⟨hu, hpart'.trans hpart⟩

theorem syncDirEntry_lag (h : Lag D o s) (hs : DirectApart s) (e : DirEntry) (ioBuf : Buffer) :
    Returns (syncDirEntry s a e ioBuf) fun r => Lag D o r.2 ∧ r.2.part = s.part := by
  refine returns_deref fun x hx => returns_ensure fun _ => ?_
  obtain ⟨c, hc, hlist⟩ := copyDirect_blockList x
  rw [hc, ok_bind]
  refine syncDirLoop_lag h hlist.size (fun k hk => ?_) (hlist.rest 12 le_rfl) e 140 0 ioBuf
    (by omega)
  by_cases h12 : k < 12
  · rw [hlist.direct k h12]
    exact hs a x hx k h12
  · rw [hlist.rest k (by omega)]
    exact offBitmaps_zero _

end Entering

section Creating

variable {parent : InodePtr} {filename path : List UInt8} {flag : UInt8}

/-- A new inode number lags behind until it is entered or dropped. -/
theorem inodeBitmapAlloc_lag (h : Lag D none s) :
    Returns (inodeBitmapAlloc s) fun r => ∃ n, r.1 = some n ∧ Lag D (some n) r.2 ∧
      (PointersApart s → PointersApart r.2) := by
  refine returns_bind fun r hr => ?_
  obtain ⟨n, rfl, hn⟩ := bitmapScan_nth hr
  refine ⟨n, rfl, ⟨h.blockLen, h.inodeLen, h.blocks, fun i hi => ?_⟩,
    fun hs => hs.of_same rfl rfl rfl⟩
  change s.disk _ = (bitmapSet (bitmapSet s.inodeBitmap n true) n false).bits i
  rw [bitmapSet_undo hn.1]
  exact h.inodes i hi

theorem Lag.dropInodeNo (h : Lag D (some n) s) : Lag D none (s.dropInodeNo n) :=
  ⟨h.blockLen, h.inodeLen, h.blocks, h.inodes⟩

theorem Lag.inodeSync (h : Lag D o s) (x : Inode) (b : Buffer) :
    Returns (inodeSync s x b) fun t => Lag D o t ∧ t.part = s.part ∧ t.inodes = s.inodes := by
  refine Returns.intro fun t ht => ?_
  have hthrough := (inodeSync_through s x b).of_ok ht
  obtain ⟨d, hd⟩ := (inodeSync_disk s x b).of_ok ht
  obtain rfl : t = s.setDisk d := hd
  exact ⟨hthrough.lag D o h, hthrough.part, rfl⟩

/-- The inode bitmap is written, whatever was new in it. -/
theorem Lag.syncInodes (h : Lag D o s) (i : ℕ) :
    Returns (bitmapSync s i .inodeBitmap) fun t => Lag D none t ∧ t.part = s.part :=
  bitmapSync_inodes h.blockLen h.inodeLen h.blocks i

theorem pcbFdInstall_lag (h : Lag D o s) (g : ℕ) :
    Returns (pcbFdInstall s g) fun r => Lag D o r.2 := by
  refine (pcbFdInstall_exits s g).mono fun r hr => ?_
  obtain ⟨rfl, -⟩ | ⟨task, fd, -, -, -, rfl⟩ := hr
  · exact h
  · exact h.of_same rfl rfl rfl rfl

theorem enrolFile_lag (h : Lag D (some n) s) (parent a : InodePtr) (fdIdx : ℕ) :
    Returns (enrolFile s parent a n fdIdx) fun r => Lag D none r.2 := by
  refine returns_skip fun x => Returns.bind (h.inodeSync x _) fun t ⟨ht, _, _⟩ => ?_
  refine returns_skip fun y => Returns.bind (ht.inodeSync y _) fun u ⟨hu, _, _⟩ => ?_
  refine Returns.bind (hu.syncInodes n) fun v ⟨hv, _⟩ => ?_
  have hopen : Lag D none { v.setInode a { y with iOpenCnts := 1 } with
    openInodes := a :: v.openInodes } := hv.of_same rfl rfl rfl rfl
  exact pcbFdInstall_lag hopen fdIdx

theorem createInDir_lag (h : Lag D (some n) s) (hs : PointersApart s) (parent : InodePtr)
    (filename : List UInt8) (flag : UInt8) (a : InodePtr) (ioBuf : Buffer) :
    Returns (createInDir s parent filename flag n a ioBuf) fun r => Lag D none r.2 := by
  have hnew := h.setInode a (inodeInit (UInt32.ofNat n))
  have hpointers : PointersApart (s.setInode a (inodeInit (UInt32.ofNat n))) := by
    refine hs.update rfl rfl rfl fun y hy => Or.inr (Or.inl ?_)
    rw [← Option.some.inj hy]
    rfl
  unfold createInDir
  dsimp only
  cases getFreeSlotInGlobal (s.setInode a (inodeInit (UInt32.ofNat n))) with
  | none => exact Lag.dropInodeNo (hnew.of_same rfl rfl rfl rfl)
  | some g =>
    refine returns_skip fun e => ?_
    have hslot : Lag D (some n) ((s.setInode a (inodeInit (UInt32.ofNat n))).setFile g
        { fdPos := 0, fdFlag := flag.toUInt32, fdInode := some a }) := hnew.of_same rfl rfl rfl rfl
    refine Returns.bind (syncDirEntry_lag hslot (hpointers.direct rfl rfl) e ioBuf)
      fun ⟨done, t⟩ ⟨ht, _⟩ => ?_
    cases done with
    | false => exact Lag.dropInodeNo (ht.of_same rfl rfl rfl rfl)
    | true => exact enrolFile_lag ht parent a g

theorem fileCreate_lag (h : Lag D none s) (hs : PointersApart s) (parentDir : Dir)
    (filename : List UInt8) (flag : UInt8) :
    Returns (fileCreate s parentDir filename flag) fun r => Lag D none r.2 := by
  have hpop := (Consults.popHeap s).apart hs
  have hlag : Lag D none s.popHeap := h.of_same rfl rfl rfl rfl
  unfold fileCreate
  dsimp only
  cases (sysMalloc s 1024).1 with
  | none => exact hlag
  | some ioBuf =>
    refine Returns.bind (inodeBitmapAlloc_lag hlag) fun r ⟨n, hn, hr, hpointers⟩ => ?_
    obtain ⟨m, t⟩ := r
    obtain rfl : m = some n := hn
    have ht := (mallocInode_consults t).apart (hpointers hpop)
    have hlag' := (mallocInode_consults t).browsed.through.lag D (some n) hr
    dsimp only
    generalize mallocInode t = v at ht hlag' ⊢
    obtain ⟨a, u⟩ := v
    cases a with
    | none => exact hlag'.dropInodeNo
    | some a => exact createInDir_lag hlag' ht _ filename flag a ioBuf

theorem Lag.dirClose (h : Lag D o s) (d : Dir) : Returns (dirClose s d) (Lag D o) :=
  (dirClose_browsed s d).mono fun _ ht => ht.through.lag D o h

/-- A call that gives up closes the directory it searched. -/
theorem Lag.giveUp {β : Type} (h : Lag D o s) (d : Dir) (r : β) :
    Returns (FileSystem.dirClose s d >>= fun t => Except.ok (r, t)) fun v => Lag D o v.2 :=
  Returns.bind (h.dirClose d) fun _ ht => ht

theorem fileOpen_lag (h : Lag D o s) (inodeNo : UInt32) (flag : UInt8) :
    Returns (fileOpen s inodeNo flag) fun r => Lag D o r.2 := by
  unfold fileOpen
  cases getFreeSlotInGlobal s with
  | none => exact h
  | some g =>
    refine Returns.bind (inodeOpen_browsed s inodeNo) fun ⟨a, t⟩ ht => ?_
    have hlag : Lag D o (t.setFile g { fdPos := 0, fdFlag := flag.toUInt32, fdInode := some a }) :=
      (ht.through.lag D o h).of_same rfl rfl rfl rfl
    refine returns_ite (fun _ => ?_) fun _ => pcbFdInstall_lag hlag g
    refine Returns.bind (Q := fun r : Bool × State => Lag D o r.2) ?_ fun ⟨done, u⟩ hu => ?_
    · exact returns_skip fun x => returns_ite (fun _ => hlag.setInode a _) fun _ => hlag
    · cases done with
      | false => exact hu
      | true => exact pcbFdInstall_lag hu g

theorem sysOpen_lag (h : Lag D none s) (hs : PointersApart s) (path : List UInt8) (flags : UInt8) :
    Returns (sysOpen s path flags) fun r => Lag D none r.2 := by
  refine returns_ensure fun _ => returns_ite (fun _ => h) fun _ => returns_ensure fun _ => ?_
  refine returns_skip fun depth =>
    Returns.bind (consults_browsing.searchFile s path) fun ⟨n, r, t⟩ ht => ?_
  have hlag := ht.browsed.through.lag D none h
  refine returns_ite (fun _ => hlag.giveUp _ _) fun _ => returns_skip fun _ => ?_
  refine returns_ite (fun _ => hlag.giveUp _ _) fun _ => returns_ite (fun _ => ?_) fun _ => ?_
  · refine Returns.bind (fileCreate_lag hlag (ht.apart hs) r.parentDir (lastName path) flags)
      fun ⟨fd, u⟩ hu => hu.giveUp _ _
  · exact Returns.bind (fileOpen_lag hlag n flags) fun ⟨fd, u⟩ hu => hu

/-- A new directory is entered with its block. -/
theorem makeDir_lag (h : Lag D (some n) s) (hs : PointersApart s) (r : PathSearchRecord)
    (ioBuf : Buffer) : Returns (makeDir s r n ioBuf) fun v => Lag D none v.2 := by
  refine Returns.bind (blockBitmapAlloc_returns s) fun v ⟨i, hi, hv⟩ => ?_
  subst hv
  refine returns_ensure fun _ => ?_
  change Returns (bitmapSync (s.takeBlock i) (s.part.dataStartLba + i - s.part.dataStartLba)
    .blockBitmap >>= _) _
  rw [Nat.add_sub_cancel_left]
  refine Returns.bind (h.syncTaken i) fun t ⟨ht, hpart, hinodes⟩ => ?_
  have hoff : OffBitmaps t.part (s.part.dataStartLba + i) 1 := by
    rw [hpart]
    exact offBitmaps_data s.part i 1
  refine returns_skip fun x => returns_skip fun self => returns_skip fun up => ?_
  refine returns_skip fun b => returns_skip fun b => returns_skip fun b => ?_
  refine Returns.bind (ht.ideWrite hoff b 0) fun u ⟨hu, hpart', hinodes'⟩ => ?_
  have hdirect : DirectApart u := hs.direct (hinodes'.trans hinodes) (hpart'.trans hpart)
  refine returns_skip fun e => ?_
  refine Returns.bind (syncDirEntry_lag hu hdirect e _) fun ⟨done, v⟩ ⟨hv, _⟩ => ?_
  cases done with
  | false => exact hv.dropInodeNo
  | true =>
    refine returns_skip fun y => Returns.bind (hv.inodeSync y _) fun w ⟨hw, _, _⟩ => ?_
    refine Returns.bind (hw.inodeSync _ _) fun w' ⟨hw', _, _⟩ => ?_
    exact Returns.bind (hw'.syncInodes n) fun z ⟨hz, _⟩ => hz

theorem sysMkdir_lag (h : Lag D none s) (hs : PointersApart s) (path : List UInt8) :
    Returns (sysMkdir s path) fun r => Lag D none r.2 := by
  have hpop := (Consults.popHeap s).apart hs
  have hlag : Lag D none s.popHeap := h.of_same rfl rfl rfl rfl
  unfold sysMkdir
  dsimp only
  cases (sysMalloc s 1024).1 with
  | none => exact hlag
  | some ioBuf =>
    refine Returns.bind (consults_browsing.searchFile s.popHeap path) fun ⟨n, r, t⟩ ht => ?_
    have ht' := ht.browsed.through.lag D none hlag
    refine returns_ite (fun _ => ht'.giveUp _ _) fun _ => returns_skip fun depth => ?_
    refine returns_skip fun depth' => returns_ite (fun _ => ht'.giveUp _ _) fun _ => ?_
    refine Returns.bind (inodeBitmapAlloc_lag ht') fun v ⟨m, hm, hv, hpointers⟩ => ?_
    obtain ⟨m', u⟩ := v
    obtain rfl : m' = some m := hm
    refine Returns.bind (makeDir_lag hv (hpointers (ht.apart hpop)) r ioBuf)
      fun ⟨made, w⟩ hw => hw.giveUp _ _

end Creating

section Deleting

variable {allBlocks ioBuf : Buffer} {dirInode : InodePtr} {lba : UInt32}

/-- The block list of an inode that refers to no bitmap. -/
theorem loadBlocks_off (hx : x.Apart s) : Returns (loadBlocks s x) (WordsOff s.part) := by
  obtain ⟨b, hb, hlist⟩ := copyDirect_blockList x
  refine Returns.intro fun c hc k hk => ?_
  rw [loadBlocks, hb, ok_bind] at hc
  by_cases hmax : (x.sector 12).toNat ≤ maxLba
  · obtain ⟨c', hc', -, hwords⟩ := loadIndirect_words hlist hmax
    obtain rfl : c' = c := by simpa using hc'.symm.trans hc
    rw [hwords k hk]
    exact hx.blocks k hk
  · unfold loadIndirect at hc
    split_ifs at hc with htable
    · rw [ideRead, ensure_of_not hmax] at hc
      cases hc
    · exact absurd (by rw [Decidable.not_not.mp htable]; exact Nat.zero_le _) hmax

theorem Lag.freeBlock (h : Lag D o s) (lba : UInt32) :
    Returns (freeBlock s lba) fun t => Lag D o t ∧ t.part = s.part :=
  (freeBlock_through s lba).mono fun _ ht => ⟨ht.lag D o h, ht.part⟩

theorem eraseEntry_lag (h : Lag D o s) (hoff : OffBitmaps s.part lba.toNat 1) (alone : Bool) :
    Returns (eraseEntry s dirInode k i lba alone ioBuf) fun t => Lag D o t ∧ t.part = s.part := by
  refine returns_ite (fun _ => ?_) fun _ => ?_
  · refine Returns.bind (h.freeBlock lba) fun t ⟨ht, hpart⟩ => returns_ite (fun _ => ?_) fun _ => ?_
    · exact returns_skip fun x => ⟨ht.setInode dirInode _, hpart⟩
    · trivial
  · exact returns_skip fun b => (h.ideWrite hoff b 0).mono fun _ ht => ⟨ht.1, ht.2.1⟩

theorem removeEntry_lag (h : Lag D o s) (hoff : OffBitmaps s.part lba.toNat 1) (alone : Bool) :
    Returns (removeEntry s dirInode k i lba alone ioBuf) fun t => Lag D o t := by
  refine Returns.bind (eraseEntry_lag h hoff alone) fun t ⟨ht, _⟩ => ?_
  refine returns_skip fun x => returns_ensure fun _ => returns_skip fun b => ?_
  exact ((ht.setInode dirInode _).inodeSync _ b).mono fun _ hu => hu.1

/-- The loop of `delete_dir_entry` writes at most one block of its list. -/
theorem deleteLoop_lag (h : Lag D o s) (hwords : WordsOff s.part allBlocks) (inodeNo : UInt32)
    (fuel : ℕ) : ∀ (k : ℕ) (ioBuf : Buffer), k + fuel = 140 →
    Returns (deleteLoop dirInode inodeNo allBlocks fuel k ioBuf s) fun r => Lag D o r.2 := by
  induction fuel with
  | zero => exact fun _ _ _ => h
  | succ fuel ih =>
    intro k ioBuf hk
    refine returns_bind fun lba hlba => returns_ite (fun _ => ih (k + 1) _ (by omega)) fun _ => ?_
    have hoff := hwords.word (by omega) hlba
    refine returns_skip fun b => returns_skip fun b => returns_skip fun r => ?_
    cases r.found with
    | none => exact ih (k + 1) b (by omega)
    | some idx => exact Returns.bind (removeEntry_lag h hoff _) fun t ht => ht

theorem deleteDirEntry_lag (h : Lag D o s) (hs : PointersApart s) (pdir : Dir) (inodeNo : UInt32)
    (ioBuf : Buffer) : Returns (deleteDirEntry s pdir inodeNo ioBuf) fun r => Lag D o r.2 := by
  refine returns_deref fun x hx => ?_
  refine Returns.bind (loadBlocks_off (hs.opened _ x hx)) fun c hc => ?_
  exact deleteLoop_lag h hc inodeNo 140 0 ioBuf rfl

theorem releaseTable_lag (h : Lag D o s) (x : Inode) : Returns (releaseTable s x) (Lag D o) := by
  refine returns_ite (fun _ => ?_) fun _ => h
  exact returns_ensure fun _ => (h.freeBlock _).mono fun _ ht => ht.1

theorem releaseBlocks_lag (allBlocks : Buffer) (fuel : ℕ) : ∀ {s : State}, Lag D o s → ∀ k,
    Returns (releaseBlocks allBlocks fuel k s) (Lag D o) := by
  induction fuel with
  | zero => exact fun h _ => h
  | succ fuel ih =>
    intro s h k
    refine returns_skip fun lba => returns_ite (fun _ => ih h (k + 1)) fun _ => ?_
    exact returns_ensure fun _ => Returns.bind (h.freeBlock lba) fun t ⟨ht, _⟩ => ih ht (k + 1)

/-- Releasing an inode writes the bitmaps and the inode table only. -/
theorem inodeRelease_lag (h : Lag D o s) (inodeNo : UInt32) :
    Returns (inodeRelease s inodeNo) (Lag D none) := by
  refine Returns.bind (inodeOpen_browsed s inodeNo) fun ⟨a, t⟩ ht => ?_
  have ht := ht.through.lag D o h
  refine returns_skip fun x => returns_ensure fun _ => returns_skip fun allBlocks => ?_
  refine Returns.bind (releaseTable_lag ht x) fun u hu => ?_
  refine Returns.bind (releaseBlocks_lag allBlocks _ hu 0) fun v hv => ?_
  have hsync := bitmapSync_inodes (s := v.dropInode inodeNo) hv.blockLen hv.inodeLen hv.blocks
    inodeNo.toNat
  refine Returns.bind hsync fun w ⟨hw, _⟩ => returns_skip fun ioBuf => ?_
  have hw : Lag D none (sysMalloc w 1024).2 := hw.of_same rfl rfl rfl rfl
  refine Returns.bind (inodeDelete_through _ inodeNo ioBuf) fun y hy => ?_
  exact (inodeClose_browsed y a).mono fun _ hz => hz.through.lag D none (hy.lag D none hw)

theorem dirRemove_lag (h : Lag D none s) (hs : PointersApart s) (parentDir childDir : Dir) :
    Returns (dirRemove s parentDir childDir) fun r => Lag D none r.2 := by
  have hpop := (Consults.popHeap s).apart hs
  have hlag : Lag D none s.popHeap := h.of_same rfl rfl rfl rfl
  refine returns_skip fun x => returns_ensure fun _ => ?_
  dsimp only
  cases (sysMalloc s 1024).1 with
  | none => exact hlag
  | some ioBuf =>
    refine Returns.bind (deleteDirEntry_lag hlag hpop parentDir x.iNo ioBuf) fun r hr => ?_
    exact Returns.bind (inodeRelease_lag hr x.iNo) fun t ht => ht

theorem removeIfEmpty_lag (h : Lag D none s) (hs : PointersApart s) (parentDir dir : Dir) :
    Returns (removeIfEmpty s parentDir dir) fun r => Lag D none r.2 := by
  refine returns_skip fun empty => returns_ite (fun _ => ?_) fun _ => h
  exact dirRemove_lag h hs parentDir dir

theorem sysRmdir_lag (h : Lag D none s) (hs : PointersApart s) (path : List UInt8) :
    Returns (sysRmdir s path) fun r => Lag D none r.2 := by
  refine Returns.bind (consults_browsing.searchFile s path) fun ⟨n, r, t⟩ ht => ?_
  have hlag := ht.browsed.through.lag D none h
  refine returns_ensure fun _ => returns_ite (fun _ => hlag.giveUp _ _) fun _ => ?_
  refine Returns.bind (consults_browsing.dirOpen t n) fun ⟨dir, u⟩ hu => ?_
  have hlag' := hu.browsed.through.lag D none hlag
  refine Returns.bind (removeIfEmpty_lag hlag' (hu.apart (ht.apart hs)) r.parentDir dir)
    fun ⟨done, v⟩ hv => ?_
  exact Returns.bind (hv.dirClose dir) fun w hw => hw.giveUp _ _

theorem sysUnlink_lag (h : Lag D none s) (hs : PointersApart s) (path : List UInt8) :
    Returns (sysUnlink s path) fun r => Lag D none r.2 := by
  refine returns_ensure fun _ =>
    Returns.bind (consults_browsing.searchFile s path) fun ⟨n, r, t⟩ ht => ?_
  have hlag := ht.browsed.through.lag D none h
  refine returns_ensure fun _ => returns_ite (fun _ => hlag.giveUp _ _) fun _ => ?_
  refine returns_skip fun inUse => returns_ite (fun _ => hlag.giveUp _ _) fun _ => ?_
  have hpop : Lag D none t.popHeap := hlag.of_same rfl rfl rfl rfl
  dsimp only
  cases (sysMalloc t 1024).1 with
  | none => exact hpop.giveUp _ _
  | some ioBuf =>
    have hpointers := (Consults.popHeap t).apart (ht.apart hs)
    refine Returns.bind (deleteDirEntry_lag hpop hpointers r.parentDir n ioBuf) fun v hv => ?_
    exact Returns.bind (inodeRelease_lag hv n) fun w hw => hw.giveUp _ _

end Deleting

end X86System.FileSystem
