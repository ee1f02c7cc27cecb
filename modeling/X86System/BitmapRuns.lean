import X86System.TableBits

/-!
# Runs that keep the bitmaps on the disk

Only `sys_open`, `sys_write`, `sys_mkdir`, `sys_rmdir` and `sys_unlink` write to the disk, and
each leaves the bitmaps on it as they are in memory, but for a `sys_write` that gives a file
its indirect table. So a run keeps the bitmaps on the disk exactly if no write of it misses
the bit of a table.
-/
namespace X86System.FileSystem
open Bytes Exec Transition

variable {s t : State} {a : InodePtr} {x y : Session} {c : Call}

section Others

/-- A call that may write to the disk. -/
def Call.storing : Call → Prop
  | .open .. | .write .. | .mkdir .. | .rmdir .. | .unlink .. => True
  | _ => False

theorem Browsed.bitmaps (h : Browsed s t) : SameBitmaps s t :=
  SameBitmaps.of_same h.disk h.part h.blockBitmap h.inodeBitmap

theorem SameBitmaps.setFile (h : SameBitmaps s t) (g : ℕ) (f : File) : SameBitmaps s (t.setFile g f) :=
  h.trans (SameBitmaps.of_same rfl rfl rfl rfl)

theorem storeFd_bitmaps (s : State) (fd : ℕ) (v : ℤ) : Leads SameBitmaps s (storeFd s fd v) id :=
  returns_skip fun _ => returns_ensure fun _ => SameBitmaps.of_same rfl rfl rfl rfl

theorem pcbFdInstall_bitmaps (s : State) (g : ℕ) : Leads SameBitmaps s (pcbFdInstall s g) Prod.snd := by
  refine (pcbFdInstall_exits s g).mono fun r hr => ?_
  obtain ⟨rfl, -⟩ | ⟨task, fd, -, -, -, rfl⟩ := hr
  · exact SameBitmaps.refl s
  · exact SameBitmaps.of_same rfl rfl rfl rfl

theorem dropPipe_bitmaps (x : Session) (g : ℕ) :
    Returns (dropPipe x g) fun y => SameBitmaps x.fs y.fs := by
  refine returns_skip fun f => returns_ite (fun _ => ?_) fun _ => ?_
  · exact returns_skip fun page => (SameBitmaps.refl x.fs).setFile g _
  · exact (SameBitmaps.refl x.fs).setFile g _

theorem fileClose_bitmaps (s : State) (g : ℕ) : Leads SameBitmaps s (fileClose s g) id := by
  refine returns_skip fun f => returns_skip fun a => returns_skip fun x => ?_
  have hset := (SameBitmaps.refl s).setInode a { x with writeDeny := 0 }
  refine Returns.bind (inodeClose_browsed _ a) fun t ht => ?_
  exact (hset.trans (Browsed.bitmaps ht)).setFile g _

theorem sysClose_bitmaps (x : Session) (fd : ℤ) :
    Returns (sysClose x fd) fun r => SameBitmaps x.fs r.2.fs := by
  refine returns_ite (fun _ => ?_) fun _ => SameBitmaps.refl x.fs
  refine returns_skip fun g => returns_skip fun pipe => ?_
  refine Returns.bind (Q := fun y : Session => SameBitmaps x.fs y.fs) ?_ fun y hy => ?_
  · refine returns_ite (fun _ => dropPipe_bitmaps x g) fun _ => ?_
    exact Returns.bind (fileClose_bitmaps x.fs g) fun t ht => ht
  · exact Returns.bind (storeFd_bitmaps y.fs _ _) fun t ht => hy.trans ht

theorem releaseFds_bitmaps (fuel : ℕ) : ∀ (fd : ℕ) (x : Session),
    Returns (releaseFds fuel fd x) fun y => SameBitmaps x.fs y.fs := by
  induction fuel with
  | zero => exact fun _ x => SameBitmaps.refl x.fs
  | succ fuel ih =>
    intro fd x
    refine Returns.bind (Q := fun y : Session => SameBitmaps x.fs y.fs) ?_ fun y hy => ?_
    · refine returns_skip fun v => returns_ite (fun _ => SameBitmaps.refl x.fs) fun _ => ?_
      refine returns_skip fun pipe => returns_ite (fun _ => dropPipe_bitmaps x _) fun _ => ?_
      exact Returns.bind (sysClose_bitmaps x fd) fun r hr => hr
    · exact (ih (fd + 1) y).mono fun z hz => hy.trans hz

theorem sysPipe_bitmaps (x : Session) : Returns (sysPipe x) fun r => SameBitmaps x.fs r.2.fs := by
  unfold sysPipe
  cases getFreeSlotInGlobal x.fs with
  | none => trivial
  | some g =>
    refine returns_ite (fun _ => ?_) fun _ => trivial
    have hring : SameBitmaps x.fs ({ x.fs with
        heap := fun k => x.fs.heap (k + 1), nextInode := x.fs.nextInode + 1 } : State) :=
      SameBitmaps.of_same rfl rfl rfl rfl
    refine Returns.bind (pcbFdInstall_bitmaps _ g) fun r hr => ?_
    refine Returns.bind (pcbFdInstall_bitmaps r.2 g) fun r' hr' => ?_
    exact (hring.setFile g _).trans (SameBitmaps.trans hr hr')

theorem updateInodeOpenCnts_bitmaps (t : Task) (fuel : ℕ) : ∀ (fd : ℕ) (s : State),
    Leads SameBitmaps s (updateInodeOpenCnts t fuel fd s) id := by
  induction fuel with
  | zero => exact fun _ s => SameBitmaps.refl s
  | succ fuel ih =>
    intro fd s
    unfold updateInodeOpenCnts
    cases t.fd fd with
    | none => trivial
    | some v =>
      refine returns_ite (fun _ => ih (fd + 1) s) fun _ => returns_ensure fun _ => ?_
      refine Returns.bind (Q := SameBitmaps s) ?_ fun u hu => (ih (fd + 1) u).mono fun _ hv => hu.trans hv
      refine returns_skip fun f => returns_ite (fun _ => (SameBitmaps.refl s).setFile _ _) fun _ => ?_
      exact returns_skip fun a => returns_skip fun x => (SameBitmaps.refl s).setInode a _

theorem readLoop_bitmaps {allBlocks : Buffer} (g : ℕ) (fuel : ℕ) : ∀ (done left : ℕ) (ioBuf : Buffer)
    (dst : Image) (s : State), Leads SameBitmaps s (readLoop g allBlocks fuel done left ioBuf dst s)
      Prod.snd := by
  induction fuel with
  | zero => exact fun _ _ _ _ s => returns_ite (fun _ => SameBitmaps.refl s) fun _ => trivial
  | succ fuel ih =>
    intro done left ioBuf dst s
    refine returns_ite (fun _ => SameBitmaps.refl s) fun _ => returns_skip fun f => ?_
    refine returns_skip fun lba => returns_skip fun b => returns_skip fun b => ?_
    refine Returns.bind (advance_bitmaps s g _) fun t ht => ?_
    exact (ih _ _ _ _ t).mono fun _ hu => SameBitmaps.trans ht hu

theorem fileRead_bitmaps (s : State) (g : ℕ) (dst : Image) (count : UInt32) :
    Leads SameBitmaps s (fileRead s g dst count) fun r => r.2.2 := by
  refine returns_skip fun f => returns_skip fun a => returns_skip fun x => ?_
  refine returns_ite (fun _ => SameBitmaps.refl s) fun _ => ?_
  have hpop : SameBitmaps s s.popHeap := SameBitmaps.of_same rfl rfl rfl rfl
  have hpop' : SameBitmaps s s.popHeap.popHeap := SameBitmaps.of_same rfl rfl rfl rfl
  dsimp only
  cases (sysMalloc s 512).1 with
  | none => exact hpop
  | some ioBuf =>
    dsimp only
    cases (sysMalloc (sysMalloc s 512).2 (512 + 48)).1 with
    | none => exact hpop'
    | some b =>
      refine returns_ensure fun _ => returns_skip fun b => ?_
      exact Returns.bind (readLoop_bitmaps g _ _ _ _ _ _) fun r hr => hpop'.trans hr

theorem sysRead_bitmaps (s : State) (fd : ℤ) (count : UInt32) :
    Leads SameBitmaps s (sysRead s fd count) id := by
  refine returns_ite (fun _ => SameBitmaps.refl s) fun _ => returns_skip fun pipe => ?_
  refine returns_ite (fun _ => SameBitmaps.refl s) fun _ => returns_skip fun g => ?_
  exact Returns.bind (fileRead_bitmaps s g zeros count) fun r hr => hr

/-- A search, and the directories that are closed after it. -/
theorem dirClose_bitmaps (h : SameBitmaps s t) (d : Dir) : Returns (dirClose t d) (SameBitmaps s) :=
  (dirClose_browsed t d).mono fun _ hu => h.trans hu.bitmaps

theorem sysOpendir_bitmaps (x : Session) (path : List UInt8) :
    Returns (sysOpendir x path) fun r => SameBitmaps x.fs r.2.fs := by
  refine returns_ensure fun _ => returns_ite (fun _ => SameBitmaps.refl x.fs) fun _ => ?_
  refine Returns.bind (consults_browsing.searchFile x.fs path) fun ⟨n, r, t⟩ ht => ?_
  have ht := ht.browsed.bitmaps
  refine returns_ite (fun _ => ?_) fun _ => ?_
  · exact Returns.bind (dirClose_bitmaps ht r.parentDir) fun u hu => hu
  · refine Returns.bind (consults_browsing.dirOpen t n) fun ⟨d, u⟩ hu => ?_
    exact Returns.bind (dirClose_bitmaps (ht.trans hu.browsed.bitmaps) r.parentDir) fun v hv => hv

theorem sysChdir_bitmaps (x : Session) (path : List UInt8) :
    Returns (sysChdir x path) fun r => SameBitmaps x.fs r.2.fs := by
  refine Returns.bind (consults_browsing.searchFile x.fs path) fun ⟨n, r, t⟩ ht => ?_
  exact Returns.bind (dirClose_bitmaps ht.browsed.bitmaps r.parentDir) fun u hu => hu

/-- The other calls concern neither the bitmaps nor their sectors. -/
theorem perform_bitmaps (hc : ¬ c.storing) : Returns (x.perform c) fun y => SameBitmaps x.fs y.fs := by
  cases c with
  | «open» | write | mkdir | rmdir | unlink => exact absurd trivial hc
  | close fd => exact Returns.bind (sysClose_bitmaps x fd) fun r hr => hr
  | pipe => exact Returns.bind (sysPipe_bitmaps x) fun r hr => hr
  | dup2 fd1 fd2 =>
    refine Returns.bind (Q := SameBitmaps x.fs) (returns_ite (fun _ => storeFd_bitmaps x.fs _ _) fun _ => ?_)
      fun t ht => ht
    exact returns_skip fun v => storeFd_bitmaps x.fs fd2 v
  | fork child =>
    refine Returns.bind (Q := SameBitmaps x.fs) (returns_skip fun t => ?_) fun t ht => ht
    refine Returns.bind (updateInodeOpenCnts_bitmaps t 5 3 x.fs) fun u hu => ?_
    exact SameBitmaps.trans hu (SameBitmaps.of_same rfl rfl rfl rfl)
  | exit =>
    refine Returns.bind (releaseFds_bitmaps 5 3 x) fun y hy => ?_
    exact hy.trans (SameBitmaps.of_same rfl rfl rfl rfl)
  | read fd count => exact Returns.bind (sysRead_bitmaps x.fs fd count) fun t ht => ht
  | opendir path => exact Returns.bind (sysOpendir_bitmaps x path) fun r hr => hr
  | closedir dir => exact Returns.bind (dirClose_bitmaps (SameBitmaps.refl x.fs) dir) fun t ht => ht
  | chdir path => exact Returns.bind (sysChdir_bitmaps x path) fun r hr => hr

/-- A call keeps the bitmaps on the disk up to date exactly if it misses no table. -/
theorem perform_synced (hs : PointersApart x.fs) (h : Synced x.fs) (c : Call) :
    Returns (x.perform c) fun y => Synced y.fs ↔ ¬ x.fs.missesTable c := by
  by_cases hc : c.storing
  · cases c with
    | «open» path flags =>
      exact Returns.bind (sysOpen_lag h hs path flags) fun r hr => iff_of_true hr not_false
    | write fd src count =>
      exact Returns.bind (sysWrite_synced h hs fd src count) fun t ht => ht
    | mkdir path => exact Returns.bind (sysMkdir_lag h hs path) fun r hr => iff_of_true hr not_false
    | rmdir path => exact Returns.bind (sysRmdir_lag h hs path) fun r hr => iff_of_true hr not_false
    | unlink path =>
      exact Returns.bind (sysUnlink_lag h hs path) fun r hr => iff_of_true hr not_false
    | _ => exact hc.elim
  · have hno : ¬ x.fs.missesTable c := by
      cases c with
      | write => exact absurd trivial hc
      | _ => exact not_false
    exact (perform_bitmaps hc).mono fun y hy => iff_of_true (hy.synced.mpr h) hno

end Others

section Runs

/-- Sessions in which nothing refers to a sector of a bitmap. -/
def apartSessions : System Session (ℕ × Call) := sessions.guard fun x _ => PointersApart x.fs

/-- From a session whose bitmaps are on the disk they stay there all along a run, if and only if
no `sys_write` of the run leaves the bit of a new indirect table behind. -/
theorem bitmaps_written_through {l : List (ℕ × Call)} (h : Synced x.fs)
    (hrun : apartSessions.Run x l y) :
    (∀ bs z, bs <+: l → apartSessions.Run x bs z → Synced z.fs) ↔
      apartSessions.RunWhere (fun z c => ¬ (z.run c.1).fs.missesTable c.2) x l y := by
  apply hrun.along_iff (I := fun z => Synced z.fs)
  · rintro s c t u ⟨⟨-, -, ht⟩, -⟩ ⟨⟨-, -, hu⟩, -⟩
    exact Except.ok.inj (ht.symm.trans hu)
  · rintro bs s c t - hs ⟨⟨-, -, ht⟩, hapart⟩
    have hs' : Synced (s.run c.1).fs := hs.of_same rfl rfl rfl rfl
    have hapart' : PointersApart (s.run c.1).fs := hapart.of_same rfl rfl rfl
    exact (perform_synced hapart' hs' c.2).of_ok ht
  · exact h

end Runs

section Samples

/-- A disk without files and the first block in use, with an empty file that process 1 has open. -/
def emptyFileSession : Session where
  fs := { freshFile 1 with
    disk := Function.update zeros (512 * 2) 1
    tasks := fun p => if p = 1 then some (stdTask.setFd 3 3) else none }
  ringPages := ∅
  cwdInodeNr := fun _ => 0
  handles := 0

theorem emptyFileSession_synced : Synced emptyFileSession.fs where
  blockLen := rfl
  inodeLen := rfl
  blocks i hi _ := by
    change Function.update zeros 1024 1 (1024 + i) = if i = 0 then 1 else 0
    rw [Function.update_apply]
    by_cases h : i = 0 <;> simp [h, zeros]
  inodes i hi := by
    change Function.update zeros 1024 1 (1536 + i) = 0
    rw [Function.update_of_ne (by omega)]
    rfl

theorem emptyFileSession_inode {x : Inode} (hx : emptyFileSession.fs.inodes a = some x) :
    x = { inodeInit 1 with iOpenCnts := 1 } := by
  change (if a = 0 then some { inodeInit 1 with iOpenCnts := 1 } else none) = some x at hx
  split_ifs at hx
  exact (Option.some.inj hx).symm

theorem emptyFileSession_apart : PointersApart emptyFileSession.fs where
  opened a x hx := by
    refine apart_empty _ ?_
    rw [emptyFileSession_inode hx]
    rfl
  records n hn := by
    have hzero : diskRecord emptyFileSession.fs n = zeros := by
      funext i
      change Function.update zeros 1024 1 (2048 + n * inodeSize + i) = 0
      rw [Function.update_of_ne (by omega)]
      rfl
    refine apart_empty _ ?_
    rw [hzero]
    ext k hk
    simp [Inode.ofBytes, wordAt_zeros]

/-- The first write to a file takes a block, and its bit is on the disk. -/
theorem bitmaps_written_through_first : ∃ z,
    apartSessions.Run emptyFileSession [(1, .write 3 zeros 5)] z ∧
      z.fs.blockBitmap.bits 0 = 3 ∧ Synced z.fs := by
  obtain ⟨z, hz, hbits⟩ : ∃ z, (emptyFileSession.run 1).perform (.write 3 zeros 5) = .ok z ∧
      z.fs.blockBitmap.bits 0 = 3 := by decide
  have hstep : apartSessions.step emptyFileSession (1, .write 3 zeros 5) z :=
    ⟨⟨⟨_, rfl⟩, trivial, hz⟩, emptyFileSession_apart⟩
  have hrun : apartSessions.Run emptyFileSession [(1, .write 3 zeros 5)] z := .snoc .nil hstep
  refine ⟨z, hrun, hbits, ?_⟩
  refine (bitmaps_written_through emptyFileSession_synced hrun).mpr
    (.snoc .nil ?_ hstep) _ z List.prefix_rfl hrun
  rintro ⟨-, -, g, f, a, x, -, -, -, -, -, hx, hm⟩
  have hindirect := hm.indirect
  rw [emptyFileSession_inode hx] at hindirect
  exact absurd hindirect (by decide)

/-- A partition whose block bitmap has three sectors. -/
def widePartition : Partition := { smallPartition with
  secCnt := 8192
  blockBitmapSects := 3
  inodeBitmapLba := 5
  inodeTableLba := 6
  dataStartLba := 614
  inodeBitmapLba_eq := rfl
  inodeTableLba_eq := rfl
  dataStartLba_eq := rfl
  dataStartLba_le := by decide
  end_le := by decide }

/-- All blocks are in use up to the last bit of the first sector of the bitmap. -/
def brimBits : Image := fun i => if i < 511 then 255 else if i = 511 then 0x7f else 0

/-- The file `f`, inode 1, has twelve blocks, and one byte is free in the last. -/
def brimFile : Inode :=
  { inodeInit 1 with
    iSize := 6143
    iSectors := Vector.ofFn fun k => if k.val < 12 then UInt32.ofNat (615 + k.val) else 0 }

def brimDisk : Image :=
  overlay (overlay (overlay (overlay zeros (512 * 2) 1536 brimBits) (512 * 5) 1 fun _ => 7)
    (512 * 614) 512 sampleRoot) (512 * 6 + 76) 76 brimFile.bytes

/-- Process 1 before it opens the file. -/
def brimSession : Session where
  fs := { blankState with
    part := widePartition
    disk := brimDisk
    blockBitmap := ⟨1536, brimBits⟩
    inodeBitmap := ⟨512, fun i => if i = 0 then 7 else 0⟩
    inodes := fun a => if a = 0 then
      some { (inodeInit 0).setSector 0 614 with iSize := 96, iOpenCnts := 1 } else none
    nextInode := 1
    openInodes := [0]
    tasks := fun p => if p = 1 then some stdTask else none
    cur := 1 }
  ringPages := ∅
  cwdInodeNr := fun _ => 0
  handles := 0

theorem brimSession_start : SessionStart brimSession where
  noSlots f hf := by
    have hf : f ∈ List.replicate 32 (⟨0, 0, none⟩ : File) := hf
    obtain rfl := List.eq_of_mem_replicate hf
    decide
  openInodes := rfl
  rootOpen := ⟨_, rfl, by decide⟩
  used a x hx := by
    change (if a = 0 then some _ else none) = some x at hx
    split_ifs at hx with ha
    rw [ha]
    exact Nat.one_pos
  std p t ht := by
    change (if p = 1 then some stdTask else none) = some t at ht
    split_ifs at ht with hp
    rw [hp]
    exact ⟨by decide, (Option.some.inj ht).symm⟩
  cwd _ := rfl
  noPages := rfl
  noHandles := rfl

theorem brimSession_synced : Synced brimSession.fs where
  blockLen := rfl
  inodeLen := rfl
  blocks i hi _ := by
    have hi : i < 1536 := hi
    change brimDisk (512 * 2 + i) = brimBits i
    unfold brimDisk
    rw [overlay_outside (by omega), overlay_outside (by omega), overlay_outside (by omega),
      overlay_at hi]
  inodes i hi := by
    have hi : i < 512 := hi
    change brimDisk (512 * 5 + i) = if i = 0 then 7 else 0
    unfold brimDisk
    rw [overlay_outside (by omega), overlay_outside (by omega)]
    split_ifs with hzero
    · rw [hzero, overlay_at Nat.one_pos]
    · rw [overlay_outside (by omega), overlay_outside (by omega)]
      rfl

/-- The table gets the last bit of a sector and the data block the first one of the next: the
bit of the table is set in memory and clear on the disk. -/
theorem table_bit_missed : ¬ ∀ (x y : Session) (c : ℕ × Call), sessions.Reachable x →
    c.2.storing → Synced x.fs → sessions.step x c y → Synced y.fs := by
  intro hclaim
  obtain ⟨z, hz, ⟨hlba, hsects⟩, hdisk, hbits⟩ : ∃ z,
      brimSession.exec [(1, .open pathF 2), (1, .write 3 zeros 1)] = .ok z ∧
        (z.fs.part.blockBitmapLba = 2 ∧ z.fs.part.blockBitmapSects = 3) ∧
          z.fs.disk (512 * 2 + 511) = 0x7f ∧ z.fs.blockBitmap.bits 511 = 0xff := by
    decide +kernel
  obtain ⟨u, hu, hz⟩ := exec_cons hz
  obtain ⟨v, hv, hz⟩ := exec_cons hz
  obtain rfl : v = z := Except.ok.inj hz
  have hstart : sessions.Reachable brimSession := ⟨brimSession, [], brimSession_start, .nil⟩
  have hopened := hclaim _ _ (1, .open pathF 2) hstart trivial brimSession_synced hu
  have hwritten := hclaim _ _ (1, .write 3 zeros 1) (hstart.step hu) trivial hopened hv
  have hbyte := hwritten.blocks 511 (by omega) (Finset.notMem_empty _)
  rw [hlba, hdisk, hbits] at hbyte
  exact absurd hbyte (by decide)

end Samples

end X86System.FileSystem
