import X86System.Mounting
import X86System.PathWalk
import X86System.BitmapSectors

/-!
# Restarting from the disk

The kernel never unmounts. What it knows of the file system when the power goes is restored by the
next boot as far as it was written: the bitmaps and the inodes are read back from the disk, and then
each path leads where it led before.
-/
namespace X86System.FileSystem
open Bytes Exec PathTree

variable {startLba secCnt : UInt32} {pad : Vector UInt8 460} {p : Partition} {s t u : State}
  {dirs : Set UInt32} {n : UInt32} {c : List UInt8}

/-- All that is known of the file system in memory is on the disk. -/
structure OnDisk (s : State) (startLba secCnt : UInt32) : Prop where
  magic : (mountSuperBlock s.disk startLba).magic = 0x19590318
  super : Partition.ofSuperBlock startLba secCnt (mountSuperBlock s.disk startLba) = some s.part
  sects : 0 < s.part.blockBitmapSects
  synced : Synced s
  records : ∀ n : UInt32, n.toNat < 4096 →
    (Inode.ofBytes (diskRecord s n.toNat)).place = (s.view n).place

section Reading

theorem Bitmap.free_congr {b b' : Bitmap} (hlen : b'.btmpBytesLen = b.btmpBytesLen)
    (hbits : ∀ i < b.btmpBytesLen, b'.bits i = b.bits i) : b'.free = b.free := by
  ext i
  rw [Bitmap.mem_free, Bitmap.mem_free, hlen]
  refine and_congr_right fun hi => ?_
  rw [bitmapScanTest, bitmapScanTest, hbits _ (by omega)]

/-- The bitmaps that are mounted are those that were written. -/
theorem RootOpened.bitmaps (ho : RootOpened u t s.part) (hs : Synced s) (hdisk : u.disk = s.disk) :
    t.blockBitmap.free = s.blockBitmap.free ∧ t.inodeBitmap.free = s.inodeBitmap.free := by
  constructor
  · refine Bitmap.free_congr (by rw [ho.blockLen, hs.blockLen]) fun i hi => ?_
    rw [hs.blockLen] at hi
    rw [ho.blockBits i hi, hdisk]
    exact hs.blocks i hi (Finset.notMem_empty _)
  · refine Bitmap.free_congr (by rw [ho.inodeLen, hs.inodeLen]) fun i hi => ?_
    rw [hs.inodeLen] at hi
    rw [ho.inodeBits i hi, hdisk]
    exact hs.inodes i hi

theorem RootOpened.diskRecord (ho : RootOpened u t s.part) (hdisk : u.disk = s.disk) (k : ℕ) :
    diskRecord t k = diskRecord s k := by
  rw [FileSystem.diskRecord, FileSystem.diskRecord, ho.disk, ho.part, hdisk]

theorem RootOpened.openInode_zero {x : Inode} (ho : RootOpened u t p)
    (hx : t.inodes t.rootDir = some x) (hno : x.iNo = 0) (n : UInt32) :
    t.openInode n = if n = 0 then some t.rootDir else none := by
  rw [State.openInode, ho.openInodes]
  by_cases hn : n = 0
  · simp [hx, hno, hn]
  · simp [hx, hno, hn, Ne.symm hn]

/-- Each inode number stands for the record that was written. -/
theorem RootOpened.view_place (ho : RootOpened u t s.part) (hs : OnDisk s startLba secCnt)
    (hdisk : u.disk = s.disk) (hzero : (s.view 0).iNo = 0) (hn : n.toNat < 4096) :
    (t.view n).place = (s.view n).place := by
  have hroot := ho.root
  rw [ho.diskRecord hdisk] at hroot
  have hrecord := hs.records 0 (by decide)
  rw [UInt32.toNat_zero] at hrecord
  have hno : (Inode.ofBytes (FileSystem.diskRecord s 0)).iNo = 0 := by
    rw [iNo_of_place hrecord, hzero]
  have hopen := ho.openInode_zero hroot hno n
  by_cases hn0 : n = 0
  · rw [if_pos hn0] at hopen
    rw [view_of_open hopen hroot, hn0, ← hrecord]
    rfl
  · rw [if_neg hn0] at hopen
    rw [view_of_none hopen, ho.diskRecord hdisk, hs.records n hn]

end Reading

section Trees

/-- What is looked up in a directory does not change. -/
theorem RootOpened.lookup (ho : RootOpened u t s.part) (hs : OnDisk s startLba secCnt)
    (hdisk : u.disk = s.disk) (hT : TreeOk s dirs) (hn : n ∈ dirs) (c : List UInt8) :
    t.lookup n c = s.lookup n c := by
  have hzero := (hT.number 0 hT.entries.root).2
  have hplace := ho.view_place hs hdisk hzero (hT.number n hn).1
  exact lookupIn_congr (ho.disk.trans hdisk) ho.part (iSectors_of_place hplace)

theorem RootOpened.entry (ho : RootOpened u t s.part) (hs : OnDisk s startLba secCnt)
    (hdisk : u.disk = s.disk) (hT : TreeOk s dirs) (hn : n ∈ dirs) (c : List UInt8) :
    t.tree.entry n c = s.tree.entry n c := by
  unfold State.tree
  dsimp only
  rw [ho.lookup hs hdisk hT hn]

theorem RootOpened.openOk (ho : RootOpened u t p) : OpenOk t := by
  refine ⟨?_, fun a ha => ?_, fun a ha => ?_⟩
  · rw [ho.openInodes]
    exact List.nodup_singleton _
  · rw [ho.openInodes, List.mem_singleton] at ha
    exact ⟨_, ha ▸ ho.root, Nat.one_pos⟩
  · rw [ho.openInodes, List.mem_singleton] at ha
    rw [ha, ho.nextInode, ho.rootDir]
    exact Nat.lt_succ_self _

/-- The directories are a tree again. -/
theorem RootOpened.tree (ho : RootOpened u t s.part) (hs : OnDisk s startLba secCnt)
    (hdisk : u.disk = s.disk) (hT : TreeOk s dirs) : TreeOk t dirs := by
  have hzero := (hT.number 0 hT.entries.root).2
  have hplace := fun n (hn : n ∈ dirs) => ho.view_place hs hdisk hzero (hT.number n hn).1
  have hroot := ho.root
  have hno : (Inode.ofBytes (FileSystem.diskRecord t 0)).iNo = 0 := by
    rw [ho.diskRecord hdisk, ← hzero]
    exact iNo_of_place (hs.records 0 (by decide))
  refine ⟨ho.openOk, ?_, fun n hn => ?_, fun n hn c hc => ?_, fun n hn c e hc he => ?_, ?_⟩
  · rw [ho.openInode_zero hroot hno, if_pos rfl]
  · exact ⟨(hT.number n hn).1, (iNo_of_place (hplace n hn)).trans (hT.number n hn).2⟩
  · rw [ho.lookup hs hdisk hT hn]
    exact hT.readable n hn c hc
  · rw [ho.lookup hs hdisk hT hn] at he
    exact hT.typed n hn c e hc he
  · exact hT.entries.congr rfl rfl rfl fun n hn c => ho.entry hs hdisk hT hn c

/-- Walks from the root do not change. -/
theorem RootOpened.resolve (ho : RootOpened u t s.part) (hs : OnDisk s startLba secCnt)
    (hdisk : u.disk = s.disk) (hT : TreeOk s dirs) {cs : List (List UInt8)}
    (hcs : ∀ c ∈ cs, ValidName c) : ∀ n ∈ dirs, t.tree.resolve n cs = s.tree.resolve n cs := by
  induction cs with
  | nil =>
    intro n hn
    rw [resolve_nil, resolve_nil]
  | cons c cs ih =>
    intro n hn
    have hentry := ho.entry hs hdisk hT hn c
    rcases hc : s.tree.entry n c with _ | ⟨m, _ | _⟩
    · rw [resolve_cons_none hc, resolve_cons_none (hentry.trans hc)]
    · rw [resolve_cons_file hc, resolve_cons_file (hentry.trans hc)]
    · rw [resolve_cons hc, resolve_cons (hentry.trans hc)]
      have hm := hT.entries.mem_of_entry hn (hcs c List.mem_cons_self) hc
      exact ih (fun d hd => hcs d (List.mem_cons_of_mem _ hd)) m hm

/-- Nothing of what a boot has read differs from the disk. -/
theorem RootOpened.onDisk (ho : RootOpened u t p)
    (hmagic : (mountSuperBlock u.disk startLba).magic = 0x19590318)
    (hsuper : Partition.ofSuperBlock startLba secCnt (mountSuperBlock u.disk startLba) = some p)
    (hpos : 0 < p.blockBitmapSects) (hno : (Inode.ofBytes (FileSystem.diskRecord t 0)).iNo = 0) :
    OnDisk t startLba secCnt := by
  refine ⟨by rwa [ho.disk], by rw [ho.disk, ho.part, hsuper], by rwa [ho.part],
    ⟨?_, ?_, fun i hi _ => ?_, fun i hi => ?_⟩, fun n hn => ?_⟩
  · rw [ho.blockLen, ho.part]
  · rw [ho.inodeLen, ho.part]
  · rw [ho.part] at hi ⊢
    rw [ho.blockBits i hi, ho.disk]
  · rw [ho.part] at hi ⊢
    rw [ho.disk]
    exact (ho.inodeBits i hi).symm
  · have hopen := ho.openInode_zero ho.root hno n
    by_cases hn0 : n = 0
    · rw [if_pos hn0] at hopen
      rw [view_of_open hopen ho.root, hn0]
      rfl
    · rw [if_neg hn0] at hopen
      rw [view_of_none hopen]

/-- The root directory of an empty file system is a tree. -/
theorem EmptyRoot.tree (h : EmptyRoot t secCnt) (ho : RootOpened u t p) : TreeOk t {0} := by
  obtain ⟨x, hx, hno, -, hlisted, hlist⟩ := h.root
  have hopen := ho.openInode_zero hx hno 0
  rw [if_pos rfl] at hopen
  have hview : t.view 0 = x := view_of_open hopen hx
  have hlookup : ∀ c, ValidName c → ∃ e, t.lookup 0 c = .ok e ∧
      ∀ d, e = some d ↔ d ∈ [dotEntry, dotsEntry] ∧ d.name = c := by
    intro c hc
    obtain ⟨hne, hlen, -, hzero⟩ := hc
    have hfind : t.lookup 0 c = .ok ((dirEntries t.disk x).find? (·.named c)) := by
      rw [State.lookup, hview]
      exact lookupIn_eq hlen hlisted.table_le hlisted.block_le
    refine ⟨_, hfind, fun d => ?_⟩
    rw [← hlist]
    exact find_named_iff hlisted.namedDir hne hlen hzero
  have hentry : ∀ d ∈ [dotEntry, dotsEntry], t.tree.entry 0 d.name = some (0, true) := by
    intro d hd
    have hvalid : ∀ d ∈ [dotEntry, dotsEntry], ValidName d.name := by
      unfold ValidName
      decide
    have hroot : ∀ d ∈ [dotEntry, dotsEntry],
        (d.iNo, decide (d.fType = ftDirectory)) = (0, true) := by decide
    obtain ⟨e, he, hfound⟩ := hlookup d.name (hvalid d hd)
    rw [(hfound d).mpr ⟨hd, rfl⟩] at he
    rw [entry_of_found he, hroot d hd]
  have hdot : t.tree.entry 0 [dot] = some (0, true) := hentry dotEntry (by simp)
  have hdots : t.tree.entry 0 [dot, dot] = some (0, true) := hentry dotsEntry (by simp)
  have htyped : ∀ d ∈ [dotEntry, dotsEntry], d.fType = ftDirectory ∧
      (d.name = [dot] ∨ d.name = [dot, dot]) := by decide
  refine ⟨ho.openOk, hopen, fun n hn => ?_, fun n hn c hc => ?_, fun n hn c e hc he => ?_,
    rfl, fun n hn => ?_, fun n hn => ⟨0, rfl, ?_⟩, hdots, fun n hn c m hc hhere hup he => ?_⟩
  all_goals obtain rfl : n = 0 := hn
  · rw [hview]
    exact ⟨by decide, hno⟩
  · obtain ⟨e, he, -⟩ := hlookup c hc
    exact ⟨e, he⟩
  · obtain ⟨o, ho', hfound⟩ := hlookup c hc
    obtain rfl := Except.ok.inj (ho'.symm.trans he)
    exact Or.inr (htyped e ((hfound e).mp rfl).1).1
  · exact hdot
  · exact hdots
  · -- no other name is in the directory
    obtain ⟨o, ho', hfound⟩ := hlookup c hc
    cases o with
    | none =>
      rw [entry_of_none ho'] at he
      cases he
    | some e =>
      obtain ⟨hmem, rfl⟩ := (hfound e).mp rfl
      exact ((htyped e hmem).2.elim hhere hup).elim

/-- A boot of the disk of a session restores its bitmaps, and each path leads where it led; it
does not change the disk, so that the next boot does so too. -/
theorem reboot_restores {v : Session} (hs : OnDisk s startLba secCnt) (hT : TreeOk s dirs)
    (hv : Starting v) (hdisk : v.fs.disk = s.disk) :
    ∃ t, filesysInit v.fs startLba secCnt pad = .ok t ∧ SessionStart { v with fs := t } ∧
      t.disk = s.disk ∧ OnDisk t startLba secCnt ∧ TreeOk t dirs ∧
      t.blockBitmap.free = s.blockBitmap.free ∧ t.inodeBitmap.free = s.inodeBitmap.free ∧
      (∀ n : UInt32, n.toNat < 4096 → (t.view n).place = (s.view n).place) ∧
      ∀ path, path.length + 1 < maxPathLen → (∀ c ∈ components path, ValidName c) →
        (components path = [] → path = []) → ∃ r w,
          searchFile t (slash :: path) =
            .ok (foundNo (s.tree.resolve 0 (components path)), r, w) ∧
          r.fileType = fileTypeOf (s.tree.resolve 0 (components path)) := by
  have hzero := (hT.number 0 hT.entries.root).2
  obtain ⟨t, ht, ho⟩ := @filesysInit_mounts _ _ pad _ _ hv.heap (hdisk ▸ hs.magic)
    (hdisk ▸ hs.super) hs.sects
  obtain ⟨hblocks, hinodes⟩ := ho.bitmaps hs.synced hdisk
  have hT' := ho.tree hs hdisk hT
  have hno : (Inode.ofBytes (FileSystem.diskRecord t 0)).iNo = 0 := by
    rw [ho.diskRecord hdisk, ← hzero]
    exact iNo_of_place (hs.records 0 (by decide))
  have hon := ho.onDisk (hdisk ▸ hs.magic) (hdisk ▸ hs.super) hs.sects hno
  refine ⟨t, ht, ho.session hv, ho.disk.trans hdisk, hon, hT', hblocks,
    hinodes, fun n hn => ho.view_place hs hdisk hzero hn, fun path hlen hvalid hempty => ?_⟩
  obtain ⟨r, w, hsearch, -, htype⟩ :=
    (Walks.refl hT'.opens ho.heap).searchFile_resolve hT' hlen hvalid hempty
  rw [ho.resolve hs hdisk hT hvalid 0 hT.entries.root] at hsearch htype
  exact ⟨r, w, hsearch, htype⟩

/-- The first boot of an empty disk and the second. -/
theorem reboot_restores_empty : ∃ s t,
    filesysInit startingSession.fs 0 4708 (Vector.replicate 460 0) = .ok s ∧
    filesysInit { startingSession.fs with disk := s.disk } 0 4708 (Vector.replicate 460 0) = .ok t ∧
    TreeOk t {0} ∧ t.blockBitmap.free = s.blockBitmap.free := by
  obtain ⟨s, d, p, hboot, hform, hroot, hp, hdesc, hpos, ho⟩ :=
    @filesysInit_formats 0 4708 (Vector.replicate 460 0) startingSession.fs
      startingSession_starting.heap (by decide) (by decide) (by decide)
  have hempty := ho.emptyRoot hform hroot hdesc (by decide) (by decide)
  have hno : (Inode.ofBytes (FileSystem.diskRecord s 0)).iNo = 0 := by
    obtain ⟨x, hx, hno, -⟩ := hempty.root
    obtain rfl := Option.some.inj (ho.root.symm.trans hx)
    exact hno
  have hon : OnDisk s 0 4708 := ho.onDisk (by rw [hform.super]; rfl) hp hpos hno
  obtain ⟨t, ht, -, -, -, htree, hfree, -⟩ := @reboot_restores 0 4708 (Vector.replicate 460 0) s {0}
    { startingSession with fs := { startingSession.fs with disk := s.disk } } hon
    (hempty.tree ho) { startingSession_starting with } rfl
  exact ⟨s, t, hboot, ht, htree, hfree⟩

end Trees

end X86System.FileSystem
