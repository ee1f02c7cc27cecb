import X86System.SearchFrames
import X86System.WashPath

/-!
# What a call of `sys_open` takes

Each exit of `sys_open` takes a slot, a descriptor and a handle of an inode, or none of
them. The exits of `file_open` that come after the slot was filled in give nothing back,
`file_create` gives nothing back when the process has no descriptor left, and the
directory that the path search opened is never closed once a file is opened in it.
-/
namespace X86System.FileSystem
open Bytes Exec Transition

variable {s s₀ t u : State} {x y : Session} {a b : InodePtr} {n : UInt32} {g : ℕ} {flag : UInt32}
  {h : Multiset InodePtr} {path : List UInt8} {flags : UInt8} {fd : ℤ}

/-- The running process has a free descriptor. -/
def State.fdFree (s : State) : Prop :=
  ∃ task fd, s.tasks s.cur = some task ∧ 3 ≤ fd ∧ task.fd fd = some (-1)

/-- `file_table` has a free slot. -/
def State.slotFree (s : State) : Prop := ∃ g, 3 ≤ g ∧ s.freeSlot g

/-- Nobody has the right to write to inode `n`. -/
def State.unclaimed (s : State) (n : UInt32) : Prop :=
  ∀ a t x, inodeOpen s n = .ok (a, t) → t.inodes a = some x → x.writeDeny = 0

/-- The tables and the handles are as they were. -/
structure Untouched (s t : State) : Prop where
  fileTable : t.fileTable = s.fileTable
  tasks : t.tasks = s.tasks
  count : ∀ a, t.openCount a = s.openCount a

/-- A free slot was filled with a file, the free descriptor `fd` refers to it, and its inode has
one handle more. -/
structure TookOne (s t : State) (fd : ℕ) : Prop where
  slot : ∃ g f a, s.freeSlot g ∧ f.fdInode = some a ∧ t.fileTable = (s.setFile g f).fileTable ∧
    (∃ task, s.tasks s.cur = some task ∧ task.fd fd = some (-1) ∧
      t.tasks = (s.setTask s.cur (task.setFd fd g)).tasks) ∧
    ∀ b, t.openCount b = s.openCount b + if b = a then 1 else 0

/-- What `sys_open` has to answer for when it returns `fd`. -/
def AccountsFor (s : State) (fd : ℤ) (t : State) : Prop :=
  (3 ≤ fd → TookOne s t fd.toNat) ∧ (fd = -1 → Untouched s t)

section Free

theorem freeSlotFrom_none (fuel : ℕ) : ∀ {k : ℕ}, freeSlotFrom s fuel k = none →
    ∀ g, k ≤ g → g < k + fuel → ¬ s.freeSlot g := by
  induction fuel with
  | zero => exact fun _ g hle hlt => absurd hlt (Nat.not_lt.mpr hle)
  | succ fuel ih =>
    intro k hk g hle hlt
    rintro ⟨f, hf, hfree⟩
    unfold freeSlotFrom at hk
    by_cases hg : g = k
    · subst hg
      simp [hf, hfree] at hk
    · have hlt' := lt_of_slot hf
      obtain ⟨f', hf'⟩ : ∃ f', s.fileTable[k]? = some f' :=
        ⟨s.fileTable[k], Vector.getElem?_eq_getElem (by omega)⟩
      simp only [hf'] at hk
      split_ifs at hk with hfree'
      exact ih hk g (by omega) (by omega) ⟨f, hf, hfree⟩

theorem getFreeSlotInGlobal_none : getFreeSlotInGlobal s = none ↔ ¬ s.slotFree := by
  constructor
  · rintro hnone ⟨g, hg, hfree⟩
    have hlt : g < 32 := lt_of_slot hfree.choose_spec.1
    exact freeSlotFrom_none 29 hnone g hg (by omega) hfree
  · intro hno
    cases hg : getFreeSlotInGlobal s with
    | none => rfl
    | some g => exact absurd ⟨g, getFreeSlotInGlobal_spec hg⟩ hno

end Free

section Exits

/-- The two exits of `pcb_fd_install`. -/
theorem pcbFdInstall_exits (s : State) (g : ℕ) : Returns (pcbFdInstall s g) fun r =>
    (r = (none, s) ∧ ¬ s.fdFree) ∨
    ∃ task fd, s.tasks s.cur = some task ∧ 3 ≤ fd ∧ task.fd fd = some (-1) ∧
      r = (some fd, s.setTask s.cur (task.setFd fd g)) := by
  refine (pcbFdInstall_spec s g).mono fun r hr => hr.imp_left fun ⟨hr, hnone⟩ => ⟨hr, ?_⟩
  rintro ⟨task, fd, htask, hle, hfd⟩
  exact hnone task htask fd hle (Vector.getElem?_eq_some_iff.mp hfd).1 hfd

/-- `file_open` returns -1 with slot `g` filled in. -/
structure LeavesSlot (s t : State) (g : ℕ) (f : File) : Prop where
  fileTable : t.fileTable = (s.setFile g f).fileTable
  tasks : t.tasks = s.tasks

/-- Slot `g` was filled and descriptor `fd` refers to it. -/
structure NamesSlot (s t : State) (g : ℕ) (f : File) (fd : ℕ) : Prop where
  fileTable : t.fileTable = (s.setFile g f).fileTable
  tasks : ∃ task, s.tasks s.cur = some task ∧ task.fd fd = some (-1) ∧
    t.tasks = (s.setTask s.cur (task.setFd fd g)).tasks

/-- After a slot was filled, `pcb_fd_install` is the last step. -/
theorem pcbFdInstall_filled {f : File} (hfile : t.fileTable = (s.setFile g f).fileTable)
    (htasks : t.tasks = s.tasks) (hcur : t.cur = s.cur) :
    Returns (pcbFdInstall t g) fun r =>
      (r.1 = none ∧ ¬ s.fdFree ∧ LeavesSlot s r.2 g f) ∨
      ∃ fd, r.1 = some fd ∧ 3 ≤ fd ∧ s.fdFree ∧ NamesSlot s r.2 g f fd := by
  have hfree : t.fdFree ↔ s.fdFree := by
    unfold State.fdFree
    rw [htasks, hcur]
  refine (pcbFdInstall_exits t g).mono fun r hr => ?_
  rcases hr with ⟨rfl, hnone⟩ | ⟨task, fd, htask, hle, hfd, rfl⟩
  · exact Or.inl ⟨rfl, fun h => hnone (hfree.mpr h), hfile, htasks⟩
  · refine Or.inr ⟨fd, rfl, hle, hfree.mp ⟨task, fd, htask, hle, hfd⟩, hfile, task, ?_, hfd, ?_⟩
    · rw [← htasks, ← hcur, htask]
    · simp only [State.setTask, htasks, hcur]

/-- `file_open` gets the right to write exactly where nobody has it. -/
theorem denyWrite_exits (hopen : inodeOpen s n = .ok (a, t)) (hinodes : u.inodes = t.inodes) :
    Returns (denyWrite u a) fun r => (r.1 = true ↔ s.unclaimed n) ∧
      r.2.fileTable = u.fileTable ∧ r.2.tasks = u.tasks ∧ r.2.cur = u.cur := by
  refine returns_bind fun x hx => ?_
  have hx : t.inodes a = some x := by
    rw [← hinodes]
    exact deref_ok hx
  have hdeny : s.unclaimed n ↔ x.writeDeny = 0 := by
    refine ⟨fun h => h a t x hopen hx, fun h b v y hopen' hy => ?_⟩
    obtain ⟨rfl, rfl⟩ : a = b ∧ t = v := by simpa using hopen.symm.trans hopen'
    rw [← Option.some.inj (hx.symm.trans hy), h]
  refine returns_ite (fun hzero => ?_) fun hne => ?_
  · exact ⟨⟨fun _ => hdeny.mpr hzero, fun _ => rfl⟩, rfl, rfl, rfl⟩
  · exact ⟨⟨fun h => absurd h (by simp), fun h => absurd (hdeny.mp h) hne⟩, rfl, rfl, rfl⟩

/-- The exits of `file_open`. -/
theorem fileOpen_exits (s : State) (n : UInt32) (flag : UInt8) : Returns (fileOpen s n flag) fun r =>
    (r = (none, s) ∧ ¬ s.slotFree) ∨
    ∃ g a, 3 ≤ g ∧ s.freeSlot g ∧
      ((r.1 = none ∧ ¬ (s.fdFree ∧ (forWriting flag.toUInt32 → s.unclaimed n)) ∧
          LeavesSlot s r.2 g ⟨0, flag.toUInt32, some a⟩) ∨
        ∃ fd, r.1 = some fd ∧ 3 ≤ fd ∧ s.fdFree ∧ (forWriting flag.toUInt32 → s.unclaimed n) ∧
          NamesSlot s r.2 g ⟨0, flag.toUInt32, some a⟩ fd) := by
  unfold fileOpen
  cases hslot : getFreeSlotInGlobal s with
  | none => exact Or.inl ⟨rfl, getFreeSlotInGlobal_none.mp hslot⟩
  | some g =>
    obtain ⟨hg, hfree⟩ := getFreeSlotInGlobal_spec hslot
    refine returns_bind fun ⟨a, t⟩ hopen => ?_
    have hb := (inodeOpen_browsed s n).of_ok hopen
    have hfile : (t.setFile g ⟨0, flag.toUInt32, some a⟩).fileTable =
        (s.setFile g ⟨0, flag.toUInt32, some a⟩).fileTable :=
      congrArg (fun v : Vector File 32 => v.setIfInBounds g ⟨0, flag.toUInt32, some a⟩) hb.fileTable
    dsimp only
    refine returns_ite (fun hwrite => ?_) fun hread => ?_
    · refine Returns.bind (denyWrite_exits hopen rfl) fun ⟨done, u⟩ ⟨hdone, hfile', htasks, hcur⟩ => ?_
      cases done with
      | false =>
        refine Or.inr ⟨g, a, hg, hfree, Or.inl ⟨rfl, fun h => ?_, hfile'.trans hfile, ?_⟩⟩
        · exact absurd (hdone.mpr (h.2 hwrite)) (by simp)
        · exact htasks.trans hb.tasks
      | true =>
        refine (pcbFdInstall_filled (hfile'.trans hfile) (htasks.trans hb.tasks)
          (hcur.trans hb.cur)).mono fun r hr => Or.inr ⟨g, a, hg, hfree, ?_⟩
        rcases hr with ⟨hnone, hno, hleft⟩ | ⟨fd, hsome, hle, hyes, hnames⟩
        · exact Or.inl ⟨hnone, fun h => hno h.1, hleft⟩
        · exact Or.inr ⟨fd, hsome, hle, hyes, fun _ => hdone.mp rfl, hnames⟩
    · refine (pcbFdInstall_filled hfile hb.tasks hb.cur).mono fun r hr => Or.inr ⟨g, a, hg, hfree, ?_⟩
      rcases hr with ⟨hnone, hno, hleft⟩ | ⟨fd, hsome, hle, hyes, hnames⟩
      · exact Or.inl ⟨hnone, fun h => hno h.1, hleft⟩
      · exact Or.inr ⟨fd, hsome, hle, hyes, fun h => absurd h hread, hnames⟩

end Exits

section Stopping

/-- A scan for one bit that finds nothing stops in its assertion. -/
theorem bitmapScan_some (b : Bitmap) : Returns (bitmapScan b 1) fun r => ∃ i ∈ b.free, r = some i :=
  Returns.intro fun r hr => by
    obtain ⟨i, hi, hfree, -⟩ := bitmapScan_one hr
    exact ⟨i, hfree, hi⟩

theorem inodeBitmapAlloc_some (s : State) : Returns (inodeBitmapAlloc s) fun r =>
    ∃ i ∈ s.inodeBitmap.free,
      r = (some i, { s with inodeBitmap := bitmapSet s.inodeBitmap i true }) := by
  refine Returns.bind (bitmapScan_some _) fun r ⟨i, hfree, hr⟩ => ?_
  subst hr
  exact ⟨i, hfree, rfl⟩

theorem blockBitmapAlloc_some (s : State) : Returns (blockBitmapAlloc s) fun r => r.1 ≠ none := by
  refine Returns.bind (bitmapScan_some _) fun r ⟨i, _, hr⟩ => ?_
  subst hr
  exact nofun

theorem linkDirBlock_some (s : State) (a : InodePtr) (k lba : ℕ) (c : Buffer) :
    Returns (linkDirBlock s a k lba c) fun r => r.1 ≠ none := by
  refine returns_ite (fun _ => ?_) fun _ => returns_ite (fun _ => ?_) fun _ => ?_
  · exact returns_skip fun x => returns_skip fun c => nofun
  · refine returns_skip fun x => Returns.bind (blockBitmapAlloc_some _) fun ⟨r, t⟩ hr => ?_
    cases r with
    | none => exact absurd rfl hr
    | some i => exact returns_skip fun _ => returns_skip fun _ => returns_skip fun _ => nofun
  · exact returns_skip fun x => returns_skip fun c => returns_skip fun _ => nofun

theorem addDirBlock_done (s : State) (a : InodePtr) (e : DirEntry) (k : ℕ) (c ioBuf : Buffer) :
    Returns (addDirBlock s a e k c ioBuf) fun r => r.1 = true := by
  refine Returns.bind (blockBitmapAlloc_some s) fun ⟨r, t⟩ hr => ?_
  cases r with
  | none => exact absurd rfl hr
  | some lba =>
    refine returns_skip fun _ => Returns.bind (linkDirBlock_some ..) fun ⟨r, u⟩ hr => ?_
    cases r with
    | none => exact absurd rfl hr
    | some b =>
      exact returns_skip fun _ => returns_skip fun _ => returns_skip fun _ =>
        returns_skip fun _ => returns_skip fun _ => rfl

/-- An index without a block, which the loop comes to, gets one. -/
theorem syncDirLoop_done (s : State) (a : InodePtr) (e : DirEntry) (c : Buffer) (fuel : ℕ) :
    ∀ k ioBuf, (∃ m, k ≤ m ∧ m < k + fuel ∧ wordAt c.bytes (4 * m) = 0) →
      Returns (syncDirLoop s a e c fuel k ioBuf) fun r => r.1 = true := by
  induction fuel with
  | zero => exact fun k ioBuf ⟨m, hle, hlt, _⟩ => absurd hlt (Nat.not_lt.mpr hle)
  | succ fuel ih =>
    intro k ioBuf ⟨m, hle, hlt, hzero⟩
    refine returns_bind fun lba hlba => returns_ite (fun _ => addDirBlock_done ..) fun hne => ?_
    obtain ⟨-, hlba⟩ := of_ensure_eq_ok hlba
    obtain rfl := Except.ok.inj hlba
    have hmk : m ≠ k := by
      rintro rfl
      exact hne hzero
    refine returns_skip fun b => ?_
    cases findFreeEntry b.bytes (512 / s.part.dirEntrySize) 0 with
    | some idx => exact returns_skip fun _ => returns_skip fun _ => returns_skip fun _ => rfl
    | none => exact ih (k + 1) b ⟨m, by omega, by omega, hzero⟩

/-- `sync_dir_entry` enters the entry if it returns: its list of blocks ends at index 12. -/
theorem syncDirEntry_done (s : State) (a : InodePtr) (e : DirEntry) (ioBuf : Buffer) :
    Returns (syncDirEntry s a e ioBuf) fun r => r.1 = true := by
  refine returns_skip fun x => returns_ensure fun _ => ?_
  obtain ⟨c, hcopy, hlist⟩ := copyDirect_blockList x
  rw [hcopy, ok_bind]
  exact syncDirLoop_done s a e c 140 0 ioBuf ⟨12, by omega, by omega, hlist.rest 12 le_rfl⟩

end Stopping

section Creating

/-- The slots, the descriptors and the running process are as they were. -/
structure SameFiles (s t : State) : Prop where
  fileTable : t.fileTable = s.fileTable
  tasks : t.tasks = s.tasks
  cur : t.cur = s.cur

theorem SameFiles.trans (h : SameFiles s t) (h' : SameFiles t u) : SameFiles s u :=
  ⟨h'.fileTable.trans h.fileTable, h'.tasks.trans h.tasks, h'.cur.trans h.cur⟩

theorem OnlyDisk.sameFiles (h : OnlyDisk s t) : SameFiles s t := by
  obtain ⟨d, rfl⟩ := h
  exact ⟨rfl, rfl, rfl⟩

/-- The exits of the end of `file_create`. -/
theorem enrolFile_exits {f : File} (hfile : t.fileTable = (s.setFile g f).fileTable)
    (htasks : t.tasks = s.tasks) (hcur : t.cur = s.cur) (parent : InodePtr) (i : ℕ) :
    Returns (enrolFile t parent a i g) fun r =>
      (r.1 = none ∧ ¬ s.fdFree ∧ LeavesSlot s r.2 g f) ∨
      ∃ fd, r.1 = some fd ∧ 3 ≤ fd ∧ s.fdFree ∧ NamesSlot s r.2 g f fd := by
  refine returns_skip fun x => Returns.bind (inodeSync_disk ..) fun v hv => ?_
  refine returns_skip fun y => Returns.bind (inodeSync_disk ..) fun w hw => ?_
  refine Returns.bind (bitmapSync_disk ..) fun z hz => ?_
  have hall : SameFiles t z := (hv.sameFiles.trans hw.sameFiles).trans hz.sameFiles
  exact pcbFdInstall_filled (hall.fileTable.trans hfile) (hall.tasks.trans htasks)
    (hall.cur.trans hcur)

/-- The exits of `file_create` behind the allocation of the inode. -/
theorem createInDir_exits (s : State) (parent : InodePtr) (name : List UInt8) (flag : UInt8)
    (i : ℕ) (a : InodePtr) (b : Buffer) :
    Returns (createInDir s parent name flag i a b) fun r =>
      (r.1 = none ∧ SameFiles s r.2 ∧ ¬ s.slotFree) ∨
      ∃ g, 3 ≤ g ∧ s.freeSlot g ∧
        ((r.1 = none ∧ ¬ s.fdFree ∧ LeavesSlot s r.2 g ⟨0, flag.toUInt32, some a⟩) ∨
          ∃ fd, r.1 = some fd ∧ 3 ≤ fd ∧ s.fdFree ∧
            NamesSlot s r.2 g ⟨0, flag.toUInt32, some a⟩ fd) := by
  unfold createInDir
  dsimp only
  cases hslot : getFreeSlotInGlobal (s.setInode a (inodeInit (UInt32.ofNat i))) with
  | none => exact Or.inl ⟨rfl, ⟨rfl, rfl, rfl⟩, getFreeSlotInGlobal_none.mp hslot⟩
  | some g =>
    obtain ⟨hg, hfree⟩ := getFreeSlotInGlobal_spec hslot
    refine returns_skip fun e => ?_
    have hsync := ((syncDirEntry_done ((s.setInode a (inodeInit (UInt32.ofNat i))).setFile g
      ⟨0, flag.toUInt32, some a⟩) parent e b).and (syncDirEntry_slots ..)).and
        (syncDirEntry_still ..)
    refine Returns.bind hsync fun ⟨done, t⟩ ⟨⟨hdone, hslots⟩, hstill⟩ => ?_
    have hstill : Still _ t := hstill
    obtain rfl : done = true := hdone
    exact (enrolFile_exits (s := s) hslots hstill.tables.tasks hstill.cur parent i).mono
      fun r hr => Or.inr ⟨g, hg, hfree, hr⟩

/-- The exits of `file_create`. -/
theorem fileCreate_exits (s : State) (d : Dir) (name : List UInt8) (flag : UInt8) :
    Returns (fileCreate s d name flag) fun r =>
      (r.1 = none ∧ SameFiles s r.2 ∧ ¬ (s.heap 0 = true ∧ s.heap 1 = true ∧ s.slotFree)) ∨
      ∃ g a, 3 ≤ g ∧ s.freeSlot g ∧ s.heap 0 = true ∧ s.heap 1 = true ∧
        ((r.1 = none ∧ ¬ s.fdFree ∧ LeavesSlot s r.2 g ⟨0, flag.toUInt32, some a⟩) ∨
          ∃ fd, r.1 = some fd ∧ 3 ≤ fd ∧ s.fdFree ∧
            NamesSlot s r.2 g ⟨0, flag.toUInt32, some a⟩ fd) := by
  unfold fileCreate
  by_cases hfirst : s.heap 0 = true
  · rw [sysMalloc_of_heap hfirst]
    dsimp only
    refine Returns.bind (inodeBitmapAlloc_some s.popHeap) fun r ⟨i, _, hr⟩ => ?_
    subst hr
    dsimp only
    unfold mallocInode
    by_cases hsecond : s.heap 1 = true
    · have hheap : ({ s.popHeap with
          inodeBitmap := bitmapSet s.popHeap.inodeBitmap i true } : State).heap 0 = true := hsecond
      rw [if_pos hheap]
      dsimp only
      refine (createInDir_exits ..).mono fun r hr => ?_
      rcases hr with ⟨hnone, hsame, hno⟩ | ⟨g, hg, hfree, hr⟩
      · exact Or.inl ⟨hnone, ⟨hsame.fileTable, hsame.tasks, hsame.cur⟩, fun h => hno h.2.2⟩
      · refine Or.inr ⟨g, s.nextInode, hg, hfree, hfirst, hsecond, ?_⟩
        rcases hr with ⟨hnone, hno, hleft⟩ | ⟨fd, hsome, hle, hyes, hnames⟩
        · exact Or.inl ⟨hnone, hno, hleft.fileTable, hleft.tasks⟩
        · exact Or.inr ⟨fd, hsome, hle, hyes, hnames.fileTable, hnames.tasks⟩
    · have hheap : ¬ ({ s.popHeap with
          inodeBitmap := bitmapSet s.popHeap.inodeBitmap i true } : State).heap 0 = true := hsecond
      rw [if_neg hheap]
      exact Or.inl ⟨rfl, ⟨rfl, rfl, rfl⟩, fun h => hsecond h.2.1⟩
  · rw [sysMalloc_of_none (Bool.eq_false_of_not_eq_true hfirst)]
    exact Or.inl ⟨rfl, ⟨rfl, rfl, rfl⟩, fun h => hfirst h.1⟩

end Creating

section Counting

/-- A filled slot is not as it was. -/
theorem filled_ne {f : File} (hfree : s.freeSlot g) (hf : f.fdInode = some a) :
    (s.setFile g f).fileTable ≠ s.fileTable := by
  intro heq
  obtain ⟨f', hf', hnone⟩ := hfree
  have hself : s.fileTable[g]? = some f := by
    rw [← heq]
    exact setFile_self (lt_of_slot hf')
  obtain rfl : f' = f := Option.some.inj (hf'.symm.trans hself)
  rw [hnone] at hf
  exact absurd hf (by simp)

variable {P : InodePtr → Prop}

/-- Without a slot the handles are those that are held. -/
theorem Opened.count_untouched (ho : Opened s flag h P t) (hfile : t.fileTable = s.fileTable)
    (b : InodePtr) : t.openCount b = s.openCount b + h.count b := by
  obtain ⟨o, u, htake, hu, -⟩ := ho
  have hnone : o = none := by
    have hslots : ∀ {g : ℕ} {a : InodePtr} (v : State), v.fileTable = (s.setFile g
        ⟨0, flag, some a⟩).fileTable → s.freeSlot g → ¬ SameTables v t := by
      intro g a v hv ⟨f, hf, hfree⟩ hsame
      have hf' : t.fileTable[g]? = some f := by
        rw [hfile, hf]
      obtain ⟨f', hf'', -, hinode⟩ := hsame.slot hf'
      rw [hv, setFile_self (lt_of_slot hf)] at hf''
      obtain rfl := Option.some.inj hf''
      rw [hfree] at hinode
      exact absurd hinode (by simp)
    cases htake with
    | none => rfl
    | cleared => rfl
    | filled _ hfree => exact absurd hu.tables (hslots _ rfl hfree)
    | named _ hfree => exact absurd hu.tables (hslots _ rfl hfree)
  subst hnone
  rw [hu.count, htake.openCount, slotHandle, Option.elim_none, zero_add]

/-- With a slot its inode has one handle besides. -/
theorem Opened.count_filled {f : File} (ho : Opened s flag h P t) (hfree : s.freeSlot g)
    (hf : f.fdInode = some a) (hfile : t.fileTable = (s.setFile g f).fileTable) (b : InodePtr) :
    t.openCount b = s.openCount b + (h.count b + if b = a then 1 else 0) := by
  obtain ⟨o, u, htake, hu, -⟩ := ho
  obtain ⟨f₀, hf₀, hnone⟩ := hfree
  have hlt := lt_of_slot hf₀
  have hslot : t.fileTable[g]? = some f := by
    rw [hfile, setFile_self hlt]
  obtain ⟨f', hf', -, hinode⟩ := hu.tables.slot hslot
  rw [hf] at hinode
  have hsome : o = some a := by
    have hsame : ∀ {j : ℕ} {e : File}, (s.setFile j e).fileTable[g]? = some f' →
        j = g ∧ e = f' := by
      intro j e he
      by_cases hj : g = j
      · rw [hj, setFile_self (hj ▸ hlt)] at he
        exact ⟨hj.symm, Option.some.inj he⟩
      · rw [setFile_of_ne hj, hf₀] at he
        obtain rfl := Option.some.inj he
        exact absurd (hnone.symm.trans hinode) (by simp)
    cases htake with
    | none =>
      rw [hf₀] at hf'
      obtain rfl := Option.some.inj hf'
      exact absurd (hnone.symm.trans hinode) (by simp)
    | cleared =>
      obtain ⟨-, rfl⟩ := hsame hf'
      exact absurd hinode (by simp)
    | filled =>
      obtain ⟨-, rfl⟩ := hsame hf'
      exact hinode
    | named =>
      obtain ⟨-, rfl⟩ := hsame hf'
      exact hinode
  subst hsome
  rw [hu.count, htake.openCount, slotHandle, Option.elim_some, Multiset.count_add,
    Multiset.count_singleton, Nat.add_comm (h.count b)]

/-- A call that takes a slot and holds nothing besides accounts for it. -/
theorem accounts_of_names {f : File} {d : ℕ} (ho : Opened s flag 0 P t) (hfree : s.freeSlot g)
    (hf : f.fdInode = some a) (hnames : NamesSlot s t g f d) : AccountsFor s d t := by
  refine ⟨fun _ => ⟨g, f, a, hfree, hf, hnames.fileTable, hnames.tasks, fun b => ?_⟩, fun h => ?_⟩
  · rw [ho.count_filled hfree hf hnames.fileTable, Multiset.count_zero, Nat.zero_add]
  · omega

/-- A call that leaves the tables alone and holds nothing accounts for it. -/
theorem accounts_of_same (ho : Opened s flag 0 P t) (hfile : t.fileTable = s.fileTable)
    (htasks : t.tasks = s.tasks) : AccountsFor s (-1) t := by
  refine ⟨fun h => absurd h (by decide), fun _ => ⟨hfile, htasks, fun b => ?_⟩⟩
  rw [ho.count_untouched hfile, Multiset.count_zero, Nat.add_zero]

/-- A slot that is left filled in is not accounted for. -/
theorem not_accounts_of_leaves {f : File} (hfree : s.freeSlot g) (hf : f.fdInode = some a)
    (hleft : LeavesSlot s t g f) : ¬ AccountsFor s (-1) t := fun h =>
  filled_ne hfree hf (hleft.fileTable.symm.trans (h.2 rfl).fileTable)

/-- Nor is a directory that stays open, whether a slot was taken or not. -/
theorem not_accounts_of_held {f : File} {d : ℕ} (ho : Opened s flag {b} P t)
    (hfree : s.freeSlot g) (hf : f.fdInode = some a) (hnames : NamesSlot s t g f d) (hd : 3 ≤ d) :
    ¬ AccountsFor s d t := by
  intro h
  obtain ⟨-, -, c, -, -, -, -, hcount⟩ := (h.1 (by omega)).slot
  have hall : ∀ e, ({b} : Multiset InodePtr).count e + (if e = a then 1 else 0) =
      if e = c then 1 else 0 := by
    intro e
    have hfilled := ho.count_filled hfree hf hnames.fileTable e
    have hone := hcount e
    omega
  have ha := hall a
  have hb := hall b
  rw [if_pos rfl] at ha
  rw [Multiset.count_singleton_self] at hb
  by_cases hab : b = a
  · subst hab
    rw [if_pos rfl] at hb
    split_ifs at hb
    omega
  · split_ifs at ha hb with hac hbc
    · exact hab (hbc.trans hac.symm)
    all_goals omega

theorem not_accounts_of_kept (ho : Opened s flag {b} P t) (hfile : t.fileTable = s.fileTable) :
    ¬ AccountsFor s (-1) t := by
  intro h
  have hcount := (h.2 rfl).count b
  rw [ho.count_untouched hfile, Multiset.count_singleton_self] at hcount
  omega

end Counting

section Accounting

/-- `sys_open` gives back what it has to. Where it opens a file that exists, the directory of the
search record is the root, which is never closed, and unless `file_table` is full there are a
descriptor and, for writing, the right to write. Where it creates a file, there is a descriptor
unless a slot or memory is missing. -/
def OpenBalances (s : State) (path : List UInt8) (flags : UInt8) : Prop :=
  path.getLast? ≠ some slash → ∀ n r u depth, searchFile s path = .ok (n, r, u) →
    r.fileType ≠ ftDirectory → pathDepthCnt path = .ok depth →
    pathDepthCnt r.searchedPath = .ok depth →
    if flags &&& oCreat = 0 then
      n ≠ minusOne → r.parentDir = .root ∧
        (s.slotFree → s.fdFree ∧ (forWriting flags.toUInt32 → u.unclaimed n))
    else n = minusOne → u.heap 0 = true ∧ u.heap 1 = true ∧ s.slotFree → s.fdFree

theorem Browsed.freeSlot (hb : Browsed s u) : u.freeSlot g ↔ s.freeSlot g := by
  unfold State.freeSlot
  rw [hb.fileTable]

theorem Browsed.slotFree (hb : Browsed s u) : u.slotFree ↔ s.slotFree := by
  unfold State.slotFree
  simp only [hb.freeSlot]

theorem Browsed.fdFree (hb : Browsed s u) : u.fdFree ↔ s.fdFree := by
  unfold State.fdFree
  rw [hb.tasks, hb.cur]

theorem Browsed.leavesSlot {f : File} (hb : Browsed s u) (h : LeavesSlot u t g f) :
    LeavesSlot s t g f := by
  refine ⟨h.fileTable.trans ?_, h.tasks.trans hb.tasks⟩
  exact congrArg (fun v : Vector File 32 => v.setIfInBounds g f) hb.fileTable

theorem Browsed.namesSlot {f : File} {d : ℕ} (hb : Browsed s u) (h : NamesSlot u t g f d) :
    NamesSlot s t g f d := by
  obtain ⟨task, htask, hfd, htasks⟩ := h.tasks
  refine ⟨h.fileTable.trans ?_, task, ?_, hfd, htasks.trans ?_⟩
  · exact congrArg (fun v : Vector File 32 => v.setIfInBounds g f) hb.fileTable
  · rw [← hb.tasks, ← hb.cur, htask]
  · simp only [State.setTask, hb.tasks, hb.cur]

/-- `file_open` after the search. -/
theorem fileOpen_accounts {r : PathSearchRecord} (hb : Browsed s u)
    (ho : Opens s u (r.parentDir.handles + 0)) (n : UInt32) (flags : UInt8) :
    Returns (fileOpen u n flags) fun v => AccountsFor s (fdResult v.1) v.2 ↔
      r.parentDir = .root ∧
        (s.slotFree → s.fdFree ∧ (forWriting flags.toUInt32 → u.unclaimed n)) := by
  refine ((fileOpen_exits u n flags).and (fileOpen_opened ho n flags)).mono
    fun ⟨d, t⟩ ⟨hexit, hopened⟩ => ?_
  rw [hb.slotFree, hb.fdFree] at hexit
  rcases hexit with ⟨hr, hno⟩ | ⟨g, a, hg, hfree, ⟨hnone, hno, hleft⟩ | ⟨d', hsome, hle, hyes, hwrite, hnames⟩⟩
  · -- no slot
    obtain ⟨rfl, rfl⟩ : d = none ∧ t = u := by simpa using hr
    cases hdir : r.parentDir with
    | root =>
      have hheld : Opened s flags.toUInt32 0 (s.newOr · n) t := by
        simpa [Dir.handles, hdir] using hopened
      exact iff_of_true (accounts_of_same hheld hb.fileTable hb.tasks) ⟨rfl, fun h => absurd h hno⟩
    | opened b =>
      have hheld : Opened s flags.toUInt32 {b} (s.newOr · n) t := by
        simpa [Dir.handles, hdir] using hopened
      exact iff_of_false (not_accounts_of_kept hheld hb.fileTable) fun h => by simp at h
  · obtain rfl : d = none := hnone
    have hfree := hb.freeSlot.mp hfree
    exact iff_of_false (not_accounts_of_leaves hfree rfl (hb.leavesSlot hleft))
      fun h => hno (h.2 ⟨g, hg, hfree⟩)
  · obtain rfl : d = some d' := hsome
    have hfree := hb.freeSlot.mp hfree
    have hnames := hb.namesSlot hnames
    cases hdir : r.parentDir with
    | root =>
      have hheld : Opened s flags.toUInt32 0 (s.newOr · n) t := by
        simpa [Dir.handles, hdir] using hopened
      exact iff_of_true (accounts_of_names hheld hfree rfl hnames) ⟨rfl, fun _ => ⟨hyes, hwrite⟩⟩
    | opened b =>
      have hheld : Opened s flags.toUInt32 {b} (s.newOr · n) t := by
        simpa [Dir.handles, hdir] using hopened
      exact iff_of_false (not_accounts_of_held hheld hfree rfl hnames hle) fun h => by simp at h

/-- `file_create` after the search, and the directory is closed. -/
theorem fileCreate_accounts {r : PathSearchRecord} (hb : Browsed s u)
    (ho : Opens s u (r.parentDir.handles + 0)) (name : List UInt8) (flags : UInt8) :
    Returns (do
      let (fd, t) ← fileCreate u r.parentDir name flags
      let t ← dirClose t r.parentDir
      .ok (fdResult fd, t)) fun v => AccountsFor s v.1 v.2 ↔
        (u.heap 0 = true ∧ u.heap 1 = true ∧ s.slotFree → s.fdFree) := by
  refine Returns.bind ((fileCreate_exits u r.parentDir name flags).and
    (fileCreate_opened ho ..)) fun ⟨d, t⟩ ⟨hexit, hopened⟩ => ?_
  rw [hb.slotFree, hb.fdFree] at hexit
  refine Returns.bind ((dirClose_browsed t r.parentDir).and hopened.dirClose)
    fun w ⟨hbw, hw⟩ => ?_
  have hfile : w.fileTable = t.fileTable := hbw.fileTable
  have htasks : w.tasks = t.tasks := hbw.tasks
  rcases hexit with ⟨hnone, hsame, hno⟩ | ⟨g, a, hg, hfree, hfirst, hsecond, hexit⟩
  · obtain rfl : d = none := hnone
    refine iff_of_true (accounts_of_same hw (hfile.trans (hsame.fileTable.trans hb.fileTable)) ?_)
      fun h => absurd h hno
    exact htasks.trans (hsame.tasks.trans hb.tasks)
  · have hfree := hb.freeSlot.mp hfree
    rcases hexit with ⟨hnone, hno, hleft⟩ | ⟨d', hsome, hle, hyes, hnames⟩
    · obtain rfl : d = none := hnone
      have hleft' : LeavesSlot s w g ⟨0, flags.toUInt32, some a⟩ :=
        hb.leavesSlot ⟨hfile.trans hleft.fileTable, htasks.trans hleft.tasks⟩
      exact iff_of_false (not_accounts_of_leaves hfree rfl hleft')
        fun h => hno (h ⟨hfirst, hsecond, g, hg, hfree⟩)
    · obtain rfl : d = some d' := hsome
      obtain ⟨task, htask, hfd, hset⟩ := hnames.tasks
      have hnames' : NamesSlot s w g ⟨0, flags.toUInt32, some a⟩ d' :=
        hb.namesSlot ⟨hfile.trans hnames.fileTable, task, htask, hfd, htasks.trans hset⟩
      exact iff_of_true (accounts_of_names hw hfree rfl hnames') fun _ => hyes

/-- `sys_open` accounts for what it takes exactly where it gives back what it has to. -/
theorem sysOpen_accounts (hs : OpenOk s) (path : List UInt8) (flags : UInt8) :
    Returns (sysOpen s path flags) fun v => AccountsFor s v.1 v.2 ↔ OpenBalances s path flags := by
  unfold sysOpen
  refine returns_ensure fun _ => returns_ite (fun hslash => ?_) fun hslash => ?_
  · have hzero : AccountsFor s 0 s := ⟨fun h => absurd h (by decide), fun h => absurd h (by decide)⟩
    exact iff_of_true hzero fun h => absurd hslash h
  refine returns_ensure fun _ => returns_bind fun depth hdepth => returns_bind fun v hv => ?_
  have ho := (searchFile_opens (Opens.refl hs) path).of_ok hv
  have hb := (searchFile_browsed s path).of_ok hv
  obtain ⟨n, r, u⟩ := v
  have hclose : ∀ P, (P ↔ True) → Returns (dirClose u r.parentDir >>= fun t => Except.ok ((-1 : ℤ), t))
      fun v => AccountsFor s v.1 v.2 ↔ P := by
    intro P hP
    have hidle : Opened s flags.toUInt32 (r.parentDir.handles + 0) (fun _ => True) u := Opened.idle ho
    refine Returns.bind ((dirClose_browsed u r.parentDir).and hidle.dirClose) fun t ⟨hbt, ht⟩ => ?_
    rw [hP]
    exact iff_of_true (accounts_of_same ht (hbt.fileTable.trans hb.fileTable)
      (hbt.tasks.trans hb.tasks)) trivial
  have hsame : ∀ {n' r' u'}, searchFile s path = .ok (n', r', u') → n' = n ∧ r' = r ∧ u' = u := by
    intro n' r' u' hv'
    simpa using hv'.symm.trans hv
  unfold openFound
  dsimp only
  refine returns_ite (fun hdir => ?_) fun hdir => ?_
  · refine hclose _ (iff_true_intro fun _ n' r' u' _ hv' hno => ?_)
    obtain ⟨-, rfl, -⟩ := hsame hv'
    exact absurd hdir hno
  refine returns_bind fun depth' hdepth' => ?_
  have hbalances : depth = depth' → (OpenBalances s path flags ↔
      if flags &&& oCreat = 0 then
        n ≠ minusOne → r.parentDir = .root ∧
          (s.slotFree → s.fdFree ∧ (forWriting flags.toUInt32 → u.unclaimed n))
      else n = minusOne → u.heap 0 = true ∧ u.heap 1 = true ∧ s.slotFree → s.fdFree) := by
    rintro rfl
    refine ⟨fun h => h hslash n r u depth hv hdir hdepth hdepth', fun h _ n' r' u' _ hv' _ _ _ => ?_⟩
    obtain ⟨rfl, rfl, rfl⟩ := hsame hv'
    exact h
  refine returns_ite (fun hfail => ?_) fun hgo => ?_
  · refine hclose _ (iff_true_intro fun hlast n' r' u' depth'' hv' hdir' hd hd' => ?_)
    obtain ⟨rfl, rfl, rfl⟩ := hsame hv'
    obtain rfl : depth = depth'' := Except.ok.inj (hdepth.symm.trans hd)
    obtain rfl : depth' = depth := Except.ok.inj (hdepth'.symm.trans hd')
    rcases hfail with hne | ⟨hno, hread⟩ | ⟨hsome, hcreat⟩
    · exact absurd rfl hne
    · rw [if_pos hread]
      exact fun h => absurd hno h
    · rw [if_neg hcreat]
      exact fun h => absurd h hsome
  obtain ⟨hsameDepth, hfound, hfresh⟩ := by simpa only [not_or, not_and, not_not] using hgo
  rw [hbalances hsameDepth]
  refine returns_ite (fun hcreat => ?_) fun hcreat => ?_
  · have hnone : n = minusOne := by
      by_contra hne
      exact hcreat (hfresh hne)
    rw [if_neg hcreat]
    refine (fileCreate_accounts hb ho (lastName path) flags).mono fun v hv => hv.trans ?_
    exact ⟨fun h _ => h, fun h => h hnone⟩
  · have hread : flags &&& oCreat = 0 := not_not.mp hcreat
    have hsome : n ≠ minusOne := fun h => hfound h hread
    rw [if_pos hread]
    refine Returns.bind (fileOpen_accounts hb ho n flags) fun ⟨d, t⟩ hd => hd.trans ?_
    exact ⟨fun h _ => h, fun h => h hsome⟩

/-- Every state of a session is covered. -/
theorem reachable_openOk (hy : sessions.Reachable y) (p : ℕ) : OpenOk (y.run p).fs := by
  obtain ⟨x, l, hx, hrun⟩ := hy
  have hbacked : Backed y.fs y.held :=
    hrun.keeps (I := fun z => Backed z.fs z.held) (fun z c w hz hstep => step_backed hz hstep)
      (backed_start hx)
  exact hbacked.ok.tables rfl rfl rfl

end Accounting

/-- In every reachable state, a call of `sys_open` that returns accounts for what it takes if and
only if it gives back what it has to. -/
theorem sys_open_accounts_iff (hy : sessions.Reachable y) (p : ℕ)
    (hopen : sysOpen (y.run p).fs path flags = .ok (fd, t)) :
    AccountsFor (y.run p).fs fd t ↔ OpenBalances (y.run p).fs path flags :=
  (sysOpen_accounts (reachable_openOk hy p) path flags).of_ok hopen

/-- Process 1 opens `/f`. -/
theorem sys_open_accounts_f : ∃ t, sysOpen (sampleSession.run 1).fs pathF 0 = .ok (3, t) ∧
    (AccountsFor (sampleSession.run 1).fs 3 t ↔ OpenBalances (sampleSession.run 1).fs pathF 0) := by
  obtain ⟨⟨fd, t⟩, hopen, rfl⟩ : ∃ v, sysOpen (sampleSession.run 1).fs pathF 0 = .ok v ∧ v.1 = 3 := by
    decide
  exact ⟨t, hopen, sys_open_accounts_iff ⟨_, _, sampleSession_start, .nil⟩ 1 hopen⟩

/-- Process 1 opens `/d/../f`: the directory that the search ended in stays open as well. -/
theorem sys_open_keeps_dir : ∃ y t, sessions.Reachable y ∧
    sysOpen (y.run 1).fs (slash :: pathUpF) 0 = .ok (3, t) ∧ ¬ AccountsFor (y.run 1).fs 3 t := by
  obtain ⟨⟨fd, t⟩, hopen, rfl, hroot, hfile⟩ : ∃ v,
      sysOpen (sampleSession.run 1).fs (slash :: pathUpF) 0 = .ok v ∧
        v.1 = 3 ∧ v.2.openCount 0 = 2 ∧ v.2.openCount 2 = 1 := by decide
  refine ⟨sampleSession, t, ⟨_, _, sampleSession_start, .nil⟩, hopen, fun h => ?_⟩
  obtain ⟨-, -, c, -, -, -, -, hcount⟩ := (h.1 le_rfl).slot
  have h0 := hcount 0
  have h2 := hcount 2
  rw [hroot, show (sampleSession.run 1).fs.openCount 0 = 1 by decide] at h0
  rw [hfile, show (sampleSession.run 1).fs.openCount 2 = 0 by decide] at h2
  by_cases hc : 0 = c
  · subst hc
    rw [if_neg (by decide)] at h2
    omega
  · rw [if_neg hc] at h0
    omega

end X86System.FileSystem
