import X86System.OpenCalls
import X86System.Sessions

/-!
# Slots of `file_table`

A call of `sys_open` takes at most one slot, and only one that is free. A call that
fails late leaves the slot cleared or, when the inode is open for writing, filled in.
-/
namespace X86System.FileSystem
open Bytes Exec

variable {s s₀ t u : State} {a b : InodePtr} {h : Multiset InodePtr} {g : ℕ} {f : File}

/-- The slots that refer to an inode. -/
def State.slotsOf (s : State) (a : InodePtr) : Finset ℕ :=
  (Finset.range 32).filter fun g =>
    (s.fileTable[g]?).any fun f => f.fdFlag ≠ pipeFlag && f.fdInode = some a

theorem lt_of_slot (hf : s.fileTable[g]? = some f) : g < 32 :=
  (Vector.getElem?_eq_some_iff.mp hf).1

theorem mem_slotsOf : g ∈ s.slotsOf a ↔
    ∃ f, s.fileTable[g]? = some f ∧ f.fdFlag ≠ pipeFlag ∧ f.fdInode = some a := by
  simp only [State.slotsOf, Finset.mem_filter, Finset.mem_range, Option.any_eq_true,
    Bool.and_eq_true, decide_eq_true_eq]
  exact ⟨fun hg => hg.2, fun ⟨f, hf, hfile⟩ => ⟨lt_of_slot hf, f, hf, hfile⟩⟩

/-- A session starts without files. -/
theorem SessionStart.slotsOf {x : Session} (hx : SessionStart x) (a : InodePtr) :
    x.fs.slotsOf a = ∅ := by
  refine Finset.eq_empty_of_forall_notMem fun g hg => ?_
  obtain ⟨f, hf, -, ha⟩ := mem_slotsOf.mp hg
  have hmem : f ∈ x.fs.fileTable.toList := by
    obtain ⟨hlt, rfl⟩ := Vector.getElem?_eq_some_iff.mp hf
    simp
  simp [(hx.noSlots f hmem).1] at ha

/-- Slots with the same key. -/
theorem SameTables.slot (ht : SameTables s t) (hf : t.fileTable[g]? = some f) :
    ∃ f', s.fileTable[g]? = some f' ∧ f'.fdFlag = f.fdFlag ∧ f'.fdInode = f.fdInode := by
  have hkey := ht.slots g
  rw [hf] at hkey
  cases hf' : s.fileTable[g]? with
  | none => simp [hf'] at hkey
  | some f' =>
    rw [hf'] at hkey
    have hkey := (Option.some.inj hkey).symm
    exact ⟨f', rfl, congrArg (·.1) hkey, congrArg (·.2.1) hkey⟩

theorem SameTables.symm (ht : SameTables s t) : SameTables t s :=
  ⟨fun g => (ht.slots g).symm, ht.tasks.symm⟩

theorem SameTables.slotsOf (ht : SameTables s t) (a : InodePtr) : t.slotsOf a = s.slotsOf a := by
  have hsub : ∀ {s t : State}, SameTables s t → t.slotsOf a ⊆ s.slotsOf a := by
    intro s t ht g hg
    obtain ⟨f, hf, hflag, hinode⟩ := mem_slotsOf.mp hg
    obtain ⟨f', hf', hflag', hinode'⟩ := ht.slot hf
    exact mem_slotsOf.mpr ⟨f', hf', hflag' ▸ hflag, hinode' ▸ hinode⟩
  exact Finset.Subset.antisymm (hsub ht) (hsub ht.symm)

@[simp] theorem setFile_self (hg : g < 32) : (s.setFile g f).fileTable[g]? = some f := by
  simp [State.setFile, hg]

theorem setFile_of_ne {j : ℕ} (hj : j ≠ g) :
    (s.setFile g f).fileTable[j]? = s.fileTable[j]? := by
  simp [State.setFile, Ne.symm hj]

/-- A slot that nothing refers through. -/
def State.freeSlot (s : State) (g : ℕ) : Prop := ∃ f, s.fileTable[g]? = some f ∧ f.fdInode = none

theorem SameTables.freeSlot (ht : SameTables s t) (hg : t.freeSlot g) : s.freeSlot g := by
  obtain ⟨f, hf, hfree⟩ := hg
  obtain ⟨f', hf', -, hinode⟩ := ht.slot hf
  exact ⟨f', hf', hinode.trans hfree⟩

theorem freeSlotFrom_spec (fuel : ℕ) : ∀ {k : ℕ}, freeSlotFrom s fuel k = some g →
    k ≤ g ∧ s.freeSlot g := by
  induction fuel with
  | zero => exact fun hk => absurd hk (by simp [freeSlotFrom])
  | succ fuel ih =>
    intro k hk
    unfold freeSlotFrom at hk
    cases hf : s.fileTable[k]? with
    | none => simp [hf] at hk
    | some f =>
      simp only [hf] at hk
      split_ifs at hk with hfree
      · obtain rfl : k = g := Option.some.inj hk
        exact ⟨le_rfl, f, hf, hfree⟩
      · exact ⟨Nat.le_of_succ_le (ih hk).1, (ih hk).2⟩

theorem getFreeSlotInGlobal_spec (hg : getFreeSlotInGlobal s = some g) :
    3 ≤ g ∧ s.freeSlot g := freeSlotFrom_spec 29 hg

/-- Slots that refer to an inode after a store to one slot. -/
theorem slotsOf_setFile (hg : g < 32) : (s.setFile g f).slotsOf a =
    if f.fdFlag ≠ pipeFlag ∧ f.fdInode = some a then insert g (s.slotsOf a)
    else (s.slotsOf a).erase g := by
  ext j
  by_cases hj : j = g
  · subst hj
    have hself : j ∈ (s.setFile j f).slotsOf a ↔ f.fdFlag ≠ pipeFlag ∧ f.fdInode = some a := by
      rw [mem_slotsOf, setFile_self hg]
      simp
    rw [hself]
    split_ifs with hfile <;> simp [hfile]
  · have hmem : j ∈ (s.setFile g f).slotsOf a ↔ j ∈ s.slotsOf a := by
      simp only [mem_slotsOf, setFile_of_ne hj]
    rw [hmem]
    split_ifs <;> simp [hj]

theorem notMem_slotsOf_of_free (hg : s.freeSlot g) : g ∉ s.slotsOf a := by
  obtain ⟨f, hf, hfree⟩ := hg
  intro hmem
  obtain ⟨f', hf', -, hinode⟩ := mem_slotsOf.mp hmem
  obtain rfl : f = f' := Option.some.inj (hf.symm.trans hf')
  simp [hfree] at hinode

/-- What an open call does to the tables: it takes a free slot, or none. -/
inductive TakesSlot (s : State) (flag : UInt32) : Option InodePtr → State → Prop
  | none : TakesSlot s flag none s
  | cleared {g : ℕ} : 3 ≤ g → s.freeSlot g → TakesSlot s flag none (s.setFile g ⟨0, 0, none⟩)
  | filled {g : ℕ} {a : InodePtr} : 3 ≤ g → s.freeSlot g →
      TakesSlot s flag (some a) (s.setFile g ⟨0, flag, some a⟩)
  | named {g fd : ℕ} {a : InodePtr} {task : Task} : 3 ≤ g → s.freeSlot g →
      s.tasks s.cur = some task → 3 ≤ fd → task.fd fd = some (-1) →
      TakesSlot s flag (some a) ((s.setFile g ⟨0, flag, some a⟩).setTask s.cur (task.setFd fd g))

theorem freeFdFrom_spec {task : Task} (fuel : ℕ) : ∀ {k fd : ℕ},
    freeFdFrom task fuel k = some fd → k ≤ fd ∧ task.fd fd = some (-1) := by
  induction fuel with
  | zero => exact fun hk => absurd hk (by simp [freeFdFrom])
  | succ fuel ih =>
    intro k fd hk
    unfold freeFdFrom at hk
    split_ifs at hk with hfree
    · obtain rfl : k = fd := Option.some.inj hk
      exact ⟨le_rfl, hfree⟩
    · exact ⟨Nat.le_of_succ_le (ih hk).1, (ih hk).2⟩

theorem freeFdFrom_none {task : Task} (fuel : ℕ) : ∀ {k : ℕ}, freeFdFrom task fuel k = none →
    ∀ fd, k ≤ fd → fd < k + fuel → task.fd fd ≠ some (-1) := by
  induction fuel with
  | zero => exact fun _ fd hle hlt => absurd hlt (Nat.not_lt.mpr hle)
  | succ fuel ih =>
    intro k hk fd hle hlt
    unfold freeFdFrom at hk
    split_ifs at hk with hfree
    by_cases hfd : fd = k
    · exact hfd ▸ hfree
    · exact ih hk fd (by omega) (by omega)

theorem pcbFdInstall_spec (s : State) (g : ℕ) : Returns (pcbFdInstall s g) fun r =>
    (r = (none, s) ∧ ∀ task, s.tasks s.cur = some task →
      ∀ fd, 3 ≤ fd → fd < 8 → task.fd fd ≠ some (-1)) ∨
    ∃ task fd, s.tasks s.cur = some task ∧ 3 ≤ fd ∧ task.fd fd = some (-1) ∧
      r = (some fd, s.setTask s.cur (task.setFd fd g)) := by
  unfold pcbFdInstall
  cases htask : s.tasks s.cur with
  | none => trivial
  | some task =>
    rw [deref_some, ok_bind]
    cases hfd : freeFdFrom task 5 3 with
    | none =>
      refine Or.inl ⟨rfl, fun task' htask' => ?_⟩
      obtain rfl : task = task' := Option.some.inj htask'
      exact freeFdFrom_none 5 hfd
    | some fd =>
      obtain ⟨hle, hfree⟩ := freeFdFrom_spec 5 hfd
      exact Or.inr ⟨task, fd, rfl, hle, hfree, rfl⟩

section Frames

/-- Only what is not open changes. -/
theorem Opens.frame (ho : Opens s₀ s h) (hopen : t.openInodes = s.openInodes)
    (hin : ∀ b ∈ s.openInodes, t.inodes b = s.inodes b) (hnext : s.nextInode ≤ t.nextInode)
    (hroot : t.rootDir = s.rootDir) (hpart : t.part = s.part) (hcur : t.cur = s.cur)
    (htab : SameTables s t) : Opens s₀ t h where
  start := ho.start
  ok := by
    refine ⟨hopen ▸ ho.ok.nodup, fun b hb => ?_, fun b hb => ?_⟩
    · rw [hopen] at hb
      rw [hin b hb]
      exact ho.ok.live b hb
    · exact (ho.ok.used b (hopen ▸ hb)).trans_le hnext
  count b := by
    rw [← ho.count b]
    by_cases hb : b ∈ s.openInodes
    · simp only [State.openCount, hopen, hin b hb]
    · rw [openCount_of_notMem hb, openCount_of_notMem (hopen ▸ hb)]
  old b hb := by
    rw [hin b (ho.mem_of_open hb)]
    exact ho.old b hb
  new b hb := ho.new b (hopen ▸ hb)
  nextInode := ho.nextInode.trans hnext
  rootDir := hroot.trans ho.rootDir
  part := hpart.trans ho.part
  cur := hcur.trans ho.cur
  tables := ho.tables.trans htab

theorem OpenOk.tables (hs : OpenOk s) (hopen : t.openInodes = s.openInodes)
    (hin : t.inodes = s.inodes) (hnext : t.nextInode = s.nextInode) : OpenOk t := by
  refine ⟨hopen ▸ hs.nodup, ?_, ?_⟩
  · rw [hopen, hin]
    exact hs.live
  · rw [hopen, hnext]
    exact hs.used

/-- The same store to a table before and after. -/
theorem Opens.setFile (ho : Opens s₀ s h) (g : ℕ) (f : File) :
    Opens (s₀.setFile g f) (s.setFile g f) h where
  start := ho.start.tables rfl rfl rfl
  ok := ho.ok.tables rfl rfl rfl
  count := ho.count
  old := ho.old
  new := ho.new
  nextInode := ho.nextInode
  rootDir := ho.rootDir
  part := ho.part
  cur := ho.cur
  tables := by
    refine ⟨fun j => ?_, ho.tables.tasks⟩
    by_cases hj : j = g
    · subst hj
      by_cases hlt : j < 32
      · rw [setFile_self hlt, setFile_self hlt]
      · simp [State.setFile, hlt]
    · rw [setFile_of_ne hj, setFile_of_ne hj, ho.tables.slots]

theorem Opens.setTask (ho : Opens s₀ s h) (p : ℕ) (task : Task) :
    Opens (s₀.setTask p task) (s.setTask p task) h where
  start := ho.start.tables rfl rfl rfl
  ok := ho.ok.tables rfl rfl rfl
  count := ho.count
  old := ho.old
  new := ho.new
  nextInode := ho.nextInode
  rootDir := ho.rootDir
  part := ho.part
  cur := ho.cur
  tables := ⟨ho.tables.slots, by simp only [State.setTask, ho.tables.tasks]⟩

end Frames

section Opening

/-- The inode is new, or it was open with this number. -/
def State.newOr (s : State) (a : InodePtr) (n : UInt32) : Prop :=
  s.nextInode ≤ a ∨ a ∈ s.openInodes ∧ ∃ x, s.inodes a = some x ∧ x.iNo = n

theorem Opens.newOr {n : UInt32} (ho : Opens s₀ s h) (ha : s.newOr a n) : s₀.newOr a n := by
  rcases ha with hnew | ⟨hmem, x, hx, hn⟩
  · exact Or.inl (ho.nextInode.trans hnew)
  · rcases ho.new a hmem with hmem₀ | hnew
    · obtain ⟨x₀, hx₀, -⟩ := ho.start.live a hmem₀
      obtain ⟨y, hy, hno⟩ := ho.sameInode hmem₀ hx₀
      obtain rfl : x = y := Option.some.inj (hx.symm.trans hy)
      exact Or.inr ⟨hmem₀, x₀, hx₀, hno ▸ hn⟩
    · exact Or.inl hnew

/-- The handle of a slot that was taken. -/
def slotHandle (o : Option InodePtr) : Multiset InodePtr := o.elim 0 fun a => {a}

/-- What an open call did: it took a slot for `o`, and it holds `h` besides. `P` tells
what is known of the inode in the slot. -/
def Opened (s₀ : State) (flag : UInt32) (h : Multiset InodePtr) (P : InodePtr → Prop)
    (t : State) : Prop :=
  ∃ o u, TakesSlot s₀ flag o u ∧ Opens u t (slotHandle o + h) ∧ ∀ a, o = some a → P a

variable {flag : UInt32} {P Q : InodePtr → Prop}

theorem Opened.idle (ho : Opens s₀ t h) : Opened s₀ flag h P t :=
  ⟨none, s₀, .none, by simpa [slotHandle] using ho, fun a ha => by simp at ha⟩

theorem Opened.mono (ho : Opened s₀ flag h P t) (hPQ : ∀ a, P a → Q a) :
    Opened s₀ flag h Q t := by
  obtain ⟨o, u, htake, hu, hP⟩ := ho
  exact ⟨o, u, htake, hu, fun a ha => hPQ a (hP a ha)⟩

/-- A slot is filled and gets a descriptor, if the process has one left. -/
theorem pcbFdInstall_opened (hg : 3 ≤ g) (hfree : s₀.freeSlot g)
    (ho : Opens (s₀.setFile g ⟨0, flag, some a⟩) s (a ::ₘ h)) (hP : P a) :
    Returns (pcbFdInstall s g) fun r => Opened s₀ flag h P r.2 := by
  refine (pcbFdInstall_spec s g).mono fun r hr => ?_
  rcases hr with ⟨rfl, -⟩ | ⟨task, fd, htask, hfd, hnone, rfl⟩
  · exact ⟨some a, _, .filled hg hfree, by simpa [slotHandle] using ho, by simpa using hP⟩
  · have htask₀ : s₀.tasks s₀.cur = some task := by
      have hcur : s.cur = s₀.cur := ho.cur
      have htasks : s.tasks = s₀.tasks := ho.tables.tasks
      rw [← hcur, ← htasks, htask]
    have hset := ho.setTask s₀.cur (task.setFd fd g)
    have hcur : s.cur = s₀.cur := ho.cur
    refine ⟨some a, _, .named hg hfree htask₀ hfd hnone, ?_, by simpa using hP⟩
    simpa [slotHandle, hcur] using hset

theorem denyWrite_opens (ho : Opens s₀ s h) (ha : a ∈ s.openInodes) :
    Returns (denyWrite s a) fun r => Opens s₀ r.2 h := by
  unfold denyWrite
  obtain ⟨x, hx, hpos⟩ := ho.ok.live a ha
  rw [hx, deref_some, ok_bind]
  refine returns_ite (fun _ => ?_) fun _ => ho
  refine ho.setCount ha hx rfl hpos fun b => ?_
  rw [← ho.count b]
  by_cases hb : b = a
  · rw [if_pos hb, hb, openCount_of_mem ha hx]
  · rw [if_neg hb]

theorem fileOpen_opened (ho : Opens s₀ s h) (n : UInt32) (flag : UInt8) :
    Returns (fileOpen s n flag) fun r => Opened s₀ flag.toUInt32 h (s₀.newOr · n) r.2 := by
  unfold fileOpen
  cases hslot : getFreeSlotInGlobal s with
  | none => exact Opened.idle ho
  | some g =>
    obtain ⟨hg, hfree⟩ := getFreeSlotInGlobal_spec hslot
    have hfree₀ : s₀.freeSlot g := ho.tables.freeSlot hfree
    refine Returns.bind (inodeOpen_opens ho n) fun ⟨a, t⟩ ⟨ht, hnew⟩ => ?_
    have hP : s₀.newOr a n := by
      refine ho.newOr (hnew.imp (fun heq => ?_) id)
      exact heq.ge
    have hset := ht.setFile g ⟨0, flag.toUInt32, some a⟩
    dsimp only
    refine returns_ite (fun _ => ?_) fun _ => pcbFdInstall_opened hg hfree₀ hset hP
    have hmem := hset.mem_of_held (Multiset.mem_cons_self a h)
    refine Returns.bind (denyWrite_opens hset hmem) fun ⟨done, u⟩ hu => ?_
    cases done with
    | true => exact pcbFdInstall_opened hg hfree₀ hu hP
    | false =>
      exact ⟨some a, _, .filled hg hfree₀, by simpa [slotHandle] using hu, by simpa using hP⟩

/-- An inode that is not listed may change in any way. -/
theorem Opens.unlisted {o : Option Inode} (ho : Opens s₀ s h) (ha : a ∉ s.openInodes) :
    Opens s₀ { s with inodes := Function.update s.inodes a o } h := by
  refine ho.frame rfl (fun b hb => ?_) le_rfl rfl rfl rfl ⟨fun _ => rfl, rfl⟩
  have hba : b ≠ a := fun hba => ha (hba ▸ hb)
  simp [hba]

theorem enrolFile_opened (ho : Opens (s₀.setFile g ⟨0, flag, some a⟩) s h) (hg : 3 ≤ g)
    (hfree : s₀.freeSlot g) (ha : s₀.nextInode ≤ a) (hlt : a < s.nextInode)
    (hnew : a ∉ s.openInodes) (hP : P a) (parent : InodePtr) (n : ℕ) :
    Returns (enrolFile s parent a n g) fun r => Opened s₀ flag h P r.2 := by
  refine returns_skip fun x => Returns.bind (inodeSync_still ..) fun t ht => ?_
  refine returns_bind fun y hy => Returns.bind (inodeSync_still ..) fun u hu => ?_
  refine Returns.bind (bitmapSync_still ..) fun v hv => ?_
  have hsv : Still s v := (Still.trans ht hu).trans hv
  have hlisted : Opens (s₀.setFile g ⟨0, flag, some a⟩)
      { v.setInode a { y with iOpenCnts := 1 } with openInodes := a :: v.openInodes }
      (a ::ₘ h) := by
    refine (ho.still hsv).enrol ha (hsv.openInodes ▸ hnew) ?_ le_rfl rfl
      (setInode_inodes_self ..) rfl (fun b hb => ?_) rfl rfl rfl ⟨fun _ => rfl, rfl⟩
    · exact hlt.trans_eq hsv.nextInode.symm
    · simp [State.setInode, hb]
  exact pcbFdInstall_opened hg hfree hlisted hP

theorem createInDir_opened (ho : Opens s₀ s h) (ha : s₀.nextInode ≤ a) (hlt : a < s.nextInode)
    (hnew : a ∉ s.openInodes) (hP : P a) (parent : InodePtr) (name : List UInt8) (flag : UInt8)
    (n : ℕ) (b : Buffer) :
    Returns (createInDir s parent name flag n a b) fun r =>
      Opened s₀ flag.toUInt32 h P r.2 := by
  unfold createInDir
  have hinit : Opens s₀ (s.setInode a (inodeInit (UInt32.ofNat n))) h := ho.unlisted hnew
  dsimp only
  cases hslot : getFreeSlotInGlobal (s.setInode a (inodeInit (UInt32.ofNat n))) with
  | none =>
    refine Opened.idle (Opens.still (Opens.unlisted (a := a) (o := none) hinit hnew) ?_)
    exact dropInodeNo_still ..
  | some g =>
    obtain ⟨hg, hfree⟩ := getFreeSlotInGlobal_spec hslot
    have hfree₀ : s₀.freeSlot g := hinit.tables.freeSlot hfree
    have hset := hinit.setFile g ⟨0, flag.toUInt32, some a⟩
    refine returns_skip fun e => Returns.bind (syncDirEntry_still ..) fun ⟨done, t⟩ ht => ?_
    have hst : Still _ t := ht
    have hnewt : a ∉ t.openInodes := hst.openInodes ▸ hnew
    cases done with
    | true =>
      exact enrolFile_opened (hset.still hst) hg hfree₀ ha (hlt.trans_eq hst.nextInode.symm)
        hnewt hP parent n
    | false =>
      -- the slot was filled and is cleared again
      have hclear := (hset.still hst).setFile g ⟨0, 0, none⟩
      have hdrop := Opens.still (Opens.unlisted (a := a) (o := none) hclear hnewt)
        (dropInodeNo_still _ n)
      refine ⟨none, _, .cleared hg hfree₀, ?_, fun b hb => by simp at hb⟩
      simpa [slotHandle, State.setFile, State.freeInode, Vector.setIfInBounds] using hdrop

theorem fileCreate_opened (ho : Opens s₀ s h) (d : Dir) (name : List UInt8) (flag : UInt8) :
    Returns (fileCreate s d name flag) fun r =>
      Opened s₀ flag.toUInt32 h (s₀.nextInode ≤ ·) r.2 := by
  unfold fileCreate
  obtain ⟨b, t, hm, ht⟩ := sysMalloc_still s 1024
  simp only [hm]
  cases b with
  | none => exact Opened.idle (ho.still ht)
  | some b =>
    refine Returns.bind ((ho.still ht).stills (inodeBitmapAlloc_still t)) fun ⟨i, u⟩ hu => ?_
    cases i with
    | none => exact Opened.idle hu
    | some i =>
      by_cases hheap : u.heap 0 = true
      · have hnew : u.nextInode ∉ u.openInodes := fun hmem =>
          absurd (Opens.ok hu |>.used _ hmem) (lt_irrefl _)
        simp only [mallocInode, hheap, if_true]
        have hmalloc : Opens s₀ { u with
            heap := fun k => u.heap (k + 1)
            nextInode := u.nextInode + 1
            inodes := Function.update u.inodes u.nextInode
              (some ⟨0, 0, 0, 0, Vector.replicate 13 0⟩) } h := by
          refine Opens.frame hu rfl (fun b hb => ?_) (Nat.le_succ _) rfl rfl rfl
            ⟨fun _ => rfl, rfl⟩
          have hne : b ≠ u.nextInode := fun heq => hnew (heq ▸ hb)
          simp [hne]
        exact createInDir_opened hmalloc (Opens.nextInode hu) (Nat.lt_succ_self _) hnew
          (Opens.nextInode hu) ..
      · simp only [mallocInode, hheap]
        refine Opened.idle (Opens.still hu ?_)
        exact (Still.medium u u.disk u.blockBitmap u.inodeBitmap _).trans (dropInodeNo_still _ i)

/-- The directory of the search record is closed at the end. -/
theorem Opened.dirClose {d : Dir} (ho : Opened s₀ flag (d.handles + h) P s) :
    Returns (dirClose s d) fun t => Opened s₀ flag h P t := by
  obtain ⟨o, u, htake, hu, hP⟩ := ho
  have hcomm : Opens u s (d.handles + (slotHandle o + h)) := by
    rw [← add_assoc, add_comm _ (slotHandle o), add_assoc]
    exact hu
  exact (dirClose_opens hcomm).mono fun t ht => ⟨o, u, htake, ht, hP⟩

/-- `sys_open` gets to `file_open` for inode `n`. -/
structure OpensExisting (s : State) (path : List UInt8) (flags : UInt8) (n : UInt32) : Prop where
  noSlash : path.getLast? ≠ some slash
  noCreat : flags &&& oCreat = 0
  found : ∃ r t depth, searchFile s path = .ok (n, r, t) ∧ r.fileType ≠ ftDirectory ∧
    pathDepthCnt path = .ok depth ∧ pathDepthCnt r.searchedPath = .ok depth
  real : n ≠ minusOne

/-- What `sys_open` does to the handles and the tables. A slot it takes is for a new inode or
for the one that the path names. -/
theorem sysOpen_opened (hs : OpenOk s) (path : List UInt8) (flags : UInt8) :
    Returns (sysOpen s path flags) fun r => ∃ h, Opened s flags.toUInt32 h
      (fun a => s.nextInode ≤ a ∨ ∃ n, OpensExisting s path flags n ∧ s.newOr a n) r.2 := by
  have ho : Opens s s 0 := Opens.refl hs
  unfold sysOpen
  refine returns_ensure fun _ => returns_ite (fun _ => ⟨0, Opened.idle ho⟩) fun hslash => ?_
  refine returns_ensure fun _ => returns_bind fun depth hdepth => returns_bind fun v hv => ?_
  have hsearch := (searchFile_opens ho path).of_ok hv
  obtain ⟨n, r, t⟩ := v
  have hclose : ∀ {P : InodePtr → Prop} {u : State} (fd : ℤ),
      Opened s flags.toUInt32 (r.parentDir.handles + 0) P u →
      Returns (dirClose u r.parentDir >>= fun t => Except.ok (fd, t)) fun v : ℤ × State =>
        ∃ h, Opened s flags.toUInt32 h P v.2 :=
    fun fd hu => Returns.bind hu.dirClose fun w hw => ⟨0, hw⟩
  unfold openFound
  refine returns_ite (fun _ => hclose _ (Opened.idle hsearch)) fun hdir => ?_
  refine returns_bind fun depth' hdepth' => ?_
  refine returns_ite (fun _ => hclose _ (Opened.idle hsearch)) fun hgo => ?_
  refine returns_ite (fun _ => ?_) fun hcreat => ?_
  · refine Returns.bind (fileCreate_opened hsearch ..) fun ⟨fd, u⟩ hu => ?_
    exact hclose _ (hu.mono fun a ha => Or.inl ha)
  · refine Returns.bind (fileOpen_opened hsearch n flags) fun ⟨fd, u⟩ hu => ?_
    obtain ⟨hsame, hfound, -⟩ := by simpa only [not_or, not_and, not_not] using hgo
    have hno : flags &&& oCreat = 0 := not_not.mp hcreat
    have hex : OpensExisting s path flags n :=
      ⟨hslash, hno, ⟨r, t, depth, hv, hdir, hdepth, hsame ▸ hdepth'⟩, fun h => hfound h hno⟩
    exact ⟨_, hu.mono fun a ha => Or.inr ⟨n, hex, ha⟩⟩

end Opening

end X86System.FileSystem
