import X86System.Still
import Mathlib.Data.Multiset.Basic

/-!
# Open counts

An inode is open as often as its count says while it is in `open_inodes`. A call
opens and closes directories on its way; the handles it holds at a point are a
multiset, and the counts are those before the call with that multiset added. A call
whose multiset is empty at the end has closed what it opened.
-/
namespace X86System.FileSystem
open Bytes Exec

/-- How many handles an inode has. -/
def State.openCount (s : State) (a : InodePtr) : ℕ :=
  if a ∈ s.openInodes then ((s.inodes a).map Inode.iOpenCnts).getD 0 else 0

/-- The list of open inodes is in order. -/
structure OpenOk (s : State) : Prop where
  nodup : s.openInodes.Nodup
  live : ∀ a ∈ s.openInodes, ∃ x, s.inodes a = some x ∧ 0 < x.iOpenCnts
  used : ∀ a ∈ s.openInodes, a < s.nextInode

variable {s s₀ t : State} {a b : InodePtr} {x y : Inode}

theorem openCount_of_mem (h : a ∈ s.openInodes) (hx : s.inodes a = some x) :
    s.openCount a = x.iOpenCnts := by
  simp [State.openCount, h, hx]

theorem openCount_of_notMem (h : a ∉ s.openInodes) : s.openCount a = 0 := if_neg h

theorem OpenOk.openCount_pos (h : OpenOk s) : 0 < s.openCount a ↔ a ∈ s.openInodes := by
  by_cases ha : a ∈ s.openInodes
  · obtain ⟨x, hx, hpos⟩ := h.live a ha
    simp [ha, openCount_of_mem ha hx, hpos]
  · simp [ha, openCount_of_notMem ha]

/-- From `s₀` to `s`, the handles in `h` were opened and nothing else changed about
what is open. -/
structure Opens (s₀ s : State) (h : Multiset InodePtr) : Prop where
  start : OpenOk s₀
  ok : OpenOk s
  count : ∀ a, s.openCount a = s₀.openCount a + h.count a
  old : ∀ a ∈ s₀.openInodes, (s.inodes a).map Inode.iNo = (s₀.inodes a).map Inode.iNo
  new : ∀ a ∈ s.openInodes, a ∈ s₀.openInodes ∨ s₀.nextInode ≤ a
  nextInode : s₀.nextInode ≤ s.nextInode
  rootDir : s.rootDir = s₀.rootDir
  part : s.part = s₀.part
  cur : s.cur = s₀.cur
  tables : SameTables s₀ s

variable {h : Multiset InodePtr}

theorem Opens.refl (hs : OpenOk s) : Opens s s 0 :=
  ⟨hs, hs, fun _ => rfl, fun _ _ => rfl, fun _ => Or.inl, le_rfl, rfl, rfl, rfl, SameTables.refl s⟩

theorem Still.openCount (hst : Still s t) (a : InodePtr) : t.openCount a = s.openCount a := by
  have hcnt : ∀ o : Option Inode, o.map Inode.iOpenCnts = (o.map Inode.tag).map (·.2.1) := by
    intro o
    cases o <;> rfl
  simp only [State.openCount, hst.openInodes, hcnt, hst.inodes]

theorem Still.iNo (hst : Still s t) (a : InodePtr) :
    (t.inodes a).map Inode.iNo = (s.inodes a).map Inode.iNo := by
  have hno : ∀ o : Option Inode, o.map Inode.iNo = (o.map Inode.tag).map (·.1) := by
    intro o
    cases o <;> rfl
  simp only [hno, hst.inodes]

/-- What is known of an inode's count is known after a still step. -/
theorem Still.inode (hst : Still s t) (hx : s.inodes a = some x) :
    ∃ y, t.inodes a = some y ∧ y.tag = x.tag := by
  have htag := hst.inodes a
  rw [hx] at htag
  cases hy : t.inodes a with
  | none => simp [hy] at htag
  | some y => exact ⟨y, rfl, by simpa [hy] using htag⟩

theorem Still.openOk (hst : Still s t) (hs : OpenOk s) : OpenOk t where
  nodup := hst.openInodes ▸ hs.nodup
  live a ha := by
    obtain ⟨x, hx, hpos⟩ := hs.live a (hst.openInodes ▸ ha)
    obtain ⟨y, hy, htag⟩ := hst.inode hx
    have hcnt : y.iOpenCnts = x.iOpenCnts := congrArg (·.2.1) htag
    exact ⟨y, hy, hcnt ▸ hpos⟩
  used a ha := hst.nextInode ▸ hs.used a (hst.openInodes ▸ ha)

theorem Opens.still (ho : Opens s₀ s h) (hst : Still s t) : Opens s₀ t h where
  start := ho.start
  ok := hst.openOk ho.ok
  count a := (hst.openCount a).trans (ho.count a)
  old a ha := (hst.iNo a).trans (ho.old a ha)
  new a ha := ho.new a (hst.openInodes ▸ ha)
  nextInode := hst.nextInode ▸ ho.nextInode
  rootDir := hst.rootDir.trans ho.rootDir
  part := hst.part.trans ho.part
  cur := hst.cur.trans ho.cur
  tables := ho.tables.trans hst.tables

/-- A still step of a program that holds handles. -/
theorem Opens.stills {α : Type} {r : Except Fault α} {π : α → State} (ho : Opens s₀ s h)
    (hr : Stills s r π) : Returns r fun v => Opens s₀ (π v) h :=
  hr.mono fun _ hv => ho.still hv

/-- An inode that was open before is the same inode. -/
theorem Opens.sameInode (ho : Opens s₀ s h) (ha : a ∈ s₀.openInodes)
    (hx : s₀.inodes a = some x) : ∃ y, s.inodes a = some y ∧ y.iNo = x.iNo := by
  have hno := ho.old a ha
  rw [hx] at hno
  cases hy : s.inodes a with
  | none => simp [hy] at hno
  | some y => exact ⟨y, rfl, by simpa [hy] using hno⟩

/-- What is held is open. -/
theorem Opens.mem_of_held (ho : Opens s₀ s h) (ha : a ∈ h) : a ∈ s.openInodes := by
  rw [← ho.ok.openCount_pos, ho.count]
  have := Multiset.count_pos.mpr ha
  omega

theorem Opens.mem_of_open (ho : Opens s₀ s h) (ha : a ∈ s₀.openInodes) :
    a ∈ s.openInodes := by
  rw [← ho.ok.openCount_pos, ho.count]
  have := ho.start.openCount_pos.mpr ha
  omega

section Counts

/-- Counts after a store to one inode. -/
theorem openCount_setInode (hb : b ∈ s.openInodes) :
    (s.setInode b y).openCount a = if a = b then y.iOpenCnts else s.openCount a := by
  by_cases hab : a = b
  · subst hab
    simp [State.openCount, State.setInode, hb]
  · simp [State.openCount, State.setInode, hab]

theorem OpenOk.setInode (hs : OpenOk s) (hy : 0 < y.iOpenCnts) : OpenOk (s.setInode b y) where
  nodup := hs.nodup
  live a ha := by
    by_cases hab : a = b
    · exact ⟨y, by simp [hab], hy⟩
    · obtain ⟨x, hx, hpos⟩ := hs.live a ha
      exact ⟨x, by simpa [State.setInode, hab] using hx, hpos⟩
  used := hs.used

end Counts

/-- A store to an open inode that changes its count by one handle. -/
theorem Opens.setCount {h' : Multiset InodePtr} (ho : Opens s₀ s h) (ha : a ∈ s.openInodes)
    (hx : s.inodes a = some x) (hno : y.iNo = x.iNo) (hpos : 0 < y.iOpenCnts)
    (hcnt : ∀ b, (if b = a then y.iOpenCnts else s.openCount b) = s₀.openCount b + h'.count b) :
    Opens s₀ (s.setInode a y) h' where
  start := ho.start
  ok := ho.ok.setInode hpos
  count b := (openCount_setInode ha).trans (hcnt b)
  old b hb := by
    by_cases hba : b = a
    · subst hba
      have hold := ho.old b hb
      rw [hx] at hold
      simpa [hno] using hold
    · simpa [State.setInode, hba] using ho.old b hb
  new := ho.new
  nextInode := ho.nextInode
  rootDir := ho.rootDir
  part := ho.part
  cur := ho.cur
  tables := ⟨ho.tables.slots, ho.tables.tasks⟩

/-- A new inode enters the list with one handle. -/
theorem Opens.enrol (ho : Opens s₀ s h) (ha : s₀.nextInode ≤ a) (hnew : a ∉ s.openInodes)
    (hlt : a < t.nextInode) (hnext : s.nextInode ≤ t.nextInode)
    (hopen : t.openInodes = a :: s.openInodes) (hx : t.inodes a = some x) (hone : x.iOpenCnts = 1)
    (hother : ∀ b, b ≠ a → t.inodes b = s.inodes b) (hroot : t.rootDir = s.rootDir)
    (hpart : t.part = s.part) (hcur : t.cur = s.cur) (htab : SameTables s t) :
    Opens s₀ t (a ::ₘ h) where
  start := ho.start
  ok := by
    refine ⟨?_, fun b hb => ?_, fun b hb => ?_⟩
    · rw [hopen]
      exact List.nodup_cons.mpr ⟨hnew, ho.ok.nodup⟩
    · by_cases hba : b = a
      · exact ⟨x, hba ▸ hx, by omega⟩
      · have hmem : b ∈ s.openInodes := by simpa [hopen, hba] using hb
        rw [hother b hba]
        exact ho.ok.live b hmem
    · by_cases hba : b = a
      · exact hba ▸ hlt
      · have hmem : b ∈ s.openInodes := by simpa [hopen, hba] using hb
        exact (ho.ok.used b hmem).trans_le hnext
  count b := by
    by_cases hba : b = a
    · subst hba
      have hmem : b ∈ t.openInodes := by simp [hopen]
      have hcnt := ho.count b
      rw [openCount_of_notMem hnew] at hcnt
      rw [openCount_of_mem hmem hx, Multiset.count_cons_self]
      omega
    · rw [Multiset.count_cons_of_ne hba, ← ho.count b]
      simp [State.openCount, hopen, hba, hother b hba]
  old b hb := by
    have hba : b ≠ a := ((ho.start.used b hb).trans_le ha).ne
    rw [hother b hba]
    exact ho.old b hb
  new b hb := by
    by_cases hba : b = a
    · exact Or.inr (hba ▸ ha)
    · exact ho.new b (by simpa [hopen, hba] using hb)
  nextInode := ho.nextInode.trans hnext
  rootDir := hroot.trans ho.rootDir
  part := hpart.trans ho.part
  cur := hcur.trans ho.cur
  tables := ho.tables.trans htab

theorem findOpen_spec {n : UInt32} {l : List InodePtr} :
    Returns (findOpen s n l) fun r => ∀ a, r = some a →
      a ∈ l ∧ ∃ x, s.inodes a = some x ∧ x.iNo = n := by
  induction l with
  | nil => exact fun a ha => absurd ha (by simp)
  | cons b l ih =>
    unfold findOpen
    cases hb : s.inodes b with
    | none => trivial
    | some y =>
      refine returns_ite (fun hn => ?_) fun _ => ?_
      · intro a ha
        obtain rfl : b = a := Option.some.inj ha
        exact ⟨List.mem_cons_self, y, hb, hn⟩
      · refine ih.mono fun r hr a ha => ?_
        obtain ⟨hmem, hx⟩ := hr a ha
        exact ⟨List.mem_cons_of_mem _ hmem, hx⟩

theorem inodeLoad_opens (ho : Opens s₀ s h) (n : UInt32) :
    Returns (inodeLoad s n) fun r =>
      r.1 = s.nextInode ∧ Opens s₀ r.2 (r.1 ::ₘ h) := by
  unfold inodeLoad
  refine returns_skip fun pos => ?_
  by_cases hheap : s.heap 0 = true
  · simp only [mallocInode, hheap, if_true]
    refine returns_skip fun b => returns_skip fun b => returns_bind fun a ha => ?_
    obtain rfl : s.nextInode = a := by simpa using ha
    refine ⟨rfl, ho.enrol ho.nextInode (fun hmem => ?_) (Nat.lt_succ_self _) (Nat.le_succ _) rfl
      (setInode_inodes_self ..) rfl (fun b hb => ?_) rfl rfl rfl ⟨fun _ => rfl, rfl⟩⟩
    · exact absurd (ho.ok.used _ hmem) (lt_irrefl _)
    · simp [State.setInode, sysMalloc, hb]
  · simp only [mallocInode, hheap]
    exact returns_skip fun b => returns_skip fun b => trivial

/-- `inode_open` adds a handle: of an open inode with this number, or of a new one. -/
theorem inodeOpen_opens (ho : Opens s₀ s h) (n : UInt32) :
    Returns (inodeOpen s n) fun r => Opens s₀ r.2 (r.1 ::ₘ h) ∧
      (r.1 = s.nextInode ∨
        r.1 ∈ s.openInodes ∧ ∃ x, s.inodes r.1 = some x ∧ x.iNo = n) := by
  unfold inodeOpen
  refine Returns.bind findOpen_spec fun r hr => ?_
  cases r with
  | none => exact (inodeLoad_opens ho n).mono fun r hr => ⟨hr.2, Or.inl hr.1⟩
  | some a =>
    obtain ⟨hmem, x, hx, hn⟩ := hr a rfl
    simp only [hx, deref_some, ok_bind]
    refine ⟨ho.setCount (x := x) hmem hx rfl (Nat.succ_pos _) fun b => ?_, Or.inr ⟨hmem, x, hx, hn⟩⟩
    by_cases hba : b = a
    · subst hba
      have hcnt := ho.count b
      rw [openCount_of_mem hmem hx] at hcnt
      rw [if_pos rfl, Multiset.count_cons_self]
      dsimp only
      omega
    · rw [if_neg hba, Multiset.count_cons_of_ne hba]
      exact ho.count b

/-- One handle of an inode is given back, and with the last one the inode leaves the list. -/
structure Shut (s t : State) (a : InodePtr) : Prop where
  ok : OpenOk t
  count : ∀ b, t.openCount b + (if b = a then 1 else 0) = s.openCount b
  kept : ∀ b ∈ t.openInodes,
    b ∈ s.openInodes ∧ (t.inodes b).map Inode.iNo = (s.inodes b).map Inode.iNo
  nextInode : t.nextInode = s.nextInode
  rootDir : t.rootDir = s.rootDir
  part : t.part = s.part
  cur : t.cur = s.cur
  tables : SameTables s t

theorem inodeClose_shut (hs : OpenOk s) (ha : a ∈ s.openInodes) :
    ∃ t, inodeClose s a = .ok t ∧ Shut s t a := by
  obtain ⟨x, hx, hpos⟩ := hs.live a ha
  unfold inodeClose
  rw [hx, deref_some, ok_bind]
  split_ifs with hone hzero
  · -- the last handle: the inode leaves the list
    have hne : ∀ b ∈ s.openInodes.erase a, b ≠ a := fun b hb hba =>
      hs.nodup.not_mem_erase (hba ▸ hb)
    have hrest : ∀ b ≠ a, Function.update s.inodes a none b = s.inodes b := fun b hb =>
      Function.update_of_ne hb ..
    refine ⟨_, rfl, ⟨hs.nodup.erase a, fun b hb => ?_, fun b hb => ?_⟩, fun b => ?_, fun b hb => ?_,
      rfl, rfl, rfl, rfl, ⟨fun _ => rfl, rfl⟩⟩
    · dsimp only at hb ⊢
      rw [hrest b (hne b hb)]
      exact hs.live b (List.mem_of_mem_erase hb)
    · exact hs.used b (List.mem_of_mem_erase hb)
    · by_cases hba : b = a
      · subst hba
        rw [if_pos rfl, openCount_of_mem ha hx, openCount_of_notMem fun hb => hne b hb rfl, hone]
      · simp [State.openCount, hba, List.mem_erase_of_ne]
    · exact ⟨List.mem_of_mem_erase hb, congrArg _ (hrest b (hne b hb))⟩
  · omega
  · refine ⟨_, rfl, hs.setInode (by dsimp only; omega), fun b => ?_, fun b hb => ⟨hb, ?_⟩,
      rfl, rfl, rfl, rfl, ⟨fun _ => rfl, rfl⟩⟩
    · rw [openCount_setInode ha]
      by_cases hba : b = a
      · subst hba
        rw [if_pos rfl, if_pos rfl, openCount_of_mem ha hx]
        dsimp only
        omega
      · rw [if_neg hba, if_neg hba, Nat.add_zero]
    · by_cases hba : b = a
      · subst hba
        simp [State.setInode, hx]
      · simp [State.setInode, hba]

theorem Opens.shut (ho : Opens s₀ s (a ::ₘ h)) (hst : Shut s t a) : Opens s₀ t h where
  start := ho.start
  ok := hst.ok
  count b := by
    have hcnt := ho.count b
    have hback := hst.count b
    by_cases hba : b = a
    · subst hba
      rw [if_pos rfl] at hback
      rw [Multiset.count_cons_self] at hcnt
      omega
    · rw [if_neg hba, Nat.add_zero] at hback
      rw [hback, hcnt, Multiset.count_cons_of_ne hba]
  old b hb := by
    have hmem : b ∈ t.openInodes := by
      rw [← hst.ok.openCount_pos]
      have hpos := ho.start.openCount_pos.mpr hb
      have hcnt := ho.count b
      have hback := hst.count b
      by_cases hba : b = a
      · subst hba
        rw [if_pos rfl] at hback
        rw [Multiset.count_cons_self] at hcnt
        omega
      · rw [if_neg hba] at hback
        omega
    exact (hst.kept b hmem).2.trans (ho.old b hb)
  new b hb := ho.new b (hst.kept b hb).1
  nextInode := hst.nextInode ▸ ho.nextInode
  rootDir := hst.rootDir.trans ho.rootDir
  part := hst.part.trans ho.part
  cur := hst.cur.trans ho.cur
  tables := ho.tables.trans hst.tables

/-- `inode_close` gives a handle back. -/
theorem inodeClose_opens (ho : Opens s₀ s (a ::ₘ h)) :
    Returns (inodeClose s a) fun t => Opens s₀ t h := by
  obtain ⟨t, ht, hst⟩ := inodeClose_shut ho.ok (ho.mem_of_held (Multiset.mem_cons_self a h))
  rw [ht]
  exact ho.shut hst

/-- The handle that a directory is. -/
def Dir.handles : Dir → Multiset InodePtr
  | .root => 0
  | .opened a => {a}

theorem dirOpen_opens (ho : Opens s₀ s h) (n : UInt32) :
    Returns (dirOpen s n) fun r => Opens s₀ r.2 (r.1.handles + h) := by
  obtain ⟨b, t, hm, ht⟩ := sysMalloc_still s 520
  simp only [dirOpen, hm]
  refine returns_skip fun _ => Returns.bind (inodeOpen_opens (ho.still ht) n) fun r hr => ?_
  simpa [Dir.handles] using hr.1

theorem dirClose_opens {d : Dir} (ho : Opens s₀ s (d.handles + h)) :
    Returns (dirClose s d) fun t => Opens s₀ t h := by
  cases d with
  | root => simpa [Dir.handles, dirClose] using ho
  | opened a => exact inodeClose_opens (by simpa [Dir.handles] using ho)

theorem enterDir_opens {d : Dir} (ho : Opens s₀ s (d.handles + h)) (n : UInt32) :
    Returns (enterDir s d n) fun r => Opens s₀ r.2.2 (r.2.1.handles + h) := by
  refine returns_skip fun x => Returns.bind (dirClose_opens ho) fun t ht => ?_
  exact Returns.bind (dirOpen_opens ht n) fun r hr => hr

theorem finishSearch_opens {r : PathSearchRecord} (ho : Opens s₀ s (r.parentDir.handles + h))
    (n : UInt32) (dirE : Option DirEntry) :
    Returns (finishSearch s r n dirE) fun v =>
      Opens s₀ v.2.2 (v.2.1.parentDir.handles + h) := by
  refine Returns.bind (dirClose_opens ho) fun t ht => ?_
  refine Returns.bind (dirOpen_opens ht n) fun v hv => ?_
  cases dirE with
  | none => trivial
  | some e => exact hv

theorem searchLoop_opens (fuel : ℕ) : ∀ {s : State} {r : PathSearchRecord} {n : UInt32}
    {name : List UInt8} {subPath : Option (List UInt8)} {dirE : Option DirEntry},
    Opens s₀ s (r.parentDir.handles + h) →
      Returns (searchLoop fuel s r n name subPath dirE) fun v =>
        Opens s₀ v.2.2 (v.2.1.parentDir.handles + h) := by
  induction fuel with
  | zero => exact fun _ => trivial
  | succ fuel ih =>
    intro s r n name subPath dirE ho
    refine returns_ite (fun _ => finishSearch_opens ho n dirE) fun _ => ?_
    refine returns_ensure fun _ => returns_ensure fun _ => ?_
    refine Returns.bind (ho.stills (searchDirEntry_still ..)) fun v hv => ?_
    rcases v with ⟨_ | e, t⟩
    · exact hv
    · refine returns_skip fun w => returns_ite (fun _ => ?_) fun _ => returns_ite (fun _ => hv) ?_
      · exact Returns.bind (enterDir_opens hv e.iNo) fun u hu => ih hu
      · exact fun _ => ih hv

/-- The search for a path holds the directory of its record. -/
theorem searchFile_opens (ho : Opens s₀ s h) (path : List UInt8) :
    Returns (searchFile s path) fun v => Opens s₀ v.2.2 (v.2.1.parentDir.handles + h) := by
  have hroot : Opens s₀ s (Dir.root.handles + h) := by simpa [Dir.handles] using ho
  refine returns_ite (fun _ => hroot) fun _ => returns_ensure fun _ => returns_skip fun v => ?_
  exact searchLoop_opens _ hroot

end X86System.FileSystem
