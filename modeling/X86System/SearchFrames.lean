import X86System.FileSizes

/-!
# What searching and creating leave alone

A search opens and closes directories: it writes nothing to the disk and changes neither
the bitmaps nor the tables of files. Entering a name in a directory leaves the slots of
`file_table` alone, removing one the inode bitmap.
-/
namespace X86System.FileSystem
open Bytes Exec

variable {s t u : State} {a : InodePtr}

/-- Nothing changes but what is open and how much memory was taken. -/
structure Browsed (s t : State) : Prop where
  disk : t.disk = s.disk
  part : t.part = s.part
  blockBitmap : t.blockBitmap = s.blockBitmap
  inodeBitmap : t.inodeBitmap = s.inodeBitmap
  rootDir : t.rootDir = s.rootDir
  fileTable : t.fileTable = s.fileTable
  tasks : t.tasks = s.tasks
  cur : t.cur = s.cur

section Browsing

theorem Browsed.refl (s : State) : Browsed s s := ⟨rfl, rfl, rfl, rfl, rfl, rfl, rfl, rfl⟩

theorem Browsed.trans (h : Browsed s t) (h' : Browsed t u) : Browsed s u where
  disk := h'.disk.trans h.disk
  part := h'.part.trans h.part
  blockBitmap := h'.blockBitmap.trans h.blockBitmap
  inodeBitmap := h'.inodeBitmap.trans h.inodeBitmap
  rootDir := h'.rootDir.trans h.rootDir
  fileTable := h'.fileTable.trans h.fileTable
  tasks := h'.tasks.trans h.tasks
  cur := h'.cur.trans h.cur

instance : IsTrans State Browsed where
  trans _ _ _ := Browsed.trans

theorem sysMalloc_browsed (s : State) (n : ℕ) : Browsed s (sysMalloc s n).2 :=
  ⟨rfl, rfl, rfl, rfl, rfl, rfl, rfl, rfl⟩

theorem mallocInode_browsed (s : State) : Browsed s (mallocInode s).2 := by
  unfold mallocInode
  split_ifs
  · exact ⟨rfl, rfl, rfl, rfl, rfl, rfl, rfl, rfl⟩
  · exact ⟨rfl, rfl, rfl, rfl, rfl, rfl, rfl, rfl⟩

theorem inodeLoad_browsed (s : State) (n : UInt32) :
    Leads Browsed s (inodeLoad s n) Prod.snd := by
  unfold inodeLoad
  refine Leads.skip fun pos => ?_
  have hmalloc := mallocInode_browsed s
  generalize mallocInode s = v at hmalloc ⊢
  obtain ⟨o, t⟩ := v
  refine Leads.after hmalloc ?_
  refine Leads.after (sysMalloc_browsed t (512 * if pos.twoSec then 2 else 1)) ?_
  exact Leads.skip fun b => Leads.skip fun b => Leads.skip fun a =>
    ⟨rfl, rfl, rfl, rfl, rfl, rfl, rfl, rfl⟩

theorem inodeOpen_browsed (s : State) (n : UInt32) :
    Leads Browsed s (inodeOpen s n) Prod.snd := by
  refine Leads.skip fun r => ?_
  cases r with
  | none => exact inodeLoad_browsed s n
  | some a => exact Leads.skip fun x => ⟨rfl, rfl, rfl, rfl, rfl, rfl, rfl, rfl⟩

theorem inodeClose_browsed (s : State) (a : InodePtr) : Leads Browsed s (inodeClose s a) id := by
  refine Leads.skip fun x => Leads.ite (fun _ => ?_) fun _ => ?_
  · exact ⟨rfl, rfl, rfl, rfl, rfl, rfl, rfl, rfl⟩
  · exact ⟨rfl, rfl, rfl, rfl, rfl, rfl, rfl, rfl⟩

theorem browsed_browsing : Browsing Browsed where
  refl := Browsed.refl
  sysMalloc := sysMalloc_browsed
  inodeOpen := inodeOpen_browsed
  inodeClose := inodeClose_browsed

theorem dirClose_browsed (s : State) (d : Dir) : Leads Browsed s (dirClose s d) id :=
  browsed_browsing.dirClose s d

theorem searchFile_browsed (s : State) (path : List UInt8) :
    Leads Browsed s (searchFile s path) (·.2.2) := browsed_browsing.searchFile s path

end Browsing

section Fields

variable {γ : Type} {π : State → γ}

/-- Neither a write to the disk nor one to an inode or to the block bitmap changes the field. -/
structure Detached (π : State → γ) : Prop where
  disk : ∀ s d, π (s.setDisk d) = π s
  inode : ∀ s a x, π (s.setInode a x) = π s
  blocks : ∀ (s : State) b, π { s with blockBitmap := b } = π s

/-- The field is as it was. -/
def SameField (π : State → γ) (s t : State) : Prop := π t = π s

instance : IsTrans State (SameField π) where
  trans _ _ _ h h' := h'.trans h

theorem Detached.onlyDisk (hπ : Detached π) {α : Type} {ρ : α → State} {r : Except Fault α}
    (h : Leads OnlyDisk s r ρ) : Leads (SameField π) s r ρ := by
  refine h.mono fun v hv => ?_
  obtain ⟨d, hd⟩ := hv
  show π (ρ v) = π s
  rw [hd, hπ.disk]

theorem blockBitmapAlloc_same (hπ : Detached π) (s : State) :
    Leads (SameField π) s (blockBitmapAlloc s) Prod.snd := by
  refine Leads.skip fun r => ?_
  cases r with
  | none => exact rfl
  | some i => exact hπ.blocks ..

theorem growDir_same (hπ : Detached π) (s : State) (a : InodePtr) :
    Leads (SameField π) s (growDir s a) id :=
  Leads.skip fun _ => hπ.inode ..

theorem addIndirectTable_same (hπ : Detached π) (s : State) (a : InodePtr) (lba : ℕ) (b : Buffer) :
    Leads (SameField π) s (addIndirectTable s a lba b) Prod.snd := by
  refine Leads.skip fun x => Leads.after (hπ.inode s a (x.setSector 12 (UInt32.ofNat lba))) ?_
  refine Leads.bind (blockBitmapAlloc_same hπ _) fun ⟨r, t⟩ => ?_
  cases r with
  | none => exact (hπ.inode ..).trans (hπ.blocks ..)
  | some i =>
    refine Leads.bind (hπ.onlyDisk (syncBlock_disk t i)) fun _ => Leads.skip fun _ => ?_
    exact Leads.bind (hπ.onlyDisk (ideWrite_disk ..)) fun _ => rfl

theorem linkDirBlock_same (hπ : Detached π) (s : State) (a : InodePtr) (k lba : ℕ) (b : Buffer) :
    Leads (SameField π) s (linkDirBlock s a k lba b) Prod.snd := by
  refine Leads.ite (fun _ => ?_) fun _ => Leads.ite (fun _ => ?_) fun _ => ?_
  · exact Leads.skip fun x => Leads.skip fun _ => hπ.inode ..
  · exact addIndirectTable_same hπ s a lba b
  · refine Leads.skip fun _ => Leads.skip fun _ => ?_
    exact Leads.bind (hπ.onlyDisk (ideWrite_disk ..)) fun _ => rfl

theorem addDirBlock_same (hπ : Detached π) (s : State) (a : InodePtr) (e : DirEntry) (k : ℕ)
    (allBlocks ioBuf : Buffer) :
    Leads (SameField π) s (addDirBlock s a e k allBlocks ioBuf) Prod.snd := by
  refine Leads.bind (blockBitmapAlloc_same hπ s) fun ⟨r, t⟩ => ?_
  cases r with
  | none => exact rfl
  | some lba =>
    refine Leads.bind (hπ.onlyDisk (syncBlock_disk t lba)) fun _ => ?_
    refine Leads.bind (linkDirBlock_same hπ ..) fun ⟨r, u⟩ => ?_
    cases r with
    | none => exact rfl
    | some b =>
      refine Leads.skip fun _ => Leads.skip fun _ => Leads.skip fun _ => ?_
      refine Leads.bind (hπ.onlyDisk (ideWrite_disk ..)) fun v => ?_
      exact Leads.bind (growDir_same hπ v a) fun _ => rfl

theorem syncDirLoop_same (hπ : Detached π) (a : InodePtr) (e : DirEntry) (allBlocks : Buffer)
    (s : State) (fuel : ℕ) : ∀ k ioBuf,
    Leads (SameField π) s (syncDirLoop s a e allBlocks fuel k ioBuf) Prod.snd := by
  induction fuel with
  | zero => exact fun _ _ => rfl
  | succ fuel ih =>
    intro k ioBuf
    refine Leads.skip fun lba => Leads.ite (fun _ => addDirBlock_same hπ ..) fun _ => ?_
    refine Leads.skip fun b => ?_
    split
    · refine Leads.skip fun _ => Leads.bind (hπ.onlyDisk (ideWrite_disk ..)) fun v => ?_
      exact Leads.bind (growDir_same hπ v a) fun _ => rfl
    · exact ih (k + 1) b

/-- Entering a name in a directory leaves such a field alone. -/
theorem syncDirEntry_same (hπ : Detached π) (s : State) (a : InodePtr) (e : DirEntry)
    (ioBuf : Buffer) : Leads (SameField π) s (syncDirEntry s a e ioBuf) Prod.snd :=
  Leads.skip fun _ => Leads.ensure fun _ => Leads.skip fun _ => syncDirLoop_same hπ ..

/-- The slots of `file_table` are as they were. -/
def SameSlots (s t : State) : Prop := t.fileTable = s.fileTable

theorem syncDirEntry_slots (s : State) (a : InodePtr) (e : DirEntry) (ioBuf : Buffer) :
    Leads SameSlots s (syncDirEntry s a e ioBuf) Prod.snd := by
  have hslots : Detached State.fileTable := ⟨fun _ _ => rfl, fun _ _ _ => rfl, fun _ _ => rfl⟩
  exact syncDirEntry_same hslots ..

end Fields

section Numbers

/-- The inode bitmap in memory is as it was. -/
def SameNumbers (s t : State) : Prop := t.inodeBitmap = s.inodeBitmap

instance : IsTrans State SameNumbers where
  trans _ _ _ h h' := h'.trans h

theorem leads_numbers {α : Type} {π : α → State} {r : Except Fault α} (h : Leads OnlyDisk s r π) :
    Leads SameNumbers s r π := by
  refine h.mono fun v hv => ?_
  obtain ⟨d, hd⟩ := hv
  show (π v).inodeBitmap = s.inodeBitmap
  rw [hd]
  rfl

theorem freeBlock_numbers (s : State) (lba : UInt32) : Leads SameNumbers s (freeBlock s lba) id := by
  refine (bitmapSync_disk _ _ .blockBitmap).mono fun t ht => ?_
  obtain ⟨d, hd⟩ := ht
  show t.inodeBitmap = s.inodeBitmap
  rw [id_eq] at hd
  rw [hd]
  rfl

theorem eraseEntry_numbers (s : State) (a : InodePtr) (k idx : ℕ) (lba : UInt32) (alone : Bool)
    (b : Buffer) : Leads SameNumbers s (eraseEntry s a k idx lba alone b) id := by
  refine Leads.ite (fun _ => ?_) fun _ => Leads.skip fun b => leads_numbers (ideWrite_disk ..)
  refine Leads.bind (freeBlock_numbers s lba) fun t => Leads.ite (fun _ => ?_) fun _ => trivial
  exact Leads.skip fun x => rfl

theorem inodeDelete_disk (s : State) (n : UInt32) (b : Buffer) :
    Leads OnlyDisk s (inodeDelete s n b) id := by
  refine Leads.ensure fun _ => Leads.skip fun pos => Leads.ensure fun _ => Leads.ite (fun _ => ?_) fun _ => ?_
  · exact Leads.skip fun _ => Leads.skip fun _ => ideWrite_disk ..
  · exact Leads.skip fun _ => Leads.skip fun _ => ideWrite_disk ..

theorem removeEntry_numbers (s : State) (a : InodePtr) (k idx : ℕ) (lba : UInt32) (alone : Bool)
    (b : Buffer) : Leads SameNumbers s (removeEntry s a k idx lba alone b) id := by
  refine Leads.bind (eraseEntry_numbers ..) fun t => Leads.skip fun x => Leads.ensure fun _ => ?_
  refine Leads.after (t := t.setInode a { x with
    iSize := x.iSize - UInt32.ofNat t.part.dirEntrySize }) rfl ?_
  exact Leads.skip fun b => leads_numbers (inodeSync_disk ..)

theorem deleteLoop_numbers (a : InodePtr) (n : UInt32) (allBlocks : Buffer) (s : State)
    (fuel : ℕ) : ∀ k b, Leads SameNumbers s (deleteLoop a n allBlocks fuel k b s) Prod.snd := by
  induction fuel with
  | zero => exact fun _ _ => rfl
  | succ fuel ih =>
    intro k b
    refine Leads.skip fun lba => Leads.ite (fun _ => ih ..) fun _ => ?_
    refine Leads.skip fun b => Leads.skip fun b => Leads.skip fun r => ?_
    cases r.found with
    | none => exact ih ..
    | some idx => exact Leads.bind (removeEntry_numbers ..) fun _ => rfl

theorem deleteDirEntry_numbers (s : State) (d : Dir) (n : UInt32) (b : Buffer) :
    Leads SameNumbers s (deleteDirEntry s d n b) Prod.snd :=
  Leads.skip fun _ => Leads.skip fun _ => deleteLoop_numbers ..

theorem releaseBlocks_numbers (allBlocks : Buffer) (fuel : ℕ) : ∀ (k : ℕ) (s : State),
    Leads SameNumbers s (releaseBlocks allBlocks fuel k s) id := by
  induction fuel with
  | zero => exact fun _ _ => rfl
  | succ fuel ih =>
    intro k s
    refine Leads.skip fun lba => Leads.ite (fun _ => ih ..) fun _ => Leads.ensure fun _ => ?_
    exact Leads.bind (freeBlock_numbers s lba) fun t => ih ..

theorem releaseTable_numbers (s : State) (x : Inode) : Leads SameNumbers s (releaseTable s x) id :=
  Leads.ite (fun _ => Leads.ensure fun _ => freeBlock_numbers ..) fun _ => rfl

/-- `inode_release` clears the bit of the number. -/
theorem inodeRelease_numbers (s : State) (n : UInt32) : Returns (inodeRelease s n) fun t =>
    t.inodeBitmap = bitmapSet s.inodeBitmap n.toNat false := by
  refine Returns.bind (inodeOpen_browsed s n) fun ⟨a, t⟩ ht => returns_skip fun x => ?_
  refine returns_ensure fun _ => returns_skip fun b => ?_
  refine Returns.bind (releaseTable_numbers t x) fun u hu => ?_
  refine Returns.bind (releaseBlocks_numbers ..) fun v hv => ?_
  have hbits : v.inodeBitmap = s.inodeBitmap := hv.trans (hu.trans ht.inodeBitmap)
  refine Returns.bind (leads_numbers (bitmapSync_disk ..)) fun w hw => ?_
  refine returns_skip fun b => ?_
  refine Returns.bind (leads_numbers (inodeDelete_disk ..)) fun w' hw' => ?_
  refine (inodeClose_browsed w' a).mono fun t ht => ?_
  have hlast := ht.inodeBitmap.trans (hw'.trans hw)
  rw [id_eq] at hlast
  rw [hlast, ← hbits]

end Numbers

end X86System.FileSystem
