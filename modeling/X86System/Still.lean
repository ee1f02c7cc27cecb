import X86System.Descriptors

/-!
# What work on blocks leaves alone

Reading and writing blocks, allocating and freeing them and entering names in
directories change the disk, the bitmaps and the block lists of inodes. They change
no open count, no inode number and no right to write, and no table but the position
of a file. One lemma says so for each function, along the structure of the code.
-/
namespace X86System.FileSystem
open Bytes Exec

/-- The part of an in-memory inode that work on blocks leaves alone. -/
def Inode.tag (x : Inode) : UInt32 × ℕ × UInt32 := (x.iNo, x.iOpenCnts, x.writeDeny)

/-- The part of a slot that work on blocks leaves alone: all but the position in a file. -/
def File.key (f : File) : UInt32 × Option InodePtr × UInt32 :=
  (f.fdFlag, f.fdInode, if f.fdFlag = pipeFlag then f.fdPos else 0)

/-- The tables of descriptors are the same. -/
structure SameTables (s t : State) : Prop where
  slots : ∀ g : ℕ, (t.fileTable[g]?).map File.key = (s.fileTable[g]?).map File.key
  tasks : t.tasks = s.tasks

/-- Nothing changes that an open handle depends on. -/
structure Still (s t : State) : Prop where
  tables : SameTables s t
  inodes : ∀ a, (t.inodes a).map Inode.tag = (s.inodes a).map Inode.tag
  openInodes : t.openInodes = s.openInodes
  nextInode : t.nextInode = s.nextInode
  rootDir : t.rootDir = s.rootDir
  part : t.part = s.part
  cur : t.cur = s.cur

variable {s t u : State} {a : InodePtr} {x y : Inode}

theorem SameTables.refl (s : State) : SameTables s s := ⟨fun _ => rfl, rfl⟩

theorem SameTables.trans (h : SameTables s t) (h' : SameTables t u) : SameTables s u :=
  ⟨fun g => (h'.slots g).trans (h.slots g), h'.tasks.trans h.tasks⟩

theorem Still.refl (s : State) : Still s s :=
  ⟨SameTables.refl s, fun _ => rfl, rfl, rfl, rfl, rfl, rfl⟩

theorem Still.trans (h : Still s t) (h' : Still t u) : Still s u where
  tables := h.tables.trans h'.tables
  inodes a := (h'.inodes a).trans (h.inodes a)
  openInodes := h'.openInodes.trans h.openInodes
  nextInode := h'.nextInode.trans h.nextInode
  rootDir := h'.rootDir.trans h.rootDir
  part := h'.part.trans h.part
  cur := h'.cur.trans h.cur

/-- The disk, the bitmaps and the supply of memory do not matter. -/
theorem Still.medium (s : State) (d : Image) (b b' : Bitmap) (heap : ℕ → Bool) :
    Still s { s with disk := d, blockBitmap := b, inodeBitmap := b', heap := heap } :=
  ⟨⟨fun _ => rfl, rfl⟩, fun _ => rfl, rfl, rfl, rfl, rfl, rfl⟩

theorem Still.store (h : (s.inodes a).map Inode.tag = some y.tag) : Still s (s.setInode a y) := by
  refine ⟨⟨fun _ => rfl, rfl⟩, fun b => ?_, rfl, rfl, rfl, rfl, rfl⟩
  by_cases hb : b = a
  · subst hb
    simp [State.setInode, h]
  · simp [State.setInode, hb]

theorem Still.setInode (hx : s.inodes a = some x) (h : y.tag = x.tag) :
    Still s (s.setInode a y) :=
  Still.store (by rw [hx, h]; rfl)

/-- A step of a program that leaves the handles alone. `π` finds the state in its result. -/
def Stills {α : Type} (s : State) (r : Except Fault α) (π : α → State) : Prop :=
  Returns r fun v => Still s (π v)

section Rules

variable {α β : Type} {π : α → State} {ρ : β → State}

theorem Stills.bind {r : Except Fault α} {f : α → Except Fault β} (h : Stills s r π)
    (hf : ∀ v, Stills (π v) (f v) ρ) : Stills s (r >>= f) ρ :=
  Returns.bind h fun v hv => (hf v).mono fun _ hw => hv.trans hw

/-- A first change of the state, then the rest. -/
theorem Stills.after {r : Except Fault α} (h : Still s t) (hr : Stills t r π) : Stills s r π :=
  hr.mono fun _ hv => h.trans hv

theorem Stills.skip {γ : Type} {r : Except Fault γ} {f : γ → Except Fault β}
    (hf : ∀ v, Stills s (f v) ρ) : Stills s (r >>= f) ρ := returns_skip hf

theorem Stills.ensure {e : Fault} {p : Prop} [Decidable p] {f : Unit → Except Fault β}
    (h : p → Stills s (f ()) ρ) : Stills s (ensure e p >>= f) ρ := returns_ensure h

theorem Stills.ite {c : Prop} [Decidable c] {r r' : Except Fault α} (h : c → Stills s r π)
    (h' : ¬ c → Stills s r' π) : Stills s (if c then r else r') π := returns_ite h h'

/-- Read an inode. -/
theorem Stills.inode {f : Inode → Except Fault β}
    (hf : ∀ x, s.inodes a = some x → Stills s (f x) ρ) :
    Stills s (deref (s.inodes a) >>= f) ρ := by
  cases hx : s.inodes a with
  | none => trivial
  | some x => exact hf x hx

end Rules

/-- A change of the block list of an inode that was read before. -/
theorem tag_setSector (x : Inode) (k : ℕ) (w : UInt32) : (x.setSector k w).tag = x.tag := rfl

theorem sysMalloc_still (s : State) (n : ℕ) : ∃ b t, sysMalloc s n = (b, t) ∧ Still s t :=
  ⟨_, _, rfl, Still.medium s s.disk s.blockBitmap s.inodeBitmap _⟩

theorem ideWrite_still (s : State) (lba : ℕ) (b : Buffer) (off n : ℕ) :
    Stills s (ideWrite s lba b off n) id :=
  Stills.ensure fun _ => Stills.ensure fun _ => Stills.ensure fun _ =>
    Still.medium s _ s.blockBitmap s.inodeBitmap s.heap

theorem bitmapSync_still (s : State) (i : ℕ) (ty : BitmapType) :
    Stills s (bitmapSync s i ty) id := by
  cases ty with
  | inodeBitmap => exact ideWrite_still ..
  | blockBitmap => exact ideWrite_still ..

theorem inodeBitmapAlloc_still (s : State) : Stills s (inodeBitmapAlloc s) Prod.snd := by
  refine Stills.skip fun r => ?_
  cases r with
  | none => exact Still.refl s
  | some i => exact Still.medium s s.disk s.blockBitmap _ s.heap

theorem blockBitmapAlloc_still (s : State) : Stills s (blockBitmapAlloc s) Prod.snd := by
  refine Stills.skip fun r => ?_
  cases r with
  | none => exact Still.refl s
  | some i => exact Still.medium s s.disk _ s.inodeBitmap s.heap

theorem replaceRecord_still (s : State) (pos : InodePosition) (b : Buffer) (src : Image) :
    Stills s (replaceRecord s pos b src) id := by
  refine Stills.ensure fun _ => Stills.ite (fun _ => ?_) fun _ => ?_
  · exact Stills.skip fun _ => Stills.skip fun _ => ideWrite_still ..
  · exact Stills.skip fun _ => Stills.skip fun _ => ideWrite_still ..

theorem inodeSync_still (s : State) (x : Inode) (b : Buffer) : Stills s (inodeSync s x b) id :=
  Stills.skip fun _ => replaceRecord_still ..

theorem inodeDelete_still (s : State) (n : UInt32) (b : Buffer) :
    Stills s (inodeDelete s n b) id :=
  Stills.ensure fun _ => Stills.skip fun _ => replaceRecord_still ..

theorem searchDirEntry_still (s : State) (d : Dir) (name : List UInt8) :
    Stills s (searchDirEntry s d name) Prod.snd := by
  obtain ⟨b, t, hm, ht⟩ := sysMalloc_still s (48 + 512)
  simp only [searchDirEntry, hm]
  cases b with
  | none => exact ht
  | some b =>
    refine Stills.skip fun _ => Stills.skip fun _ => Stills.skip fun _ => ?_
    obtain ⟨b', u, hm', hu⟩ := sysMalloc_still t 512
    simp only [hm']
    exact Stills.skip fun _ => Stills.ensure fun _ => ht.trans hu

theorem syncBlock_still (s : State) (lba : ℕ) : Stills s (syncBlock s lba) id :=
  Stills.ensure fun _ => bitmapSync_still ..

theorem addIndirectTable_still (s : State) (a : InodePtr) (lba : ℕ) (b : Buffer) :
    Stills s (addIndirectTable s a lba b) Prod.snd := by
  refine Stills.inode fun x hx => ?_
  have hset := Still.setInode hx (tag_setSector x 12 (UInt32.ofNat lba))
  refine Returns.bind (blockBitmapAlloc_still _) fun ⟨r, t⟩ ht => ?_
  have hst : Still s t := hset.trans ht
  cases r with
  | none =>
    -- the rollback stores to the inode again
    have htag : (t.inodes a).map Inode.tag = some (x.setSector 12 0).tag := by
      rw [hst.inodes, hx]
      rfl
    exact (hst.trans (Still.medium t t.disk _ t.inodeBitmap t.heap)).trans (Still.store htag)
  | some i =>
    refine Stills.after hst (Stills.bind (syncBlock_still t i) fun _ => Stills.skip fun _ => ?_)
    exact Stills.bind (ideWrite_still ..) fun v => Still.refl v

theorem linkDirBlock_still (s : State) (a : InodePtr) (k lba : ℕ) (b : Buffer) :
    Stills s (linkDirBlock s a k lba b) Prod.snd := by
  refine Stills.ite (fun _ => ?_) fun _ => Stills.ite (fun _ => ?_) fun _ => ?_
  · exact Stills.inode fun x hx => Stills.skip fun _ => Still.setInode hx (tag_setSector x k _)
  · exact addIndirectTable_still s a lba b
  · refine Stills.skip fun _ => Stills.skip fun _ => ?_
    exact Stills.bind (ideWrite_still ..) fun v => Still.refl v

theorem growDir_still (s : State) (a : InodePtr) : Stills s (growDir s a) id :=
  Stills.inode fun _ hx => Still.setInode hx rfl

theorem addDirBlock_still (s : State) (a : InodePtr) (e : DirEntry) (k : ℕ)
    (allBlocks ioBuf : Buffer) : Stills s (addDirBlock s a e k allBlocks ioBuf) Prod.snd := by
  refine Stills.bind (blockBitmapAlloc_still s) fun ⟨r, t⟩ => ?_
  cases r with
  | none => exact Still.refl t
  | some lba =>
    refine Stills.bind (syncBlock_still t lba) fun _ => ?_
    refine Stills.bind (linkDirBlock_still ..) fun ⟨r, u⟩ => ?_
    cases r with
    | none => exact Still.refl u
    | some b =>
      refine Stills.skip fun _ => Stills.skip fun _ => Stills.skip fun _ => ?_
      refine Stills.bind (ideWrite_still ..) fun _ => ?_
      exact Stills.bind (growDir_still ..) fun v => Still.refl v

theorem syncDirLoop_still (a : InodePtr) (e : DirEntry) (allBlocks : Buffer) (s : State)
    (fuel : ℕ) : ∀ k ioBuf, Stills s (syncDirLoop s a e allBlocks fuel k ioBuf) Prod.snd := by
  induction fuel with
  | zero => exact fun _ _ => Still.refl s
  | succ fuel ih =>
    intro k ioBuf
    refine Stills.skip fun lba => Stills.ite (fun _ => addDirBlock_still ..) fun _ => ?_
    refine Stills.skip fun b => ?_
    split
    · refine Stills.skip fun _ => Stills.bind (ideWrite_still ..) fun _ => ?_
      exact Stills.bind (growDir_still ..) fun v => Still.refl v
    · exact ih (k + 1) b

theorem syncDirEntry_still (s : State) (a : InodePtr) (e : DirEntry) (ioBuf : Buffer) :
    Stills s (syncDirEntry s a e ioBuf) Prod.snd :=
  Stills.skip fun _ => Stills.ensure fun _ => Stills.skip fun _ => syncDirLoop_still ..

theorem freeBlock_still (s : State) (lba : UInt32) : Stills s (freeBlock s lba) id := by
  unfold freeBlock
  exact Stills.after (Still.medium s s.disk _ s.inodeBitmap s.heap) (bitmapSync_still ..)

theorem dropDirBlock_still (s : State) (a : InodePtr) (k : ℕ) (lba : UInt32) :
    Stills s (dropDirBlock s a k lba) id := by
  refine Stills.bind (freeBlock_still s lba) fun t => Stills.ite (fun _ => ?_) fun _ => trivial
  exact Stills.inode fun x hx => Still.setInode hx (tag_setSector x k 0)

theorem eraseEntry_still (s : State) (a : InodePtr) (k idx : ℕ) (lba : UInt32) (alone : Bool)
    (b : Buffer) : Stills s (eraseEntry s a k idx lba alone b) id :=
  Stills.ite (fun _ => dropDirBlock_still ..) fun _ => Stills.skip fun _ => ideWrite_still ..

theorem removeEntry_still (s : State) (a : InodePtr) (k idx : ℕ) (lba : UInt32) (alone : Bool)
    (b : Buffer) : Stills s (removeEntry s a k idx lba alone b) id := by
  refine Stills.bind (eraseEntry_still ..) fun t => Stills.inode fun x hx => ?_
  have hset := Still.setInode
    (y := { x with iSize := x.iSize - UInt32.ofNat t.part.dirEntrySize }) hx rfl
  exact Stills.ensure fun _ => Stills.after hset (Stills.skip fun _ => inodeSync_still ..)

theorem deleteLoop_still (a : InodePtr) (n : UInt32) (allBlocks : Buffer) (s : State) (fuel : ℕ) :
    ∀ k ioBuf, Stills s (deleteLoop a n allBlocks fuel k ioBuf s) Prod.snd := by
  induction fuel with
  | zero => exact fun _ _ => Still.refl s
  | succ fuel ih =>
    intro k ioBuf
    refine Stills.skip fun lba => Stills.ite (fun _ => ih (k + 1) ioBuf) fun _ => ?_
    refine Stills.skip fun _ => Stills.skip fun b => Stills.skip fun r => ?_
    split
    · exact ih (k + 1) b
    · exact Stills.bind (removeEntry_still ..) fun v => Still.refl v

theorem deleteDirEntry_still (s : State) (d : Dir) (n : UInt32) (b : Buffer) :
    Stills s (deleteDirEntry s d n b) Prod.snd :=
  Stills.skip fun _ => Stills.skip fun _ => deleteLoop_still ..

theorem releaseBlocks_still (allBlocks : Buffer) (fuel : ℕ) :
    ∀ k s, Stills s (releaseBlocks allBlocks fuel k s) id := by
  induction fuel with
  | zero => exact fun _ s => Still.refl s
  | succ fuel ih =>
    intro k s
    refine Stills.skip fun lba => Stills.ite (fun _ => ih (k + 1) s) fun _ => ?_
    exact Stills.ensure fun _ => Stills.bind (freeBlock_still s lba) fun t => ih (k + 1) t

theorem releaseTable_still (s : State) (x : Inode) : Stills s (releaseTable s x) id :=
  Stills.ite (fun _ => Stills.ensure fun _ => freeBlock_still ..) fun _ => Still.refl s

section Data

theorem setFile_still {g : ℕ} {f f' : File} (hf : s.fileTable[g]? = some f)
    (h : f'.key = f.key) : Still s (s.setFile g f') := by
  refine ⟨⟨fun j => ?_, rfl⟩, fun _ => rfl, rfl, rfl, rfl, rfl, rfl⟩
  by_cases hj : j = g
  · subst hj
    obtain ⟨hlt, hget⟩ := Vector.getElem?_eq_some_iff.mp hf
    simp [State.setFile, hget, h, hlt]
  · simp [State.setFile, Ne.symm hj]

/-- Reading a slot. -/
theorem Stills.file {β : Type} {ρ : β → State} {g : ℕ} {f : File → Except Fault β}
    (hf : ∀ x, s.fileTable[g]? = some x → Stills s (f x) ρ) :
    Stills s (s.file g >>= f) ρ := by
  unfold State.file
  cases hx : s.fileTable[g]? with
  | none => trivial
  | some x => exact hf x hx

theorem firstFileBlock_still (s : State) (a : InodePtr) :
    Stills s (firstFileBlock s a) Prod.snd := by
  refine Stills.inode fun x hx => Stills.ite (fun _ => ?_) fun _ => Still.refl s
  refine Returns.bind (blockBitmapAlloc_still s) fun ⟨r, t⟩ ht => ?_
  cases r with
  | none => exact ht
  | some lba =>
    have htag : (t.inodes a).map Inode.tag = some (x.setSector 0 (UInt32.ofNat lba)).tag := by
      rw [ht.inodes, hx]
      rfl
    refine Stills.ensure fun _ => Stills.after (Still.trans ht (Still.store htag)) ?_
    exact Stills.bind (bitmapSync_still ..) fun v => Still.refl v

theorem linkFileBlock_still (s : State) (a : InodePtr) (k : ℕ) (lba : UInt32) (b : Buffer) :
    Stills s (linkFileBlock s a k lba b) Prod.snd := by
  refine Stills.ite (fun _ => ?_) fun _ => Stills.skip fun _ => Still.refl s
  refine Stills.inode fun x hx => Stills.ensure fun _ => Stills.skip fun _ => ?_
  exact Still.setInode hx (tag_setSector x k lba)

theorem allocFileBlocks_still (a : InodePtr) (will fuel : ℕ) :
    ∀ k b s, Stills s (allocFileBlocks a will fuel k b s) Prod.snd := by
  induction fuel with
  | zero => exact fun _ _ s => Stills.ite (fun _ => trivial) fun _ => Still.refl s
  | succ fuel ih =>
    intro k b s
    refine Stills.ite (fun _ => ?_) fun _ => Still.refl s
    refine Stills.bind (blockBitmapAlloc_still s) fun ⟨r, t⟩ => ?_
    cases r with
    | none => exact Still.refl t
    | some lba =>
      refine Stills.bind (linkFileBlock_still ..) fun ⟨b, u⟩ => ?_
      exact Stills.bind (bitmapSync_still ..) fun v => ih (k + 1) b v

theorem addFileTable_still (s : State) (a : InodePtr) (used will : ℕ) (b : Buffer) :
    Stills s (addFileTable s a used will b) Prod.snd := by
  refine Stills.inode fun x hx => Stills.skip fun b => ?_
  refine Returns.bind (blockBitmapAlloc_still s) fun ⟨r, t⟩ ht => ?_
  cases r with
  | none => exact ht
  | some table =>
    have htag : (t.inodes a).map Inode.tag = some (x.setSector 12 (UInt32.ofNat table)).tag := by
      rw [ht.inodes, hx]
      rfl
    refine Stills.ensure fun _ => Stills.after (Still.trans ht (Still.store htag)) ?_
    refine Stills.bind (allocFileBlocks_still ..) fun ⟨r, u⟩ => ?_
    cases r with
    | none => exact Still.refl u
    | some b => exact Stills.bind (ideWrite_still ..) fun v => Still.refl v

theorem extendFileTable_still (s : State) (a : InodePtr) (used will : ℕ) (b : Buffer) :
    Stills s (extendFileTable s a used will b) Prod.snd := by
  refine Stills.skip fun x => Stills.ensure fun _ => Stills.skip fun b => ?_
  refine Stills.bind (allocFileBlocks_still ..) fun ⟨r, u⟩ => ?_
  cases r with
  | none => exact Still.refl u
  | some b => exact Stills.bind (ideWrite_still ..) fun v => Still.refl v

theorem collectWriteBlocks_still (s : State) (a : InodePtr) (used will : ℕ) (b : Buffer) :
    Stills s (collectWriteBlocks s a used will b) Prod.snd := by
  refine Stills.ite (fun _ => Stills.skip fun _ => Still.refl s) fun _ => ?_
  refine Stills.ite (fun _ => ?_) fun _ => Stills.ite (fun _ => ?_) fun _ => ?_
  · refine Stills.skip fun x => Stills.skip fun lba => Stills.ensure fun _ => ?_
    exact Stills.skip fun _ => allocFileBlocks_still ..
  · exact addFileTable_still ..
  · exact extendFileTable_still ..

/-- The slot is not that of a pipe. -/
def FileSlot (s : State) (g : ℕ) : Prop :=
  ∀ f, s.fileTable[g]? = some f → f.fdFlag ≠ pipeFlag

theorem SameTables.fileSlot {g : ℕ} (h : SameTables s t) (hs : FileSlot s g) :
    FileSlot t g := by
  intro f hf
  have hkey := h.slots g
  rw [hf] at hkey
  cases hf' : s.fileTable[g]? with
  | none => simp [hf'] at hkey
  | some f' =>
    have hflag : f.fdFlag = f'.fdFlag := by
      rw [hf'] at hkey
      exact congrArg (·.1) (Option.some.inj hkey)
    exact hflag ▸ hs f' hf'

/-- The position of a file is not part of its slot's key. -/
theorem advance_still {g : ℕ} (hs : FileSlot s g) (n : UInt32) : Stills s (advance s g n) id :=
  Stills.file fun x hx => setFile_still hx (by simp [File.key, hs x hx])

theorem writeLoop_still {g : ℕ} (a : InodePtr) (src : Image) (allBlocks : Buffer) (fuel : ℕ) :
    ∀ done left first ioBuf s, FileSlot s g →
      Stills s (writeLoop g a src allBlocks fuel done left first ioBuf s) Prod.snd := by
  induction fuel with
  | zero => exact fun _ _ _ _ s _ => Stills.ite (fun _ => Still.refl s) fun _ => trivial
  | succ fuel ih =>
    intro done left first ioBuf s hs
    refine Stills.ite (fun _ => Still.refl s) fun _ => Stills.skip fun b => ?_
    refine Stills.inode fun x hx => Stills.skip fun lba => Stills.skip fun b => ?_
    refine Stills.skip fun b => Returns.bind (ideWrite_still ..) fun t ht => ?_
    have hst : Still s t := ht
    let y : Inode :=
      { x with iSize := x.iSize + UInt32.ofNat (min left (512 - x.iSize.toNat % 512)) }
    have hy : (t.inodes a).map Inode.tag = some y.tag := by
      rw [hst.inodes, hx]
      rfl
    have hu := hst.trans (Still.store hy)
    refine Stills.after hu (Returns.bind (advance_still (hu.tables.fileSlot hs) _) fun v hv => ?_)
    exact Stills.after hv (ih _ _ _ _ v (SameTables.fileSlot (hu.trans hv).tables hs))

theorem writeData_still {g : ℕ} (hs : FileSlot s g) (a : InodePtr) (src : Image) (count : UInt32)
    (allBlocks ioBuf : Buffer) :
    Stills s (writeData s g a src count allBlocks ioBuf) Prod.snd := by
  refine Stills.skip fun x => Stills.file fun f hf => ?_
  have hset : Still _ (State.setFile _ g { f with fdPos := x.iSize - 1 }) :=
    setFile_still hf (by simp [File.key, hs f hf])
  have hloop := writeLoop_still a src allBlocks count.toNat 0 count.toNat true ioBuf _
    (hset.tables.fileSlot hs)
  refine Stills.after hset (Stills.bind hloop fun ⟨b, t⟩ => Stills.skip fun x => ?_)
  exact Stills.bind (inodeSync_still ..) fun t => Still.refl t

theorem fileWrite_still {g : ℕ} (hs : FileSlot s g) (src : Image) (count : UInt32) :
    Stills s (fileWrite s g src count) Prod.snd := by
  refine Stills.skip fun a => Stills.skip fun x => Stills.ite (fun _ => Still.refl s) fun _ => ?_
  obtain ⟨b, t, hm, ht⟩ := sysMalloc_still s 512
  simp only [hm]
  cases b with
  | none => exact ht
  | some ioBuf =>
    obtain ⟨b, u, hm, hu⟩ := sysMalloc_still t (512 + 48)
    have hsu := ht.trans hu
    simp only [hm]
    cases b with
    | none => exact hsu
    | some b =>
      refine Stills.after hsu (Returns.bind (firstFileBlock_still u a) ?_)
      rintro ⟨done, v⟩ hv
      cases done with
      | false => exact hv
      | true =>
        refine Stills.after hv (Stills.ensure fun _ => ?_)
        apply Returns.bind (collectWriteBlocks_still ..)
        rintro ⟨b, w⟩ hw
        cases b with
        | none => exact hw
        | some b =>
          have hsw := SameTables.fileSlot ((hsu.trans hv).trans hw).tables hs
          exact Stills.after hw (writeData_still hsw ..)

theorem readLoop_still {g : ℕ} (allBlocks : Buffer) (fuel : ℕ) :
    ∀ done left ioBuf dst s, FileSlot s g →
      Stills s (readLoop g allBlocks fuel done left ioBuf dst s) Prod.snd := by
  induction fuel with
  | zero => exact fun _ _ _ _ s _ => Stills.ite (fun _ => Still.refl s) fun _ => trivial
  | succ fuel ih =>
    intro done left ioBuf dst s hs
    refine Stills.ite (fun _ => Still.refl s) fun _ => Stills.skip fun f => ?_
    refine Stills.skip fun lba => Stills.skip fun b => Stills.skip fun b => ?_
    refine Returns.bind (advance_still hs _) fun t ht => ?_
    exact Stills.after ht (ih _ _ _ _ t (SameTables.fileSlot (Still.tables ht) hs))

theorem fileRead_still {g : ℕ} (hs : FileSlot s g) (dst : Image) (count : UInt32) :
    Stills s (fileRead s g dst count) (·.2.2) := by
  refine Stills.skip fun f => Stills.skip fun a => Stills.skip fun x => ?_
  refine Stills.ite (fun _ => Still.refl s) fun _ => ?_
  obtain ⟨b, t, hm, ht⟩ := sysMalloc_still s 512
  simp only [hm]
  cases b with
  | none => exact ht
  | some ioBuf =>
    obtain ⟨b, u, hm, hu⟩ := sysMalloc_still t (512 + 48)
    have hsu := ht.trans hu
    simp only [hm]
    cases b with
    | none => exact hsu
    | some b =>
      refine Stills.after hsu (Stills.ensure fun _ => Stills.skip fun b => ?_)
      refine Stills.bind (readLoop_still (g := g) b _ _ _ _ _ u ?_) fun v => Still.refl v.2
      exact hsu.tables.fileSlot hs

end Data

end X86System.FileSystem
