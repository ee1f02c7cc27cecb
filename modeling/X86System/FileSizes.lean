import X86System.DescriptorCalls
import X86System.Backing
import X86System.FileWrites

/-!
# Sizes of files

`sys_open` fills a slot of `file_table` anew, with position 0, and a directory that gets a
name grows by one entry. Nothing else that it does, and nothing that gives a file blocks,
changes a size.
-/
namespace X86System.FileSystem
open Bytes Exec

/-- From `s` to `t` no inode's size changes but as `R` allows, and a slot that changes is
filled anew. -/
structure Sized (R : ℕ → ℕ → Prop) (s t : State) : Prop where
  nextInode : s.nextInode ≤ t.nextInode
  sizes : ∀ a < s.nextInode, ∀ y, t.inodes a = some y →
    ∃ x, s.inodes a = some x ∧ R x.iSize.toNat y.iSize.toNat
  files : ∀ (g : ℕ) f, t.fileTable[g]? = some f → s.fileTable[g]? = some f ∨
    f.fdPos = 0 ∧ ∀ b, f.fdInode = some b → b < t.nextInode

/-- The sizes and the slots are those of before. -/
abbrev SameSizes : State → State → Prop := Sized Eq

section Sized

variable {R : ℕ → ℕ → Prop} {s t u : State} {a : InodePtr} {x y : Inode}

theorem Sized.of_inodes [Std.Refl R] (hinodes : t.inodes = s.inodes)
    (hnext : t.nextInode = s.nextInode) (hfiles : t.fileTable = s.fileTable) : Sized R s t where
  nextInode := hnext.ge
  sizes _ _ y hy := ⟨y, hinodes ▸ hy, Std.Refl.refl _⟩
  files _ _ hf := .inl (hfiles ▸ hf)

theorem SameSizes.refl (s : State) : SameSizes s s := Sized.of_inodes rfl rfl rfl

instance [IsTrans ℕ R] : IsTrans State (Sized R) where
  trans s t u h h' :=
    { nextInode := h.nextInode.trans h'.nextInode
      sizes := by
        intro a ha z hz
        obtain ⟨y, hy, hyz⟩ := h'.sizes a (ha.trans_le h.nextInode) z hz
        obtain ⟨x, hx, hxy⟩ := h.sizes a ha y hy
        exact ⟨x, hx, IsTrans.trans _ _ _ hxy hyz⟩
      files := by
        intro g f hf
        obtain hf | hf := h'.files g f hf
        · refine (h.files g f hf).imp_right fun ⟨hpos, hb⟩ => ⟨hpos, fun b hbf => ?_⟩
          exact (hb b hbf).trans_le h'.nextInode
        · exact .inr hf }

theorem Sized.mono {R' : ℕ → ℕ → Prop} (h : Sized R s t) (hR : ∀ m n, R m n → R' m n) :
    Sized R' s t where
  nextInode := h.nextInode
  sizes a ha y hy := (h.sizes a ha y hy).imp fun _ hx => ⟨hx.1, hR _ _ hx.2⟩
  files := h.files

theorem SameSizes.le (h : SameSizes s t) : Sized (· ≤ ·) s t := h.mono fun _ _ hmn => hmn.le

/-- The disk, the bitmaps and the supply of memory do not matter. -/
theorem SameSizes.medium (s : State) (d : Image) (b b' : Bitmap) (heap : ℕ → Bool) :
    SameSizes s { s with disk := d, blockBitmap := b, inodeBitmap := b', heap := heap } :=
  Sized.of_inodes rfl rfl rfl

/-- Store to an inode. -/
theorem Sized.setInode [Std.Refl R] (hx : s.inodes a = some x) (hR : R x.iSize.toNat y.iSize.toNat) :
    Sized R s (s.setInode a y) where
  nextInode := le_rfl
  sizes b hb z hz := by
    by_cases hba : b = a
    · subst hba
      obtain rfl : y = z := Option.some.inj ((setInode_inodes_self s b y).symm.trans hz)
      exact ⟨x, hx, hR⟩
    · rw [setInode_inodes_of_ne s a y hba] at hz
      exact ⟨z, hz, Std.Refl.refl _⟩
  files _ _ hf := .inl hf

/-- Store to an inode that was not there. -/
theorem Sized.setNew [Std.Refl R] (h : Sized R s t) (ha : s.nextInode ≤ a) (o : Option Inode) :
    Sized R s { t with inodes := Function.update t.inodes a o } where
  nextInode := h.nextInode
  sizes b hb z hz := by
    refine h.sizes b hb z ?_
    simpa [(hb.trans_le ha).ne] using hz
  files := h.files

/-- An inode goes. -/
theorem SameSizes.remove (s : State) (a : InodePtr) (l : List InodePtr) :
    SameSizes s { s with openInodes := l, inodes := Function.update s.inodes a none } where
  nextInode := le_rfl
  sizes b hb z hz := by
    by_cases hba : b = a
    · simp [hba] at hz
    · exact ⟨z, by simpa [hba] using hz, rfl⟩
  files _ _ hf := .inl hf

/-- A slot is filled. -/
theorem Sized.setFile (h : Sized R s t) (g : ℕ) (flag : UInt32) {o : Option InodePtr}
    (ho : ∀ b, o = some b → b < t.nextInode) : Sized R s (t.setFile g ⟨0, flag, o⟩) where
  nextInode := h.nextInode
  sizes := h.sizes
  files j f hf := by
    by_cases hjg : j = g
    · subst hjg
      simp only [State.setFile, Vector.getElem?_setIfInBounds_self] at hf
      split_ifs at hf
      obtain rfl := Option.some.inj hf
      exact .inr ⟨rfl, ho⟩
    · rw [setFile_of_ne hjg] at hf
      exact h.files j f hf

end Sized

section Opening

variable {s s₀ t u : State} {a : InodePtr} {x : Inode}

/-- Use what a pointer refers to. -/
theorem returns_deref {γ β : Type} {o : Option γ} {Q : β → Prop} {f : γ → Except Fault β}
    (hf : ∀ x, o = some x → Returns (f x) Q) : Returns (deref o >>= f) Q := by
  cases o with
  | none => trivial
  | some x => exact hf x rfl

theorem sysMalloc_sizes (s : State) (n : ℕ) :
    ∃ b t, sysMalloc s n = (b, t) ∧ SameSizes s t ∧ t.inodes = s.inodes :=
  ⟨_, _, rfl, SameSizes.medium s s.disk s.blockBitmap s.inodeBitmap _, rfl⟩

/-- Nothing changes but the disk. -/
def OnlyDisk (s t : State) : Prop := ∃ d, t = s.setDisk d

instance : IsTrans State OnlyDisk where
  trans := by
    rintro s t u ⟨d, rfl⟩ ⟨d', rfl⟩
    exact ⟨d', rfl⟩

theorem OnlyDisk.sizes (h : OnlyDisk s t) : SameSizes s t := by
  obtain ⟨d, rfl⟩ := h
  exact SameSizes.medium s d s.blockBitmap s.inodeBitmap s.heap

theorem leads_sizes {α : Type} {π : α → State} {r : Except Fault α} (h : Leads OnlyDisk s r π) :
    Leads SameSizes s r π := h.mono fun _ hv => OnlyDisk.sizes hv

theorem ideWrite_disk (s : State) (lba : ℕ) (b : Buffer) (off n : ℕ) :
    Leads OnlyDisk s (ideWrite s lba b off n) id :=
  Leads.ensure fun _ => Leads.ensure fun _ => Leads.ensure fun _ => ⟨_, rfl⟩

theorem bitmapSync_disk (s : State) (i : ℕ) (ty : BitmapType) :
    Leads OnlyDisk s (bitmapSync s i ty) id := by
  cases ty with
  | inodeBitmap => exact ideWrite_disk ..
  | blockBitmap => exact ideWrite_disk ..

theorem syncBlock_disk (s : State) (lba : ℕ) : Leads OnlyDisk s (syncBlock s lba) id :=
  Leads.ensure fun _ => bitmapSync_disk ..

theorem inodeBitmapAlloc_sizes (s : State) :
    Leads SameSizes s (inodeBitmapAlloc s) Prod.snd := by
  refine Leads.skip fun r => ?_
  cases r with
  | none => exact SameSizes.refl s
  | some i => exact SameSizes.medium s s.disk s.blockBitmap _ s.heap

/-- Taking a block changes no inode at all. -/
theorem blockBitmapAlloc_sizes (s : State) :
    Leads (fun s t => t.inodes = s.inodes ∧ SameSizes s t) s (blockBitmapAlloc s) Prod.snd := by
  refine Leads.skip fun r => ?_
  cases r with
  | none => exact ⟨rfl, SameSizes.refl s⟩
  | some i => exact ⟨rfl, SameSizes.medium s s.disk _ s.inodeBitmap s.heap⟩

theorem inodeSync_disk (s : State) (x : Inode) (b : Buffer) :
    Leads OnlyDisk s (inodeSync s x b) id := by
  refine Leads.skip fun pos => Leads.ensure fun _ => Leads.ite (fun _ => ?_) fun _ => ?_
  · exact Leads.skip fun _ => Leads.skip fun _ => ideWrite_disk ..
  · exact Leads.skip fun _ => Leads.skip fun _ => ideWrite_disk ..

theorem inodeLoad_sizes (s : State) (n : UInt32) : Leads SameSizes s (inodeLoad s n) Prod.snd := by
  unfold inodeLoad
  refine Leads.skip fun pos => ?_
  by_cases hheap : s.heap 0 = true
  · simp only [mallocInode, hheap, if_true]
    refine Leads.skip fun b => Leads.skip fun b => returns_bind fun a ha => ?_
    obtain rfl : s.nextInode = a := by simpa using ha
    exact
      { nextInode := Nat.le_succ _
        sizes := fun b hb y hy => ⟨y, by simpa [State.setInode, sysMalloc, hb.ne] using hy, rfl⟩
        files := fun _ _ hf => .inl hf }
  · simp only [mallocInode, hheap]
    exact Leads.skip fun b => Leads.skip fun b => trivial

theorem inodeOpen_sizes (s : State) (n : UInt32) : Leads SameSizes s (inodeOpen s n) Prod.snd := by
  refine Leads.skip fun r => ?_
  cases r with
  | none => exact inodeLoad_sizes s n
  | some a => exact returns_deref fun x hx => Sized.setInode hx rfl

theorem inodeClose_sizes (s : State) (a : InodePtr) : Leads SameSizes s (inodeClose s a) id :=
  returns_deref fun _ hx => Leads.ite (fun _ => SameSizes.remove s a _) fun _ =>
    Sized.setInode hx rfl

/-- What holds of a request for memory and of an inode that is opened or closed holds of a search,
which does nothing else. -/
structure Browsing (R : State → State → Prop) : Prop where
  refl : ∀ s, R s s
  sysMalloc : ∀ s n, R s (sysMalloc s n).2
  inodeOpen : ∀ s n, Leads R s (inodeOpen s n) Prod.snd
  inodeClose : ∀ s a, Leads R s (inodeClose s a) id

section Browsing

variable {R : State → State → Prop} [IsTrans State R]

theorem Browsing.dirOpen (h : Browsing R) (s : State) (n : UInt32) :
    Leads R s (dirOpen s n) Prod.snd := by
  refine Leads.after (h.sysMalloc s 520) (Leads.skip fun b => ?_)
  exact Leads.bind (h.inodeOpen _ n) fun v => h.refl v.2

omit [IsTrans State R] in
theorem Browsing.dirClose (h : Browsing R) (s : State) (d : Dir) : Leads R s (dirClose s d) id := by
  cases d with
  | root => exact h.refl s
  | opened a => exact h.inodeClose s a

theorem Browsing.searchDirEntry (h : Browsing R) (s : State) (d : Dir) (name : List UInt8) :
    Leads R s (searchDirEntry s d name) Prod.snd := by
  unfold FileSystem.searchDirEntry
  dsimp only
  cases (FileSystem.sysMalloc s (48 + 512)).1 with
  | none => exact h.sysMalloc s (48 + 512)
  | some b =>
    refine Leads.after (h.sysMalloc s (48 + 512)) ?_
    refine Leads.skip fun x => Leads.skip fun b => Leads.skip fun b => ?_
    refine Leads.after (h.sysMalloc _ 512) (Leads.skip fun e => Leads.ensure fun _ => ?_)
    exact h.refl _

theorem Browsing.enterDir (h : Browsing R) (s : State) (d : Dir) (n : UInt32) :
    Leads R s (enterDir s d n) (·.2.2) := by
  refine Leads.skip fun x => Leads.bind (h.dirClose s d) fun t => ?_
  exact Leads.bind (h.dirOpen t n) fun v => h.refl v.2

theorem Browsing.finishSearch (h : Browsing R) (s : State) (r : PathSearchRecord) (n : UInt32)
    (dirE : Option DirEntry) : Leads R s (finishSearch s r n dirE) (·.2.2) := by
  refine Leads.bind (h.dirClose s r.parentDir) fun t => Leads.bind (h.dirOpen t n) fun v => ?_
  cases dirE with
  | none => trivial
  | some e => exact h.refl v.2

theorem Browsing.searchLoop (h : Browsing R) (fuel : ℕ) : ∀ (s : State) (r : PathSearchRecord)
    (n : UInt32) (name : List UInt8) (subPath : Option (List UInt8)) (dirE : Option DirEntry),
    Leads R s (searchLoop fuel s r n name subPath dirE) (·.2.2) := by
  induction fuel with
  | zero => exact fun _ _ _ _ _ _ => trivial
  | succ fuel ih =>
    intro s r n name subPath dirE
    refine Leads.ite (fun _ => h.finishSearch ..) fun _ => Leads.ensure fun _ =>
      Leads.ensure fun _ => Leads.bind (h.searchDirEntry ..) fun ⟨e, t⟩ => ?_
    cases e with
    | none => exact h.refl t
    | some e =>
      refine Leads.skip fun w => Leads.ite (fun _ => ?_) fun _ => Leads.ite (fun _ => ?_) fun _ => ?_
      · exact Leads.bind (h.enterDir ..) fun v => ih ..
      · exact h.refl t
      · exact ih ..

theorem Browsing.searchFile (h : Browsing R) (s : State) (path : List UInt8) :
    Leads R s (searchFile s path) (·.2.2) :=
  Leads.ite (fun _ => h.refl s) fun _ => Leads.ensure fun _ => Leads.skip fun _ =>
    h.searchLoop ..

end Browsing

/-- Searching changes no size. -/
theorem sizes_browsing : Browsing SameSizes where
  refl := SameSizes.refl
  sysMalloc s _ := SameSizes.medium s s.disk s.blockBitmap s.inodeBitmap _
  inodeOpen := inodeOpen_sizes
  inodeClose := inodeClose_sizes

/-- From `s` to `t` the directory got an entry, at most. -/
def GrownDir (a : InodePtr) (s t : State) : Prop :=
  ∃ u, SameSizes s u ∧ (t = u ∨ growDir u a = .ok t)

theorem SameSizes.grownDir (h : SameSizes s t) : GrownDir a s t := ⟨t, h, .inl rfl⟩

theorem GrownDir.after (h : SameSizes s t) (h' : GrownDir a t u) : GrownDir a s u := by
  obtain ⟨v, hv, hu⟩ := h'
  exact ⟨v, IsTrans.trans _ _ _ h hv, hu⟩

theorem leads_grownDir {α β : Type} {π : α → State} {ρ : β → State} {r : Except Fault α}
    {f : α → Except Fault β} (h : Leads SameSizes s r π)
    (hf : ∀ v, Leads (GrownDir a) (π v) (f v) ρ) : Leads (GrownDir a) s (r >>= f) ρ :=
  Returns.bind h fun v hv => (hf v).mono fun _ hw => GrownDir.after hv hw

/-- The last step of `sync_dir_entry`. -/
theorem growDir_grown (s : State) (a : InodePtr) (done : Bool) :
    Leads (GrownDir a) s (growDir s a >>= fun t => .ok (done, t)) Prod.snd :=
  returns_bind fun _ ht => ⟨s, SameSizes.refl s, .inr ht⟩

theorem addIndirectTable_sizes (s : State) (a : InodePtr) (lba : ℕ) (b : Buffer) :
    Leads SameSizes s (addIndirectTable s a lba b) Prod.snd := by
  refine returns_deref fun x hx => ?_
  have hset : SameSizes s (s.setInode a (x.setSector 12 (UInt32.ofNat lba))) :=
    Sized.setInode hx rfl
  refine Leads.after hset (Returns.bind (blockBitmapAlloc_sizes _) fun ⟨r, t⟩ ⟨hinodes, ht⟩ => ?_)
  cases r with
  | none =>
    -- the rollback stores to the inode again
    have hx' : t.inodes a = some (x.setSector 12 (UInt32.ofNat lba)) := by
      rw [hinodes]
      exact setInode_inodes_self ..
    have hback : SameSizes t (t.setInode a (x.setSector 12 0)) := Sized.setInode hx' rfl
    exact IsTrans.trans _ _ _ ht
      (IsTrans.trans _ _ _ hback (SameSizes.medium _ t.disk _ t.inodeBitmap t.heap))
  | some i =>
    refine Leads.after ht (Leads.bind (leads_sizes (syncBlock_disk t i)) fun _ => ?_)
    exact Leads.skip fun _ => Leads.bind (leads_sizes (ideWrite_disk ..)) fun v => SameSizes.refl v

theorem linkDirBlock_sizes (s : State) (a : InodePtr) (k lba : ℕ) (b : Buffer) :
    Leads SameSizes s (linkDirBlock s a k lba b) Prod.snd := by
  refine Leads.ite (fun _ => ?_) fun _ => Leads.ite (fun _ => ?_) fun _ => ?_
  · exact returns_deref fun x hx => Leads.skip fun _ => Sized.setInode hx rfl
  · exact addIndirectTable_sizes s a lba b
  · refine Leads.skip fun _ => Leads.skip fun _ => ?_
    exact Leads.bind (leads_sizes (ideWrite_disk ..)) fun v => SameSizes.refl v

theorem addDirBlock_grown (s : State) (a : InodePtr) (e : DirEntry) (k : ℕ)
    (allBlocks ioBuf : Buffer) :
    Leads (GrownDir a) s (addDirBlock s a e k allBlocks ioBuf) Prod.snd := by
  refine leads_grownDir ((blockBitmapAlloc_sizes s).mono fun _ h => h.2) fun ⟨r, t⟩ => ?_
  cases r with
  | none => exact (SameSizes.refl t).grownDir
  | some lba =>
    refine leads_grownDir (leads_sizes (syncBlock_disk t lba)) fun _ => ?_
    refine leads_grownDir (linkDirBlock_sizes ..) fun ⟨r, u⟩ => ?_
    cases r with
    | none => exact (SameSizes.refl u).grownDir
    | some b =>
      refine Leads.skip fun _ => Leads.skip fun _ => Leads.skip fun _ => ?_
      exact leads_grownDir (leads_sizes (ideWrite_disk ..)) fun v => growDir_grown v a true

theorem syncDirLoop_grown (a : InodePtr) (e : DirEntry) (allBlocks : Buffer) (s : State)
    (fuel : ℕ) : ∀ k ioBuf,
    Leads (GrownDir a) s (syncDirLoop s a e allBlocks fuel k ioBuf) Prod.snd := by
  induction fuel with
  | zero => exact fun _ _ => (SameSizes.refl s).grownDir
  | succ fuel ih =>
    intro k ioBuf
    refine Leads.skip fun lba => Leads.ite (fun _ => addDirBlock_grown ..) fun _ => ?_
    refine Leads.skip fun b => ?_
    split
    · refine Leads.skip fun _ => leads_grownDir (leads_sizes (ideWrite_disk ..)) fun v => ?_
      exact growDir_grown v a true
    · exact ih (k + 1) b

theorem syncDirEntry_grown (s : State) (a : InodePtr) (e : DirEntry) (ioBuf : Buffer) :
    Leads (GrownDir a) s (syncDirEntry s a e ioBuf) Prod.snd :=
  Leads.skip fun _ => Leads.ensure fun _ => Leads.skip fun _ => syncDirLoop_grown ..

/-- A size that has room for one more entry. -/
def Inode.roomy (x : Inode) : Prop := x.iSize.toNat + direntSize < 2 ^ 32

/-- No size of before goes down, if each had room. -/
theorem GrownDir.le (hroom : ∀ b x, s₀.inodes b = some x → x.roomy) (h : SameSizes s₀ s)
    (h' : GrownDir a s t) : Sized (· ≤ ·) s₀ t := by
  obtain ⟨u, hu, htu⟩ := h'
  have h0 : SameSizes s₀ u := IsTrans.trans _ _ _ h hu
  obtain rfl | hgrow := htu
  · exact h0.le
  obtain ⟨x, hx, hgrow⟩ : ∃ x, u.inodes a = some x ∧
      .ok (u.setInode a { x with iSize := x.iSize + UInt32.ofNat u.part.dirEntrySize }) =
        (.ok t : Except Fault State) := by
    unfold growDir at hgrow
    cases hx : u.inodes a with
    | none =>
      rw [hx] at hgrow
      cases hgrow
    | some x =>
      rw [hx] at hgrow
      exact ⟨x, rfl, hgrow⟩
  obtain rfl := Except.ok.inj hgrow
  refine ⟨h0.nextInode, fun b hb y hy => ?_, h0.files⟩
  by_cases hba : b = a
  · subst hba
    obtain ⟨x', hx', heq⟩ := h0.sizes b hb x hx
    obtain rfl := Option.some.inj ((setInode_inodes_self ..).symm.trans hy)
    have hroomy := hroom b x' hx'
    refine ⟨x', hx', ?_⟩
    unfold Inode.roomy at hroomy
    change x'.iSize.toNat ≤ (x.iSize + UInt32.ofNat u.part.dirEntrySize).toNat
    have hentry : (UInt32.ofNat u.part.dirEntrySize).toNat = direntSize := by
      rw [u.part.dirEntrySize_eq]
      rfl
    rw [UInt32.toNat_add, hentry, ← heq, Nat.mod_eq_of_lt hroomy]
    exact Nat.le_add_right _ _
  · rw [setInode_inodes_of_ne u a _ hba] at hy
    obtain ⟨x', hx', heq⟩ := h0.sizes b hb y hy
    exact ⟨x', hx', heq.le⟩

theorem pcbFdInstall_sizes (s : State) (g : ℕ) : Leads SameSizes s (pcbFdInstall s g) Prod.snd := by
  refine (pcbFdInstall_spec s g).mono fun r hr => ?_
  rcases hr with ⟨rfl, -⟩ | ⟨task, fd, -, -, -, rfl⟩
  · exact SameSizes.refl s
  · exact Sized.of_inodes rfl rfl rfl

theorem enrolFile_sizes (s : State) (parent a : InodePtr) (n g : ℕ) :
    Leads SameSizes s (enrolFile s parent a n g) Prod.snd := by
  refine Leads.skip fun x => Leads.bind (leads_sizes (inodeSync_disk ..)) fun t =>
    returns_deref fun y hy => ?_
  refine Returns.bind (inodeSync_disk ..) fun u ⟨d, hu⟩ => ?_
  refine Returns.bind (bitmapSync_disk ..) fun v ⟨d', hv⟩ => ?_
  subst hu
  subst hv
  have hset : SameSizes t (t.setInode a { y with iOpenCnts := 1 }) := Sized.setInode hy rfl
  refine Leads.after (t := { t.setInode a { y with iOpenCnts := 1 } with
    disk := d', openInodes := a :: t.openInodes }) ?_ (pcbFdInstall_sizes ..)
  exact IsTrans.trans _ _ _ hset (Sized.of_inodes rfl rfl rfl)

/-- Sizes that never went down, and then stay. -/
theorem Sized.thenSame (h : Sized (· ≤ ·) s t) (h' : SameSizes t u) : Sized (· ≤ ·) s u :=
  IsTrans.trans _ _ _ h h'.le

theorem createInDir_sizes (hroom : ∀ b x, s₀.inodes b = some x → x.roomy) (h : SameSizes s₀ s)
    (ha : s₀.nextInode ≤ a) (hlt : a < s.nextInode) (parent : InodePtr) (name : List UInt8)
    (flag : UInt8) (n : ℕ) (b : Buffer) :
    Leads (Sized (· ≤ ·)) s₀ (createInDir s parent name flag n a b) Prod.snd := by
  unfold createInDir
  dsimp only
  have hinit : SameSizes s₀ (s.setInode a (inodeInit (UInt32.ofNat n))) := h.setNew ha _
  have hdrop : ∀ {t : State}, Sized (· ≤ ·) s₀ t →
      Sized (· ≤ ·) s₀ ((t.freeInode a).dropInodeNo n) := fun {t} ht =>
    (ht.setNew ha none).thenSame
      (SameSizes.medium (t.freeInode a) t.disk t.blockBitmap _ t.heap)
  cases hslot : getFreeSlotInGlobal (s.setInode a (inodeInit (UInt32.ofNat n))) with
  | none => exact hdrop hinit.le
  | some g =>
    have hset : SameSizes s₀ ((s.setInode a (inodeInit (UInt32.ofNat n))).setFile g
        ⟨0, flag.toUInt32, some a⟩) := by
      refine hinit.setFile g _ fun b hb => ?_
      obtain rfl := Option.some.inj hb
      exact hlt
    refine Leads.skip fun e => Returns.bind (syncDirEntry_grown ..) fun ⟨done, t⟩ ht => ?_
    have hgrown : Sized (· ≤ ·) s₀ t := GrownDir.le hroom hset ht
    cases done with
    | true => exact (enrolFile_sizes t parent a n g).mono fun _ hv => hgrown.thenSame hv
    | false => exact hdrop (hgrown.setFile g 0 (o := none) fun b hb => by cases hb)

theorem fileCreate_sizes (hroom : ∀ b x, s₀.inodes b = some x → x.roomy) (h : SameSizes s₀ s)
    (d : Dir) (name : List UInt8) (flag : UInt8) :
    Leads (Sized (· ≤ ·)) s₀ (fileCreate s d name flag) Prod.snd := by
  unfold fileCreate
  obtain ⟨b, t, hm, ht, -⟩ := sysMalloc_sizes s 1024
  simp only [hm]
  have h0 : SameSizes s₀ t := IsTrans.trans _ _ _ h ht
  cases b with
  | none => exact h0.le
  | some b =>
    refine Returns.bind (inodeBitmapAlloc_sizes t) fun ⟨i, u⟩ hu => ?_
    have h1 : SameSizes s₀ u := IsTrans.trans _ _ _ h0 hu
    cases i with
    | none => exact h1.le
    | some i =>
      by_cases hheap : u.heap 0 = true
      · simp only [mallocInode, hheap, if_true]
        refine createInDir_sizes hroom ?_ h1.nextInode (Nat.lt_succ_self _) ..
        exact
          { nextInode := h1.nextInode.trans (Nat.le_succ _)
            sizes := (h1.setNew h1.nextInode _).sizes
            files := fun g f hf => (h1.files g f hf).imp_right fun ⟨hpos, hb⟩ =>
              ⟨hpos, fun b hbf => (hb b hbf).trans (Nat.lt_succ_self _)⟩ }
      · simp only [mallocInode, hheap]
        exact h1.le.thenSame
          (SameSizes.medium u u.disk u.blockBitmap (bitmapSet u.inodeBitmap i false) _)

theorem denyWrite_sizes (s : State) (a : InodePtr) :
    Leads SameSizes s (denyWrite s a) Prod.snd :=
  returns_deref fun _ hx => Leads.ite (fun _ => Sized.setInode hx rfl) fun _ => SameSizes.refl s

/-- The handle of an open inode was given out before. -/
theorem inodeOpen_lt (hs : OpenOk s) (n : UInt32) :
    Returns (inodeOpen s n) fun r => r.1 < r.2.nextInode :=
  (inodeOpen_opens (Opens.refl hs) n).mono fun _ hr =>
    hr.1.ok.used _ (hr.1.mem_of_held (Multiset.mem_cons_self _ _))

theorem fileOpen_sizes (hs : OpenOk s) (n : UInt32) (flag : UInt8) :
    Leads SameSizes s (fileOpen s n flag) Prod.snd := by
  unfold fileOpen
  cases getFreeSlotInGlobal s with
  | none => exact SameSizes.refl s
  | some g =>
    refine Returns.bind ((inodeOpen_sizes s n).and (inodeOpen_lt hs n)) fun ⟨a, t⟩ ⟨ht, hlt⟩ => ?_
    have hset : SameSizes s (t.setFile g ⟨0, flag.toUInt32, some a⟩) := by
      refine Sized.setFile ht g _ fun b hb => ?_
      obtain rfl := Option.some.inj hb
      exact hlt
    refine Leads.after hset (Leads.ite (fun _ => ?_) fun _ => pcbFdInstall_sizes ..)
    refine Leads.bind (denyWrite_sizes ..) fun ⟨done, u⟩ => ?_
    cases done with
    | false => exact SameSizes.refl u
    | true => exact pcbFdInstall_sizes u g

/-- `sys_open` fills a slot with position 0, and at most its directory grows. -/
theorem sysOpen_sizes (hs : OpenOk s) (path : List UInt8) (flags : UInt8)
    (hroom : flags &&& oCreat ≠ 0 → ∀ b x, s.inodes b = some x → x.roomy) :
    Leads (Sized (· ≤ ·)) s (sysOpen s path flags) Prod.snd := by
  refine Leads.ensure fun _ => Leads.ite (fun _ => (SameSizes.refl s).le) fun _ => ?_
  refine Leads.ensure fun _ => Leads.skip fun depth => ?_
  refine Returns.bind ((sizes_browsing.searchFile s path).and (searchFile_opens (Opens.refl hs) path))
    fun ⟨n, r, t⟩ ⟨ht, hopens⟩ => ?_
  have hclose : ∀ {u : State} (fd : ℤ), Sized (· ≤ ·) s u → Leads (Sized (· ≤ ·)) s
      (dirClose u r.parentDir >>= fun t => Except.ok (fd, t)) Prod.snd := fun fd hu =>
    Returns.bind (sizes_browsing.dirClose ..) fun v hv => hu.thenSame hv
  refine Leads.ite (fun _ => hclose _ (SameSizes.le ht)) fun _ => Leads.skip fun depth' => ?_
  refine Leads.ite (fun _ => hclose _ (SameSizes.le ht)) fun _ => Leads.ite (fun hcreat => ?_) ?_
  · exact Returns.bind (fileCreate_sizes (hroom hcreat) ht ..) fun ⟨fd, u⟩ hu => hclose _ hu
  · intro _
    refine Returns.bind (fileOpen_sizes (Opens.ok hopens) n flags) fun ⟨fd, u⟩ hu => ?_
    exact SameSizes.le (IsTrans.trans _ _ _ ht hu)

end Opening

section Writing

variable {s s₀ t u : State} {a : InodePtr} {x : Inode} {g n : ℕ} {b : Buffer} {f : File}

/-- Copying to a buffer does not change its size. -/
theorem copy_size (b : Buffer) (off n : ℕ) (src : Image) :
    Returns (b.copy off n src) fun c => c.size = b.size :=
  returns_ensure fun _ => rfl

theorem ideRead_size (s : State) (lba : ℕ) (b : Buffer) (off n : ℕ) :
    Returns (ideRead s lba b off n) fun c => c.size = b.size :=
  returns_ensure fun _ => returns_ensure fun _ => copy_size ..

/-- The list of addresses has `n` bytes, if there is one, and no size changed. -/
def Listed (s : State) (n : ℕ) (r : Option Buffer × State) : Prop :=
  SameSizes s r.2 ∧ ∀ c, r.1 = some c → c.size = n

theorem Listed.after {r : Option Buffer × State} (h : SameSizes s t) (h' : Listed t n r) :
    Listed s n r := ⟨IsTrans.trans _ _ _ h h'.1, h'.2⟩

theorem listed_some (h : SameSizes s t) (hb : b.size = n) : Listed s n (some b, t) := by
  refine ⟨h, fun c hc => ?_⟩
  obtain rfl := Option.some.inj hc
  exact hb

theorem listed_none (h : SameSizes s t) : Listed s n (none, t) :=
  ⟨h, fun c hc => by cases hc⟩

theorem firstFileBlock_sizes (s : State) (a : InodePtr) :
    Leads SameSizes s (firstFileBlock s a) Prod.snd := by
  refine returns_deref fun x hx => Leads.ite (fun _ => ?_) fun _ => SameSizes.refl s
  refine Returns.bind (blockBitmapAlloc_sizes s) fun ⟨r, t⟩ ⟨hinodes, ht⟩ => ?_
  cases r with
  | none => exact ht
  | some lba =>
    have hset : SameSizes t (t.setInode a (x.setSector 0 (UInt32.ofNat lba))) :=
      Sized.setInode (x := x) (by rw [hinodes, hx]) rfl
    refine Leads.ensure fun _ => Leads.after (IsTrans.trans _ _ _ ht hset) ?_
    exact Leads.bind (leads_sizes (bitmapSync_disk ..)) fun v => SameSizes.refl v

theorem linkFileBlock_listed (s : State) (a : InodePtr) (k : ℕ) (lba : UInt32) (b : Buffer) :
    Returns (linkFileBlock s a k lba b) fun r => SameSizes s r.2 ∧ r.1.size = b.size := by
  refine returns_ite (fun _ => ?_) fun _ =>
    Returns.bind (copy_size ..) fun _ hc => ⟨SameSizes.refl s, hc⟩
  refine returns_deref fun x hx => returns_ensure fun _ => ?_
  exact Returns.bind (copy_size ..) fun _ hc => ⟨Sized.setInode hx rfl, hc⟩

theorem allocFileBlocks_listed (a : InodePtr) (will fuel : ℕ) :
    ∀ k b s, Returns (allocFileBlocks a will fuel k b s) (Listed s b.size) := by
  induction fuel with
  | zero =>
    exact fun _ _ s => returns_ite (fun _ => trivial) fun _ => listed_some (SameSizes.refl s) rfl
  | succ fuel ih =>
    intro k b s
    refine returns_ite (fun _ => ?_) fun _ => listed_some (SameSizes.refl s) rfl
    refine Returns.bind (blockBitmapAlloc_sizes s) fun ⟨r, t⟩ ⟨_, ht⟩ => ?_
    cases r with
    | none => exact listed_none ht
    | some lba =>
      refine Returns.bind (linkFileBlock_listed ..) fun ⟨c, u⟩ ⟨hu, hc⟩ => ?_
      refine Returns.bind (leads_sizes (bitmapSync_disk ..)) fun v hv => ?_
      have hsv : SameSizes s v := IsTrans.trans _ _ _ (IsTrans.trans _ _ _ ht hu) hv
      exact (ih (k + 1) c v).mono fun r hr => (hc ▸ hr).after hsv

theorem addFileTable_listed (s : State) (a : InodePtr) (used will : ℕ) (b : Buffer) :
    Returns (addFileTable s a used will b) (Listed s b.size) := by
  refine returns_deref fun x hx => Returns.bind (copy_size ..) fun c hc => ?_
  refine Returns.bind (blockBitmapAlloc_sizes s) fun ⟨r, t⟩ ⟨hinodes, ht⟩ => ?_
  cases r with
  | none => exact listed_none ht
  | some table =>
    have hset : SameSizes t (t.setInode a (x.setSector 12 (UInt32.ofNat table))) :=
      Sized.setInode (x := x) (by rw [hinodes, hx]) rfl
    refine returns_ensure fun _ => ?_
    refine Returns.bind (allocFileBlocks_listed ..) fun ⟨r, u⟩ ⟨hu, hr⟩ => ?_
    have hsu : SameSizes s u := IsTrans.trans _ _ _ (IsTrans.trans _ _ _ ht hset) hu
    cases r with
    | none => exact listed_none hsu
    | some d =>
      exact Returns.bind (leads_sizes (ideWrite_disk ..)) fun v hv =>
        listed_some (IsTrans.trans _ _ _ hsu hv) ((hr d rfl).trans hc)

theorem extendFileTable_listed (s : State) (a : InodePtr) (used will : ℕ) (b : Buffer) :
    Returns (extendFileTable s a used will b) (Listed s b.size) := by
  refine returns_skip fun x => returns_ensure fun _ => ?_
  refine Returns.bind (ideRead_size ..) fun c hc => ?_
  refine Returns.bind (allocFileBlocks_listed ..) fun ⟨r, u⟩ ⟨hu, hr⟩ => ?_
  cases r with
  | none => exact listed_none hu
  | some d =>
    exact Returns.bind (leads_sizes (ideWrite_disk ..)) fun v hv =>
      listed_some (IsTrans.trans _ _ _ hu hv) ((hr d rfl).trans hc)

theorem collectWriteBlocks_listed (s : State) (a : InodePtr) (used will : ℕ) (b : Buffer) :
    Returns (collectWriteBlocks s a used will b) (Listed s b.size) := by
  refine returns_ite (fun _ => ?_) fun _ => returns_ite (fun _ => ?_) fun _ =>
    returns_ite (fun _ => addFileTable_listed ..) fun _ => extendFileTable_listed ..
  · have hlast : Returns (lastFileBlock s a used b) fun c => c.size = b.size :=
      returns_skip fun x => returns_ite (fun _ => copy_size ..) fun _ =>
        returns_ensure fun _ => ideRead_size ..
    exact Returns.bind hlast fun c hc => listed_some (SameSizes.refl s) hc
  · refine returns_skip fun x => returns_skip fun lba => returns_ensure fun _ => ?_
    refine Returns.bind (copy_size ..) fun c hc => ?_
    exact (allocFileBlocks_listed a will will used c s).mono fun r hr => hc ▸ hr

end Writing

end X86System.FileSystem
