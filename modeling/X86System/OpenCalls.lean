import X86System.OpenCounts

/-!
# What the calls leave open

Removing a file or directory and making one close all they opened. A call of
`sys_open` that does not create leaves the directory of its search open, and what
it does to `file_table` is filling one free slot.
-/
namespace X86System.FileSystem
open Bytes Exec

variable {s s₀ t : State} {a : InodePtr} {h : Multiset InodePtr}

section Removing

theorem inodeRelease_opens (ho : Opens s₀ s h) (n : UInt32) :
    Returns (inodeRelease s n) fun t => Opens s₀ t h := by
  refine Returns.bind (inodeOpen_opens ho n) fun ⟨a, t⟩ ht => returns_skip fun x => ?_
  refine returns_ensure fun _ => returns_skip fun b => ?_
  refine Returns.bind (ht.1.stills (releaseTable_still ..)) fun t ht => ?_
  refine Returns.bind (ht.stills (releaseBlocks_still ..)) fun t ht => ?_
  have hbit := ht.still (Still.medium t t.disk t.blockBitmap (bitmapSet t.inodeBitmap n.toNat false)
    t.heap)
  refine Returns.bind (hbit.stills (bitmapSync_still ..)) fun t ht => ?_
  obtain ⟨b, u, hm, hu⟩ := sysMalloc_still t 1024
  simp only [hm]
  refine returns_skip fun b => ?_
  refine Returns.bind ((ht.still hu).stills (inodeDelete_still ..)) fun t ht => ?_
  exact inodeClose_opens ht

theorem dirRemove_opens (ho : Opens s₀ s h) (parentDir childDir : Dir) :
    Returns (dirRemove s parentDir childDir) fun v => Opens s₀ v.2 h := by
  unfold dirRemove
  refine returns_skip fun x => returns_ensure fun _ => ?_
  obtain ⟨b, u, hm, hu⟩ := sysMalloc_still s 1024
  simp only [hm]
  cases b with
  | none => exact ho.still hu
  | some b =>
    refine Returns.bind ((ho.still hu).stills (deleteDirEntry_still ..)) fun v hv => ?_
    exact Returns.bind (inodeRelease_opens hv x.iNo) fun t ht => ht

theorem removeIfEmpty_opens (ho : Opens s₀ s h) (parentDir dir : Dir) :
    Returns (removeIfEmpty s parentDir dir) fun v => Opens s₀ v.2 h := by
  refine returns_skip fun empty => ?_
  cases empty with
  | false => exact ho
  | true => exact dirRemove_opens ho parentDir dir

/-- `sys_rmdir` closes what it opened. -/
theorem sysRmdir_opens (ho : Opens s₀ s h) (path : List UInt8) :
    Returns (sysRmdir s path) fun v => Opens s₀ v.2 h := by
  refine Returns.bind (searchFile_opens ho path) fun ⟨n, r, t⟩ ht => ?_
  refine returns_ensure fun _ => returns_ite (fun _ => ?_) fun _ => ?_
  · exact Returns.bind (dirClose_opens ht) fun t ht => ht
  · refine Returns.bind (dirOpen_opens ht n) fun ⟨dir, t⟩ ht => ?_
    refine Returns.bind (removeIfEmpty_opens ht r.parentDir dir) fun ⟨removed, t⟩ ht => ?_
    refine Returns.bind (dirClose_opens ht) fun t ht => ?_
    exact Returns.bind (dirClose_opens ht) fun t ht => ht

/-- `sys_unlink` closes what it opened. -/
theorem sysUnlink_opens (ho : Opens s₀ s h) (path : List UInt8) :
    Returns (sysUnlink s path) fun v => Opens s₀ v.2 h := by
  refine returns_ensure fun _ => ?_
  refine Returns.bind (searchFile_opens ho path) fun ⟨n, r, t⟩ ht => ?_
  have hclose : ∀ {u : State} (removed : Bool), Opens s₀ u (r.parentDir.handles + h) →
      Returns (dirClose u r.parentDir >>= fun t => Except.ok (removed, t))
        fun v : Bool × State => Opens s₀ v.2 h :=
    fun _ hu => Returns.bind (dirClose_opens hu) fun t ht => ht
  refine returns_ensure fun _ => returns_ite (fun _ => hclose _ ht) fun _ => ?_
  refine returns_skip fun inUse => returns_ite (fun _ => hclose _ ht) fun _ => ?_
  obtain ⟨b, u, hm, hu⟩ := sysMalloc_still t 1024
  simp only [hm]
  cases b with
  | none => exact hclose _ (ht.still hu)
  | some b =>
    refine Returns.bind ((ht.still hu).stills (deleteDirEntry_still ..)) fun v hv => ?_
    exact Returns.bind (inodeRelease_opens hv n) fun t ht => hclose _ ht

end Removing

section Making

theorem dropInodeNo_still (s : State) (n : ℕ) : Still s (s.dropInodeNo n) :=
  Still.medium s s.disk s.blockBitmap _ s.heap

theorem makeDir_still (s : State) (r : PathSearchRecord) (n : ℕ) (b : Buffer) :
    Stills s (makeDir s r n b) Prod.snd := by
  refine Stills.bind (blockBitmapAlloc_still s) fun ⟨lba, t⟩ => ?_
  cases lba with
  | none => exact dropInodeNo_still t n
  | some lba =>
    refine Stills.ensure fun _ => Stills.bind (bitmapSync_still ..) fun t => ?_
    refine Stills.skip fun x => Stills.skip fun self => Stills.skip fun up => ?_
    refine Stills.skip fun b => Stills.skip fun b => Stills.skip fun b => ?_
    refine Stills.bind (ideWrite_still ..) fun t => Stills.skip fun e => ?_
    refine Stills.bind (syncDirEntry_still ..) fun ⟨done, t⟩ => ?_
    cases done with
    | false => exact dropInodeNo_still t n
    | true =>
      refine Stills.skip fun x => Stills.bind (inodeSync_still ..) fun t => ?_
      refine Stills.bind (inodeSync_still ..) fun t => ?_
      exact Stills.bind (bitmapSync_still ..) fun t => Still.refl t

/-- `sys_mkdir` closes what it opened. -/
theorem sysMkdir_opens (ho : Opens s₀ s h) (path : List UInt8) :
    Returns (sysMkdir s path) fun v => Opens s₀ v.2 h := by
  unfold sysMkdir
  obtain ⟨b, u, hm, hu⟩ := sysMalloc_still s 1024
  simp only [hm]
  cases b with
  | none => exact ho.still hu
  | some b =>
    refine Returns.bind (searchFile_opens (ho.still hu) path) fun ⟨n, r, t⟩ ht => ?_
    have hclose : ∀ {u : State} (made : Bool), Opens s₀ u (r.parentDir.handles + h) →
        Returns (dirClose u r.parentDir >>= fun t => Except.ok (made, t))
          fun v : Bool × State => Opens s₀ v.2 h :=
      fun _ hu => Returns.bind (dirClose_opens hu) fun t ht => ht
    refine returns_ite (fun _ => hclose _ ht) fun _ => returns_skip fun depth => ?_
    refine returns_skip fun depth' => returns_ite (fun _ => hclose _ ht) fun _ => ?_
    refine Returns.bind (ht.stills (inodeBitmapAlloc_still t)) fun ⟨i, t⟩ ht => ?_
    cases i with
    | none => exact hclose _ ht
    | some i =>
      exact Returns.bind (ht.stills (makeDir_still t r i b)) fun ⟨made, t⟩ ht => hclose _ ht

end Making

end X86System.FileSystem
