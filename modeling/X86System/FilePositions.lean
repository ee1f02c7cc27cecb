import X86System.FileSizes

/-!
# Positions in files

`fd_pos` is moved by reading, by writing and by `sys_lseek`; the file under it only
grows. A write first sets the position to `i_size - 1`, which is no position at all in
an empty file, and relies on its loop to move it on.
-/
namespace X86System.FileSystem
open Bytes Exec Transition

section Writing

variable {s s₀ t u : State} {a : InodePtr} {x : Inode} {g n : ℕ} {b : Buffer} {f : File}

/-- From `s` to `t`, `n` bytes went through slot `g` to the end of inode `a`. -/
structure Wrote (g : ℕ) (a : InodePtr) (x : Inode) (f : File) (n : ℕ) (s t : State) : Prop where
  inodes : t.inodes =
    Function.update s.inodes a (some { x with iSize := x.iSize + UInt32.ofNat n })
  slots : t.fileTable = s.fileTable.setIfInBounds g { f with fdPos := f.fdPos + UInt32.ofNat n }
  nextInode : t.nextInode = s.nextInode
  bound : 0 < n → x.iSize.toNat + n ≤ 512 * 140

theorem slot_lt (hf : s.fileTable[g]? = some f) : g < 32 := by
  by_contra h
  rw [Vector.getElem?_eq_none (by omega)] at hf
  cases hf

/-- Moving a position by 0. -/
theorem setFile_unmoved (hf : s.fileTable[g]? = some f) :
    s.setFile g { f with fdPos := f.fdPos + UInt32.ofNat 0 } = s := by
  have hsame : { f with fdPos := f.fdPos + UInt32.ofNat 0 } = f := by
    cases f
    simp
  have htable : s.fileTable.setIfInBounds g f = s.fileTable := by
    ext1 j hj
    by_cases hjg : g = j
    · subst hjg
      simpa [hj, eq_comm] using hf
    · simp [hjg]
  rw [hsame, State.setFile, htable]

theorem wrote_nothing (hx : s.inodes a = some x) (hf : s.fileTable[g]? = some f) :
    Wrote g a x f 0 s s where
  inodes := by
    have hsame : { x with iSize := x.iSize + UInt32.ofNat 0 } = x := by
      cases x
      simp
    rw [hsame, ← hx, Function.update_eq_self]
  slots := congrArg State.fileTable (setFile_unmoved hf).symm
  nextInode := rfl
  bound h := absurd h (lt_irrefl 0)

theorem file_ok_eq {f' : File} (hf : s.fileTable[g]? = some f) (hf' : s.file g = .ok f') :
    f' = f := by
  have h := file_ok hf'
  rw [hf] at h
  exact (Option.some.inj h).symm

/-- An element that was read lies in the array. -/
theorem word_le {k : ℕ} {w : UInt32} (h : b.word k = .ok w) : 4 * k + 4 ≤ b.size := by
  by_contra hk
  rw [Buffer.word, ensure_of_not hk] at h
  cases h

/-- One piece, and then the rest. -/
theorem Wrote.piece {d : Image} {c m : ℕ} (hin : x.iSize.toNat + c ≤ 512 * 140)
    (h : Wrote g a { x with iSize := x.iSize + UInt32.ofNat c }
      { f with fdPos := f.fdPos + UInt32.ofNat c } m
      (((s.setDisk d).setInode a { x with iSize := x.iSize + UInt32.ofNat c }).setFile g
        { f with fdPos := f.fdPos + UInt32.ofNat c }) t) : Wrote g a x f (c + m) s t where
  inodes := by
    rw [h.inodes]
    simp only [State.setFile, State.setInode, setDisk_inodes, Function.update_idem]
    rw [UInt32.ofNat_add, UInt32.add_assoc]
  slots := by
    rw [h.slots]
    simp only [State.setFile, State.setInode, State.setDisk]
    rw [UInt32.ofNat_add, ← UInt32.add_assoc]
    ext1 j hj
    by_cases hjg : g = j
    · simp [hjg]
    · simp [hjg]
  nextInode := h.nextInode
  bound _ := by
    have hnew : (x.iSize + UInt32.ofNat c).toNat = x.iSize.toNat + c := by
      rw [UInt32.toNat_add, UInt32.toNat_ofNat', Nat.mod_eq_of_lt (by omega : c < 2 ^ 32)]
      exact Nat.mod_eq_of_lt (by omega)
    have hrest := h.bound
    dsimp only at hrest
    rw [hnew] at hrest
    omega

/-- The loop moves the end of the file and the position alike, and stays inside the list
of 140 blocks. -/
theorem writeLoop_wrote (g : ℕ) (a : InodePtr) (src : Image) {allBlocks : Buffer}
    (hsize : allBlocks.size = 560) (fuel : ℕ) : ∀ (done left : ℕ) (first : Bool) (ioBuf : Buffer)
    (s : State) (x : Inode) (f : File), s.inodes a = some x → s.fileTable[g]? = some f →
    Returns (writeLoop g a src allBlocks fuel done left first ioBuf s) fun r =>
      Wrote g a x f left s r.2 := by
  induction fuel with
  | zero =>
    intro done left first ioBuf s x f hx hf
    refine returns_ite (fun hleft => ?_) fun _ => trivial
    rw [hleft]
    exact wrote_nothing hx hf
  | succ fuel ih =>
    intro done left first ioBuf s x f hx hf
    refine returns_ite (fun hleft => ?_) fun hleft => ?_
    · rw [hleft]
      exact wrote_nothing hx hf
    refine returns_skip fun b => returns_deref fun x' hx' => ?_
    obtain rfl := Option.some.inj (hx.symm.trans hx')
    refine returns_bind fun lba hlba => returns_skip fun b => returns_skip fun b => ?_
    have hword := word_le hlba
    refine Returns.bind (ideWrite_disk ..) fun t ⟨d, ht⟩ => ?_
    subst ht
    set chunk := min left (512 - x.iSize.toNat % 512) with hchunk
    have hg := slot_lt hf
    let y : Inode := { x with iSize := x.iSize + UInt32.ofNat chunk }
    let f' : File := { f with fdPos := f.fdPos + UInt32.ofNat chunk }
    have hadvance := advance_of_slot (s := (s.setDisk d).setInode a y) hf (UInt32.ofNat chunk)
    have hy : (((s.setDisk d).setInode a y).setFile g f').inodes a = some y :=
      setInode_inodes_self ..
    dsimp only
    rw [hadvance, ok_bind]
    refine (ih (done + chunk) (left - chunk) false b _ y f' hy (setFile_self hg)).mono
      fun r hr => ?_
    have hwrote := Wrote.piece (by omega) hr
    rwa [show chunk + (left - chunk) = left by omega] at hwrote

/-- Every position of a file slot is at most the size of its file, and what it refers to
was allocated. -/
def Inside (s : State) : Prop := ∀ (g : ℕ) f a, s.fileTable[g]? = some f → f.fdFlag ≠ pipeFlag →
  f.fdInode = some a → a < s.nextInode ∧ ∀ x, s.inodes a = some x → f.fdPos.toNat ≤ x.iSize.toNat

theorem Sized.inside (h : Sized (· ≤ ·) s t) (hs : Inside s) : Inside t := by
  intro g f a hf hflag ha
  obtain hold | ⟨hpos, hb⟩ := h.files g f hf
  · obtain ⟨hlt, hle⟩ := hs g f a hold hflag ha
    refine ⟨hlt.trans_le h.nextInode, fun y hy => ?_⟩
    obtain ⟨x, hx, hxy⟩ := h.sizes a hlt y hy
    exact (hle x hx).trans hxy
  · refine ⟨hb a ha, fun y _ => ?_⟩
    rw [hpos]
    exact Nat.zero_le _

/-- A write ends one byte before the end, unless there is no byte. -/
theorem Wrote.inside {m : ℕ} (h : Wrote g a x { f with fdPos := x.iSize - 1 } m
      (s.setFile g { f with fdPos := x.iSize - 1 }) t)
    (hs : Inside s) (hx : s.inodes a = some x) (hf : s.fileTable[g]? = some f)
    (ha : f.fdInode = some a) (hempty : m = 0 → x.iSize ≠ 0) : Inside t := by
  have hsize : 0 < m → (x.iSize + UInt32.ofNat m).toNat = x.iSize.toNat + m := by
    intro hm
    have hbound := h.bound hm
    rw [UInt32.toNat_add, UInt32.toNat_ofNat', Nat.mod_eq_of_lt (by omega : m < 2 ^ 32)]
    exact Nat.mod_eq_of_lt (by omega)
  have hg := slot_lt hf
  intro j f' b hf' hflag hb
  rw [h.slots] at hf'
  rw [h.nextInode, h.inodes]
  by_cases hjg : j = g
  · subst hjg
    have hf'' : f' = { f with fdPos := x.iSize - 1 + UInt32.ofNat m } := by
      simpa [hg, eq_comm] using hf'
    subst hf''
    obtain rfl : a = b := Option.some.inj (ha.symm.trans hb)
    refine ⟨(hs j f a hf hflag ha).1, fun y hy => ?_⟩
    rw [Function.update_self, Option.some_inj] at hy
    subst hy
    dsimp only
    have hne : x.iSize + UInt32.ofNat m ≠ 0 := by
      intro h0
      rcases Nat.eq_zero_or_pos m with rfl | hm
      · exact hempty rfl (by simpa using h0)
      · have hpos := hsize hm
        rw [h0] at hpos
        change 0 = _ at hpos
        omega
    have hone : (1 : UInt32) ≤ x.iSize + UInt32.ofNat m := by
      rw [UInt32.le_iff_toNat_le]
      have hpos : (x.iSize + UInt32.ofNat m).toNat ≠ 0 := fun h0 => hne (UInt32.toNat_inj.mp h0)
      change 1 ≤ _
      omega
    have heq : x.iSize - 1 + UInt32.ofNat m = x.iSize + UInt32.ofNat m - 1 := by
      rw [UInt32.sub_eq_add_neg, UInt32.sub_eq_add_neg, UInt32.add_assoc, UInt32.add_assoc,
        UInt32.add_comm (-1)]
    rw [heq, UInt32.toNat_sub_of_le _ _ hone]
    exact Nat.sub_le _ _
  · have hold : s.fileTable[j]? = some f' := by
      rw [← setFile_of_ne (s := s) (f := { f with fdPos := x.iSize - 1 }) hjg, ← hf']
      simp [Ne.symm hjg]
    obtain ⟨hlt, hle⟩ := hs j f' b hold hflag hb
    refine ⟨hlt, fun y hy => ?_⟩
    by_cases hba : b = a
    · subst hba
      rw [Function.update_self, Option.some_inj] at hy
      subst hy
      refine (hle x hx).trans ?_
      rcases Nat.eq_zero_or_pos m with rfl | hm
      · simp
      · exact (hsize hm).symm ▸ Nat.le_add_right _ _
    · rw [Function.update_of_ne hba] at hy
      exact hle y hy

theorem OnlyDisk.inside (h : OnlyDisk s t) (hs : Inside s) : Inside t :=
  h.sizes.le.inside hs

theorem writeData_inside (hs : Inside s) (hf : s.fileTable[g]? = some f) (ha : f.fdInode = some a)
    (src : Image) {count : UInt32} {allBlocks : Buffer} (hsize : allBlocks.size = 560)
    (ioBuf : Buffer) (hempty : count = 0 → ∀ x, s.inodes a = some x → x.iSize ≠ 0) :
    Returns (writeData s g a src count allBlocks ioBuf) fun r => Inside r.2 := by
  refine returns_deref fun x hx => returns_bind fun f' hf' => ?_
  obtain rfl := file_ok_eq hf hf'
  have hloop := writeLoop_wrote g a src hsize count.toNat 0 count.toNat true ioBuf
    (s.setFile g { f' with fdPos := x.iSize - 1 }) x { f' with fdPos := x.iSize - 1 } hx
    (setFile_self (slot_lt hf))
  refine Returns.bind hloop fun ⟨b, t⟩ ht => returns_skip fun y => ?_
  have hin : Inside t := Wrote.inside ht hs hx hf ha fun h0 =>
    hempty (UInt32.toNat_inj.mp h0) x hx
  exact Returns.bind (inodeSync_disk ..) fun u hu => hu.inside hin

theorem fileInode_ok (h : fileInode s g = .ok a) :
    ∃ f, s.fileTable[g]? = some f ∧ f.fdInode = some a := by
  unfold fileInode at h
  cases hf : s.file g with
  | error e =>
    rw [hf] at h
    cases h
  | ok f =>
    rw [hf, ok_bind] at h
    cases hfa : f.fdInode with
    | none =>
      rw [hfa] at h
      cases h
    | some b =>
      rw [hfa] at h
      exact ⟨f, file_ok hf, Except.ok.inj h ▸ hfa⟩

theorem sysMalloc_of_full (h : ¬ s.heap 0 = true) (size : ℕ) :
    sysMalloc s size = (none, s.popHeap) := by
  unfold sysMalloc
  rw [if_neg h]
  rfl

theorem popHeap_sizes (s : State) : SameSizes s s.popHeap := Sized.of_inodes rfl rfl rfl

theorem popHeap_still (s : State) : Still s s.popHeap :=
  Still.medium s s.disk s.blockBitmap s.inodeBitmap _

/-- `file_write` keeps the positions inside, unless it writes nothing to an empty file. -/
theorem fileWrite_inside (hs : Inside s) (hfile : FileSlot s g) (src : Image) {count : UInt32}
    (hempty : count = 0 → s.heap 0 = true → s.heap 1 = true → ∀ f a x,
      s.fileTable[g]? = some f → f.fdInode = some a → s.inodes a = some x → x.iSize ≠ 0) :
    Returns (fileWrite s g src count) fun r => Inside r.2 := by
  refine returns_bind fun a ha => returns_deref fun x hx => returns_ite (fun _ => hs) fun _ => ?_
  obtain ⟨f, hf, hfa⟩ := fileInode_ok ha
  have hsizes : SameSizes s s.popHeap.popHeap :=
    IsTrans.trans _ _ _ (popHeap_sizes s) (popHeap_sizes _)
  have hstill : Still s s.popHeap.popHeap := (popHeap_still s).trans (popHeap_still _)
  by_cases h0 : s.heap 0 = true
  swap
  · rw [sysMalloc_of_full h0]
    exact (popHeap_sizes s).le.inside hs
  rw [sysMalloc_of_heap h0]
  dsimp only
  by_cases h1 : s.popHeap.heap 0 = true
  swap
  · rw [sysMalloc_of_full h1]
    exact hsizes.le.inside hs
  rw [sysMalloc_of_heap h1]
  dsimp only
  refine Returns.bind ((firstFileBlock_sizes _ a).and (firstFileBlock_still _ a))
    fun ⟨done, v⟩ ⟨hv, hvstill⟩ => ?_
  have hsv : SameSizes s v := IsTrans.trans _ _ _ hsizes hv
  have hsvstill : Still s v := hstill.trans hvstill
  cases done with
  | false => exact hsv.le.inside hs
  | true =>
    refine returns_ensure fun _ => ?_
    refine Returns.bind ((collectWriteBlocks_listed ..).and (collectWriteBlocks_still ..))
      fun ⟨c, w⟩ ⟨⟨hw, hc⟩, hwstill⟩ => ?_
    have hsw : SameSizes s w := IsTrans.trans _ _ _ hsv hw
    have hin : Inside w := hsw.le.inside hs
    cases c with
    | none => exact hin
    | some c =>
      obtain ⟨f', hf', -, hfa'⟩ := (hsvstill.trans hwstill).tables.symm.slot hf
      refine writeData_inside hin hf' (hfa'.trans hfa) src (hc c rfl) _ fun hcount y hy => ?_
      obtain ⟨x', hx', hsize⟩ := hsw.sizes a (hs g f a hf (hfile f hf) hfa).1 y hy
      have hne := hempty hcount h0 h1 f a x' hf hfa hx'
      exact fun hzero => hne (UInt32.toNat_inj.mp (by rw [hsize, hzero]))

/-- The loop of `file_read` moves one position and nothing else. -/
theorem readLoop_moves (g : ℕ) (allBlocks : Buffer) (fuel : ℕ) : ∀ (done left : ℕ)
    (ioBuf : Buffer) (dst : Image) (s : State) (f : File), s.fileTable[g]? = some f →
    Returns (readLoop g allBlocks fuel done left ioBuf dst s) fun r =>
      r.2 = s.setFile g { f with fdPos := f.fdPos + UInt32.ofNat left } := by
  induction fuel with
  | zero =>
    intro done left ioBuf dst s f hf
    refine returns_ite (fun hleft => ?_) fun _ => trivial
    rw [hleft]
    exact (setFile_unmoved hf).symm
  | succ fuel ih =>
    intro done left ioBuf dst s f hf
    refine returns_ite (fun hleft => ?_) fun hleft => ?_
    · rw [hleft]
      exact (setFile_unmoved hf).symm
    refine returns_bind fun f' hf' => returns_skip fun lba => returns_skip fun b =>
      returns_skip fun b => ?_
    obtain rfl := file_ok_eq hf hf'
    rw [advance_of_slot hf, ok_bind]
    set chunk := min left (512 - f'.fdPos.toNat % 512) with hchunk
    refine (ih _ _ _ _ _ _ (setFile_self (slot_lt hf))).mono fun r hr => ?_
    rw [hr]
    have hsum : UInt32.ofNat chunk + UInt32.ofNat (left - chunk) = UInt32.ofNat left := by
      rw [← UInt32.ofNat_add, show chunk + (left - chunk) = left by omega]
    simp only [State.setFile, Vector.setIfInBounds_setIfInBounds, UInt32.add_assoc, hsum]

/-- A position may move inside its file. -/
theorem Inside.move (hs : Inside s) (hf : s.fileTable[g]? = some f) {p : UInt32}
    (hp : ∀ a x, f.fdInode = some a → s.inodes a = some x → p.toNat ≤ x.iSize.toNat) :
    Inside (s.setFile g { f with fdPos := p }) := by
  intro j f' a hf' hflag ha
  by_cases hjg : j = g
  · subst hjg
    rw [setFile_self (slot_lt hf)] at hf'
    obtain rfl := Option.some.inj hf'
    exact ⟨(hs j f a hf hflag ha).1, fun x hx => hp a x ha hx⟩
  · rw [setFile_of_ne hjg] at hf'
    exact hs j f' a hf' hflag ha

/-- The check of `file_read` and its sum wrap alike. -/
theorem readSize_le (f : File) (x : Inode) (count : UInt32) :
    (f.fdPos + readSize f x count).toNat ≤ x.iSize.toNat := by
  unfold readSize
  split_ifs with hlt
  · rw [UInt32.add_comm, UInt32.sub_add_cancel]
  · exact UInt32.le_iff_toNat_le.mp (UInt32.not_lt.mp hlt)

theorem fileRead_inside (hs : Inside s) (dst : Image) (count : UInt32) :
    Returns (fileRead s g dst count) fun r => Inside r.2.2 := by
  refine returns_bind fun f hfile => returns_bind fun a ha => returns_deref fun x hx => ?_
  refine returns_ite (fun _ => hs) fun _ => ?_
  have hf := file_ok hfile
  have hin : Inside s.popHeap := (popHeap_sizes s).le.inside hs
  have hin' : Inside s.popHeap.popHeap := (popHeap_sizes _).le.inside hin
  by_cases h0 : s.heap 0 = true
  swap
  · rw [sysMalloc_of_full h0]
    exact hin
  rw [sysMalloc_of_heap h0]
  dsimp only
  by_cases h1 : s.popHeap.heap 0 = true
  swap
  · rw [sysMalloc_of_full h1]
    exact hin'
  rw [sysMalloc_of_heap h1]
  refine returns_ensure fun _ => returns_skip fun c => ?_
  refine Returns.bind (readLoop_moves g c _ _ _ _ _ _ f hf) fun ⟨d, t⟩ ht => ?_
  subst ht
  refine hin'.move hf fun b y hb hy => ?_
  obtain ⟨f', hf', hfa⟩ := fileInode_ok ha
  obtain rfl := Option.some.inj (hf.symm.trans hf')
  obtain rfl := Option.some.inj (hfa.symm.trans hb)
  obtain rfl := Option.some.inj (hx.symm.trans hy)
  rw [UInt32.ofNat_toNat]
  exact readSize_le f x count

end Writing

section Runs

variable {s t u : State} {fd : ℤ}

/-- A call that opens a file or uses a descriptor of one. -/
inductive FileCall
  | open (pathname : List UInt8) (flags : UInt8)
  | write (fd : ℤ) (src : Image) (count : UInt32)
  | read (fd : ℤ) (buf : Option Image) (count : UInt32)
  | lseek (fd : ℤ) (offset : Int32) (whence : UInt8)

/-- The state after a call of the running process. -/
def State.fileCall (s : State) : FileCall → Except Fault State
  | .open pathname flags => do
    let (_, t) ← sysOpen s pathname flags
    .ok t
  | .write fd src count => do
    let (_, t) ← writeAnswer s fd src count
    .ok t
  | .read fd buf count => do
    let (_, t) ← readAnswer s fd buf count
    .ok t
  | .lseek fd offset whence => do
    let (_, t) ← sysLseek s fd offset whence
    .ok t

/-- Such calls of any live processes in any order. -/
def fileCalls : System State (ℕ × FileCall) where
  start s := ∃ x, SessionStart x ∧ x.fs = s
  step s c t := (∃ task, s.tasks c.1 = some task) ∧ { s with cur := c.1 }.fileCall c.2 = .ok t

/-- The position of every slot of a file lies in the file. -/
def PositionsInside (s : State) : Prop := ∀ (g : ℕ) f a, s.fileTable[g]? = some f →
  f.fdFlag ≠ pipeFlag → f.fdInode = some a →
    ∃ x, s.inodes a = some x ∧ f.fdPos.toNat ≤ x.iSize.toNat

/-- `sys_write` gets to write no byte to an empty file. -/
def WritesNothing (s : State) (fd : ℤ) (count : UInt32) : Prop :=
  count = 0 ∧ 0 ≤ fd ∧ fd ≠ 1 ∧ s.heap 0 = true ∧ s.heap 1 = true ∧
    ∃ g f a x, s.names s.cur fd.toNat g ∧ s.fileTable[g]? = some f ∧ f.fdFlag ≠ pipeFlag ∧
      forWriting f.fdFlag = true ∧ f.fdInode = some a ∧ s.inodes a = some x ∧ x.iSize = 0

/-- No write of nothing to an empty file, and no new name in a directory while a size is
next to the end of the numbers. -/
def FileCall.regular (s : State) : FileCall → Prop
  | .open _ flags => flags &&& oCreat ≠ 0 → ∀ a x, s.inodes a = some x → x.roomy
  | .write fd _ count => ¬ WritesNothing s fd count
  | _ => True

theorem writeAnswer_inside (hs : Inside s) (src : Image) {count : UInt32}
    (hwrite : ¬ WritesNothing s fd count) :
    Returns (writeAnswer s fd src count) fun r => Inside r.2 := by
  refine returns_ite (fun _ => hs) fun hneg => returns_bind fun pipe hp => ?_
  refine returns_ite (fun _ => hs) fun hno => returns_bind fun g hg => ?_
  have hname := (fdLocal2Global_ok hg).1
  have hfile := fileSlot_of_isPipe hp (fun h => hno (.inl h)) hname
  refine returns_bind fun f hf => returns_ite (fun hflag => ?_) fun _ => hs
  have hslot := file_ok hf
  refine Returns.bind (fileWrite_inside hs hfile src fun hcount h0 h1 f' a x hf' ha hx hsize => ?_)
    fun v hv => hv
  obtain rfl := Option.some.inj (hslot.symm.trans hf')
  exact hwrite ⟨hcount, not_lt.mp hneg, fun h => hno (.inr h), h0, h1, g, f, a, x, hname, hf',
    hfile f hf', hflag, ha, hx, hsize⟩

theorem readAnswer_inside (hs : Inside s) (buf : Option Image) (count : UInt32) :
    Returns (readAnswer s fd buf count) fun r => Inside r.2 := by
  refine returns_ensure fun _ => returns_ite (fun _ => hs) fun _ => returns_skip fun pipe => ?_
  refine returns_ite (fun _ => hs) fun _ => returns_skip fun dst => returns_skip fun g => ?_
  exact Returns.bind (fileRead_inside hs dst count) fun v hv => hv

/-- A position that passes the check of `sys_lseek`. -/
theorem seek_le {pos : Int32} {size : UInt32} (h : ¬ (pos < 0 ∨ pos > size.toInt32 - 1)) :
    pos.toUInt32.toNat ≤ size.toNat := by
  obtain ⟨h0, h1⟩ := not_or.mp h
  rw [Int32.not_lt, Int32.le_iff_toInt_le] at h0
  rw [gt_iff_lt, Int32.not_lt, Int32.le_iff_toInt_le] at h1
  have hlast : (size.toInt32 - 1).toInt = (size.toBitVec - 1#32).toInt := rfl
  have hpos : pos.toInt = pos.toBitVec.toInt := rfl
  have hsize : size.toNat = size.toBitVec.toNat := rfl
  have hzero : (0 : Int32).toInt = 0 := rfl
  have hval : pos.toUInt32.toNat = pos.toBitVec.toNat := rfl
  have hlt := size.toBitVec.isLt
  have hlt' := pos.toBitVec.isLt
  rw [hlast, hpos, BitVec.toInt_eq_toNat_cond, BitVec.toInt_eq_toNat_cond, BitVec.toNat_sub] at h1
  rw [hzero, hpos, BitVec.toInt_eq_toNat_cond] at h0
  rw [hval, hsize]
  have hone : (1#32).toNat = 1 := rfl
  rw [hone] at h1
  split_ifs at h0 h1 <;> omega

theorem sysLseek_inside (hs : Inside s) (offset : Int32) (whence : UInt8) :
    Returns (sysLseek s fd offset whence) fun r => Inside r.2 := by
  refine returns_ite (fun _ => hs) fun _ => returns_ensure fun _ => returns_skip fun g => ?_
  refine returns_bind fun f hf => returns_deref fun a ha => returns_deref fun x hx => ?_
  refine returns_ite (fun _ => hs) fun hpos => hs.move (file_ok hf) fun b y hb hy => ?_
  obtain rfl := Option.some.inj (ha.symm.trans hb)
  obtain rfl := Option.some.inj (hx.symm.trans hy)
  exact seek_le hpos

/-- What each call keeps. -/
theorem fileCall_inside (hb : Backed s 0) (hs : Inside s) {c : FileCall} (hc : c.regular s) :
    Returns (s.fileCall c) Inside := by
  cases c with
  | «open» path flags =>
    exact Returns.bind (sysOpen_sizes hb.ok path flags hc) fun r hr => Sized.inside hr hs
  | write fd src count => exact Returns.bind (writeAnswer_inside hs src hc) fun r hr => hr
  | read fd buf count => exact Returns.bind (readAnswer_inside hs buf count) fun r hr => hr
  | lseek fd offset whence =>
    exact Returns.bind (sysLseek_inside hs offset whence) fun r hr => hr

theorem fileCall_backed (hb : Backed s 0) (c : FileCall) :
    Returns (s.fileCall c) fun t => Backed t 0 := by
  have hopens := Opens.refl hb.ok
  have hstill : ∀ {t : State}, Still s t → Backed t 0 := fun ht => hb.opens (hopens.still ht)
  cases c with
  | «open» path flags =>
    exact Returns.bind (sysOpen_opened hb.ok path flags) fun r ⟨h, hr⟩ =>
      hb.opened hr (openFlag_ne_pipeFlag flags)
  | write fd src count =>
    refine Returns.bind ?_ fun r hr => hstill hr
    refine returns_ite (fun _ => Still.refl s) fun _ => returns_bind fun pipe hp => ?_
    refine returns_ite (fun _ => Still.refl s) fun hno => returns_bind fun g hg => ?_
    have hfile := fileSlot_of_isPipe hp (fun h => hno (.inl h)) (fdLocal2Global_ok hg).1
    refine returns_skip fun f => returns_ite (fun _ => ?_) fun _ => Still.refl s
    exact Returns.bind (fileWrite_still hfile src count) fun v hv => hv
  | read fd buf count =>
    refine Returns.bind ?_ fun r hr => hstill hr
    refine returns_ensure fun _ => returns_ite (fun _ => Still.refl s) fun _ => ?_
    refine returns_bind fun pipe hp => returns_ite (fun _ => Still.refl s) fun hno => ?_
    refine returns_skip fun dst => returns_bind fun g hg => ?_
    have hfile := fileSlot_of_isPipe hp (fun h => hno (.inl h)) (fdLocal2Global_ok hg).1
    exact Returns.bind (fileRead_still hfile dst count) fun v hv => hv
  | lseek fd offset whence =>
    have htables : ∀ {t : State}, t.inodes = s.inodes → t.openInodes = s.openInodes →
        t.nextInode = s.nextInode → (∀ a, t.slotsOf a = s.slotsOf a) → Backed t 0 := by
      intro t hinodes hopen hnext hslots
      refine ⟨hb.ok.tables hopen hinodes hnext, fun a => ?_⟩
      have hcount := hb.counted a
      unfold State.openCount at hcount ⊢
      rw [hopen, hinodes, hslots]
      exact hcount
    have hseek : Returns (sysLseek s fd offset whence) fun r => Backed r.2 0 := by
      refine returns_ite (fun _ => hb) fun _ => returns_ensure fun _ => returns_skip fun g => ?_
      refine returns_bind fun f hf => returns_skip fun a => returns_skip fun x => ?_
      refine returns_ite (fun _ => hb) fun _ => htables rfl rfl rfl fun b => ?_
      have hslot := file_ok hf
      ext j
      rw [mem_slotsOf, mem_slotsOf]
      by_cases hjg : j = g
      · subst hjg
        rw [setFile_self (slot_lt hslot), hslot]
        simp
      · rw [setFile_of_ne hjg]
    exact Returns.bind hseek fun r hr => hr

theorem Inside.positions (hs : Inside s) (hb : Backed s 0) : PositionsInside s := by
  intro g f a hf hflag ha
  obtain ⟨x, hx, -⟩ := hb.ok.live a (hb.slot_open hf hflag ha)
  exact ⟨x, hx, (hs g f a hf hflag ha).2 x hx⟩

/-- In every run without a write of nothing to an empty file, every position stays in its
file. -/
theorem positions_inside {l : List (ℕ × FileCall)} (hs : fileCalls.start s)
    (hrun : fileCalls.RunWhere (fun u c => c.2.regular { u with cur := c.1 }) s l t) :
    PositionsInside t := by
  have hinv : Backed t 0 ∧ Inside t := by
    refine hrun.keeps (I := fun u => Backed u 0 ∧ Inside u) ?_ ?_
    · rintro u ⟨p, c⟩ v ⟨hb, hu⟩ hregular ⟨-, hstep⟩
      have hb' : Backed { u with cur := p } 0 := ⟨hb.ok.tables rfl rfl rfl, hb.counted⟩
      have hu' : Inside { u with cur := p } :=
        (Sized.of_inodes (R := (· ≤ ·)) rfl rfl rfl).inside hu
      exact ⟨(fileCall_backed hb' c).of_ok hstep, (fileCall_inside hb' hu' hregular).of_ok hstep⟩
    · obtain ⟨x, hx, rfl⟩ := hs
      refine ⟨(backed_start hx).le (Multiset.zero_le _), fun g f a hf _ ha => ?_⟩
      have hmem : f ∈ x.fs.fileTable.toList := by
        rw [Vector.mem_toList_iff]
        exact Vector.mem_of_getElem? hf
      rw [(hx.noSlots f hmem).1] at ha
      cases ha
  exact hinv.2.positions hinv.1

/-- A file is opened for writing, a byte is written and the position set to the start. -/
theorem positions_inside_write : ∃ t u v, fileCalls.step sampleSession.fs (1, .open pathF 2) t ∧
    fileCalls.step t (1, .write 3 zeros 1) u ∧ fileCalls.step u (1, .lseek 3 0 1) v ∧
    PositionsInside v := by
  obtain ⟨t, ht, u, hu, v, hv, htask, hutask, htcur, hucur⟩ :
      ∃ t, sampleSession.fs.fileCall (.open pathF 2) = .ok t ∧
        ∃ u, t.fileCall (.write 3 zeros 1) = .ok u ∧
          ∃ v, u.fileCall (.lseek 3 0 1) = .ok v ∧
            (t.tasks 1).isSome ∧ (u.tasks 1).isSome ∧ t.cur = 1 ∧ u.cur = 1 := by decide
  have h1 : fileCalls.step sampleSession.fs (1, .open pathF 2) t := ⟨⟨stdTask, rfl⟩, ht⟩
  have h2 : fileCalls.step t (1, .write 3 zeros 1) u := by
    refine ⟨Option.isSome_iff_exists.mp htask, ?_⟩
    rw [← htcur]
    exact hu
  have h3 : fileCalls.step u (1, .lseek 3 0 1) v := by
    refine ⟨Option.isSome_iff_exists.mp hutask, ?_⟩
    rw [← hucur]
    exact hv
  refine ⟨t, u, v, h1, h2, h3, positions_inside ⟨_, sampleSession_start, rfl⟩
    (.snoc (.snoc (.snoc .nil ?_ h1) ?_ h2) ?_ h3)⟩
  · exact fun h => absurd rfl h
  · exact fun h => absurd h.1 (by decide)
  · exact trivial

/-- A write of nothing to an empty file sets its position to `0xffffffff`. -/
theorem position_before_start : ∃ s l t, fileCalls.start s ∧ fileCalls.Run s l t ∧
    ¬ PositionsInside t := by
  obtain ⟨t, ht, u, hu, htask, htcur, hslot, hsize⟩ :
      ∃ t, sampleSession.fs.fileCall (.open pathF 2) = .ok t ∧
        ∃ u, t.fileCall (.write 3 zeros 0) = .ok u ∧ (t.tasks 1).isSome ∧ t.cur = 1 ∧
          u.fileTable[3]? = some ⟨0xffffffff, 2, some 1⟩ ∧
          (u.inodes 1).map (·.iSize) = some 0 := by decide
  have h1 : fileCalls.step sampleSession.fs (1, .open pathF 2) t := ⟨⟨stdTask, rfl⟩, ht⟩
  have h2 : fileCalls.step t (1, .write 3 zeros 0) u := by
    refine ⟨Option.isSome_iff_exists.mp htask, ?_⟩
    rw [← htcur]
    exact hu
  refine ⟨_, _, u, ⟨_, sampleSession_start, rfl⟩, .snoc (.snoc .nil h1) h2, fun hin => ?_⟩
  obtain ⟨x, hx, hle⟩ := hin 3 _ 1 hslot (by decide) rfl
  rw [hx, Option.map_some, Option.some_inj] at hsize
  rw [hsize] at hle
  exact absurd hle (by decide)

end Runs

end X86System.FileSystem
