import X86System.PageLifetimes
import X86System.ProgramLoads
import X86System.Library.Logged

/-!
# What a program writes while it is loaded

`load` takes the addresses of a segment from the program header. They are not compared with
the bounds of the user half, neither there nor in `segment_load`, and the copy runs in the
kernel. What is asked for and written is logged as it is done, for the loader may stop in
the middle of a segment. The header is on the kernel stack when it is read; only segments
are logged.
-/
namespace X86System.Loader
open Bytes Exec Paging Memory Logged

/-- What `load` does on behalf of a program. -/
inductive LoadEvent
  /-- A loadable header is handed to `segment_load`. -/
  | header (progHeader : Elf32Phdr)
  /-- `get_a_page` is asked for the page at an address. -/
  | asks (vaddr : ℕ)
  /-- `file_read` copies that many bytes to an address. -/
  | writes (vaddr chunkSize : ℕ)

namespace Traced

/-- `mapSegment` with its log. -/
def mapSegment : ℕ → ℕ → Machine → Logged LoadEvent Fault (Bool × Machine)
  | 0, _, m => return (true, m)
  | cnt + 1, vaddrPage, m => do
    let pde ← m.load (pdePtr vaddrPage)
    let pte ← m.load (pdePtr vaddrPage)
    if pde &&& 1 = 0 ∨ pte &&& 1 = 0 then
      event (.asks vaddrPage)
      match ← (getAPage m .user vaddrPage : Except Fault _) with
      | (none, m) => return (false, m)
      | (some _, m) => mapSegment cnt ((vaddrPage + pgSize) % 2 ^ 32) m
    else mapSegment cnt ((vaddrPage + pgSize) % 2 ^ 32) m

section Reads
open FileSystem

/-- The loop of `file_read` with its log, for a buffer at `buf`. -/
def readLoop (buf g : ℕ) (allBlocks : Buffer) :
    ℕ → ℕ → ℕ → Buffer → Image → FileSystem.State → Logged LoadEvent Fault (Image × FileSystem.State)
  | 0, _, left, _, dst, s =>
    if left = 0 then return (dst, s) else liftM (Except.error Fault.diverge : Except Fault _)
  | fuel + 1, done, left, ioBuf, dst, s =>
    if left = 0 then return (dst, s)
    else do
      let f ← s.file g
      let lba ← allBlocks.word (f.fdPos.toNat / 512)
      let off := f.fdPos.toNat % 512
      let chunk := min left (512 - off)
      let ioBuf ← ioBuf.copy 0 512 zeros
      let ioBuf ← ideRead s lba.toNat ioBuf 0 1
      event (.writes (buf + done) chunk)
      let s ← advance s g (UInt32.ofNat chunk)
      readLoop buf g allBlocks fuel (done + chunk) (left - chunk) ioBuf
        (overlay dst done chunk (slice ioBuf.bytes off)) s

/-- `file_read` with its log, for a buffer at `buf`. -/
def fileRead (buf : ℕ) (s : FileSystem.State) (g : ℕ) (dst : Image) (count : UInt32) :
    Logged LoadEvent Fault (Option UInt32 × Image × FileSystem.State) := do
  let f ← s.file g
  let a ← fileInode s g
  let x ← deref (s.inodes a)
  let size := readSize f x count
  if x.iSize < f.fdPos + count ∧ size = 0 then return (none, dst, s)
  else
    let (ioBuf, s) := sysMalloc s 512
    match ioBuf with
    | none => return (none, dst, s)
    | some ioBuf =>
      let (allBlocks, s) := sysMalloc s (512 + 48)
      match allBlocks with
      | none => return (none, dst, s)
      | some allBlocks =>
        let start := f.fdPos.toNat / 512
        let last := (f.fdPos + size).toNat / 512
        ensure Fault.assert (start < 139 ∧ last < 139)
        let allBlocks ← collectReadBlocks s x start last allBlocks
        let (dst, s) ← readLoop buf g allBlocks size.toNat 0 size.toNat ioBuf dst s
        return (some size, dst, s)

end Reads

/-- `sys_read` with its log. -/
def sysRead (s : FileSystem.State) (m : Machine) (fd vaddr : ℕ) (count : UInt32) :
    Logged LoadEvent Fault (Option UInt32 × FileSystem.State × Machine) := do
  ensure Fault.assert (vaddr ≠ 0)
  let g ← FileSystem.fdLocal2Global s fd
  let (read, dst, s) ← fileRead vaddr s g zeros count
  let m ← m.storeBytes vaddr (FileSystem.bytesAt dst (read.elim 0 UInt32.toNat))
  return (read, s, m)

/-- `segment_load` with its log. -/
def segmentLoad (s : FileSystem.State) (m : Machine) (fd : ℕ) (offset filesz vaddr : UInt32) :
    Logged LoadEvent Fault (Bool × FileSystem.State × Machine) := do
  let vaddrFirstPage := vaddr &&& 0xfffff000
  match ← mapSegment (occupyPages filesz vaddr).toNat vaddrFirstPage.toNat m with
  | (false, m) => return (false, s, m)
  | (true, m) =>
    let (_, s) ← FileSystem.sysLseek s fd offset.toInt32 1
    let (_, s, m) ← sysRead s m fd vaddr.toNat filesz
    return (true, s, m)

/-- `loadSegments` with its log. -/
def loadSegments (fd : ℕ) (progHeaderSize : UInt16) : ℕ → UInt32 → FileSystem.State → Machine →
    Logged LoadEvent Fault (Bool × FileSystem.State × Machine)
  | 0, _, s, m => return (true, s, m)
  | left + 1, progHeaderOffset, s, m => do
    let (_, s) ← FileSystem.sysLseek s fd progHeaderOffset.toInt32 1
    let (read, dst, s) ← readHeader s fd progHeaderSize.toUInt32
    if read ≠ some progHeaderSize.toUInt32 then return (false, s, m)
    else
      let progHeader := Elf32Phdr.ofBytes dst
      if progHeader.pType = ptLoad then
        event (.header progHeader)
        match ← segmentLoad s m fd progHeader.pOffset progHeader.pFilesz progHeader.pVaddr with
        | (false, s, m) => return (false, s, m)
        | (true, s, m) =>
          loadSegments fd progHeaderSize left (progHeaderOffset + progHeaderSize.toUInt32) s m
      else loadSegments fd progHeaderSize left (progHeaderOffset + progHeaderSize.toUInt32) s m

/-- `loadOpened` with its log. -/
def loadOpened (s : FileSystem.State) (m : Machine) (fd : ℕ) :
    Logged LoadEvent Fault (UInt32 × FileSystem.State × Machine) := do
  let (read, dst, s) ← readHeader s fd Elf32Ehdr.size
  if read ≠ some Elf32Ehdr.size then return (FileSystem.minusOne, s, m)
  else
    let elfHeader := Elf32Ehdr.ofBytes dst
    if ¬ elfHeader.Accepted then return (FileSystem.minusOne, s, m)
    else
      let progHeaderOffset := elfHeader.ePhoff + elfHeader.ePhentsize.toUInt32
      match ← loadSegments fd elfHeader.ePhentsize (elfHeader.ePhnum.toNat - 1)
        progHeaderOffset s m with
      | (false, s, m) => return (FileSystem.minusOne, s, m)
      | (true, s, m) => return (elfHeader.eEntry, s, m)

/-- `load` with its log. -/
def load (x : FileSystem.Session) (m : Machine) (pathname : List UInt8) :
    Logged LoadEvent Fault (UInt32 × FileSystem.Session × Machine) := do
  let (fd, s) ← FileSystem.sysOpen x.fs pathname 0
  if fd = -1 then return (FileSystem.minusOne, { x with fs := s }, m)
  else
    let (ret, s, m) ← loadOpened s m fd.toNat
    let (_, x) ← FileSystem.sysClose { x with fs := s } fd
    return (ret, x, m)

/-- `sys_execv` with its log. -/
def sysExecv (x : FileSystem.Session) (m : Machine) (path : List UInt8) :
    Logged LoadEvent Fault (Option UInt32 × FileSystem.Session × Machine) := do
  let (entryPoint, x, m) ← load x m path
  if entryPoint = FileSystem.minusOne then return (none, x, m)
  else return (some entryPoint, x, m.rename (path.take (taskNameLen - 1)))

end Traced

section Plain

variable {m : Machine} {s : FileSystem.State} {fd : ℕ}

theorem mapSegment_plain (cnt : ℕ) : ∀ (vaddrPage : ℕ) (m : Machine),
    (Traced.mapSegment cnt vaddrPage m).result = mapSegment cnt vaddrPage m := by
  induction cnt with
  | zero => exact fun _ _ => rfl
  | succ cnt ih =>
    intro vaddrPage m
    unfold Traced.mapSegment mapSegment
    simp only [result_bind, result_lift]
    refine bind_congr fun pde => bind_congr fun pte => ?_
    split_ifs
    · rw [result_bind, result_event, ok_bind, result_bind, result_lift]
      refine bind_congr fun v => ?_
      rcases v with ⟨_ | a, m'⟩
      · rfl
      · exact ih _ _
    · exact ih _ _

theorem readLoop_plain (buf g : ℕ) (allBlocks : FileSystem.Buffer) (fuel : ℕ) : ∀ (done left : ℕ)
    (ioBuf : FileSystem.Buffer) (dst : Image) (s : FileSystem.State),
    (Traced.readLoop buf g allBlocks fuel done left ioBuf dst s).result =
      FileSystem.readLoop g allBlocks fuel done left ioBuf dst s := by
  induction fuel with
  | zero =>
    intro done left ioBuf dst s
    unfold Traced.readLoop FileSystem.readLoop
    split_ifs <;> rfl
  | succ fuel ih =>
    intro done left ioBuf dst s
    unfold Traced.readLoop FileSystem.readLoop
    split_ifs
    · rfl
    · simp only [result_bind, result_lift, result_event, ok_bind]
      refine bind_congr fun f => bind_congr fun lba => bind_congr fun b => bind_congr fun b =>
        bind_congr fun t => ih _ _ _ _ _

theorem fileRead_plain (buf : ℕ) (s : FileSystem.State) (g : ℕ) (dst : Image) (count : UInt32) :
    (Traced.fileRead buf s g dst count).result = FileSystem.fileRead s g dst count := by
  unfold Traced.fileRead FileSystem.fileRead
  simp only [result_bind, result_lift]
  refine bind_congr fun f => bind_congr fun a => bind_congr fun x => ?_
  split_ifs
  · rfl
  · rcases FileSystem.sysMalloc s 512 with ⟨_ | ioBuf, t⟩
    · rfl
    · dsimp only
      rcases FileSystem.sysMalloc t (512 + 48) with ⟨_ | allBlocks, t'⟩
      · rfl
      · dsimp only
        simp only [result_bind, result_lift, readLoop_plain]
        rfl

theorem sysRead_plain (s : FileSystem.State) (m : Machine) (fd vaddr : ℕ) (count : UInt32) :
    (Traced.sysRead s m fd vaddr count).result = sysRead s m fd vaddr count := by
  unfold Traced.sysRead sysRead
  simp only [result_bind, result_lift, fileRead_plain]
  rfl

theorem segmentLoad_plain (s : FileSystem.State) (m : Machine) (fd : ℕ)
    (offset filesz vaddr : UInt32) : (Traced.segmentLoad s m fd offset filesz vaddr).result =
      segmentLoad s m fd offset filesz vaddr := by
  unfold Traced.segmentLoad segmentLoad
  rw [result_bind, mapSegment_plain]
  refine bind_congr fun v => ?_
  rcases v with ⟨_ | _, m'⟩
  · rfl
  · dsimp only
    simp only [result_bind, result_lift, sysRead_plain]
    rfl

theorem loadSegments_plain (fd : ℕ) (size : UInt16) (left : ℕ) : ∀ (offset : UInt32)
    (s : FileSystem.State) (m : Machine), (Traced.loadSegments fd size left offset s m).result =
      loadSegments fd size left offset s m := by
  induction left with
  | zero => exact fun _ _ _ => rfl
  | succ left ih =>
    intro offset s m
    unfold Traced.loadSegments loadSegments
    rw [result_bind, result_lift]
    refine bind_congr fun v => ?_
    rw [result_bind, result_lift]
    refine bind_congr fun w => ?_
    dsimp only
    split_ifs
    · rfl
    · rw [result_bind, result_event, ok_bind, result_bind, segmentLoad_plain]
      refine bind_congr fun r => ?_
      rcases r with ⟨_ | _, t, m'⟩
      · rfl
      · exact ih _ _ _
    · exact ih _ _ _

theorem loadOpened_plain (s : FileSystem.State) (m : Machine) (fd : ℕ) :
    (Traced.loadOpened s m fd).result = loadOpened s m fd := by
  unfold Traced.loadOpened loadOpened
  rw [result_bind, result_lift]
  refine bind_congr fun v => ?_
  dsimp only
  split_ifs
  · rfl
  · rw [result_bind, loadSegments_plain]
    refine bind_congr fun r => ?_
    rcases r with ⟨_ | _, t, m'⟩ <;> rfl
  · rfl

/-- The log changes nothing. -/
theorem sysExecv_plain (x : FileSystem.Session) (m : Machine) (path : List UInt8) :
    (Traced.sysExecv x m path).result = sysExecv x m path := by
  have hload : (Traced.load x m path).result = load x m path := by
    unfold Traced.load load
    rw [result_bind, result_lift]
    refine bind_congr fun v => ?_
    dsimp only
    split_ifs
    · rfl
    · rw [result_bind, loadOpened_plain]
      rfl
  unfold Traced.sysExecv sysExecv
  rw [result_bind, hload]
  refine bind_congr fun v => ?_
  dsimp only
  split_ifs <;> rfl

end Plain

section Positions

variable {s : FileSystem.State} {g fd : ℕ} {f : FileSystem.File} {x : FileSystem.Inode}
  {path : List UInt8}

/-- The position of the file behind a descriptor is inside the file. -/
def Positioned (s : FileSystem.State) (fd : ℕ) : Prop := ∀ g f a x, s.names s.cur fd g →
  s.fileTable[g]? = some f → f.fdInode = some a → s.inodes a = some x →
    f.fdPos.toNat ≤ x.iSize.toNat

/-- The position of the slot that the descriptor names moves inside its file. -/
theorem Positioned.move (hg : s.names s.cur fd g) (hf : s.fileTable[g]? = some f) {p : UInt32}
    (hp : ∀ a x, f.fdInode = some a → s.inodes a = some x → p.toNat ≤ x.iSize.toNat) :
    Positioned (s.setFile g { f with fdPos := p }) fd := by
  intro g' f' a x hg' hf' ha hx
  obtain rfl := hg.unique hg'
  rw [FileSystem.setFile_self (FileSystem.slot_lt hf)] at hf'
  obtain rfl := Option.some.inj hf'
  exact hp a x ha hx

/-- A file is opened at its start. -/
theorem sysOpen_positioned (hslash : path.getLast? ≠ some FileSystem.slash) :
    Returns (FileSystem.sysOpen s path 0) fun v => v.1 ≠ -1 → Positioned v.2 v.1.toNat := by
  have hfail : ∀ (t : FileSystem.State) (d : FileSystem.Dir),
      Returns (FileSystem.dirClose t d >>= fun t => Except.ok ((-1 : ℤ), t))
        fun v => v.1 ≠ -1 → Positioned v.2 v.1.toNat :=
    fun t d => returns_skip fun _ h => absurd rfl h
  unfold FileSystem.sysOpen
  refine returns_ensure fun _ => returns_ite (fun h => absurd h hslash) fun _ => ?_
  refine returns_ensure fun _ => returns_skip fun depth => returns_skip fun ⟨n, r, u⟩ => ?_
  refine returns_ite (fun _ => hfail _ _) fun _ => returns_skip fun _ => ?_
  refine returns_ite (fun _ => hfail _ _) fun _ => returns_ite (fun hcreat => ?_) fun _ => ?_
  · exact absurd (by decide) hcreat
  refine Returns.bind (Q := fun v => ∀ d, v.1 = some d → Positioned v.2 d) ?_ fun ⟨d, t⟩ ht => ?_
  · unfold FileSystem.fileOpen
    cases hslot : FileSystem.getFreeSlotInGlobal u with
    | none => exact fun _ h => nomatch h
    | some g =>
      obtain ⟨-, f₀, hf₀, -⟩ := FileSystem.getFreeSlotInGlobal_spec hslot
      refine returns_skip fun ⟨a, t⟩ => returns_ite (fun h => absurd h (by decide)) fun _ => ?_
      refine (FileSystem.pcbFdInstall_exits _ g).mono fun v hv d hd => ?_
      rcases hv with ⟨rfl, -⟩ | ⟨task, fd, htask, -, hfree, rfl⟩
      · exact nomatch hd
      obtain rfl := Option.some.inj hd
      intro g' f b x ⟨task', htask', hg'⟩ hf _ _
      change Function.update t.tasks t.cur _ t.cur = _ at htask'
      rw [Function.update_self] at htask'
      obtain rfl := Option.some.inj htask'
      have hlt := (Vector.getElem?_eq_some_iff.mp hfree).1
      obtain rfl : g = g' := by simpa [FileSystem.Task.fd, FileSystem.Task.setFd, hlt] using hg'
      obtain rfl := Option.some.inj
        ((FileSystem.setFile_self (FileSystem.slot_lt hf₀)).symm.trans hf)
      exact Nat.zero_le _
  · intro hne
    cases d with
    | none => exact absurd rfl hne
    | some d => exact ht d rfl

/-- The position behind a descriptor is moved inside the file. -/
theorem Positioned.sysLseek (h : Positioned s fd) (offset : Int32) (whence : UInt8) :
    Returns (FileSystem.sysLseek s fd offset whence) fun r => Positioned r.2 fd := by
  unfold FileSystem.sysLseek
  rw [Int.toNat_natCast]
  refine returns_ite (fun _ => h) fun _ => returns_ensure fun _ => returns_bind fun g hg => ?_
  refine returns_bind fun f hf => FileSystem.returns_deref fun a ha => FileSystem.returns_deref fun x hx => ?_
  refine returns_ite (fun _ => h) fun hpos => ?_
  refine Positioned.move (FileSystem.fdLocal2Global_ok hg).1 (FileSystem.file_ok hf)
    fun b y hb hy => ?_
  obtain rfl := Option.some.inj (ha.symm.trans hb)
  obtain rfl := Option.some.inj (hx.symm.trans hy)
  exact FileSystem.seek_le hpos

/-- Reading moves the position by what is read. -/
theorem Positioned.fileRead (h : Positioned s fd) (hg : s.names s.cur fd g) (dst : Image)
    (count : UInt32) :
    Returns (FileSystem.fileRead s g dst count) fun r => Positioned r.2.2 fd := by
  refine returns_bind fun f hfile => returns_bind fun a ha => FileSystem.returns_deref fun x hx => ?_
  refine returns_ite (fun _ => h) fun _ => ?_
  have hf := FileSystem.file_ok hfile
  by_cases h0 : s.heap 0 = true
  swap
  · rw [FileSystem.sysMalloc_of_full h0]
    exact h
  rw [FileSystem.sysMalloc_of_heap h0]
  dsimp only
  by_cases h1 : s.popHeap.heap 0 = true
  swap
  · rw [FileSystem.sysMalloc_of_full h1]
    exact h
  rw [FileSystem.sysMalloc_of_heap h1]
  refine returns_ensure fun _ => returns_skip fun c => ?_
  refine Returns.bind (FileSystem.readLoop_moves g c _ _ _ _ _ _ f hf) fun ⟨d, t⟩ ht => ?_
  subst ht
  refine Positioned.move (s := s.popHeap.popHeap) hg hf fun b y hb hy => ?_
  obtain ⟨f', hf', hfa⟩ := FileSystem.fileInode_ok ha
  obtain rfl := Option.some.inj (hf.symm.trans hf')
  obtain rfl := Option.some.inj (hfa.symm.trans hb)
  obtain rfl := Option.some.inj (hx.symm.trans hy)
  rw [UInt32.ofNat_toNat]
  exact FileSystem.readSize_le f x count

theorem Positioned.readHeader (h : Positioned s fd) (count : UInt32) :
    Returns (readHeader s fd count) fun r => Positioned r.2.2 fd :=
  returns_bind fun _ hg => h.fileRead (FileSystem.fdLocal2Global_ok hg).1 zeros count

theorem Positioned.segmentLoad (h : Positioned s fd) (m : Machine) (offset filesz vaddr : UInt32) :
    Returns (segmentLoad s m fd offset filesz vaddr) fun r => Positioned r.2.1 fd := by
  refine returns_skip fun ⟨done, m₁⟩ => ?_
  cases done with
  | false => exact h
  | true =>
    refine Returns.bind (h.sysLseek offset.toInt32 1) fun ⟨ans, t⟩ ht => ?_
    refine Returns.bind (Q := fun r : Option UInt32 × FileSystem.State × Machine =>
      Positioned r.2.1 fd) ?_ fun ⟨n, u, m₂⟩ hu => hu
    refine returns_ensure fun _ => returns_bind fun g hg => ?_
    refine Returns.bind (ht.fileRead (FileSystem.fdLocal2Global_ok hg).1 zeros filesz)
      fun ⟨n, dst, u⟩ hu => returns_skip fun m₂ => hu

/-- From a position inside the file no more is read than was asked for. -/
theorem readSize_le_count (hpos : f.fdPos.toNat ≤ x.iSize.toNat) (count : UInt32) :
    (FileSystem.readSize f x count).toNat ≤ count.toNat := by
  unfold FileSystem.readSize
  split_ifs with hlt
  · rw [UInt32.lt_iff_toNat_lt, UInt32.toNat_add] at hlt
    rw [UInt32.toNat_sub_of_le _ _ (UInt32.le_iff_toNat_le.mpr hpos)]
    have hle := Nat.mod_le (f.fdPos.toNat + count.toNat) (2 ^ 32)
    omega
  · exact le_rfl

end Positions

section Bounds

/-- The segment that a header describes lies in the user half, whose end is not below it. -/
def Elf32Phdr.InUserSpace (h : Elf32Phdr) : Prop :=
  userVaddrStart ≤ h.pVaddr.toNat ∧ h.pVaddr.toNat < 0xc0000000 ∧
    h.pVaddr.toNat + h.pFilesz.toNat ≤ 0xc0000000

/-- What is asked for and written lies in the user half. -/
def LoadEvent.InUserSpace : LoadEvent → Prop
  | .header _ => True
  | .asks vaddr => userVaddrStart ≤ vaddr ∧ vaddr + pgSize ≤ 0xc0000000
  | .writes vaddr chunkSize => userVaddrStart ≤ vaddr ∧ vaddr + chunkSize ≤ 0xc0000000

/-- The header that is handed to `segment_load` is inside the user half. -/
def LoadEvent.HeaderInside : LoadEvent → Prop
  | .header h => h.InUserSpace
  | _ => True

instance : DecidablePred LoadEvent.HeaderInside
  | .header _ => inferInstanceAs (Decidable (_ ∧ _ ∧ _))
  | .asks _ => .isTrue trivial
  | .writes _ _ => .isTrue trivial

variable {s : FileSystem.State} {m : Machine} {g fd buf n : ℕ} {f : FileSystem.File}
  {offset filesz vaddr count : UInt32}

theorem mapSegment_inside (cnt : ℕ) : ∀ {n : ℕ} {m : Machine}, 0x8048 ≤ n → n + cnt ≤ 0xc0000 →
    Logged.Keeps LoadEvent.InUserSpace (Traced.mapSegment cnt (n * 4096) m) := by
  induction cnt with
  | zero => exact fun _ _ => Logged.Keeps.pure _
  | succ cnt ih =>
    intro n m hlo hend
    have hnext : (n * 4096 + pgSize) % 2 ^ 32 = (n + 1) * 4096 := next_page (by omega)
    have hrest : ∀ m, Logged.Keeps LoadEvent.InUserSpace
        (Traced.mapSegment cnt ((n * 4096 + pgSize) % 2 ^ 32) m) := by
      intro m
      rw [hnext]
      exact ih (by omega) (by omega)
    unfold Traced.mapSegment
    refine (Logged.Keeps.lift _).bind fun pde _ => (Logged.Keeps.lift _).bind fun pte _ => ?_
    split_ifs
    · refine (Logged.Keeps.event ?_).bind fun _ _ => (Logged.Keeps.lift _).bind fun v _ => ?_
      · unfold LoadEvent.InUserSpace userVaddrStart pgSize
        omega
      · rcases v with ⟨_ | a, m'⟩
        · exact Logged.Keeps.pure _
        · exact hrest m'
    · exact hrest m

theorem readLoop_inside (allBlocks : FileSystem.Buffer) (fuel : ℕ) (hlo : userVaddrStart ≤ buf) :
    ∀ (done left : ℕ) (ioBuf : FileSystem.Buffer) (dst : Image) (s : FileSystem.State),
    buf + done + left ≤ 0xc0000000 → Logged.Keeps LoadEvent.InUserSpace
      (Traced.readLoop buf g allBlocks fuel done left ioBuf dst s) := by
  induction fuel with
  | zero =>
    intro done left ioBuf dst s _
    unfold Traced.readLoop
    split_ifs
    · exact Logged.Keeps.pure _
    · exact Logged.Keeps.lift _
  | succ fuel ih =>
    intro done left ioBuf dst s hend
    unfold Traced.readLoop
    split_ifs
    · exact Logged.Keeps.pure _
    · refine (Logged.Keeps.lift _).bind fun f _ => (Logged.Keeps.lift _).bind fun lba _ => ?_
      have hchunk : min left (512 - f.fdPos.toNat % 512) ≤ left := min_le_left _ _
      refine (Logged.Keeps.lift _).bind fun b _ => (Logged.Keeps.lift _).bind fun b _ => ?_
      refine (Logged.Keeps.event ?_).bind fun _ _ => (Logged.Keeps.lift _).bind fun t _ =>
        ih _ _ _ _ _ ?_
      · unfold LoadEvent.InUserSpace
        omega
      · omega

theorem fileRead_inside (h : Positioned s fd) (hg : s.names s.cur fd g)
    (hlo : userVaddrStart ≤ buf) (hend : buf + count.toNat ≤ 0xc0000000) (dst : Image) :
    Logged.Keeps LoadEvent.InUserSpace (Traced.fileRead buf s g dst count) := by
  unfold Traced.fileRead
  refine (Logged.Keeps.lift _).bind fun f hf => (Logged.Keeps.lift _).bind fun a ha =>
    (Logged.Keeps.lift _).bind fun x hx => ?_
  obtain ⟨f', hf', hfa⟩ := FileSystem.fileInode_ok ha
  obtain rfl := Option.some.inj ((FileSystem.file_ok hf).symm.trans hf')
  have hsize := readSize_le_count (h g f a x hg hf' hfa (FileSystem.deref_ok hx)) count
  dsimp only
  split_ifs
  · exact Logged.Keeps.pure _
  · rcases FileSystem.sysMalloc s 512 with ⟨_ | ioBuf, t⟩
    · exact Logged.Keeps.pure _
    · dsimp only
      rcases FileSystem.sysMalloc t (512 + 48) with ⟨_ | allBlocks, t'⟩
      · exact Logged.Keeps.pure _
      · refine (Logged.Keeps.lift _).bind fun _ _ => (Logged.Keeps.lift _).bind fun b _ => ?_
        exact (readLoop_inside b _ hlo 0 _ ioBuf dst t' (by omega)).bind fun _ _ =>
          Logged.Keeps.pure _

/-- The pages of a segment in the user half, which may be empty. -/
theorem segment_inside (hlt : vaddr.toNat < 0xc0000000)
    (hend : vaddr.toNat + filesz.toNat ≤ 0xc0000000) :
    (vaddr &&& 0xfffff000).toNat = vaddr.toNat / 4096 * 4096 ∧
      vaddr.toNat / 4096 + (occupyPages filesz vaddr).toNat ≤ 0xc0000 := by
  refine ⟨(@segment_pages 1 vaddr (by decide) (Nat.succ_le_of_lt hlt)).1, ?_⟩
  rcases Nat.eq_zero_or_pos filesz.toNat with hzero | hpos
  · have hone : occupyPages filesz vaddr = 1 := by
      obtain rfl : filesz = 0 := UInt32.toNat_inj.mp hzero
      unfold occupyPages
      dsimp only
      rw [if_neg UInt32.not_lt_zero]
    rw [hone]
    change _ + 1 ≤ _
    omega
  · rw [(segment_pages hpos hend).2]
    omega

/-- A segment in the user half is loaded there, whatever the file system and the memory are. -/
theorem segmentLoad_inside (h : Positioned s fd) (hlo : userVaddrStart ≤ vaddr.toNat)
    (hlt : vaddr.toNat < 0xc0000000) (hend : vaddr.toNat + filesz.toNat ≤ 0xc0000000) :
    Logged.Keeps LoadEvent.InUserSpace (Traced.segmentLoad s m fd offset filesz vaddr) := by
  obtain ⟨hfirst, hpages⟩ := segment_inside hlt hend
  unfold Traced.segmentLoad
  dsimp only
  rw [hfirst]
  refine (mapSegment_inside _ (by unfold userVaddrStart at hlo; omega) hpages).bind
    fun ⟨done, m₁⟩ _ => ?_
  cases done with
  | false => exact Logged.Keeps.pure _
  | true =>
    refine (Logged.Keeps.lift _).bind fun ⟨ans, t⟩ hseek => ?_
    have ht := (h.sysLseek offset.toInt32 1).of_ok hseek
    refine Logged.Keeps.bind ?_ fun _ _ => Logged.Keeps.pure _
    unfold Traced.sysRead
    refine (Logged.Keeps.lift _).bind fun _ _ => (Logged.Keeps.lift _).bind fun g hg => ?_
    refine (fileRead_inside ht (FileSystem.fdLocal2Global_ok hg).1 hlo hend zeros).bind
      fun r _ => (Logged.Keeps.lift _).bind fun _ _ => Logged.Keeps.pure _

/-- As long as the headers are inside, so are the segments; by induction on the headers that
are left. -/
theorem loadSegments_inside {size : UInt16} (left : ℕ) : ∀ {offset : UInt32}
    {s : FileSystem.State} {m : Machine}, Positioned s fd →
    Logged.Keeps LoadEvent.HeaderInside (Traced.loadSegments fd size left offset s m) →
    Logged.Keeps LoadEvent.InUserSpace (Traced.loadSegments fd size left offset s m) := by
  induction left with
  | zero => exact fun _ _ => Logged.Keeps.pure _
  | succ left ih =>
    intro offset s m h hin
    unfold Traced.loadSegments at hin ⊢
    refine (Logged.Keeps.lift _).bind fun ⟨ans, t⟩ hseek => ?_
    have ht := (h.sysLseek offset.toInt32 1).of_ok hseek
    replace hin := hin.rest hseek
    refine (Logged.Keeps.lift _).bind fun ⟨read, dst, u⟩ hread => ?_
    have hu := (ht.readHeader size.toUInt32).of_ok hread
    replace hin := hin.rest hread
    dsimp only at hin ⊢
    split_ifs at hin ⊢
    · exact Logged.Keeps.pure _
    · have hheader : (Elf32Phdr.ofBytes dst).InUserSpace :=
        hin.of_bind (.header (Elf32Phdr.ofBytes dst)) (List.mem_singleton_self _)
      obtain ⟨hlo, hlt, hend⟩ := hheader
      replace hin := hin.rest (result_event _)
      refine (Logged.Keeps.event trivial).bind fun _ _ => ?_
      refine (segmentLoad_inside hu hlo hlt hend).bind fun ⟨done, v, m₁⟩ hload => ?_
      replace hin := hin.rest hload
      rw [segmentLoad_plain] at hload
      have hv := (hu.segmentLoad m _ _ _).of_ok hload
      cases done with
      | false => exact Logged.Keeps.pure _
      | true => exact ih hv hin
    · exact ih hu hin

/-- What `load` writes and asks for is inside as long as its headers are. -/
theorem load_inside {x : FileSystem.Session} {path : List UInt8}
    (hslash : path.getLast? ≠ some FileSystem.slash)
    (hin : Logged.Keeps LoadEvent.HeaderInside (Traced.load x m path)) :
    Logged.Keeps LoadEvent.InUserSpace (Traced.load x m path) := by
  unfold Traced.load at hin ⊢
  refine (Logged.Keeps.lift _).bind fun ⟨fd, s⟩ hopen => ?_
  have hpos := (sysOpen_positioned hslash).of_ok hopen
  replace hin := hin.rest hopen
  dsimp only at hin ⊢
  split_ifs at hin ⊢ with hfd
  · exact Logged.Keeps.pure _
  · refine Logged.Keeps.bind ?_ fun r _ => (Logged.Keeps.lift _).bind fun _ _ => Logged.Keeps.pure _
    replace hin := hin.of_bind
    unfold Traced.loadOpened at hin ⊢
    refine (Logged.Keeps.lift _).bind fun ⟨read, dst, u⟩ hread => ?_
    have hu := ((hpos hfd).readHeader Elf32Ehdr.size).of_ok hread
    replace hin := hin.rest hread
    dsimp only at hin ⊢
    split_ifs at hin ⊢
    · exact Logged.Keeps.pure _
    · refine (loadSegments_inside _ hu hin.of_bind).bind fun ⟨done, v, m₁⟩ _ => ?_
      cases done <;> exact Logged.Keeps.pure _
    · exact Logged.Keeps.pure _

end Bounds

/-- A run of `sys_execv` asks for and writes user memory only, and returns -1 for a program with
a loadable header that is not inside. -/
structure LoadsInside (x : FileSystem.Session) (m : Machine) (path : List UInt8) : Prop where
  events : Logged.Keeps LoadEvent.InUserSpace (Traced.sysExecv x m path)
  refuses : ∀ h, .header h ∈ (Traced.sysExecv x m path).log → ¬ h.InUserSpace →
    ∀ r, sysExecv x m path = .ok r → r.1 = none

deriving instance DecidableEq for Elf32Phdr, LoadEvent

/-- A program whose second header says to load byte 115 to the PCB of the main thread. -/
def strayBytes : Image := ofWords fun i => [0x464c457f, 0x10101, 0, 0, 0x30002, 1, 0x8049000, 52,
  0, 0, 0x200034, 2, 0, 0, 0, 0, 0, 0, 0, 0, 0, 1, 115, 0xc009e000, 0, 1].getD i 0

/-- The program is the file `/f`. -/
def straySession : FileSystem.Session := { FileSystem.sampleSession with
  fs := { FileSystem.sampleSession.fs with
    disk := overlay (overlay FileSystem.sampleDisk (512 * 614) 512 strayBytes) (512 * 4 + 76) 76
      { (FileSystem.inodeInit 1).setSector 0 614 with iSize := 116 : FileSystem.Inode }.bytes } }

section Straying

variable {x : FileSystem.Session} {s t u : FileSystem.State} {m m' : Machine} {fd g : ℕ}
  {path : List UInt8} {dst : Image} {offset filesz vaddr : UInt32} {size : UInt16}
  {ans : FileSystem.Answer} {e : LoadEvent}

theorem segmentLoad_log (hmap : mapSegment (occupyPages filesz vaddr).toNat
    (vaddr &&& 0xfffff000).toNat m = .ok (true, m')) (hne : vaddr.toNat ≠ 0)
    (hseek : FileSystem.sysLseek s fd offset.toInt32 1 = .ok (ans, t))
    (hg : FileSystem.fdLocal2Global t fd = .ok g)
    (he : e ∈ (Traced.fileRead vaddr.toNat t g zeros filesz).log) :
    e ∈ (Traced.segmentLoad s m fd offset filesz vaddr).log := by
  rw [← mapSegment_plain] at hmap
  unfold Traced.segmentLoad Traced.sysRead
  refine mem_log_rest hmap (mem_log_rest hseek (mem_log_bind ?_))
  exact mem_log_rest (ensure_of hne) (mem_log_rest hg (mem_log_bind he))

theorem loadSegments_log {left : ℕ}
    (hseek : FileSystem.sysLseek s fd offset.toInt32 1 = .ok (ans, t))
    (hread : readHeader t fd size.toUInt32 = .ok (some size.toUInt32, dst, u))
    (hload : (Elf32Phdr.ofBytes dst).pType = ptLoad)
    (he : e ∈ (Traced.segmentLoad u m fd (Elf32Phdr.ofBytes dst).pOffset
      (Elf32Phdr.ofBytes dst).pFilesz (Elf32Phdr.ofBytes dst).pVaddr).log) :
    e ∈ (Traced.loadSegments fd size (left + 1) offset s m).log := by
  unfold Traced.loadSegments
  refine mem_log_rest hseek (mem_log_rest hread ?_)
  dsimp only
  rw [if_neg (not_not.mpr rfl), if_pos hload]
  exact mem_log_rest (result_event _) (mem_log_bind he)

theorem sysExecv_log (hopen : FileSystem.sysOpen x.fs path 0 = .ok ((fd : ℤ), t))
    (hread : readHeader t fd Elf32Ehdr.size = .ok (some Elf32Ehdr.size, dst, u))
    (haccepted : (Elf32Ehdr.ofBytes dst).Accepted)
    (he : e ∈ (Traced.loadSegments fd (Elf32Ehdr.ofBytes dst).ePhentsize
      ((Elf32Ehdr.ofBytes dst).ePhnum.toNat - 1)
      ((Elf32Ehdr.ofBytes dst).ePhoff + (Elf32Ehdr.ofBytes dst).ePhentsize.toUInt32) u m).log) :
    e ∈ (Traced.sysExecv x m path).log := by
  have hneg : (fd : ℤ) ≠ -1 := by omega
  unfold Traced.sysExecv Traced.load
  refine mem_log_bind (mem_log_rest hopen ?_)
  dsimp only
  rw [if_neg hneg, Int.toNat_natCast]
  unfold Traced.loadOpened
  refine mem_log_bind (mem_log_rest hread ?_)
  dsimp only
  rw [if_neg (not_not.mpr rfl), if_neg (not_not.mpr haccepted)]
  exact mem_log_bind he

/-- The first megabyte of the kernel half is there, and nothing is asked for it. -/
theorem kernel_page_open {z : Memory.State} {G : Layout} (hs : Sound z G) {n : ℕ}
    (hn : 0xc0000 ≤ n) (hn' : n < 0xc0100) (b : UInt8) :
    mapSegment 1 (n * 4096) z.machine = .ok (true, z.machine) ∧
      ∃ m', z.machine.storeByte (n * 4096) b = .ok m' := by
  constructor
  · have hself := hs.coherent.encoded.selfMapped _ hs.cr3_mem
    have hpde := hs.coherent.encoded.kernelHalf _ hs.cr3_mem (n / 1024) (by omega) (by omega)
    have hbit : z.machine.ram z.machine.cr3 (n / 1024) &&& 1 ≠ 0 := by
      rw [and_one_ne_zero, hpde]
      exact present_entry _
    rw [mapSegment, load_pdePtr hself (by omega), ok_bind, ok_bind, dirIndex_page,
      if_neg (not_or.mpr ⟨hbit, hbit⟩)]
    rfl
  · have hwalk := hs.coherent.walk_kernel hs.cr3_mem hn (by omega)
    rw [if_pos hn'] at hwalk
    unfold Machine.storeByte Machine.load Machine.store
    rw [hwalk]
    exact ⟨_, rfl⟩

end Straying

end X86System.Loader
