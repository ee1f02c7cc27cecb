import X86System.OpenClose
import X86System.Segments

/-!
# Executing a program

`load` opens the program, reads its header and goes through the program headers from the
second one on. Each header is looked at when its turn comes: the segments in front of a
header that cannot be read are in memory by then. The PCB is changed only when `load` has
an entry point.
-/
namespace X86System.Loader
open Bytes Exec Paging Memory

/-- The halfword at position `i`. -/
def halfAt (b : Image) (i : ℕ) : UInt16 := (b i).toUInt16 + (b (i + 1)).toUInt16 * 256

/-- `struct Elf32_Ehdr`, as far as `load` looks at it. -/
structure Elf32Ehdr where
  eIdent : List UInt8
  eType : UInt16
  eMachine : UInt16
  eVersion : UInt32
  eEntry : UInt32
  ePhoff : UInt32
  ePhentsize : UInt16
  ePhnum : UInt16

def Elf32Ehdr.size : UInt32 := 52

def Elf32Ehdr.ofBytes (b : Image) : Elf32Ehdr where
  eIdent := FileSystem.bytesAt b 16
  eType := halfAt b 16
  eMachine := halfAt b 18
  eVersion := wordAt b 20
  eEntry := wordAt b 24
  ePhoff := wordAt b 28
  ePhentsize := halfAt b 42
  ePhnum := halfAt b 44

/-- `struct Elf32_Phdr`, as far as `load` looks at it. -/
structure Elf32Phdr where
  pType : UInt32
  pOffset : UInt32
  pVaddr : UInt32
  pFilesz : UInt32

def Elf32Phdr.size : UInt16 := 32

def Elf32Phdr.ofBytes (b : Image) : Elf32Phdr where
  pType := wordAt b 0
  pOffset := wordAt b 4
  pVaddr := wordAt b 8
  pFilesz := wordAt b 16

/-- `PT_LOAD`. -/
def ptLoad : UInt32 := 1

/-- The test of the header, `"\177ELF\1\1\1"` and what follows it. -/
def Elf32Ehdr.Accepted (h : Elf32Ehdr) : Prop :=
  h.eIdent.take 7 = [0x7f, 0x45, 0x4c, 0x46, 1, 1, 1] ∧ h.eType = 2 ∧ h.eMachine = 3 ∧
    h.eVersion = 1 ∧ h.ePhnum ≤ 1024 ∧ h.ePhentsize = Elf32Phdr.size

instance (h : Elf32Ehdr) : Decidable h.Accepted := inferInstanceAs (Decidable (_ ∧ _))

/-- `sys_read` from a file to a header on the kernel stack that was filled with zeros. -/
def readHeader (s : FileSystem.State) (fd : ℕ) (count : UInt32) :
    Except Fault (Option UInt32 × Image × FileSystem.State) := do
  let g ← FileSystem.fdLocal2Global s fd
  FileSystem.fileRead s g zeros count

/-- The loop of `load` over the program headers; `false` where it gives up. -/
def loadSegments (fd : ℕ) (progHeaderSize : UInt16) : ℕ → UInt32 → FileSystem.State → Machine →
    Except Fault (Bool × FileSystem.State × Machine)
  | 0, _, s, m => .ok (true, s, m)
  | left + 1, progHeaderOffset, s, m => do
    let (_, s) ← FileSystem.sysLseek s fd progHeaderOffset.toInt32 1
    let (read, dst, s) ← readHeader s fd progHeaderSize.toUInt32
    if read ≠ some progHeaderSize.toUInt32 then .ok (false, s, m)
    else
      let progHeader := Elf32Phdr.ofBytes dst
      if progHeader.pType = ptLoad then
        match ← segmentLoad s m fd progHeader.pOffset progHeader.pFilesz progHeader.pVaddr with
        | (false, s, m) => .ok (false, s, m)
        | (true, s, m) =>
          loadSegments fd progHeaderSize left (progHeaderOffset + progHeaderSize.toUInt32) s m
      else loadSegments fd progHeaderSize left (progHeaderOffset + progHeaderSize.toUInt32) s m

/-- `load` between `sys_open` and `sys_close`: the entry point or -1. -/
def loadOpened (s : FileSystem.State) (m : Machine) (fd : ℕ) :
    Except Fault (UInt32 × FileSystem.State × Machine) := do
  let (read, dst, s) ← readHeader s fd Elf32Ehdr.size
  if read ≠ some Elf32Ehdr.size then .ok (FileSystem.minusOne, s, m)
  else
    let elfHeader := Elf32Ehdr.ofBytes dst
    if ¬ elfHeader.Accepted then .ok (FileSystem.minusOne, s, m)
    else
      -- the first program header is passed over
      let progHeaderOffset := elfHeader.ePhoff + elfHeader.ePhentsize.toUInt32
      match ← loadSegments fd elfHeader.ePhentsize (elfHeader.ePhnum.toNat - 1)
        progHeaderOffset s m with
      | (false, s, m) => .ok (FileSystem.minusOne, s, m)
      | (true, s, m) => .ok (elfHeader.eEntry, s, m)

/-- `load`. A path that ends in a slash is opened as the standard input, from which the program
would be read; the reads here are those of a file. -/
def load (x : FileSystem.Session) (m : Machine) (pathname : List UInt8) :
    Except Fault (UInt32 × FileSystem.Session × Machine) := do
  let (fd, s) ← FileSystem.sysOpen x.fs pathname 0
  if fd = -1 then .ok (FileSystem.minusOne, { x with fs := s }, m)
  else
    let (ret, s, m) ← loadOpened s m fd.toNat
    let (_, x) ← FileSystem.sysClose { x with fs := s } fd
    .ok (ret, x, m)

/-- `sys_execv` up to the return to the program, whose entry point is given; `none` stands
for -1. The arguments and the interrupt frame are left out. -/
def sysExecv (x : FileSystem.Session) (m : Machine) (path : List UInt8) :
    Except Fault (Option UInt32 × FileSystem.Session × Machine) := do
  let (entryPoint, x, m) ← load x m path
  if entryPoint = FileSystem.minusOne then .ok (none, x, m)
  else .ok (some entryPoint, x, m.rename (path.take (taskNameLen - 1)))

/-- The caller's memory, page tables, bitmap and name are in the machine; its descriptors and
the open counts are those of the file system. -/
structure Intact (x x' : FileSystem.Session) (m m' : Machine) : Prop where
  machine : m' = m
  fdTable : x'.fs.tasks = x.fs.tasks
  openCounts : ∀ a, x'.fs.openCount a = x.fs.openCount a

/-- A loadable header is reached: it is read, and so are those in front of it. -/
def ReachesLoadable (fd : ℕ) (progHeaderSize : UInt16) : ℕ → UInt32 → FileSystem.State → Prop
  | 0, _, _ => False
  | left + 1, progHeaderOffset, s => ∃ a t dst u,
    FileSystem.sysLseek s fd progHeaderOffset.toInt32 1 = .ok (a, t) ∧
      readHeader t fd progHeaderSize.toUInt32 = .ok (some progHeaderSize.toUInt32, dst, u) ∧
      ((Elf32Phdr.ofBytes dst).pType = ptLoad ∨
        ReachesLoadable fd progHeaderSize left (progHeaderOffset + progHeaderSize.toUInt32) u)

/-- The file at `path` is taken for a program, and one of its loadable headers is reached. -/
def HasSegment (s : FileSystem.State) (path : List UInt8) : Prop :=
  ∃ fd t dst u, FileSystem.sysOpen s path 0 = .ok (fd, t) ∧ fd ≠ -1 ∧
    readHeader t fd.toNat Elf32Ehdr.size = .ok (some Elf32Ehdr.size, dst, u) ∧
    (Elf32Ehdr.ofBytes dst).Accepted ∧
    ReachesLoadable fd.toNat (Elf32Ehdr.ofBytes dst).ePhentsize
      ((Elf32Ehdr.ofBytes dst).ePhnum.toNat - 1)
      ((Elf32Ehdr.ofBytes dst).ePhoff + (Elf32Ehdr.ofBytes dst).ePhentsize.toUInt32) u

section Failing

variable {x x' y : FileSystem.Session} {s t : FileSystem.State} {m m' : Machine} {fd g : ℕ}
  {a : FileSystem.InodePtr} {h : Multiset FileSystem.InodePtr} {path : List UInt8}

theorem readHeader_holding (hh : FileSystem.Holding s t fd g a h) (count : UInt32) :
    Returns (readHeader t fd count) fun r => FileSystem.Holding s r.2.2 fd g a h := by
  refine returns_bind fun g' hg' => ?_
  obtain rfl := hh.names.unique (FileSystem.fdLocal2Global_ok hg').1
  exact hh.fileRead zeros count

/-- Where no loadable header is reached the loop reads and does nothing else; by induction on the
headers that are left. -/
theorem loadSegments_unreached {size : UInt16} (left : ℕ) : ∀ {offset : UInt32}
    {t : FileSystem.State}, FileSystem.Holding s t fd g a h →
    ¬ ReachesLoadable fd size left offset t →
    Returns (loadSegments fd size left offset t m) fun r =>
      r.2.2 = m ∧ FileSystem.Holding s r.2.1 fd g a h := by
  induction left with
  | zero =>
    intro offset t hh _
    exact ⟨rfl, hh⟩
  | succ left ih =>
    intro offset t hh hno
    refine returns_bind fun ⟨ans, t₁⟩ hseek => ?_
    have hh₁ := (hh.sysLseek offset.toInt32 1).of_ok hseek
    refine returns_bind fun ⟨read, dst, t₂⟩ hread => ?_
    have hh₂ := (readHeader_holding hh₁ size.toUInt32).of_ok hread
    refine returns_ite (fun _ => ⟨rfl, hh₂⟩) fun hfull => ?_
    obtain rfl := not_not.mp hfull
    refine returns_ite (fun hload => ?_) fun _ => ih hh₂ fun hreach => ?_
    · exact absurd ⟨ans, t₁, dst, t₂, hseek, hread, Or.inl hload⟩ hno
    · exact hno ⟨ans, t₁, dst, t₂, hseek, hread, Or.inr hreach⟩

/-- `load` of a file without a loadable header that is reached leaves the machine alone. -/
theorem loadOpened_unreached (hh : FileSystem.Holding s t fd g a h)
    (hno : ∀ dst u, readHeader t fd Elf32Ehdr.size = .ok (some Elf32Ehdr.size, dst, u) →
      (Elf32Ehdr.ofBytes dst).Accepted →
      ¬ ReachesLoadable fd (Elf32Ehdr.ofBytes dst).ePhentsize
        ((Elf32Ehdr.ofBytes dst).ePhnum.toNat - 1)
        ((Elf32Ehdr.ofBytes dst).ePhoff + (Elf32Ehdr.ofBytes dst).ePhentsize.toUInt32) u) :
    Returns (loadOpened t m fd) fun r => r.2.2 = m ∧ FileSystem.Holding s r.2.1 fd g a h := by
  refine returns_bind fun ⟨read, dst, u⟩ hread => ?_
  have hh₁ := (readHeader_holding hh Elf32Ehdr.size).of_ok hread
  refine returns_ite (fun _ => ⟨rfl, hh₁⟩) fun hfull => ?_
  obtain rfl := not_not.mp hfull
  refine returns_ite (fun _ => ⟨rfl, hh₁⟩) fun haccepted => ?_
  refine Returns.bind (loadSegments_unreached _ hh₁ (hno dst u hread (not_not.mp haccepted)))
    fun ⟨done, v, m₁⟩ hv => ?_
  cases done
  · exact hv
  · exact hv

end Failing

section Examples

variable {x w : FileSystem.Session} {s t u : FileSystem.State} {m m' : Machine} {fd : ℕ}
  {path : List UInt8} {dst : Image} {offset filesz vaddr : UInt32}

/-- A file that is too short for a header is no program. -/
theorem sysExecv_short {done : Bool} (hopen : FileSystem.sysOpen x.fs path 0 = .ok ((fd : ℤ), t))
    {read : Option UInt32} (hread : readHeader t fd Elf32Ehdr.size = .ok (read, dst, u))
    (hshort : read ≠ some Elf32Ehdr.size)
    (hclose : FileSystem.sysClose { x with fs := u } fd = .ok (done, w)) :
    sysExecv x m path = .ok (none, w, m) := by
  have hneg : (fd : ℤ) ≠ -1 := by omega
  unfold sysExecv load loadOpened
  rw [hopen, ok_bind]
  dsimp only
  rw [if_neg hneg, Int.toNat_natCast, hread, ok_bind]
  dsimp only
  rw [if_pos hshort, ok_bind]
  dsimp only
  rw [hclose]
  rfl

/-- A read of a segment that is in the file and whose tables are there. -/
theorem segmentLoad_of_read {s₁ s₂ : FileSystem.State} {ans : FileSystem.Answer} {n : UInt32}
    (hmap : mapSegment (occupyPages filesz vaddr).toNat (vaddr &&& 0xfffff000).toNat m =
      .ok (true, m)) (hne : vaddr.toNat ≠ 0)
    (hseek : FileSystem.sysLseek s fd offset.toInt32 1 = .ok (ans, s₁))
    (hread : readHeader s₁ fd filesz = .ok (some n, dst, s₂))
    (hstore : m.storeBytes vaddr.toNat (FileSystem.bytesAt dst n.toNat) = .ok m') :
    segmentLoad s m fd offset filesz vaddr = .ok (true, s₂, m') := by
  obtain ⟨g, hg, hread⟩ := of_bind_eq_ok hread
  unfold segmentLoad
  dsimp only
  rw [hmap, ok_bind]
  dsimp only
  rw [hseek, ok_bind]
  dsimp only
  unfold sysRead
  rw [ensure_of hne, ok_bind, hg, ok_bind, hread, ok_bind]
  dsimp only [Option.elim_some]
  rw [hstore]
  rfl

/-- A segment is loaded, and the loop goes on. -/
theorem loadSegments_of_load {size : UInt16} {s₁ s₂ s₃ : FileSystem.State}
    {ans : FileSystem.Answer} {left : ℕ}
    (hseek : FileSystem.sysLseek s fd offset.toInt32 1 = .ok (ans, s₁))
    (hread : readHeader s₁ fd size.toUInt32 = .ok (some size.toUInt32, dst, s₂))
    (hload : (Elf32Phdr.ofBytes dst).pType = ptLoad)
    (hsegment : segmentLoad s₂ m fd (Elf32Phdr.ofBytes dst).pOffset (Elf32Phdr.ofBytes dst).pFilesz
      (Elf32Phdr.ofBytes dst).pVaddr = .ok (true, s₃, m')) :
    loadSegments fd size (left + 1) offset s m =
      loadSegments fd size left (offset + size.toUInt32) s₃ m' := by
  rw [loadSegments, hseek, ok_bind]
  dsimp only
  rw [hread, ok_bind]
  dsimp only
  rw [if_neg (not_not.mpr rfl), if_pos hload, hsegment, ok_bind]

/-- A segment is loaded, and then the next header is not there. -/
theorem loadSegments_gives_up {size : UInt16} {s₁ s₂ s₃ s₄ s₅ : FileSystem.State}
    {ans ans' : FileSystem.Answer} {dst' : Image} {read : Option UInt32} {left : ℕ}
    (hseek : FileSystem.sysLseek s fd offset.toInt32 1 = .ok (ans, s₁))
    (hread : readHeader s₁ fd size.toUInt32 = .ok (some size.toUInt32, dst, s₂))
    (hload : (Elf32Phdr.ofBytes dst).pType = ptLoad)
    (hsegment : segmentLoad s₂ m fd (Elf32Phdr.ofBytes dst).pOffset (Elf32Phdr.ofBytes dst).pFilesz
      (Elf32Phdr.ofBytes dst).pVaddr = .ok (true, s₃, m'))
    (hseek' : FileSystem.sysLseek s₃ fd (offset + size.toUInt32).toInt32 1 = .ok (ans', s₄))
    (hread' : readHeader s₄ fd size.toUInt32 = .ok (read, dst', s₅))
    (hshort : read ≠ some size.toUInt32) :
    loadSegments fd size (left + 2) offset s m = .ok (false, s₅, m') := by
  rw [loadSegments_of_load hseek hread hload hsegment, loadSegments, hseek', ok_bind]
  dsimp only
  rw [hread', ok_bind]
  dsimp only
  rw [if_pos hshort]

/-- A program of 116 bytes whose second header says to load byte 115, and whose third header is
behind the end of the file. -/
def programBytes : Image := ofWords fun i => [0x464c457f, 0x10101, 0, 0, 0x30002, 1, 0x8049000, 52,
  0, 0, 0x200034, 3, 0, 0, 0, 0, 0, 0, 0, 0, 0, 1, 115, 0x8049000, 0, 1].getD i 0

/-- The program is the file `/f`. -/
def programSession : FileSystem.Session := { FileSystem.sampleSession with
  fs := { FileSystem.sampleSession.fs with
    disk := overlay (overlay FileSystem.sampleDisk (512 * 614) 512 programBytes) (512 * 4 + 76) 76
      { (FileSystem.inodeInit 1).setSector 0 614 with iSize := 116 : FileSystem.Inode }.bytes } }

end Examples

end X86System.Loader
