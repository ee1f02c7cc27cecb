import X86System.Memory
import Mathlib.Data.Finset.Basic
import X86System.Library.Transition

/-!
# Address spaces of the tasks

How tasks get their page directory, their bitmap of virtual pages and their pages, and
how they give them back: the loader's directory, process creation, `fork`, the part of
`sys_exit` and `sys_wait` that is about memory, and the switch from one task to another.
The calls of all tasks, in any order, are the steps of one system.
-/
namespace X86System.Memory
open Exec Paging

/-- The loop that maps the first megabyte. -/
def createPte (ram : Ram) : ℕ → Ram
  | 0 => ram
  | cnt + 1 => poke (createPte ram cnt) 0x101 cnt (entry cnt)

/-- The loop that gives every other kernel entry a table. -/
def createKernelPde (ram : Ram) : ℕ → Ram
  | 0 => ram
  | cnt + 1 => poke (createKernelPde ram cnt) kernelDir (769 + cnt) (entry (0x102 + cnt))

/-- `setup_page` of the loader. -/
def setupPage (ram : Ram) : Ram :=
  let ram := wipe ram kernelDir
  let ram := poke ram kernelDir 0 (entry 0x101)
  let ram := poke ram kernelDir 768 (entry 0x101)
  let ram := poke ram kernelDir 1023 (entry kernelDir)
  createKernelPde (createPte ram 256) 254

/-- The PCB of the main thread. -/
def mainThread : ℕ := 0xc009e000

/-- A PCB after `memset`. -/
def emptyTask : Task := ⟨0, [], none, ⟨⟨0, fun _ => 0⟩, 0, 0⟩⟩

/-- `mem_pool_init` and `pid_pool_init`; `after` is what follows a bitmap in memory. -/
def memPoolInit (ram : Ram) (after : ℕ → UInt8) (allMem : ℕ) : Machine :=
  let usedMem := pgSize <<< 8 + 0x100000
  let freeMem := sub32 allMem usedMem
  let allFreePages := freeMem >>> 12 % 2 ^ 16
  let kernelFreePages := allFreePages >>> 1
  let userFreePages := allFreePages - kernelFreePages
  let kbmLength := kernelFreePages >>> 3
  let ubmLength := userFreePages >>> 3
  let kpStart := usedMem
  let upStart := kpStart + kernelFreePages <<< 12
  { ram := ram
    cr3 := kernelDir
    pools := fun
      | .kernel => ⟨bitmapInit ⟨kbmLength, after⟩, kpStart, kernelFreePages <<< 12⟩
      | .user => ⟨bitmapInit ⟨ubmLength, after⟩, upStart, userFreePages <<< 12⟩
    kernelVaddr := ⟨bitmapInit ⟨kbmLength, after⟩, 0xc009a000 + kbmLength + ubmLength, 0xc0100000⟩
    pidBitmap := bitmapInit ⟨128, after⟩
    tasks := fun _ => emptyTask
    running := mainThread }

/-- `USER_VADDR_START`. -/
def userVaddrStart : ℕ := 0x8048000

/-- `create_page_dir`. -/
def createPageDir (m : Machine) : Except Fault (Option ℕ × Machine) := do
  match ← getKernelPages m 1 with
  | (none, m) => return (none, m)
  | (some pageDirVaddr, m) =>
    let m ← m.memcpy (pageDirVaddr + 0x300 * 4) (0xfffff000 + 0x300 * 4) 256
    let newPageDirPhyAddr ← addrV2p m pageDirVaddr
    let m ← m.store (pageDirVaddr + 1023 * 4) (newPageDirPhyAddr ||| pgAttr)
    return (some pageDirVaddr, m)

/-- The bytes of the bitmap of a process. -/
def userBitmapLen : ℕ := (0xc0000000 - userVaddrStart) / pgSize / 8

/-- The pages of the bitmap of a process, `DIV_ROUND_UP(..., PG_SIZE)`. -/
def bitmapPgCnt : ℕ := (userBitmapLen + pgSize - 1) / pgSize

/-- `create_user_vaddr_bitmap`; `memset` asserts that its destination is not NULL. -/
def createUserVaddrBitmap (m : Machine) (userProc : ℕ) : Except Fault Machine := do
  let (some bits, m) ← getKernelPages m bitmapPgCnt | .error .assert
  return m.setTask userProc { m.tasks userProc with
    userprocVaddr := ⟨bitmapInit ⟨userBitmapLen, fun _ => 0⟩, bits, userVaddrStart⟩ }

/-- `allocate_pid`. -/
def allocatePid (m : Machine) : Except Fault (ℕ × Machine) := do
  let some bitIdx ← bitmapScan m.pidBitmap 1 | .error .assert
  return (bitIdx + 1, { m with pidBitmap := bitmapSet m.pidBitmap bitIdx true })

/-- `release_pid`. -/
def releasePid (m : Machine) (pid : ℕ) : Machine :=
  { m with pidBitmap := bitmapSet m.pidBitmap (pid - 1) false }

/-- `init_thread`. -/
def initThread (m : Machine) (pthread : ℕ) (name : List UInt8) : Except Fault Machine := do
  let (pid, m) ← allocatePid m
  return m.setTask pthread { emptyTask with pid := pid, name := name }

/-- `thread_start`; the PCB is the result. -/
def threadStart (m : Machine) (name : List UInt8) : Except Fault (ℕ × Machine) := do
  let (some thread, m) ← getKernelPages m 1 | .error .assert
  return (thread, ← initThread m thread name)

/-- `process_execute`; the PCB is the result. -/
def processExecute (m : Machine) (name : List UInt8) : Except Fault (ℕ × Machine) := do
  let (some thread, m) ← getKernelPages m 1 | .error .assert
  let m ← initThread m thread name
  let m ← createUserVaddrBitmap m thread
  let (pgdir, m) ← createPageDir m
  return (thread, m.setTask thread { m.tasks thread with pgdir := pgdir })

/-- `page_dir_activate`. -/
def pageDirActivate (m : Machine) (pThread : ℕ) : Except Fault Machine :=
  match (m.tasks pThread).pgdir with
  | none => return { m with cr3 := 0x100000 >>> 12 }
  | some pgdir => do
    let pagedirPhyAddr ← addrV2p m pgdir
    return { m with cr3 := pagedirPhyAddr >>> 12 }

/-- The characters of `_fork`. -/
def forkSuffix : List UInt8 := [0x5f, 0x66, 0x6f, 0x72, 0x6b]

/-- `copy_pcb_vaddrbitmap_stack0`; `false` is -1. -/
def copyPcbVaddrbitmap (m : Machine) (child parent : ℕ) : Except Fault (Bool × Machine) := do
  let m := m.setTask child (m.tasks parent)
  let (pid, m) ← allocatePid m
  let m := m.setTask child { m.tasks child with pid := pid }
  match ← getKernelPages m bitmapPgCnt with
  | (none, m) => return (false, m)
  | (some vaddrBtmp, m) =>
    let task := m.tasks child
    ensure .assert (task.name.length < 11)
    return (true, m.setTask child { task with
      name := task.name ++ forkSuffix
      userprocVaddr := { task.userprocVaddr with bits := vaddrBtmp } })

/-- The body of the loops of `copy_body_stack3`: one page by way of the kernel's buffer. -/
def copyPage (child parent bufPage procVaddr : ℕ) (m : Machine) : Except Fault Machine := do
  let m ← m.memcpy bufPage procVaddr (pgSize / 4)
  let m ← pageDirActivate m child
  let (_, m) ← getAPageWithoutOpvaddrbitmap m .user procVaddr
  let m ← m.memcpy procVaddr bufPage (pgSize / 4)
  pageDirActivate m parent

/-- The loop over the bits of one byte. -/
def copyBits (copy : ℕ → Machine → Except Fault Machine) (byte : UInt8) (idxByte : ℕ) :
    ℕ → ℕ → Machine → Except Fault Machine
  | 0, _, m => return m
  | left + 1, idxBit, m => do
    let m ← if bitmapMask idxBit &&& byte ≠ 0 then copy (idxByte * 8 + idxBit) m else pure m
    copyBits copy byte idxByte left (idxBit + 1) m

/-- The loop over the bytes of the parent's bitmap. -/
def copyBytes (copy : ℕ → Machine → Except Fault Machine) (bits : ℕ → UInt8) :
    ℕ → ℕ → Machine → Except Fault Machine
  | 0, _, m => return m
  | left + 1, idxByte, m => do
    let m ← if bits idxByte ≠ 0 then copyBits copy (bits idxByte) idxByte 8 0 m else pure m
    copyBytes copy bits left (idxByte + 1) m

/-- `copy_body_stack3`. -/
def copyBodyStack3 (m : Machine) (child parent bufPage : ℕ) : Except Fault Machine :=
  let va := (m.tasks parent).userprocVaddr
  copyBytes (fun idx => copyPage child parent bufPage (idx * pgSize + va.vaddrStart))
    va.vaddrBitmap.bits va.vaddrBitmap.btmpBytesLen 0 m

/-- `copy_process`; `false` is -1. -/
def copyProcess (m : Machine) (child parent : ℕ) : Except Fault (Bool × Machine) := do
  match ← getKernelPages m 1 with
  | (none, m) => return (false, m)
  | (some bufPage, m) =>
    match ← copyPcbVaddrbitmap m child parent with
    | (false, m) => return (false, m)
    | (true, m) =>
      let (pgdir, m) ← createPageDir m
      let m := m.setTask child { m.tasks child with pgdir := pgdir }
      if pgdir = none then return (false, m)
      let m ← copyBodyStack3 m child parent bufPage
      return (true, ← mfreePage m .kernel bufPage 1)

/-- `sys_fork`; the child's PCB, or `none` for -1. -/
def sysFork (m : Machine) : Except Fault (Option ℕ × Machine) := do
  let parent := m.running
  match ← getKernelPages m 1 with
  | (none, m) => return (none, m)
  | (some child, m) =>
    ensure .assert ((m.tasks parent).pgdir ≠ none)
    let (done, m) ← copyProcess m child parent
    return (if done then some child else none, m)

/-- The inner loop of `release_proc_resource`, over the entries of one table. -/
def releasePtes (firstPte : ℕ) : ℕ → ℕ → Machine → Except Fault Machine
  | 0, _, m => return m
  | left + 1, pteIdx, m => do
    let pte ← m.load (firstPte + pteIdx * 4)
    let m := if pte &&& 1 ≠ 0 then pfree m (pte &&& 0xfffff000) else m
    releasePtes firstPte left (pteIdx + 1) m

/-- The outer loop of `release_proc_resource`, over the user entries of the directory. -/
def releasePdes (pgdirVaddr : ℕ) : ℕ → ℕ → Machine → Except Fault Machine
  | 0, _, m => return m
  | left + 1, pdeIdx, m => do
    let pde ← m.load (pgdirVaddr + pdeIdx * 4)
    if pde &&& 1 ≠ 0 then
      let m ← releasePtes (ptePtr (pdeIdx * 0x400000)) 1024 0 m
      releasePdes pgdirVaddr left (pdeIdx + 1) (pfree m (pde &&& 0xfffff000))
    else releasePdes pgdirVaddr left (pdeIdx + 1) m

/-- `release_proc_resource` as far as memory goes. A kernel thread has no directory to read. -/
def releaseProcResource (m : Machine) (releaseThread : ℕ) : Except Fault Machine := do
  let task := m.tasks releaseThread
  let some pgdirVaddr := task.pgdir | .error .page
  let m ← releasePdes pgdirVaddr 768 0 m
  mfreePage m .kernel task.userprocVaddr.bits
    (task.userprocVaddr.vaddrBitmap.btmpBytesLen / pgSize)

/-- `schedule`: the directory of the next task, then the task. -/
def switchTo (m : Machine) (next : ℕ) : Except Fault Machine := do
  return { ← pageDirActivate m next with running := next }

/-- `thread_exit` of a task that is not running. -/
def threadExit (m : Machine) (threadOver : ℕ) : Except Fault Machine := do
  let m ←
    match (m.tasks threadOver).pgdir with
    | some pgdir => mfreePage m .kernel pgdir 1
    | none => pure m
  let m ← if threadOver ≠ mainThread then mfreePage m .kernel threadOver 1 else pure m
  return releasePid m (m.tasks threadOver).pid

/-- `TASK_NAME_LEN`. -/
def taskNameLen : ℕ := 16

/-- What `sys_execv` writes to the PCB. -/
def Machine.rename (m : Machine) (name : List UInt8) : Machine :=
  m.setTask m.running { m.tasks m.running with name := name }

/-- What the memory of the machine is used by. -/
structure State where
  machine : Machine
  /-- `thread_all_list`. -/
  threads : Finset ℕ
  /-- The tasks that called `sys_exit` and wait for their parent. -/
  hanging : Finset ℕ

/-- What a task keeps in pages of the kernel heap. -/
inductive Use
  | pcb (p : ℕ)
  | pgdir (p : ℕ)
  | bitmap (p : ℕ)
  deriving DecidableEq

/-- Page `n` of the kernel heap is in use by a task. -/
def State.Uses (s : State) : Use → ℕ → Prop
  | .pcb p, n => p ∈ s.threads ∧ p ≠ mainThread ∧ n = p / 4096
  | .pgdir p, n => p ∈ s.threads ∧ ∃ v, (s.machine.tasks p).pgdir = some v ∧ n = v / 4096
  | .bitmap p, n => p ∈ s.threads ∧ p ∉ s.hanging ∧ (s.machine.tasks p).pgdir ≠ none ∧
      (s.machine.tasks p).userprocVaddr.bits / 4096 ≤ n ∧
      n < (s.machine.tasks p).userprocVaddr.bits / 4096 + bitmapPgCnt

/-- A call that allocates or frees memory, or a write to memory, of the running task. -/
inductive MemoryCall
  | mallocPage (pf : PoolFlags) (pgCnt : ℕ)
  | mfreePage (pf : PoolFlags) (vaddr pgCnt : ℕ)
  | getAPage (vaddr : ℕ)
  | store (vaddr w : ℕ)
  | threadStart (name : List UInt8)
  | processExecute (name : List UInt8)
  | sysExecv (name : List UInt8)
  | sysFork
  | schedule (next : ℕ)
  | sysExit (next : ℕ)
  | sysWait (child : ℕ)

/-- The pages that a call to `mfree_page` may name: mapped pages of the kernel heap that no task
is kept in, or mapped pages of the user half. -/
def State.Freeable (s : State) : PoolFlags → ℕ → Prop
  | .kernel, n => 0xc0100 ≤ n ∧ n < 0xffc00 ∧
      walk s.machine.ram s.machine.cr3 (n * 4096) ≠ none ∧ ∀ u, ¬ s.Uses u n
  | .user, n => 0x8048 ≤ n ∧ n < 0xc0000 ∧ walk s.machine.ram s.machine.cr3 (n * 4096) ≠ none

/-- One call, in any of the tasks. -/
inductive Step (s : State) : MemoryCall → State → Prop
  /-- `sys_malloc` asks for user pages in a process only. -/
  | mallocPage {pf : PoolFlags} {pgCnt : ℕ} {r : Option ℕ} {m : Machine} :
      (pf = .user → (s.machine.tasks s.machine.running).pgdir ≠ none) →
      mallocPage s.machine pf pgCnt = .ok (r, m) →
      Step s (.mallocPage pf pgCnt) { s with machine := m }
  | mfreePage {pf : PoolFlags} {vaddr pgCnt : ℕ} {m : Machine} :
      (∀ i < pgCnt, s.Freeable pf (vaddr / 4096 + i)) →
      mfreePage s.machine pf vaddr pgCnt = .ok m →
      Step s (.mfreePage pf vaddr pgCnt) { s with machine := m }
  | getAPage {vaddr : ℕ} {r : Option ℕ} {m : Machine} :
      vaddr % 4096 = 0 → userVaddrStart ≤ vaddr → vaddr < 0xc0000000 →
      getAPage s.machine .user vaddr = .ok (r, m) →
      Step s (.getAPage vaddr) { s with machine := m }
  /-- Code writes to any word it can reach that is no entry of a directory or table. -/
  | store {vaddr w f i : ℕ} {m : Machine} :
      vaddr < 0xffc00000 → walk s.machine.ram s.machine.cr3 vaddr = some (f, i) →
      (∀ p ∈ s.threads, ∀ v, (s.machine.tasks p).pgdir = some v →
        walk s.machine.ram s.machine.cr3 v ≠ some (f, 0)) →
      s.machine.store vaddr w = .ok m → Step s (.store vaddr w) { s with machine := m }
  | threadStart {name : List UInt8} {p : ℕ} {m : Machine} :
      threadStart s.machine name = .ok (p, m) →
      Step s (.threadStart name) { s with machine := m, threads := insert p s.threads }
  | processExecute {name : List UInt8} {p : ℕ} {m : Machine} :
      processExecute s.machine name = .ok (p, m) →
      Step s (.processExecute name) { s with machine := m, threads := insert p s.threads }
  /-- The program is loaded with `getAPage` and `store`; what is left is the name. -/
  | sysExecv {name : List UInt8} : name.length < taskNameLen →
      Step s (.sysExecv name) { s with machine := s.machine.rename name }
  | sysFork {p : ℕ} {m : Machine} : sysFork s.machine = .ok (some p, m) →
      Step s .sysFork { s with machine := m, threads := insert p s.threads }
  | sysForkFails {m : Machine} : sysFork s.machine = .ok (none, m) →
      Step s .sysFork { s with machine := m }
  | schedule {next : ℕ} {m : Machine} : next ∈ s.threads → next ∉ s.hanging →
      switchTo s.machine next = .ok m → Step s (.schedule next) { s with machine := m }
  | sysExit {next : ℕ} {m m' : Machine} :
      releaseProcResource s.machine s.machine.running = .ok m →
      next ∈ s.threads → next ∉ s.hanging → next ≠ s.machine.running →
      switchTo m next = .ok m' →
      Step s (.sysExit next)
        { s with machine := m', hanging := insert s.machine.running s.hanging }
  | sysWait {child : ℕ} {m : Machine} : child ∈ s.hanging → child ∈ s.threads →
      threadExit s.machine child = .ok m →
      Step s (.sysWait child)
        { machine := m, threads := s.threads.erase child, hanging := s.hanging.erase child }

/-- The memory of the machine from power on, where the tables that the loader leaves as they are
read as zeros. -/
def memoryCalls : Transition.System State MemoryCall where
  start s := ∃ ram after allMem, (∀ f, 0x101 ≤ f → f < 0x200 → ∀ i, ram f i = 0) ∧
    s = ⟨memPoolInit (setupPage ram) after allMem, {mainThread}, ∅⟩
  step := Step

end X86System.Memory
