import X86System.AddressSpaces

/-!
# The heap

`sys_malloc` and `sys_free` over the pages of `malloc_page`. Arenas, free blocks and block
descriptors are words of mapped pages: the descriptors of the kernel lie in its image, those
of a process in its PCB. The locks of the pools are kept apart from memory.
-/
namespace X86System.Memory
open Exec Paging

section Layout

/-- `sizeof(struct arena)`, and its members. -/
def arenaSize : ℕ := 12
def descOf (a : ℕ) : ℕ := a
def cntOf (a : ℕ) : ℕ := a + 4
def largeOf (a : ℕ) : ℕ := a + 8

/-- `DESC_CNT`. -/
def descCnt : ℕ := 7

/-- `sizeof(struct mem_block_desc)`, and its members. -/
def descSize : ℕ := 24
def blockSizeOf (desc : ℕ) : ℕ := desc
def blocksPerArenaOf (desc : ℕ) : ℕ := desc + 4
def freeListOf (desc : ℕ) : ℕ := desc + 8

/-- `&descs[desc_idx]`. -/
def descAt (descs descIdx : ℕ) : ℕ := descs + descIdx * descSize

/-- The members of a `struct list` and of a `struct list_elem`. -/
def headOf (plist : ℕ) : ℕ := plist
def tailOf (plist : ℕ) : ℕ := plist + 8
def prevOf (elem : ℕ) : ℕ := elem
def nextOf (elem : ℕ) : ℕ := elem + 4

/-- Where `u_block_desc` is in a `struct task_struct`. -/
def uBlockDesc : ℕ := 100

/-- Where the linker puts `k_block_descs`. -/
structure KernelImage where
  kBlockDescs : ℕ
  aligned : kBlockDescs % 4 = 0
  low : 0xc0000000 ≤ kBlockDescs
  high : kBlockDescs + descCnt * descSize ≤ 0xc0100000

end Layout

section Lists

/-- `list_init`. -/
def listInit (m : Machine) (list : ℕ) : Except Fault Machine := do
  let m ← m.store (prevOf (headOf list)) 0
  let m ← m.store (nextOf (headOf list)) (tailOf list)
  let m ← m.store (prevOf (tailOf list)) (headOf list)
  m.store (nextOf (tailOf list)) 0

/-- `list_insert_before`. -/
def listInsertBefore (m : Machine) (before elem : ℕ) : Except Fault Machine := do
  let p ← m.load (prevOf before)
  let m ← m.store (nextOf p) elem
  let p ← m.load (prevOf before)
  let m ← m.store (prevOf elem) p
  let m ← m.store (nextOf elem) before
  m.store (prevOf before) elem

/-- `list_append`. -/
def listAppend (m : Machine) (plist elem : ℕ) : Except Fault Machine :=
  listInsertBefore m (tailOf plist) elem

/-- `list_remove`. -/
def listRemove (m : Machine) (pelem : ℕ) : Except Fault Machine := do
  let p ← m.load (prevOf pelem)
  let n ← m.load (nextOf pelem)
  let m ← m.store (nextOf p) n
  let n ← m.load (nextOf pelem)
  let p ← m.load (prevOf pelem)
  m.store (prevOf n) p

/-- `list_pop`. -/
def listPop (m : Machine) (plist : ℕ) : Except Fault (ℕ × Machine) := do
  let elem ← m.load (nextOf (headOf plist))
  return (elem, ← listRemove m elem)

/-- `list_empty`. -/
def listEmpty (m : Machine) (plist : ℕ) : Except Fault Bool := do
  return (← m.load (nextOf (headOf plist))) = tailOf plist

/-- The loop of `elem_find`. A walk over more addresses than there are does not end. -/
def elemFindLoop (m : Machine) (plist objElem : ℕ) : ℕ → ℕ → Except Fault Bool
  | 0, _ => .error .diverge
  | fuel + 1, elem =>
    if elem = tailOf plist then return false
    else if elem = objElem then return true
    else do elemFindLoop m plist objElem fuel (← m.load (nextOf elem))

/-- `elem_find`. -/
def elemFind (m : Machine) (plist objElem : ℕ) : Except Fault Bool := do
  elemFindLoop m plist objElem (2 ^ 32) (← m.load (nextOf (headOf plist)))

end Lists

section Source

/-- The loop of `block_desc_init`; the sizes stay below the range of `uint16_t`. -/
def blockDescInitLoop (descArray : ℕ) : ℕ → ℕ → ℕ → Machine → Except Fault Machine
  | 0, _, _, m => return m
  | left + 1, descIdx, blockSize, m => do
    let desc := descAt descArray descIdx
    let m ← m.store (blockSizeOf desc) blockSize
    let m ← m.store (blocksPerArenaOf desc) ((pgSize - arenaSize) / blockSize)
    let m ← listInit m (freeListOf desc)
    blockDescInitLoop descArray left (descIdx + 1) (blockSize * 2) m

/-- `block_desc_init`. -/
def blockDescInit (m : Machine) (descArray : ℕ) : Except Fault Machine :=
  blockDescInitLoop descArray descCnt 0 16 m

/-- `arena2block`. -/
def arena2block (m : Machine) (a idx : ℕ) : Except Fault ℕ := do
  let desc ← m.load (descOf a)
  return a + arenaSize + idx * (← m.load (blockSizeOf desc))

/-- `block2arena`. -/
def block2arena (b : ℕ) : ℕ := b &&& 0xfffff000

/-- `memset` of zeros over `cnt` words. -/
def Machine.clearWords (m : Machine) (vaddr : ℕ) : ℕ → Except Fault Machine
  | 0 => .ok m
  | cnt + 1 => do
    let m ← m.store vaddr 0
    m.clearWords (vaddr + 4) cnt

/-- `sys_malloc` of more than 1024 bytes. Below the size of a pool, which is less than 2^28, the
sum is in range. -/
def mallocLarge (m : Machine) (pf : PoolFlags) (size : ℕ) : Except Fault (Option ℕ × Machine) := do
  let pageCnt := (size + arenaSize + pgSize - 1) / pgSize
  match ← mallocPage m pf pageCnt with
  | (none, m) => return (none, m)
  | (some a, m) =>
    let m ← m.clearPages a pageCnt
    let m ← m.store (descOf a) 0
    let m ← m.store (cntOf a) pageCnt
    let m ← m.store (largeOf a) 1
    return (some (a + arenaSize), m)

/-- The search for the first descriptor whose blocks are large enough. -/
def findDesc (m : Machine) (descs size : ℕ) : ℕ → ℕ → Except Fault ℕ
  | 0, descIdx => return descIdx
  | left + 1, descIdx => do
    if size ≤ (← m.load (blockSizeOf (descAt descs descIdx))) then return descIdx
    else findDesc m descs size left (descIdx + 1)

/-- The loop that puts the blocks of a new arena on the free list. -/
def splitArena (a : ℕ) : ℕ → ℕ → Machine → Except Fault Machine
  | 0, _, m => return m
  | left + 1, blockIdx, m => do
    let b ← arena2block m a blockIdx
    let desc ← m.load (descOf a)
    let found ← elemFind m (freeListOf desc) b
    ensure .assert (found = false)
    let m ← listAppend m (freeListOf desc) b
    splitArena a left (blockIdx + 1) m

/-- A new arena for a descriptor; `false` when `malloc_page` fails. -/
def newArena (m : Machine) (pf : PoolFlags) (desc : ℕ) : Except Fault (Bool × Machine) := do
  match ← mallocPage m pf 1 with
  | (none, m) => return (false, m)
  | (some a, m) =>
    let m ← m.clearPages a 1
    let m ← m.store (descOf a) desc
    let m ← m.store (largeOf a) 0
    let m ← m.store (cntOf a) (← m.load (blocksPerArenaOf desc))
    let blocksPerArena ← m.load (blocksPerArenaOf desc)
    return (true, ← splitArena a blocksPerArena 0 m)

/-- Take the first block off the free list of a descriptor. -/
def takeBlock (m : Machine) (desc : ℕ) : Except Fault (ℕ × Machine) := do
  let (b, m) ← listPop m (freeListOf desc)
  let blockSize ← m.load (blockSizeOf desc)
  let m ← m.clearWords b (blockSize / 4)
  let a := block2arena b
  let cnt ← m.load (cntOf a)
  return (b, ← m.store (cntOf a) (sub32 cnt 1))

/-- `sys_malloc` of at most 1024 bytes. -/
def mallocSmall (m : Machine) (pf : PoolFlags) (descs size : ℕ) :
    Except Fault (Option ℕ × Machine) := do
  let descIdx ← findDesc m descs size descCnt 0
  let desc := descAt descs descIdx
  let empty ← listEmpty m (freeListOf desc)
  let (done, m) ← if empty then newArena m pf desc else pure (true, m)
  if done then
    let (b, m) ← takeBlock m desc
    return (some b, m)
  else return (none, m)

/-- The loop that takes the blocks of a free arena off the free list. -/
def joinArena (a : ℕ) : ℕ → ℕ → Machine → Except Fault Machine
  | 0, _, m => return m
  | left + 1, blockIdx, m => do
    let b ← arena2block m a blockIdx
    let desc ← m.load (descOf a)
    let found ← elemFind m (freeListOf desc) b
    ensure .assert (found = true)
    let m ← listRemove m b
    joinArena a left (blockIdx + 1) m

/-- `sys_free` between taking the lock and giving it back. -/
def freeBlock (m : Machine) (pf : PoolFlags) (ptr : ℕ) : Except Fault Machine := do
  let a := block2arena ptr
  let large ← m.load (largeOf a)
  ensure .assert (large = 0 ∨ large = 1)
  let desc ← m.load (descOf a)
  if desc = 0 ∧ large = 1 then
    mfreePage m pf a (← m.load (cntOf a))
  else
    let m ← listAppend m (freeListOf desc) ptr
    let cnt ← m.load (cntOf a)
    let m ← m.store (cntOf a) ((cnt + 1) % 2 ^ 32)
    let desc ← m.load (descOf a)
    let blocksPerArena ← m.load (blocksPerArenaOf desc)
    if (cnt + 1) % 2 ^ 32 = blocksPerArena then
      let m ← joinArena a blocksPerArena 0 m
      mfreePage m pf a 1
    else return m

/-- Memory, and how often the running thread holds the lock of each pool. -/
structure Allocator where
  machine : Machine
  holderRepeatNr : PoolFlags → ℕ

/-- `lock_acquire` of a lock that no other thread holds. -/
def Allocator.lockAcquire (x : Allocator) (pf : PoolFlags) : Allocator :=
  { x with holderRepeatNr := Function.update x.holderRepeatNr pf (x.holderRepeatNr pf + 1) }

/-- `lock_release`. -/
def Allocator.lockRelease (x : Allocator) (pf : PoolFlags) : Except Fault Allocator := do
  ensure .assert (x.holderRepeatNr pf ≥ 1)
  return { x with
    holderRepeatNr := Function.update x.holderRepeatNr pf (x.holderRepeatNr pf - 1) }

/-- The pool of the running thread: `pgdir` tells a process from a kernel thread. -/
def Machine.poolFlags (m : Machine) : PoolFlags :=
  if (m.tasks m.running).pgdir = none then .kernel else .user

/-- The descriptors of the running thread. -/
def KernelImage.descs (img : KernelImage) (m : Machine) : ℕ :=
  match m.poolFlags with
  | .kernel => img.kBlockDescs
  | .user => m.running + uBlockDesc

/-- `sys_malloc`; `none` is NULL. Every branch gives the lock back before it returns. -/
def sysMalloc (img : KernelImage) (x : Allocator) (size : ℕ) :
    Except Fault (Option ℕ × Allocator) := do
  let pf := x.machine.poolFlags
  let descs := img.descs x.machine
  if ¬ (size > 0 ∧ size < (x.machine.pools pf).poolSize) then return (none, x)
  else
    let x := x.lockAcquire pf
    let (r, m) ←
      if size > 1024 then mallocLarge x.machine pf size else mallocSmall x.machine pf descs size
    return (r, ← { x with machine := m }.lockRelease pf)

/-- `sys_free`. -/
def sysFree (x : Allocator) (ptr : ℕ) : Except Fault Allocator := do
  ensure .assert (ptr ≠ 0)
  let pf := x.machine.poolFlags
  -- `K_HEAP_START`
  ensure .assert (pf = .kernel → ptr ≥ 0xc0100000)
  let x := x.lockAcquire pf
  let m ← freeBlock x.machine pf ptr
  { x with machine := m }.lockRelease pf

end Source

end X86System.Memory
