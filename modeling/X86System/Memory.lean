import X86System.Bitmap
import X86System.Library.Exec
import X86System.Library.Paging

/-!
# Pages of memory

The page allocator and the page directories. Every access of the code to a
directory or a table is an access to a virtual address and goes through the
directory that CR3 points to, so it is a page fault where nothing is mapped. The
bitmaps and the PCBs are typed objects beside the frames; they are named by the
addresses at which the code keeps them.
-/
namespace X86System.Memory
open Exec Paging

/-- `enum pool_flags`. -/
inductive PoolFlags
  | kernel
  | user
  deriving DecidableEq, Repr

/-- `struct pool`, the physical frames of one pool. -/
structure Pool where
  poolBitmap : Bitmap
  phyAddrStart : ℕ
  poolSize : ℕ

/-- `struct virtual_addr`. -/
structure VirtualAddr where
  vaddrBitmap : Bitmap
  /-- The address of the bitmap's bytes. -/
  bits : ℕ
  vaddrStart : ℕ

/-- What a PCB says about memory. -/
structure Task where
  pid : ℕ
  /-- The characters before the NUL. -/
  name : List UInt8
  pgdir : Option ℕ
  userprocVaddr : VirtualAddr

structure Machine where
  ram : Ram
  /-- The frame of the page directory in use. -/
  cr3 : ℕ
  /-- `kernel_pool` and `user_pool`. -/
  pools : PoolFlags → Pool
  kernelVaddr : VirtualAddr
  pidBitmap : Bitmap
  /-- The PCB at an address. -/
  tasks : ℕ → Task
  /-- `running_thread()`. -/
  running : ℕ

def Machine.setPool (m : Machine) (pf : PoolFlags) (pool : Pool) : Machine :=
  { m with pools := Function.update m.pools pf pool }

def Machine.setTask (m : Machine) (pcb : ℕ) (task : Task) : Machine :=
  { m with tasks := Function.update m.tasks pcb task }

/-- Unsigned subtraction. -/
def sub32 (a b : ℕ) : ℕ := (a + (2 ^ 32 - b)) % 2 ^ 32

def pgSize : ℕ := 4096

/-- The frame of the kernel's page directory, `PAGE_DIR_TABLE_POS`. -/
def kernelDir : ℕ := 0x100

/-- `PG_US_U | PG_RW_W | PG_P_1`. -/
def pgAttr : ℕ := 4 ||| 2 ||| 1

/-- Read the word at a virtual address. -/
def Machine.load (m : Machine) (vaddr : ℕ) : Except Fault ℕ :=
  match walk m.ram m.cr3 vaddr with
  | some (f, i) => .ok (m.ram f i)
  | none => .error .page

/-- Write the word at a virtual address. -/
def Machine.store (m : Machine) (vaddr w : ℕ) : Except Fault Machine :=
  match walk m.ram m.cr3 vaddr with
  | some (f, i) => .ok { m with ram := poke m.ram f i w }
  | none => .error .page

/-- `memset` of zeros over `cnt` pages. -/
def Machine.clearPages (m : Machine) (vaddr : ℕ) : ℕ → Except Fault Machine
  | 0 => .ok m
  | cnt + 1 =>
    match walk m.ram m.cr3 vaddr with
    | some (f, _) => Machine.clearPages { m with ram := wipe m.ram f } (vaddr + pgSize) cnt
    | none => .error .page

/-- `memcpy` of `cnt` words. -/
def Machine.memcpy (m : Machine) (dst src : ℕ) : ℕ → Except Fault Machine
  | 0 => .ok m
  | cnt + 1 => do
    let w ← m.load src
    let m ← m.store dst w
    m.memcpy (dst + 4) (src + 4) cnt

/-- `while (cnt < pg_cnt) bitmap_set(btmp, start + cnt++, value)`. -/
def setBits (btmp : Bitmap) (start : ℕ) (value : Bool) : ℕ → Bitmap
  | 0 => btmp
  | cnt + 1 => bitmapSet (setBits btmp start value cnt) (start + cnt) value

/-- `vaddr_get`. -/
def vaddrGet (m : Machine) (pf : PoolFlags) (pgCnt : ℕ) : Except Fault (Option ℕ × Machine) :=
  match pf with
  | .kernel => do
    let some start ← bitmapScan m.kernelVaddr.vaddrBitmap pgCnt | return (none, m)
    let btmp := setBits m.kernelVaddr.vaddrBitmap start true pgCnt
    return (some (m.kernelVaddr.vaddrStart + start <<< 12),
      { m with kernelVaddr := { m.kernelVaddr with vaddrBitmap := btmp } })
  | .user => do
    let cur := m.tasks m.running
    let some start ← bitmapScan cur.userprocVaddr.vaddrBitmap pgCnt | return (none, m)
    let btmp := setBits cur.userprocVaddr.vaddrBitmap start true pgCnt
    let vaddrStart := cur.userprocVaddr.vaddrStart + start <<< 12
    ensure .assert (vaddrStart < 0xc0000000 - pgSize)
    return (some vaddrStart, m.setTask m.running
      { cur with userprocVaddr := { cur.userprocVaddr with vaddrBitmap := btmp } })

/-- `PDE_IDX`. -/
def pdeIdx (addr : ℕ) : ℕ := (addr &&& 0xffc00000) >>> 22

/-- `PTE_IDX`. -/
def pteIdx (addr : ℕ) : ℕ := (addr &&& 0x003ff000) >>> 12

def ptePtr (vaddr : ℕ) : ℕ := 0xffc00000 + (vaddr &&& 0xffc00000) >>> 10 + pteIdx vaddr * 4

def pdePtr (vaddr : ℕ) : ℕ := 0xfffff000 + pdeIdx vaddr * 4

/-- `pmalloc`. -/
def pmalloc (mPool : Pool) : Except Fault (Option ℕ × Pool) := do
  let some bitIdx ← bitmapScan mPool.poolBitmap 1 | return (none, mPool)
  return (some (bitIdx <<< 12 + mPool.phyAddrStart),
    { mPool with poolBitmap := bitmapSet mPool.poolBitmap bitIdx true })

/-- `page_table_add`. -/
def pageTableAdd (m : Machine) (vaddr pagePhyaddr : ℕ) : Except Fault Machine := do
  if (← m.load (pdePtr vaddr)) &&& 1 ≠ 0 then
    ensure .assert ((← m.load (ptePtr vaddr)) &&& 1 = 0)
    m.store (ptePtr vaddr) (pagePhyaddr ||| pgAttr)
  else
    let (pdePhyaddr, pool) ← pmalloc (m.pools .kernel)
    let m := m.setPool .kernel pool
    let m ← m.store (pdePtr vaddr) (pdePhyaddr.getD 0 ||| pgAttr)
    let m ← m.clearPages (ptePtr vaddr &&& 0xfffff000) 1
    ensure .assert ((← m.load (ptePtr vaddr)) &&& 1 = 0)
    m.store (ptePtr vaddr) (pagePhyaddr ||| pgAttr)

/-- The loop of `malloc_page`: `false` when physical memory runs out. -/
def mapPages (pf : PoolFlags) : ℕ → ℕ → Machine → Except Fault (Bool × Machine)
  | 0, _, m => return (true, m)
  | cnt + 1, vaddr, m => do
    let (some pagePhyaddr, pool) ← pmalloc (m.pools pf) | return (false, m)
    let m ← pageTableAdd (m.setPool pf pool) vaddr pagePhyaddr
    mapPages pf cnt (vaddr + pgSize) m

/-- `malloc_page`; `none` is NULL. -/
def mallocPage (m : Machine) (pf : PoolFlags) (pgCnt : ℕ) :
    Except Fault (Option ℕ × Machine) := do
  ensure .assert (pgCnt > 0 ∧ pgCnt < 3840)
  let (some vaddr, m) ← vaddrGet m pf pgCnt | return (none, m)
  let (done, m) ← mapPages pf pgCnt vaddr m
  return (if done then some vaddr else none, m)

/-- `get_kernel_pages`. -/
def getKernelPages (m : Machine) (pgCnt : ℕ) : Except Fault (Option ℕ × Machine) := do
  match ← mallocPage m .kernel pgCnt with
  | (some vaddr, m) => return (some vaddr, ← m.clearPages vaddr pgCnt)
  | (none, m) => return (none, m)

/-- `get_a_page`. -/
def getAPage (m : Machine) (pf : PoolFlags) (vaddr : ℕ) : Except Fault (Option ℕ × Machine) := do
  let cur := m.tasks m.running
  let m ←
    match cur.pgdir, pf with
    | some _, .user =>
      let bitIdx := sub32 vaddr cur.userprocVaddr.vaddrStart / pgSize
      let btmp := bitmapSet cur.userprocVaddr.vaddrBitmap bitIdx true
      -- an `int32_t`; the quotient is far below the sign bit
      ensure .assert (bitIdx > 0)
      pure (m.setTask m.running
        { cur with userprocVaddr := { cur.userprocVaddr with vaddrBitmap := btmp } })
    | none, .kernel =>
      let bitIdx := sub32 vaddr m.kernelVaddr.vaddrStart / pgSize
      let btmp := bitmapSet m.kernelVaddr.vaddrBitmap bitIdx true
      ensure .assert (bitIdx > 0)
      pure { m with kernelVaddr := { m.kernelVaddr with vaddrBitmap := btmp } }
    | _, _ => .error .assert
  let (some pagePhyaddr, pool) ← pmalloc (m.pools pf) | return (none, m)
  let m ← pageTableAdd (m.setPool pf pool) vaddr pagePhyaddr
  return (some vaddr, m)

/-- `get_a_page_without_opvaddrbitmap`. -/
def getAPageWithoutOpvaddrbitmap (m : Machine) (pf : PoolFlags) (vaddr : ℕ) :
    Except Fault (Option ℕ × Machine) := do
  let (some pagePhyaddr, pool) ← pmalloc (m.pools pf) | return (none, m)
  let m ← pageTableAdd (m.setPool pf pool) vaddr pagePhyaddr
  return (some vaddr, m)

/-- `addr_v2p`. -/
def addrV2p (m : Machine) (vaddr : ℕ) : Except Fault ℕ := do
  return ((← m.load (ptePtr vaddr)) &&& 0xfffff000) + (vaddr &&& 0x00000fff)

/-- `pfree`, and `free_a_phy_page` with the same body. -/
def pfree (m : Machine) (pgPhyAddr : ℕ) : Machine :=
  let pf := if pgPhyAddr ≥ (m.pools .user).phyAddrStart then .user else .kernel
  let memPool := m.pools pf
  let bitIdx := sub32 pgPhyAddr memPool.phyAddrStart >>> 12
  m.setPool pf { memPool with poolBitmap := bitmapSet memPool.poolBitmap bitIdx false }

/-- `page_table_pte_remove`; there is no TLB to invalidate. -/
def pageTablePteRemove (m : Machine) (vaddr : ℕ) : Except Fault Machine := do
  let pte ← m.load (ptePtr vaddr)
  m.store (ptePtr vaddr) (pte &&& 0xfffffffe)

/-- `vaddr_remove`. -/
def vaddrRemove (m : Machine) (pf : PoolFlags) (vaddr pgCnt : ℕ) : Machine :=
  match pf with
  | .kernel =>
    let start := sub32 vaddr m.kernelVaddr.vaddrStart >>> 12
    let btmp := setBits m.kernelVaddr.vaddrBitmap start false pgCnt
    { m with kernelVaddr := { m.kernelVaddr with vaddrBitmap := btmp } }
  | .user =>
    let cur := m.tasks m.running
    let start := sub32 vaddr cur.userprocVaddr.vaddrStart >>> 12
    let btmp := setBits cur.userprocVaddr.vaddrBitmap start false pgCnt
    m.setTask m.running { cur with userprocVaddr := { cur.userprocVaddr with vaddrBitmap := btmp } }

/-- The two loops of `mfree_page`, which differ in what they assert of an address. -/
def freePages (inPool : ℕ → Prop) [DecidablePred inPool] :
    ℕ → ℕ → Machine → Except Fault Machine
  | 0, _, m => return m
  | cnt + 1, vaddr, m => do
    let pgPhyAddr ← addrV2p m vaddr
    ensure .assert (pgPhyAddr % pgSize = 0 ∧ inPool pgPhyAddr)
    let m ← pageTablePteRemove (pfree m pgPhyAddr) vaddr
    freePages inPool cnt (vaddr + pgSize) m

/-- `mfree_page`. -/
def mfreePage (m : Machine) (pf : PoolFlags) (vaddr pgCnt : ℕ) : Except Fault Machine := do
  ensure .assert (pgCnt ≥ 1 ∧ vaddr % pgSize = 0)
  let pgPhyAddr ← addrV2p m vaddr
  ensure .assert (pgPhyAddr % pgSize = 0 ∧ pgPhyAddr ≥ 0x102000)
  let userStart := (m.pools .user).phyAddrStart
  let kernelStart := (m.pools .kernel).phyAddrStart
  if pgPhyAddr ≥ userStart then
    let m ← freePages (fun a => a ≥ userStart) pgCnt vaddr m
    return vaddrRemove m pf vaddr pgCnt
  else
    let m ← freePages (fun a => a ≥ kernelStart ∧ a < userStart) pgCnt vaddr m
    return vaddrRemove m pf vaddr pgCnt

end X86System.Memory
