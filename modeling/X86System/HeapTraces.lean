import X86System.OpenAccounts
import X86System.Library.Watched

/-!
# The memory that creating a file takes

`sys_malloc` takes a block from the pool of the running task, which is the kernel's while
its `pgdir` is NULL; inodes are allocated with `pgdir` set to NULL. `sys_free` puts a
block back on the list of its arena, and when no other block of the arena is in use the
addresses of the arena go to the pool of the running task. The functions below are those
of the same names with a record of what they take and give back.
-/
namespace X86System.FileSystem
open Bytes Exec

inductive HeapPool
  | kernel
  | user
  deriving DecidableEq

/-- What a block was taken for. -/
inductive HeapBlock
  | buffer
  | dir
  | inode (a : InodePtr)
  deriving DecidableEq

/-- A block is taken from a pool or given to one. -/
inductive HeapEvent
  | take (p : HeapPool) (b : HeapBlock)
  | give (p : HeapPool) (b : HeapBlock)
  deriving DecidableEq

/-- How often `b` was taken from pool `p` and not given back to it. -/
def balance (w : List HeapEvent) (p : HeapPool) (b : HeapBlock) : ℤ :=
  w.count (.take p b) - w.count (.give p b)

/-- Where `sys_free` puts a block of `origin`, of which the arena has no other block in use if
`lone`, in a task of `pool`. -/
def freedTo (pool origin : HeapPool) (lone : Bool) : HeapPool := if lone then pool else origin

abbrev Heaped : Type → Type := Watched HeapEvent Fault

namespace Traced

variable (pool : HeapPool)

def sysMalloc (b : HeapBlock) (s : State) (size : ℕ) : Heaped (Option Buffer × State) := do
  match FileSystem.sysMalloc s size with
  | (none, s) => pure (none, s)
  | (some buf, s) =>
    record (.take pool b)
    pure (some buf, s)

def mallocInode (s : State) : Heaped (Option InodePtr × State) := do
  match FileSystem.mallocInode s with
  | (none, s) => pure (none, s)
  | (some a, s) =>
    record (.take .kernel (.inode a))
    pure (some a, s)

def inodeLoad (s : State) (inodeNo : UInt32) : Heaped (InodePtr × State) := do
  let pos ← inodeLocate s inodeNo
  let (inodeFound, s) ← mallocInode s
  let secs := if pos.twoSec then 2 else 1
  let (inodeBuf, s) ← sysMalloc pool .buffer s (512 * secs)
  let buf ← deref inodeBuf
  let buf ← ideRead s pos.secLba buf 0 secs
  let a ← deref inodeFound
  let x := Inode.ofBytes (slice buf.bytes pos.offSize)
  record (.give pool .buffer)
  pure (a, { s.setInode a { x with iOpenCnts := 1 } with openInodes := a :: s.openInodes })

def inodeOpen (s : State) (inodeNo : UInt32) : Heaped (InodePtr × State) := do
  match ← findOpen s inodeNo s.openInodes with
  | some a =>
    let x ← deref (s.inodes a)
    pure (a, s.setInode a { x with iOpenCnts := x.iOpenCnts + 1 })
  | none => inodeLoad pool s inodeNo

def inodeClose (s : State) (a : InodePtr) : Heaped State := do
  let x ← deref (s.inodes a)
  if x.iOpenCnts = 1 then
    -- `pgdir` is NULL here too
    record (.give .kernel (.inode a))
    pure { s with openInodes := s.openInodes.erase a, inodes := Function.update s.inodes a none }
  else
    pure (s.setInode a { x with
      iOpenCnts := if x.iOpenCnts = 0 then 2 ^ 32 - 1 else x.iOpenCnts - 1 })

def dirOpen (s : State) (inodeNo : UInt32) : Heaped (Dir × State) := do
  let (buf, s) ← sysMalloc pool .dir s 520
  let _ ← deref buf
  let (a, s) ← inodeOpen pool s inodeNo
  pure (.opened a, s)

def dirClose (s : State) : Dir → Heaped State
  | .root => pure s
  | .opened a => do
    let s ← inodeClose s a
    record (.give pool .dir)
    pure s

def searchDirEntry (s : State) (pdir : Dir) (name : List UInt8) :
    Heaped (Option DirEntry × State) := do
  let (allBlocks, s) ← sysMalloc pool .buffer s (48 + 512)
  match allBlocks with
  | none => pure (none, s)
  | some allBlocks =>
    let x ← deref (s.inodes (pdir.inode s))
    let allBlocks ← copyDirect x allBlocks 12
    let allBlocks ← loadIndirect s x allBlocks
    let (buf, s) ← sysMalloc pool .buffer s 512
    let e ← searchBlocks s name allBlocks buf 140 0
    ensure Fault.assert buf.isSome
    record (.give pool .buffer)
    record (.give pool .buffer)
    pure (e, s)

def enterDir (s : State) (parentDir : Dir) (inodeNo : UInt32) : Heaped (UInt32 × Dir × State) := do
  let x ← deref (s.inodes (parentDir.inode s))
  let s ← dirClose pool s parentDir
  let (dir, s) ← dirOpen pool s inodeNo
  pure (x.iNo, dir, s)

def finishSearch (s : State) (r : PathSearchRecord) (parentInodeNo : UInt32)
    (dirE : Option DirEntry) : Heaped (UInt32 × PathSearchRecord × State) := do
  let s ← dirClose pool s r.parentDir
  let (dir, s) ← dirOpen pool s parentInodeNo
  match dirE with
  | none => Except.error Fault.uninit
  | some e => pure (e.iNo, { r with parentDir := dir, fileType := ftDirectory }, s)

def searchLoop : ℕ → State → PathSearchRecord → UInt32 → List UInt8 → Option (List UInt8) →
    Option DirEntry → Heaped (UInt32 × PathSearchRecord × State)
  | 0, _, _, _, _, _, _ => Except.error Fault.diverge
  | fuel + 1, s, r, parentInodeNo, name, subPath, dirE => do
    if name = [] then finishSearch pool s r parentInodeNo dirE
    else
      ensure Fault.assert (r.searchedPath.length < 512)
      let searched := r.searchedPath ++ slash :: name
      ensure Fault.overrun (searched.length < maxPathLen)
      let r := { r with searchedPath := searched }
      match ← searchDirEntry pool s r.parentDir name with
      | (none, s) => pure (minusOne, r, s)
      | (some e, s) =>
        let (name, subPath) ← nextName subPath
        if e.fType = ftDirectory then
          let (parentInodeNo, dir, s) ← enterDir pool s r.parentDir e.iNo
          searchLoop fuel s { r with parentDir := dir } parentInodeNo name subPath (some e)
        else if e.fType = ftRegular then
          pure (e.iNo, { r with fileType := ftRegular }, s)
        else searchLoop fuel s r parentInodeNo name subPath (some e)

def searchFile (s : State) (pathname : List UInt8) :
    Heaped (UInt32 × PathSearchRecord × State) := do
  if pathname = [slash] ∨ pathname = [slash, dot] ∨ pathname = [slash, dot, dot] then
    pure (0, { searchedPath := [], parentDir := .root, fileType := ftDirectory }, s)
  else
    ensure Fault.assert (pathname.head? = some slash ∧ 1 < pathname.length ∧
      pathname.length < maxPathLen)
    let (name, subPath) ← nextName (some pathname)
    searchLoop pool (pathname.length + 1) s
      { searchedPath := [], parentDir := .root, fileType := ftUnknown } 0 name subPath none

/-- In the rollback the inode is freed without setting `pgdir` to NULL. -/
def createInDir (lone : Bool) (s : State) (parent : InodePtr) (filename : List UInt8)
    (flag : UInt8) (inodeNo : ℕ) (a : InodePtr) (ioBuf : Buffer) :
    Heaped (Option ℕ × State) := do
  let s := s.setInode a (inodeInit (UInt32.ofNat inodeNo))
  match getFreeSlotInGlobal s with
  | none =>
    record (.give (freedTo pool .kernel lone) (.inode a))
    record (.give pool .buffer)
    pure (none, (s.freeInode a).dropInodeNo inodeNo)
  | some fdIdx =>
    let s := s.setFile fdIdx { fdPos := 0, fdFlag := flag.toUInt32, fdInode := some a }
    let e ← createDirEntry filename (UInt32.ofNat inodeNo) ftRegular
    match ← syncDirEntry s parent e ioBuf with
    | (false, s) =>
      let s := s.setFile fdIdx { fdPos := 0, fdFlag := 0, fdInode := none }
      record (.give (freedTo pool .kernel lone) (.inode a))
      record (.give pool .buffer)
      pure (none, (s.freeInode a).dropInodeNo inodeNo)
    | (true, s) =>
      let r ← enrolFile s parent a inodeNo fdIdx
      record (.give pool .buffer)
      pure r

def fileCreate (lone : Bool) (s : State) (parentDir : Dir) (filename : List UInt8)
    (flag : UInt8) : Heaped (Option ℕ × State) := do
  let (ioBuf, s) ← sysMalloc pool .buffer s 1024
  match ioBuf with
  | none => pure (none, s)
  | some ioBuf =>
    match ← inodeBitmapAlloc s with
    -- the buffer is not freed here
    | (none, s) => pure (none, s)
    | (some inodeNo, s) =>
      match ← mallocInode s with
      | (none, s) =>
        record (.give pool .buffer)
        pure (none, s.dropInodeNo inodeNo)
      | (some a, s) => createInDir pool lone s (parentDir.inode s) filename flag inodeNo a ioBuf

def fileOpen (s : State) (inodeNo : UInt32) (flag : UInt8) : Heaped (Option ℕ × State) := do
  match getFreeSlotInGlobal s with
  | none => pure (none, s)
  | some fdIdx =>
    let (a, s) ← inodeOpen pool s inodeNo
    let s := s.setFile fdIdx { fdPos := 0, fdFlag := flag.toUInt32, fdInode := some a }
    if forWriting flag.toUInt32 then
      match ← denyWrite s a with
      | (false, s) => pure (none, s)
      | (true, s) => pcbFdInstall s fdIdx
    else pcbFdInstall s fdIdx

def openFound (lone : Bool) (s : State) (pathname : List UInt8) (flags : UInt8) (depth : ℕ)
    (inodeNo : UInt32) (r : PathSearchRecord) : Heaped (ℤ × State) := do
  if r.fileType = ftDirectory then
    let s ← dirClose pool s r.parentDir
    pure (-1, s)
  else
    let searchedDepth ← pathDepthCnt r.searchedPath
    if depth ≠ searchedDepth ∨ (inodeNo = minusOne ∧ flags &&& oCreat = 0) ∨
        (inodeNo ≠ minusOne ∧ flags &&& oCreat ≠ 0) then
      let s ← dirClose pool s r.parentDir
      pure (-1, s)
    else if flags &&& oCreat ≠ 0 then
      let (fd, s) ← fileCreate pool lone s r.parentDir (lastName pathname) flags
      let s ← dirClose pool s r.parentDir
      pure (fdResult fd, s)
    else
      let (fd, s) ← fileOpen pool s inodeNo flags
      pure (fdResult fd, s)

def sysOpen (lone : Bool) (s : State) (pathname : List UInt8) (flags : UInt8) :
    Heaped (ℤ × State) := do
  ensure Fault.overrun (pathname ≠ [])
  if pathname.getLast? = some slash then pure (0, s)
  else
    ensure Fault.assert (flags ≤ 7)
    let depth ← pathDepthCnt pathname
    let (inodeNo, r, s) ← searchFile pool s pathname
    openFound pool lone s pathname flags depth inodeNo r

def sysMkdir (s : State) (pathname : List UInt8) : Heaped (Bool × State) := do
  let (ioBuf, s) ← sysMalloc pool .buffer s 1024
  match ioBuf with
  | none => pure (false, s)
  | some ioBuf =>
    let (inodeNo, r, s) ← searchFile pool s pathname
    if inodeNo ≠ minusOne then
      let s ← dirClose pool s r.parentDir
      record (.give pool .buffer)
      pure (false, s)
    else
      let depth ← pathDepthCnt pathname
      let searchedDepth ← pathDepthCnt r.searchedPath
      if depth ≠ searchedDepth then
        let s ← dirClose pool s r.parentDir
        record (.give pool .buffer)
        pure (false, s)
      else
        match ← inodeBitmapAlloc s with
        | (none, s) =>
          let s ← dirClose pool s r.parentDir
          record (.give pool .buffer)
          pure (false, s)
        | (some inodeNo, s) =>
          let (made, s) ← makeDir s r inodeNo ioBuf
          let s ← dirClose pool s r.parentDir
          record (.give pool .buffer)
          pure (made, s)

section Plain

variable {pool} {s : State}

@[simp] theorem sysMalloc_plain (b : HeapBlock) (s : State) (size : ℕ) :
    plain (sysMalloc pool b s size) = .ok (FileSystem.sysMalloc s size) := by
  unfold sysMalloc
  rcases FileSystem.sysMalloc s size with ⟨_ | buf, t⟩ <;> rfl

@[simp] theorem mallocInode_plain (s : State) :
    plain (mallocInode s) = .ok (FileSystem.mallocInode s) := by
  unfold mallocInode
  rcases FileSystem.mallocInode s with ⟨_ | a, t⟩ <;> rfl

@[simp] theorem inodeLoad_plain (s : State) (n : UInt32) :
    plain (inodeLoad pool s n) = FileSystem.inodeLoad s n := by
  unfold inodeLoad FileSystem.inodeLoad
  simp only [plain_bind, plain_lift, mallocInode_plain, sysMalloc_plain, plain_record, plain_pure,
    ok_bind]

@[simp] theorem inodeOpen_plain (s : State) (n : UInt32) :
    plain (inodeOpen pool s n) = FileSystem.inodeOpen s n := by
  unfold inodeOpen FileSystem.inodeOpen
  rw [plain_bind, plain_lift]
  refine bind_congr fun r => ?_
  cases r with
  | none => exact inodeLoad_plain s n
  | some a => simp only [plain_bind, plain_lift, plain_pure]

@[simp] theorem inodeClose_plain (s : State) (a : InodePtr) :
    plain (inodeClose s a) = FileSystem.inodeClose s a := by
  unfold inodeClose FileSystem.inodeClose
  simp only [plain_bind, plain_lift, plain_ite, plain_record, plain_pure, ok_bind]

@[simp] theorem dirOpen_plain (s : State) (n : UInt32) :
    plain (dirOpen pool s n) = FileSystem.dirOpen s n := by
  unfold dirOpen FileSystem.dirOpen
  simp only [plain_bind, plain_lift, sysMalloc_plain, inodeOpen_plain, plain_pure, ok_bind]

@[simp] theorem dirClose_plain (s : State) (d : Dir) :
    plain (dirClose pool s d) = FileSystem.dirClose s d := by
  cases d with
  | root => rfl
  | opened a =>
    show plain (inodeClose s a >>= fun t => record (.give pool .dir) >>= fun _ => pure t) =
      FileSystem.inodeClose s a
    rw [plain_bind, inodeClose_plain]
    rcases FileSystem.inodeClose s a with e | t <;> rfl

@[simp] theorem searchDirEntry_plain (s : State) (d : Dir) (name : List UInt8) :
    plain (searchDirEntry pool s d name) = FileSystem.searchDirEntry s d name := by
  unfold searchDirEntry FileSystem.searchDirEntry
  rw [plain_bind, sysMalloc_plain, ok_bind]
  rcases FileSystem.sysMalloc s (48 + 512) with ⟨_ | buf, t⟩
  · rfl
  · simp only [plain_bind, plain_lift, sysMalloc_plain, plain_record, plain_pure, ok_bind]

@[simp] theorem enterDir_plain (s : State) (d : Dir) (n : UInt32) :
    plain (enterDir pool s d n) = FileSystem.enterDir s d n := by
  unfold enterDir FileSystem.enterDir
  simp only [plain_bind, plain_lift, dirClose_plain, dirOpen_plain, plain_pure]

@[simp] theorem finishSearch_plain (s : State) (r : PathSearchRecord) (n : UInt32)
    (dirE : Option DirEntry) :
    plain (finishSearch pool s r n dirE) = FileSystem.finishSearch s r n dirE := by
  unfold finishSearch FileSystem.finishSearch
  simp only [plain_bind, dirClose_plain, dirOpen_plain]
  refine bind_congr fun t => bind_congr fun v => ?_
  cases dirE <;> rfl

@[simp] theorem searchLoop_plain (fuel : ℕ) : ∀ (s : State) (r : PathSearchRecord) (n : UInt32)
    (name : List UInt8) (sub : Option (List UInt8)) (dirE : Option DirEntry),
    plain (searchLoop pool fuel s r n name sub dirE) =
      FileSystem.searchLoop fuel s r n name sub dirE := by
  induction fuel with
  | zero => exact fun _ _ _ _ _ _ => rfl
  | succ fuel ih =>
    intro s r n name sub dirE
    unfold searchLoop FileSystem.searchLoop
    rw [plain_ite, finishSearch_plain]
    refine if_congr Iff.rfl rfl ?_
    simp only [plain_bind, plain_lift, searchDirEntry_plain]
    refine bind_congr fun _ => bind_congr fun _ => bind_congr fun ⟨e, t⟩ => ?_
    cases e with
    | none => rfl
    | some e =>
      simp only [plain_bind, plain_lift, plain_ite, enterDir_plain, plain_pure, ih]

@[simp] theorem searchFile_plain (s : State) (path : List UInt8) :
    plain (searchFile pool s path) = FileSystem.searchFile s path := by
  unfold searchFile FileSystem.searchFile
  simp only [plain_ite, plain_bind, plain_lift, plain_pure, searchLoop_plain]

@[simp] theorem createInDir_plain (lone : Bool) (s : State) (parent : InodePtr) (name : List UInt8)
    (flag : UInt8) (i : ℕ) (a : InodePtr) (b : Buffer) :
    plain (createInDir pool lone s parent name flag i a b) =
      FileSystem.createInDir s parent name flag i a b := by
  unfold createInDir FileSystem.createInDir
  dsimp only
  cases getFreeSlotInGlobal (s.setInode a (inodeInit (UInt32.ofNat i))) with
  | none => rfl
  | some g =>
    simp only [plain_bind, plain_lift]
    refine bind_congr fun e => bind_congr ?_
    rintro ⟨done, t⟩
    cases done with
    | false => rfl
    | true =>
      simp only [plain_bind, plain_lift, plain_record, plain_pure, ok_bind]
      rcases enrolFile t parent a i g with e | v <;> rfl

@[simp] theorem fileCreate_plain (lone : Bool) (s : State) (d : Dir) (name : List UInt8)
    (flag : UInt8) :
    plain (fileCreate pool lone s d name flag) = FileSystem.fileCreate s d name flag := by
  unfold fileCreate FileSystem.fileCreate
  rw [plain_bind, sysMalloc_plain, ok_bind]
  rcases FileSystem.sysMalloc s 1024 with ⟨_ | buf, t⟩
  · rfl
  dsimp only
  rw [plain_bind, plain_lift]
  refine bind_congr fun ⟨i, u⟩ => ?_
  cases i with
  | none => rfl
  | some i =>
    dsimp only
    rw [plain_bind, mallocInode_plain, ok_bind]
    rcases FileSystem.mallocInode u with ⟨_ | a, v⟩
    · rfl
    · exact createInDir_plain ..

@[simp] theorem fileOpen_plain (s : State) (n : UInt32) (flag : UInt8) :
    plain (fileOpen pool s n flag) = FileSystem.fileOpen s n flag := by
  unfold fileOpen FileSystem.fileOpen
  cases getFreeSlotInGlobal s with
  | none => rfl
  | some g =>
    simp only [plain_bind, inodeOpen_plain, plain_ite, plain_lift]
    apply bind_congr
    rintro ⟨a, t⟩
    refine if_congr Iff.rfl (bind_congr ?_) rfl
    rintro ⟨done, u⟩
    cases done with
    | false => rfl
    | true => exact plain_lift _

@[simp] theorem openFound_plain (lone : Bool) (s : State) (path : List UInt8) (flags : UInt8)
    (depth : ℕ) (n : UInt32) (r : PathSearchRecord) :
    plain (openFound pool lone s path flags depth n r) =
      FileSystem.openFound s path flags depth n r := by
  unfold openFound FileSystem.openFound
  simp only [plain_ite, plain_bind, plain_lift, dirClose_plain, fileCreate_plain, fileOpen_plain,
    plain_pure]

/-- Without its record the call is `sys_open`. -/
theorem sysOpen_plain (lone : Bool) (s : State) (path : List UInt8) (flags : UInt8) :
    plain (sysOpen pool lone s path flags) = FileSystem.sysOpen s path flags := by
  unfold sysOpen FileSystem.sysOpen
  simp only [plain_ite, plain_bind, plain_lift, searchFile_plain, openFound_plain, plain_pure]

/-- Without its record the call is `sys_mkdir`. -/
theorem sysMkdir_plain (s : State) (path : List UInt8) :
    plain (sysMkdir pool s path) = FileSystem.sysMkdir s path := by
  unfold sysMkdir FileSystem.sysMkdir
  rw [plain_bind, sysMalloc_plain, ok_bind]
  rcases FileSystem.sysMalloc s 1024 with ⟨_ | buf, t⟩
  · rfl
  dsimp only
  simp only [plain_bind, plain_lift, plain_ite, searchFile_plain, dirClose_plain, plain_record,
    plain_pure, ok_bind]
  apply bind_congr
  rintro ⟨n, r, u⟩
  refine if_congr Iff.rfl rfl (bind_congr fun _ => bind_congr fun _ => if_congr Iff.rfl rfl ?_)
  apply bind_congr
  rintro ⟨i, v⟩
  cases i with
  | none => simp only [plain_bind, dirClose_plain, plain_record, plain_pure, ok_bind]
  | some i =>
    simp only [plain_bind, plain_lift, dirClose_plain, plain_record, plain_pure, ok_bind]

end Plain

end Traced

end X86System.FileSystem
