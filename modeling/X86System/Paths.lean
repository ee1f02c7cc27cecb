import X86System.Directory

/-!
# Paths

A path is the bytes of a C string before its NUL. `path_parse` cuts off one name at
a time; a caller gives it a buffer of 16 bytes, which a longer name overruns and a
name of 16 bytes leaves without a NUL. `search_file` walks down from the root and
returns with the directory that it last opened in the search record.
-/
namespace X86System.FileSystem
open Bytes Exec

/-- `'/'` and `'.'`. -/
def slash : UInt8 := 0x2f
def dot : UInt8 := 0x2e

/-- `MAX_PATH_LEN`. -/
def maxPathLen : ℕ := 512

/-- What `path_parse` stores, and the rest of the path unless it is at its end. -/
def pathParse (pathname : List UInt8) : List UInt8 × Option (List UInt8) :=
  let p := pathname.dropWhile (· = slash)
  (p.takeWhile (· ≠ slash),
    match p.dropWhile (· ≠ slash) with
    | [] => none
    | rest => some rest)

/-- The loop of `path_depth_cnt` after the first name. -/
def depthLoop : ℕ → Option (List UInt8) → ℕ → Except Fault ℕ
  | _, none, depth => .ok depth
  | 0, some _, _ => .error .diverge
  | fuel + 1, some p, depth => do
    let (name, rest) := pathParse p
    ensure Fault.overrun (name.length ≤ maxFileNameLen)
    if name = [] then .ok depth else depthLoop fuel rest (depth + 1)

/-- `path_depth_cnt`. Its name buffer is not cleared before the first name is stored. -/
def pathDepthCnt (pathname : List UInt8) : Except Fault ℕ := do
  let (name, rest) := pathParse pathname
  ensure Fault.overrun (name.length ≤ maxFileNameLen)
  ensure Fault.uninit (name ≠ [])
  depthLoop pathname.length rest 1

/-- `struct path_search_record`. -/
structure PathSearchRecord where
  searchedPath : List UInt8
  parentDir : Dir
  fileType : UInt32

/-- The `int` -1, which an inode number may also be. -/
def minusOne : UInt32 := 0xffffffff

/-- The name of at most 15 bytes that `search_file` has in its buffer. -/
def nextName (subPath : Option (List UInt8)) :
    Except Fault (List UInt8 × Option (List UInt8)) :=
  match subPath with
  | none => .ok ([], none)
  | some p => do
    let (name, rest) := pathParse p
    ensure Fault.overrun (name.length < maxFileNameLen)
    .ok (name, rest)

/-- Go down into a directory: close its parent and open it. -/
def enterDir (s : State) (parentDir : Dir) (inodeNo : UInt32) :
    Except Fault (UInt32 × Dir × State) := do
  let x ← deref (s.inodes (parentDir.inode s))
  let s ← dirClose s parentDir
  let (dir, s) ← dirOpen s inodeNo
  .ok (x.iNo, dir, s)

/-- What `search_file` does after its loop: the record gets the directory's parent. -/
def finishSearch (s : State) (record : PathSearchRecord) (parentInodeNo : UInt32)
    (dirE : Option DirEntry) : Except Fault (UInt32 × PathSearchRecord × State) := do
  let s ← dirClose s record.parentDir
  let (dir, s) ← dirOpen s parentInodeNo
  match dirE with
  | none => .error .uninit
  | some e => .ok (e.iNo, { record with parentDir := dir, fileType := ftDirectory }, s)

/-- The loop of `search_file`, for at most `fuel` names. `record.parentDir` is the
directory that is searched next. -/
def searchLoop : ℕ → State → PathSearchRecord → UInt32 → List UInt8 → Option (List UInt8) →
    Option DirEntry → Except Fault (UInt32 × PathSearchRecord × State)
  | 0, _, _, _, _, _, _ => .error .diverge
  | fuel + 1, s, record, parentInodeNo, name, subPath, dirE => do
    if name = [] then finishSearch s record parentInodeNo dirE
    else
      ensure Fault.assert (record.searchedPath.length < 512)
      let searched := record.searchedPath ++ slash :: name
      ensure Fault.overrun (searched.length < maxPathLen)
      let record := { record with searchedPath := searched }
      match ← searchDirEntry s record.parentDir name with
      | (none, s) => .ok (minusOne, record, s)
      | (some e, s) =>
        let (name, subPath) ← nextName subPath
        if e.fType = ftDirectory then
          let (parentInodeNo, dir, s) ← enterDir s record.parentDir e.iNo
          searchLoop fuel s { record with parentDir := dir } parentInodeNo name subPath (some e)
        else if e.fType = ftRegular then
          .ok (e.iNo, { record with fileType := ftRegular }, s)
        else searchLoop fuel s record parentInodeNo name subPath (some e)

/-- `search_file`: the inode number or -1, and the search record. -/
def searchFile (s : State) (pathname : List UInt8) :
    Except Fault (UInt32 × PathSearchRecord × State) := do
  if pathname = [slash] ∨ pathname = [slash, dot] ∨ pathname = [slash, dot, dot] then
    .ok (0, { searchedPath := [], parentDir := .root, fileType := ftDirectory }, s)
  else
    ensure Fault.assert (pathname.head? = some slash ∧ 1 < pathname.length ∧
      pathname.length < maxPathLen)
    let (name, subPath) ← nextName (some pathname)
    searchLoop (pathname.length + 1) s
      { searchedPath := [], parentDir := .root, fileType := ftUnknown } 0 name subPath none

/-- `strrchr(path, '/') + 1`. -/
def lastName (path : List UInt8) : List UInt8 :=
  (path.reverse.takeWhile (· ≠ slash)).reverse

end X86System.FileSystem
