import X86System.DirReads
import X86System.PathSearches

/-!
# The working directory

A process keeps the inode number of its working directory. `sys_getcwd` climbs from it by
the second entry of each directory, looks the number up in the parent and collects the
names in reverse. The path that it stores leads down to the same number.
-/
namespace X86System.FileSystem
open Bytes Exec PathTree

variable {s t u : State} {a : InodePtr} {n m : UInt32} {p c path : List UInt8} {b : Buffer}
  {x : Inode} {e : DirEntry} {cs : List (List UInt8)} {dirs : Set UInt32} {h : Multiset InodePtr}

section Source

/-- `get_parent_dir_inode_nr`: the second entry of the first block. -/
def getParentDirInodeNr (s : State) (childInodeNr : UInt32) (ioBuf : Buffer) :
    Except Fault (UInt32 × Buffer × State) := do
  let (a, s) ← inodeOpen s childInodeNr
  let x ← deref (s.inodes a)
  ensure Fault.assert (s.part.dataStartLba ≤ (x.sector 0).toNat)
  let s ← inodeClose s a
  let ioBuf ← ideRead s (x.sector 0).toNat ioBuf 0 1
  let e := DirEntry.ofBytes (slice ioBuf.bytes (direntSize * 1))
  ensure Fault.assert (e.iNo.toNat < 4096 ∧ e.fType = ftDirectory)
  .ok (e.iNo, ioBuf, s)

/-- A C string in a buffer, which has to end before the buffer does. -/
def cString (b : Buffer) (off : ℕ) : Except Fault (List UInt8) := do
  let bytes := (List.range (b.size - off)).map (slice b.bytes off)
  let str := bytes.takeWhile (· ≠ 0)
  ensure Fault.overrun (str.length < bytes.length)
  .ok str

/-- The first entry of a sector with this inode number, from `idx` on, `fuel` of them. -/
def findChild (buf : Image) (inodeNo : UInt32) : ℕ → ℕ → Option ℕ
  | 0, _ => none
  | fuel + 1, idx =>
    if wordAt (slice buf (direntSize * idx)) 16 = inodeNo then some idx
    else findChild buf inodeNo fuel (idx + 1)

/-- `strcat` of a slash and a name, in a buffer of `MAX_PATH_LEN` bytes. -/
def catName (path name : List UInt8) : Except Fault (List UInt8) := do
  ensure Fault.overrun ((path ++ slash :: name).length < maxPathLen)
  .ok (path ++ slash :: name)

/-- The loop of `get_child_dir_name` over the blocks from `blockIdx` on, `fuel` of them. -/
def childLoop (s : State) (inodeNo : UInt32) (path : List UInt8) (allBlocks : Buffer) :
    ℕ → ℕ → Buffer → Except Fault (Option (List UInt8) × Buffer)
  | 0, _, ioBuf => .ok (none, ioBuf)
  | fuel + 1, blockIdx, ioBuf => do
    let lba ← allBlocks.word blockIdx
    if lba = 0 then childLoop s inodeNo path allBlocks fuel (blockIdx + 1) ioBuf
    else
      let ioBuf ← ideRead s lba.toNat ioBuf 0 1
      match findChild ioBuf.bytes inodeNo (512 / s.part.dirEntrySize) 0 with
      | some idx =>
        let name ← cString ioBuf (direntSize * idx)
        let path ← catName path name
        .ok (some path, ioBuf)
      | none => childLoop s inodeNo path allBlocks fuel (blockIdx + 1) ioBuf

/-- `get_child_dir_name`: the path with the name appended, `none` for -1. -/
def getChildDirName (s : State) (pInodeNr cInodeNr : UInt32) (path : List UInt8) (ioBuf : Buffer) :
    Except Fault (Option (List UInt8) × Buffer × State) := do
  let (a, s) ← inodeOpen s pInodeNr
  let x ← deref (s.inodes a)
  let allBlocks ← loadBlocks s x
  let s ← inodeClose s a
  let (path, ioBuf) ← childLoop s cInodeNr path allBlocks (if x.sector 12 ≠ 0 then 140 else 12) 0
    ioBuf
  .ok (path, ioBuf, s)

/-- The first loop of `sys_getcwd`, up to the root; `path` is `full_path_reverse`. -/
def climbLoop : ℕ → State → UInt32 → List UInt8 → Buffer →
    Except Fault (Option (List UInt8) × State)
  | 0, _, _, _, _ => .error .diverge
  | fuel + 1, s, childInodeNr, path, ioBuf => do
    if childInodeNr = 0 then .ok (some path, s)
    else
      let (parentInodeNr, ioBuf, s) ← getParentDirInodeNr s childInodeNr ioBuf
      match ← getChildDirName s parentInodeNr childInodeNr path ioBuf with
      | (none, _, s) => .ok (none, s)
      | (some path, ioBuf, s) => climbLoop fuel s parentInodeNr path ioBuf

/-- The second loop of `sys_getcwd`: what follows the last slash goes to the buffer. -/
def reverseLoop (size : ℕ) : ℕ → List UInt8 → List UInt8 → Except Fault (List UInt8)
  | 0, _, _ => .error .diverge
  | fuel + 1, path, buf => do
    if slash ∈ path then
      let lastSlash := slash :: lastName path
      ensure Fault.overrun ((buf ++ lastSlash).length < size)
      reverseLoop size fuel (path.take (path.length - lastSlash.length)) (buf ++ lastSlash)
    else .ok buf

/-- `sys_getcwd` with a buffer of `size` bytes; the string that it stores, `none` for NULL. A loop
of more than `MAX_PATH_LEN` levels overruns `full_path_reverse` before. -/
def sysGetcwd (s : Session) (size : ℕ) : Except Fault (Option (List UInt8) × Session) := do
  let (ioBuf, t) := sysMalloc s.fs 512
  match ioBuf with
  | none => .ok (none, { s with fs := t })
  | some ioBuf =>
    let childInodeNr := s.cwdInodeNr s.fs.cur
    ensure Fault.assert (childInodeNr.toNat < 4096)
    if childInodeNr = 0 then
      ensure Fault.overrun (2 ≤ size)
      .ok (some [slash], { s with fs := t })
    else
      match ← climbLoop (maxPathLen + 1) t childInodeNr [] ioBuf with
      | (none, t) => .ok (none, { s with fs := t })
      | (some path, t) =>
        ensure Fault.assert (path.length ≤ size)
        let buf ← reverseLoop size (path.length + 1) path []
        .ok (some buf, { s with fs := t })

end Source

section Strings

/-- The names of a reversed list of names have the same length. -/
theorem length_joined_reverse (cs : List (List UInt8)) :
    (joined cs.reverse).length = (joined cs).length :=
  ((List.reverse_perm cs).flatMap_right _).length_eq

theorem lastName_concat (path : List UInt8) (hc : slash ∉ c) : lastName (path ++ slash :: c) = c := by
  have hall : ∀ b ∈ c.reverse, decide (b ≠ slash) = true := by
    intro b hb
    apply decide_eq_true
    rintro rfl
    exact hc (List.mem_reverse.mp hb)
  unfold lastName
  rw [List.reverse_append, List.reverse_cons, List.append_assoc,
    List.takeWhile_append_of_pos hall]
  simp

/-- The second loop puts the names in their order. -/
theorem reverseLoop_eq {size : ℕ} (fuel : ℕ) : ∀ {cs : List (List UInt8)} {buf : List UInt8},
    (∀ c ∈ cs, slash ∉ c) → cs.length < fuel → (buf ++ joined cs).length < size →
    reverseLoop size fuel (joined cs) buf = .ok (buf ++ joined cs.reverse) := by
  induction fuel with
  | zero => exact fun _ h => absurd h (Nat.not_lt_zero _)
  | succ fuel ih =>
    intro cs buf hcs hfuel hsize
    unfold reverseLoop
    rcases List.eq_nil_or_concat cs with rfl | ⟨ds, c, rfl⟩
    · simp [joined]
    · rw [List.concat_eq_append] at hcs hfuel hsize ⊢
      have hc := hcs c (by simp)
      have hmem : slash ∈ joined (ds ++ [c]) := by simp [joined_concat]
      have hlast : lastName (joined (ds ++ [c])) = c := by
        rw [joined_concat, lastName_concat _ hc]
      have hrest : (joined (ds ++ [c])).take ((joined (ds ++ [c])).length - (slash :: c).length) =
          joined ds := by
        rw [joined_concat, List.length_append, Nat.add_sub_cancel_right, List.take_left]
      rw [joined_concat, List.length_append, List.length_append] at hsize
      rw [List.length_append, List.length_singleton] at hfuel
      rw [if_pos hmem]
      dsimp only
      rw [hlast, ensure_of (by rw [List.length_append]; omega), ok_bind, hrest,
        ih (fun d hd => hcs d (List.mem_append_left _ hd)) (by omega)
          (by rw [List.length_append, List.length_append]; omega),
        List.reverse_append, List.reverse_singleton, List.singleton_append, joined_cons]
      simp

end Strings

section Trees

/-- A tree of directories as the calls make it: the second entry of a directory is `..`, all
names are valid, and no two entries but `.` and `..` have the same number or that of the root. -/
structure DirTree (s : State) (dirs : Set UInt32) : Prop extends TreeOk s dirs where
  dir : ∀ n ∈ dirs, NamedDir s (s.view n)
  names : ∀ n ∈ dirs, ∀ e ∈ listing s.disk (s.view n), ValidName e.name
  data : ∀ n ∈ dirs, s.part.dataStartLba ≤ ((s.view n).sector 0).toNat
  second : ∀ n ∈ dirs, ∀ e, e = dirEntryAt s.disk ((s.view n).sector 0) 1 →
    e.live = true ∧ e.name = [dot, dot]
  plain : ∀ n ∈ dirs, ∀ e ∈ listing s.disk (s.view n), e.name ≠ [dot] → e.name ≠ [dot, dot] →
    e.iNo ≠ 0 ∧ ∀ e' ∈ listing s.disk (s.view n), e'.name ≠ [dot] → e'.name ≠ [dot, dot] →
      e'.iNo = e.iNo → e' = e

/-- An entry of the tree is a listed one. -/
theorem DirTree.entry_iff (hD : DirTree s dirs) (hn : n ∈ dirs) (hc : ValidName c) {d : Bool} :
    s.tree.entry n c = some (m, d) ↔ ∃ e ∈ listing s.disk (s.view n), e.name = c ∧ e.iNo = m ∧
      decide (e.fType = ftDirectory) = d := by
  obtain ⟨hne, hlen, -, hzero⟩ := hc
  have hdir := hD.dir n hn
  have hlookup : s.lookup n c = .ok ((dirEntries s.disk (s.view n)).find? (·.named c)) :=
    lookupIn_eq hlen hdir.table_le hdir.block_le
  have hiff := fun e => find_named_iff (e := e) hdir hne hlen hzero
  cases hfind : (dirEntries s.disk (s.view n)).find? (·.named c) with
  | none =>
    rw [hfind] at hlookup
    rw [entry_of_none hlookup]
    refine ⟨fun h => absurd h (by simp), ?_⟩
    rintro ⟨e, he, hname, -⟩
    have hsome := (hiff e).mpr ⟨he, hname⟩
    rw [hfind] at hsome
    exact absurd hsome (by simp)
  | some e =>
    rw [hfind] at hlookup
    rw [entry_of_found hlookup, Option.some.injEq, Prod.mk.injEq]
    constructor
    · rintro ⟨hno, htype⟩
      obtain ⟨he, hname⟩ := (hiff e).mp hfind
      exact ⟨e, he, hname, hno, htype⟩
    · rintro ⟨e', he', hname, hno, htype⟩
      have hsome := (hiff e').mpr ⟨he', hname⟩
      obtain rfl : e = e' := by simpa using hfind.symm.trans hsome
      exact ⟨hno, htype⟩

theorem DirTree.isTree (hD : DirTree s dirs) : s.tree.IsTree dirs ValidName := by
  refine ⟨hD.entries, fun n hn c hc h => ?_, fun n hn c d m hcd hc hd => ?_⟩
  · obtain ⟨hv, hhere, hup⟩ := hc c List.mem_cons_self
    obtain ⟨e, he, rfl, hno, -⟩ := (hD.entry_iff hn hv).mp h
    exact (hD.plain n hn e he hhere hup).1 hno
  · obtain ⟨hv, hhere, hup⟩ := hcd c (by simp)
    obtain ⟨hv', hhere', hup'⟩ := hcd d (by simp)
    obtain ⟨e, he, rfl, hno, -⟩ := (hD.entry_iff hn hv).mp hc
    obtain ⟨e', he', rfl, hno', -⟩ := (hD.entry_iff hn hv').mp hd
    rw [(hD.plain n hn e he hhere hup).2 e' he' hhere' hup' (hno'.trans hno.symm)]

theorem valid_up : ValidName [dot, dot] := by
  unfold ValidName
  decide

theorem valid_here : ValidName [dot] := by
  unfold ValidName
  decide

/-- The second entry of a directory is its `..`. -/
theorem DirTree.second_entry (hD : DirTree s dirs) (hn : n ∈ dirs)
    (hup : s.tree.entry n [dot, dot] = some (m, true)) :
    (dirEntryAt s.disk ((s.view n).sector 0) 1).iNo = m ∧
      (dirEntryAt s.disk ((s.view n).sector 0) 1).fType = ftDirectory := by
  obtain ⟨hlive, hname⟩ := hD.second n hn _ rfl
  have hdata := hD.data n hn
  have hpart := s.part.dataStartLba_eq
  have hsects := s.part.inodeTableSects_eq
  have hblock : (s.view n).blockLba s.disk 0 = (s.view n).sector 0 := by
    rw [Inode.blockLba, if_pos (by norm_num)]
  have hne : (s.view n).sector 0 ≠ 0 := by
    intro h
    rw [h, UInt32.toNat_zero] at hdata
    omega
  have hmem : dirEntryAt s.disk ((s.view n).sector 0) 1 ∈ listing s.disk (s.view n) := by
    refine mem_listing.mpr ⟨List.mem_flatMap.mpr ⟨0, by simp, ?_⟩, hlive⟩
    rw [hblock, if_neg hne]
    exact List.mem_map.mpr ⟨1, by simp, rfl⟩
  have hentry := (hD.entry_iff hn valid_up).mpr ⟨_, hmem, hname, rfl, rfl⟩
  simpa using hentry.symm.trans hup

/-- The first entry with the number of a child is the child's entry. -/
theorem DirTree.find_child (hD : DirTree s dirs) (hm : m ∈ dirs) (hc : s.tree.Plain ValidName [c])
    (hn : s.tree.entry m c = some (n, true)) (hroot : n ≠ 0) (hself : n ≠ m)
    (hup : s.tree.entry m [dot, dot] ≠ some (n, true)) :
    ∃ e, (dirEntries s.disk (s.view m)).find? (fun e => e.iNo = n) = some e ∧ e.name = c := by
  obtain ⟨hv, hhere, hup'⟩ := hc c List.mem_cons_self
  obtain ⟨e, he, rfl, hno, -⟩ := (hD.entry_iff hm hv).mp hn
  cases hfind : (dirEntries s.disk (s.view m)).find? (fun e => e.iNo = n) with
  | none =>
    have hnone := List.find?_eq_none.mp hfind e (mem_listing.mp he).1
    exact absurd (decide_eq_true hno) hnone
  | some e' =>
    refine ⟨e', rfl, ?_⟩
    have hno' : e'.iNo = n := by
      have := List.find?_some hfind
      simpa using this
    have hmem := List.mem_of_find?_eq_some hfind
    have hlive : e'.live = true := by
      by_contra hdead
      rw [(hD.dir m hm).unused e' hmem (Bool.eq_false_iff.mpr hdead)] at hno'
      exact hroot hno'.symm
    have he' := mem_listing.mpr ⟨hmem, hlive⟩
    -- it is neither `.` nor `..`, so it is the only one with its number
    have hdot : e'.name ≠ [dot] := by
      intro h
      have hentry := (hD.entry_iff hm valid_here).mpr ⟨e', he', h, hno', rfl⟩
      have hback : s.tree.entry m [dot] = some (m, true) := hD.entries.here m hm
      rw [hback] at hentry
      simp only [Option.some.injEq, Prod.mk.injEq] at hentry
      exact hself hentry.1.symm
    have hdots : e'.name ≠ [dot, dot] := by
      intro h
      have hentry := (hD.entry_iff hm valid_up).mpr ⟨e', he', h, hno', rfl⟩
      obtain ⟨k, -, hk⟩ := hD.entries.up m hm
      have hback : s.tree.entry m [dot, dot] = some (k, true) := hk
      rw [hback] at hentry
      simp only [Option.some.injEq, Prod.mk.injEq] at hentry
      rw [hback, hentry.1] at hup
      exact hup rfl
    rw [(hD.plain m hm e he hhere hup').2 e' he' hdot hdots (hno'.trans hno.symm)]

end Trees

section Climbing

/-- `get_parent_dir_inode_nr` returns what `..` leads to. -/
theorem Walks.getParentDirInodeNr (hw : Walks s t h) (hD : DirTree s dirs) (hn : n ∈ dirs)
    (hm : m ∈ dirs) (hup : s.tree.entry n [dot, dot] = some (m, true)) (hb : b.size = 512) :
    ∃ b' u, getParentDirInodeNr t n b = .ok (m, b', u) ∧ b'.size = 512 ∧ Walks s u h := by
  obtain ⟨hlt, hno⟩ := hD.number n hn
  obtain ⟨a, v, hopen, hv, x, hx, -, hplace⟩ := hw.opened hlt hno
  obtain ⟨u, hclose, hu⟩ := hv.inodeClose
  obtain ⟨hentry, htype⟩ := hD.second_entry hn hup
  have hfirst : x.sector 0 = (s.view n).sector 0 := by
    unfold Inode.sector
    rw [iSectors_of_place hplace]
  have hread : ((s.view n).sector 0).toNat ≤ maxLba := by
    have hle := (hD.dir n hn).block_le 0 (by norm_num)
    rwa [Inode.blockLba, if_pos (by norm_num)] at hle
  have hparts : v.part.dataStartLba ≤ ((s.view n).sector 0).toNat := by
    rw [hv.opens.part]
    exact hD.data n hn
  refine ⟨b.put 0 (512 * 1) (slice u.disk (512 * ((s.view n).sector 0).toNat)), u, ?_, hb, hu⟩
  unfold FileSystem.getParentDirInodeNr
  rw [hopen, ok_bind]
  dsimp only
  rw [hx, deref_some, ok_bind, hfirst, ensure_of hparts, ok_bind, hclose, ok_bind,
    ideRead_of_le hread Nat.one_pos (by omega), ok_bind, Buffer.put_bytes,
    dirEntry_read (by norm_num), hu.disk, hentry, ensure_of ⟨(hD.number m hm).1, htype⟩, ok_bind]

theorem findChild_eq (buf : Image) (inodeNo : UInt32) (fuel : ℕ) : ∀ k, findChild buf inodeNo fuel k =
    (List.range' k fuel).find? fun j =>
      (DirEntry.ofBytes (slice buf (direntSize * j))).iNo = inodeNo := by
  induction fuel with
  | zero => exact fun _ => rfl
  | succ fuel ih =>
    intro k
    have hno : (DirEntry.ofBytes (slice buf (direntSize * k))).iNo =
        wordAt (slice buf (direntSize * k)) 16 := rfl
    rw [List.range'_succ, List.find?_cons, hno, findChild, ih]
    split_ifs with h
    · rw [decide_eq_true h]
    · rw [decide_eq_false h]

theorem filename_ofBytes (r : Image) : (DirEntry.ofBytes r).filename.toList = (List.range 16).map r := by
  refine List.ext_getElem (by simp) fun i hi hi' => ?_
  simp [DirEntry.ofBytes]

/-- A short name of an entry is the C string at its place. -/
theorem cString_eq {j : ℕ} (hb : b.size = 512) (hj : j < 21)
    (hname : (DirEntry.ofBytes (slice b.bytes (direntSize * j))).name.length < 16) :
    cString b (direntSize * j) = .ok (DirEntry.ofBytes (slice b.bytes (direntSize * j))).name := by
  have hsplit : b.size - direntSize * j = 16 + (496 - direntSize * j) := by
    unfold direntSize
    omega
  have hfile := filename_ofBytes (slice b.bytes (direntSize * j))
  unfold DirEntry.name at hname ⊢
  unfold cString
  rw [hsplit, List.range_add, List.map_append, ← hfile]
  dsimp only
  rw [List.takeWhile_append, if_neg (by rw [Vector.length_toList]; omega),
    ensure_of (by rw [List.length_append, Vector.length_toList]; omega), ok_bind]

/-- The loop of `get_child_dir_name` appends the name of the first entry with the number. -/
theorem childLoop_eq {q : Buffer} (hsize : q.size = 560)
    (hwords : ∀ k < 140, wordAt q.bytes (4 * k) = x.blockLba s.disk k)
    (hread : ∀ k < 140, (x.blockLba s.disk k).toNat ≤ maxLba) (hname : e.name.length < 16)
    (hpath : (path ++ slash :: e.name).length < maxPathLen) (fuel : ℕ) : ∀ {k : ℕ} {b : Buffer},
    k + fuel ≤ 140 → b.size = 512 →
    (blockEntries s.disk x k fuel).find? (fun e => e.iNo = n) = some e →
    ∃ b', childLoop s n path q fuel k b = .ok (some (path ++ slash :: e.name), b') ∧
      b'.size = 512 := by
  induction fuel with
  | zero => exact fun _ _ h => absurd h (by simp [blockEntries])
  | succ fuel ih =>
    intro k b hk hb hfind
    have hword : q.word k = .ok (x.blockLba s.disk k) := by
      rw [Buffer.word_of_le (by omega), hwords k (by omega)]
    have hentries : 512 / s.part.dirEntrySize = 21 := by rw [s.part.dirEntrySize_eq]
    unfold childLoop
    rw [hword, ok_bind]
    rw [blockEntries_succ] at hfind
    by_cases hzero : x.blockLba s.disk k = 0
    · rw [if_pos hzero, List.nil_append] at hfind
      rw [if_pos hzero]
      exact ih (by omega) hb hfind
    rw [if_neg hzero, List.find?_append, List.find?_map] at hfind
    rw [if_neg hzero, ideRead_of_le (hread k (by omega)) Nat.one_pos (by omega), ok_bind, hentries,
      findChild_eq, ← List.range_eq_range', Nat.mul_one]
    have hb' : (b.put 0 512 (slice s.disk (512 * (x.blockLba s.disk k).toNat))).size = 512 := hb
    have hplace : ∀ j < 21, DirEntry.ofBytes (slice
        (b.put 0 512 (slice s.disk (512 * (x.blockLba s.disk k).toNat))).bytes (direntSize * j)) =
          dirEntryAt s.disk (x.blockLba s.disk k) j := by
      intro j hj
      exact dirEntry_read hj
    have hsector : ((List.range 21).find? fun j => (DirEntry.ofBytes (slice
        (b.put 0 512 (slice s.disk (512 * (x.blockLba s.disk k).toNat))).bytes
          (direntSize * j))).iNo = n) =
        (List.range 21).find? ((fun e => decide (e.iNo = n)) ∘
          dirEntryAt s.disk (x.blockLba s.disk k)) := by
      refine List.find?_congr fun j hj => ?_
      rw [hplace j (List.mem_range.mp hj)]
      rfl
    rw [hsector]
    cases hidx : (List.range 21).find? ((fun e => decide (e.iNo = n)) ∘
        dirEntryAt s.disk (x.blockLba s.disk k)) with
    | none =>
      rw [hidx, Option.map_none, Option.none_or] at hfind
      exact ih (by omega) hb' hfind
    | some j =>
      rw [hidx, Option.map_some, Option.some_or] at hfind
      obtain rfl : dirEntryAt s.disk (x.blockLba s.disk k) j = e := Option.some.inj hfind
      have hj := List.mem_range.mp (List.mem_of_find?_eq_some hidx)
      dsimp only
      rw [cString_eq hb' hj (by rw [hplace j hj]; exact hname), hplace j hj, ok_bind]
      unfold catName
      rw [ensure_of hpath, ok_bind, ok_bind]
      exact ⟨_, rfl, hb'⟩

/-- `get_child_dir_name` appends the name of a child. -/
theorem Walks.getChildDirName (hw : Walks s t h) (hD : DirTree s dirs) (hm : m ∈ dirs)
    (hfind : (dirEntries s.disk (s.view m)).find? (fun e => e.iNo = n) = some e)
    (hname : e.name.length < 16) (hpath : (path ++ slash :: e.name).length < maxPathLen)
    (hb : b.size = 512) :
    ∃ b' u, getChildDirName t m n path b = .ok (some (path ++ slash :: e.name), b', u) ∧
      b'.size = 512 ∧ Walks s u h := by
  obtain ⟨hlt, hno⟩ := hD.number m hm
  obtain ⟨a, v, hopen, hv, x, hx, -, hplace⟩ := hw.opened hlt hno
  obtain ⟨u, hclose, hu⟩ := hv.inodeClose
  have hdir := hD.dir m hm
  have hsector : ∀ k, (s.view m).sector k = x.sector k := by
    intro k
    unfold Inode.sector
    rw [iSectors_of_place hplace]
  have hblocks : ∀ k, (s.view m).blockLba s.disk k = x.blockLba u.disk k := by
    intro k
    unfold Inode.blockLba
    rw [hsector, hsector, hu.disk]
  have hentries : dirEntries s.disk (s.view m) = dirEntries u.disk x := by
    unfold dirEntries
    simp only [hblocks, hu.disk]
  obtain ⟨q, hcopy, hlist⟩ := copyDirect_blockList x
  have htable : (x.sector 12).toNat ≤ maxLba := hsector 12 ▸ hdir.table_le
  obtain ⟨q', hload, hsize, hwords⟩ := loadIndirect_words (s := v) hlist htable
  have hread : ∀ k < 140, (x.blockLba u.disk k).toNat ≤ maxLba := fun k hk =>
    hblocks k ▸ hdir.block_le k hk
  rw [hv.disk, ← hu.disk] at hwords
  obtain ⟨b', hloop, hb'⟩ : ∃ b', childLoop u n path q' (if x.sector 12 ≠ 0 then 140 else 12) 0 b =
      .ok (some (path ++ slash :: e.name), b') ∧ b'.size = 512 := by
    rw [hentries] at hfind
    split_ifs with hind
    · rw [dirEntries_eq] at hfind
      exact childLoop_eq hsize hwords hread hname hpath 140 le_rfl hb hfind
    · rw [dirEntries_direct (not_not.mp hind)] at hfind
      exact childLoop_eq hsize hwords hread hname hpath 12 (by norm_num) hb hfind
  refine ⟨b', u, ?_, hb', hu⟩
  unfold FileSystem.getChildDirName loadBlocks
  rw [hopen, ok_bind]
  dsimp only
  rw [hx, deref_some, ok_bind, hcopy, ok_bind, hload, ok_bind, hclose, ok_bind, hloop, ok_bind]

/-- The first loop of `sys_getcwd` collects the names of a directory's path from the last one on. -/
theorem Walks.climbLoop (hD : DirTree s dirs) (fuel : ℕ) : ∀ {t : State} {n : UInt32}
    {cs : List (List UInt8)} {path : List UInt8} {b : Buffer}, Walks s t h →
    s.tree.Plain ValidName cs → s.tree.resolve 0 cs = some (n, true) → cs.length < fuel →
    path.length + (joined cs).length < maxPathLen → b.size = 512 →
    ∃ u, climbLoop fuel t n path b = .ok (some (path ++ joined cs.reverse), u) ∧ Walks s u h := by
  induction fuel with
  | zero => exact fun _ _ _ h => absurd h (Nat.not_lt_zero _)
  | succ fuel ih =>
    intro t n cs path b hw hplain hn hfuel hlen hb
    unfold FileSystem.climbLoop
    rcases List.eq_nil_or_concat cs with rfl | ⟨ds, c, rfl⟩
    · obtain rfl : 0 = n := by simpa using hn
      rw [if_pos rfl]
      exact ⟨t, by simp [joined], hw⟩
    · rw [List.concat_eq_append] at hplain hn hfuel hlen ⊢
      obtain ⟨k, hk, hds, hc, hup⟩ := hD.entries.last_step hplain hn
      obtain ⟨hroot, hself, hup'⟩ := hD.isTree.not_above hplain hds hc
      obtain ⟨hplain', hlast⟩ := plain_concat.mp hplain
      have hmem : n ∈ dirs := hD.entries.mem_dirs hplain hn
      obtain ⟨e, hfind, rfl⟩ := hD.find_child hk hlast hc hroot hself hup'
      obtain ⟨⟨-, hshort, -, -⟩, -⟩ := hlast e.name List.mem_cons_self
      rw [joined_concat, List.length_append, List.length_cons] at hlen
      rw [List.length_append, List.length_singleton] at hfuel
      have hpath : (path ++ slash :: e.name).length < maxPathLen := by
        rw [List.length_append, List.length_cons]
        omega
      obtain ⟨b₁, v, hparent, hb₁, hv⟩ := hw.getParentDirInodeNr hD hmem hk hup hb
      obtain ⟨b₂, w, hchild, hb₂, hw'⟩ := hv.getChildDirName hD hk hfind hshort hpath hb₁
      have hzero : n ≠ 0 := hroot
      have hrest : (path ++ slash :: e.name).length + (joined ds).length < maxPathLen := by
        rw [List.length_append, List.length_cons]
        omega
      obtain ⟨u, hloop, hu⟩ := ih hw' hplain' hds (by omega) hrest hb₂
      refine ⟨u, ?_, hu⟩
      rw [if_neg hzero, hparent, ok_bind]
      dsimp only
      rw [hchild, ok_bind]
      dsimp only
      rw [hloop, List.reverse_append, List.reverse_singleton, List.singleton_append, joined_cons,
        List.append_assoc, List.cons_append]

end Climbing

section Agreement

variable {x : Session}

/-- `sys_chdir` to a directory enters its number and leaves nothing open. -/
theorem sysChdir_eq (hT : TreeOk x.fs dirs) (hheap : ∀ k, x.fs.heap k = true)
    (hlen : p.length + 1 < maxPathLen) (hvalid : ∀ c ∈ components p, ValidName c)
    (hroot : components p = [] → p = []) (hn : n.toNat < 4096)
    (hdir : x.fs.tree.resolve 0 (components p) = some (n, true)) :
    ∃ t, sysChdir x (slash :: p) = .ok (true, { x with
      fs := t, cwdInodeNr := Function.update x.cwdInodeNr x.fs.cur n }) ∧ Walks x.fs t 0 := by
  obtain ⟨r, u, hsearch, hu, htype⟩ :=
    (Walks.refl hT.opens hheap).searchFile_resolve hT hlen hvalid hroot
  obtain ⟨t, hclose, ht⟩ := hu.dirClose
  rw [hdir] at hsearch htype
  have hne : n ≠ minusOne := by
    rintro rfl
    exact absurd hn (by decide)
  have hmoves : (decide (n ≠ minusOne) && decide (r.fileType = ftDirectory)) = true := by
    rw [htype, decide_eq_true hne]
    rfl
  refine ⟨t, ?_, ht⟩
  unfold sysChdir
  rw [hsearch, ok_bind]
  dsimp only [foundNo]
  rw [hmoves, hclose, ok_bind, if_pos rfl]

/-- `sys_getcwd` stores the path of plain names that leads to the working directory. -/
theorem Walks.sysGetcwd (hw : Walks s x.fs h) (hD : DirTree s dirs)
    (hcs : s.tree.Plain ValidName cs) (hfit : (joined cs).length < maxPathLen)
    (hcwd : s.tree.resolve 0 cs = some (x.cwdInodeNr x.fs.cur, true)) :
    ∃ t, sysGetcwd x maxPathLen = .ok (some (render cs), { x with fs := t }) ∧ Walks s t h := by
  obtain ⟨u, hm, hu, -, -⟩ := hw.malloc 512
  have hmem := hD.entries.mem_dirs hcs hcwd
  unfold FileSystem.sysGetcwd
  rw [hm]
  dsimp only
  rw [ensure_of (hD.number _ hmem).1, ok_bind]
  rcases List.eq_nil_or_concat cs with rfl | ⟨ds, c, rfl⟩
  · have hzero : 0 = x.cwdInodeNr x.fs.cur := by simpa using hcwd
    rw [if_pos hzero.symm, ensure_of (by decide), ok_bind]
    exact ⟨u, rfl, hu⟩
  · rw [List.concat_eq_append] at hcs hcwd hfit ⊢
    obtain ⟨k, -, hds, hc, -⟩ := hD.entries.last_step hcs hcwd
    have hzero : x.cwdInodeNr x.fs.cur ≠ 0 := (hD.isTree.not_above hcs hds hc).1
    have hcount := length_le_joined (ds ++ [c])
    obtain ⟨t, hclimb, ht⟩ := hu.climbLoop hD (maxPathLen + 1) hcs hcwd (by omega)
      (by rw [List.length_nil]; omega) (b := ⟨512, zeros⟩) rfl
    refine ⟨t, ?_, ht⟩
    have hreverse := length_joined_reverse (ds ++ [c])
    have hslash : ∀ d ∈ (ds ++ [c]).reverse, slash ∉ d := fun d hd =>
      (hcs d (List.mem_reverse.mp hd)).1.2.2.1
    rw [List.nil_append] at hclimb
    rw [if_neg hzero, hclimb, ok_bind]
    dsimp only
    rw [ensure_of (by omega), ok_bind, reverseLoop_eq _ hslash
      (by rw [List.length_reverse]; omega) (by rw [List.nil_append]; omega), ok_bind,
      List.reverse_reverse, List.nil_append, render_of_ne (by simp)]

theorem DirTree.setHeap (hD : DirTree s dirs) (heap : ℕ → Bool) :
    DirTree { s with heap := heap } dirs := by
  have hdir : ∀ n ∈ dirs, NamedDir { s with heap := heap } (s.view n) := by
    intro n hn
    obtain ⟨htable, hblock, hunused, hdistinct⟩ := hD.dir n hn
    exact ⟨htable, hblock, hunused, hdistinct⟩
  exact ⟨hD.toTreeOk.setHeap heap, hdir, hD.names, hD.data, hD.second, hD.plain⟩

theorem sampleSession_dirTree : DirTree sampleSession.fs {0, 2} := by
  refine ⟨sampleSession_tree, ?_, ?_, ?_, ?_, ?_⟩
  · rintro n (rfl | rfl)
    · exact ⟨by decide +kernel, by decide +kernel, by decide +kernel, by decide +kernel⟩
    · exact ⟨by decide +kernel, by decide +kernel, by decide +kernel, by decide +kernel⟩
  · unfold ValidName
    rintro n (rfl | rfl) <;> decide
  · rintro n (rfl | rfl) <;> decide
  · rintro n (rfl | rfl) e rfl <;> decide
  · rintro n (rfl | rfl) <;> decide

/-- `"d/."`. -/
def pathDHere : List UInt8 := [0x64, slash, dot]

theorem components_pathDHere : components pathDHere = [[0x64], [dot]] := by
  simp [pathDHere, components, slash, dot]

theorem sample_plainD : sampleSession.fs.tree.Plain ValidName [[0x64]] := by
  intro c hc
  obtain rfl := List.mem_singleton.mp hc
  unfold ValidName
  decide

end Agreement

end X86System.FileSystem
