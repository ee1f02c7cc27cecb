import X86System.PathSearches
import X86System.SearchFrames

/-!
# What a path names

`sys_stat`, `sys_open` and `sys_unlink` all search for their path and then look at the
record of the search in their own way. A search that comes to a file ends there, whatever
names are left; only `sys_open` counts the names.
-/
namespace X86System.FileSystem
open Bytes Exec PathTree

variable {s t u : State} {a : InodePtr} {n m : UInt32} {p path c : List UInt8}
  {cs ds : List (List UInt8)} {dirs : Set UInt32} {h : Multiset InodePtr} {r : PathSearchRecord}

/-- `struct stat`. -/
structure Stat where
  stIno : UInt32
  stSize : UInt32
  stFiletype : UInt32

/-- `sys_stat`; `none` for -1. The size that it stores for the root is an inode number. -/
def sysStat (s : State) (path : List UInt8) : Except Fault (Option Stat × State) := do
  if path = [slash] ∨ path = [slash, dot] ∨ path = [slash, dot, dot] then
    let x ← deref (s.inodes s.rootDir)
    .ok (some { stIno := 0, stSize := x.iNo, stFiletype := ftDirectory }, s)
  else
    let (inodeNo, record, s) ← searchFile s path
    if inodeNo ≠ minusOne then
      let (a, s) ← inodeOpen s inodeNo
      let x ← deref (s.inodes a)
      let s ← inodeClose s a
      let s ← dirClose s record.parentDir
      .ok (some { stIno := inodeNo, stSize := x.iSize, stFiletype := record.fileType }, s)
    else
      let s ← dirClose s record.parentDir
      .ok (none, s)

/-- The names lead to inode `m`, where all but the last are directories. -/
def State.pathNames (s : State) (cs : List (List UInt8)) (m : UInt32) (d : Bool) : Prop :=
  cs = [] ∧ m = 0 ∧ d = true ∨ ∃ ds c n, cs = ds ++ [c] ∧
    s.tree.resolve 0 ds = some (n, true) ∧ s.tree.entry n c = some (m, d)

/-- `sys_open` for reading returns a descriptor of inode `m`. -/
def OpensFile (s : State) (path : List UInt8) (m : UInt32) : Prop :=
  ∃ fd t g f a x, sysOpen s path 0 = .ok (fd, t) ∧ 3 ≤ fd ∧ fdLocal2Global t fd.toNat = .ok g ∧
    t.file g = .ok f ∧ f.fdInode = some a ∧ t.inodes a = some x ∧ x.iNo = m

/-- The calls agree on what the path with the names `cs` stands for, and `sys_stat` tells
nothing that was never written. -/
structure PathsAgree (s : State) (path : List UInt8) (cs : List (List UInt8)) : Prop where
  written : sysStat s path ≠ .error .uninit
  regular : path.getLast? ≠ some slash →
    ((∃ st t, sysStat s path = .ok (some st, t) ∧ st.stFiletype = ftRegular) ↔
      ∃ m, OpensFile s path m)
  removed : path.getLast? ≠ some slash → ∀ t, sysUnlink s path = .ok (true, t) →
    ∃ m, OpensFile s path m ∧ t.inodeBitmap = bitmapSet s.inodeBitmap m.toNat false
  size : ∀ st t, sysStat s path = .ok (some st, t) →
    ∃ m d, s.pathNames cs m d ∧ st.stSize = (s.view m).iSize

/-- A tree whose files have their numbers in their records. -/
structure FileTree (s : State) (dirs : Set UInt32) : Prop extends TreeOk s dirs where
  files : ∀ n ∈ dirs, ∀ c m, ValidName c → s.tree.entry n c = some (m, false) →
    m.toNat < 4096 ∧ (s.view m).iNo = m

section Stating

/-- What the names of a walk lead to is an inode with its number. -/
theorem FileTree.number_of_entry (hT : FileTree s dirs) (hn : n ∈ dirs) (hc : ValidName c) {d : Bool}
    (h : s.tree.entry n c = some (m, d)) : m.toNat < 4096 ∧ (s.view m).iNo = m := by
  cases d with
  | false => exact hT.files n hn c m hc h
  | true => exact hT.number m (hT.entries.mem_of_entry hn hc h)

theorem ne_minusOne (hm : m.toNat < 4096) : m ≠ minusOne := by
  rintro rfl
  exact absurd hm (by decide)

/-- Where a walk ends there is an inode with its number. -/
theorem FileTree.number_of_resolve (hT : FileTree s dirs) (hcs : ∀ c ∈ cs, ValidName c) {d : Bool}
    (hends : s.tree.Ends cs ds c n) (h : s.tree.resolve 0 cs = some (m, d)) :
    m.toNat < 4096 ∧ (s.view m).iNo = m := by
  have hwhere : s.tree.resolve 0 cs = s.tree.entry n c := hends.resolve
  obtain ⟨es, rfl, -⟩ := hends.names
  have hn := hT.entries.mem_of_resolve (fun c hc => hcs c (by simp [hc])) hends.reached
  exact hT.number_of_entry hn (hcs c (by simp)) (hwhere.symm.trans h)

/-- `sys_stat` of a path with names tells what the search found. -/
theorem sysStat_eq (hT : FileTree s dirs) (hheap : ∀ k, s.heap k = true)
    (hlen : p.length + 1 < maxPathLen) (hvalid : ∀ c ∈ components p, ValidName c)
    (hne : components p ≠ []) (hwalk : ¬ Shortcut (slash :: p)) :
    ∃ t, sysStat s (slash :: p) = .ok ((s.tree.resolve 0 (components p)).map fun v =>
      { stIno := v.1, stSize := (s.view v.1).iSize,
        stFiletype := if v.2 then ftDirectory else ftRegular }, t) := by
  obtain ⟨ds, c, n, r, u, hsearch, hends, hs⟩ :=
    (Walks.refl hT.opens hheap).searchFile_ends hT.toTreeOk hlen hvalid hne hwalk
  have hwhere : s.tree.resolve 0 (components p) = s.tree.entry n c := hends.resolve
  have htype := hs.fileType
  unfold Shortcut at hwalk
  unfold sysStat
  rw [if_neg hwalk, hsearch, ok_bind]
  dsimp only
  rw [← hwhere] at htype ⊢
  rcases hfound : s.tree.resolve 0 (components p) with _ | ⟨m, d⟩
  · obtain ⟨t, hclose, -⟩ := hs.walks.dirClose
    rw [foundNo, if_neg (not_not.mpr rfl), hclose, ok_bind]
    exact ⟨t, rfl⟩
  · obtain ⟨hm, hno⟩ := hT.number_of_resolve hvalid hends hfound
    obtain ⟨a, v, hopen, hv, x, hx, -, hplace⟩ := hs.walks.opened hm hno
    obtain ⟨w, hclose, hw⟩ := hv.inodeClose
    obtain ⟨t, hclose', -⟩ := hw.dirClose
    have hsize : x.iSize = (s.view m).iSize := congrArg (·.iSize) hplace
    rw [foundNo, if_pos (ne_minusOne hm), hopen, ok_bind]
    dsimp only
    rw [hx, deref_some, ok_bind, hclose, ok_bind, hclose', ok_bind, htype, hfound, hsize]
    refine ⟨t, ?_⟩
    cases d <;> rfl

/-- `sys_stat` of the root. -/
theorem sysStat_shortcut (hT : TreeOk s dirs) (hwalk : Shortcut path) :
    sysStat s path = .ok (some { stIno := 0, stSize := 0, stFiletype := ftDirectory }, s) := by
  obtain ⟨x, hx, hno⟩ := openInode_iNo hT.rootOpen
  unfold Shortcut at hwalk
  unfold sysStat
  rw [if_pos hwalk, hx, deref_some, ok_bind, hno]

/-- A path of slashes only ends the search with an entry that was never filled. -/
theorem searchFile_slashes (hp : components p = []) (hlen : p.length + 1 < maxPathLen)
    (hne : p ≠ []) (hT : TreeOk s dirs) (hheap : ∀ k, s.heap k = true) :
    searchFile s (slash :: p) = .error .uninit := by
  have hwalk : ¬ Shortcut (slash :: p) := by
    intro h
    rcases h with h | h | h <;> have hp' := (List.cons.inj h).2 <;> subst hp'
    · exact hne rfl
    · simp [components, dot, slash] at hp
    · simp [components, dot, slash] at hp
  unfold Shortcut at hwalk
  have hpos : 0 < p.length := List.length_pos_of_ne_nil hne
  have hensure : (slash :: p).head? = some slash ∧ 1 < (slash :: p).length ∧
      (slash :: p).length < maxPathLen := by
    rw [List.length_cons]
    exact ⟨rfl, by omega, hlen⟩
  obtain ⟨name, sub, hnext, hpend⟩ := nextName_pending (some (slash :: p)) fun c hc => by
    rw [Option.elim_some, components_slash, hp] at hc
    exact absurd hc (by simp)
  rw [Option.elim_some, components_slash, hp] at hpend
  have hname : name = [] := by
    rcases hpend with ⟨hname, -⟩ | ⟨-, hcons⟩
    · exact hname
    · exact absurd hcons (by simp)
  obtain ⟨hlt, hno⟩ := hT.number 0 hT.entries.root
  have hw : Walks s s ((Dir.root).handles + 0) := by
    simpa [Dir.handles] using Walks.refl hT.opens hheap
  obtain ⟨v, hclose, hv⟩ := hw.dirClose
  obtain ⟨a, u, hopen, -, -⟩ := hv.dirOpen hlt hno
  unfold searchFile
  rw [if_neg hwalk, ensure_of hensure, ok_bind, hnext, ok_bind]
  dsimp only
  rw [searchLoop, if_pos hname, finishSearch]
  dsimp only
  rw [hclose, ok_bind, hopen, ok_bind]

end Stating

section Opening

/-- `file_table` and the descriptors of the running process have room for one more file. -/
structure State.HasRoom (s : State) : Prop where
  slot : getFreeSlotInGlobal s ≠ none
  fd : ∃ task, s.tasks s.cur = some task ∧ freeFdFrom task 5 3 ≠ none

theorem freeSlotFrom_congr (hs : t.fileTable = s.fileTable) (fuel : ℕ) : ∀ k,
    freeSlotFrom t fuel k = freeSlotFrom s fuel k := by
  induction fuel with
  | zero => exact fun _ => rfl
  | succ fuel ih =>
    intro k
    unfold freeSlotFrom
    simp only [hs, ih]

theorem Browsed.hasRoom (hb : Browsed s t) (hroom : s.HasRoom) : t.HasRoom := by
  refine ⟨?_, ?_⟩
  · rw [getFreeSlotInGlobal, freeSlotFrom_congr hb.fileTable]
    exact hroom.slot
  · rw [hb.tasks, hb.cur]
    exact hroom.fd

/-- A descriptor that was just stored. -/
theorem fdLocal2Global_stored {g fd : ℕ} {task : Task} (hfd : fd < 8) (hg : g < 32) :
    fdLocal2Global (s.setTask s.cur (task.setFd fd g)) fd = .ok g := by
  have hlocal : localFd (s.setTask s.cur (task.setFd fd g)) fd = .ok (g : ℤ) := by
    simp [localFd, State.setTask, Task.fd, Task.setFd, hfd]
  unfold fdLocal2Global
  rw [hlocal, ok_bind, ensure_of (by omega), ok_bind, Int.toNat_natCast]

/-- `file_open` for reading takes the free slot and the free descriptor. -/
theorem fileOpen_reads {g fd : ℕ} {task : Task} (hslot : getFreeSlotInGlobal s = some g)
    (hopen : inodeOpen s m = .ok (a, t)) (htask : t.tasks t.cur = some task)
    (hfd : freeFdFrom task 5 3 = some fd) :
    fileOpen s m 0 = .ok (some fd,
      (t.setFile g ⟨0, 0, some a⟩).setTask t.cur (task.setFd fd g)) := by
  have htask' : (t.setFile g ⟨0, 0, some a⟩).tasks (t.setFile g ⟨0, 0, some a⟩).cur =
      some task := htask
  have hread : ¬ forWriting (0 : UInt8).toUInt32 = true := by decide
  simp only [fileOpen, hslot, hopen, ok_bind]
  rw [if_neg hread, pcbFdInstall]
  exact Eq.trans (congrArg (· >>= _) (congrArg deref htask')) (by rw [deref_some, ok_bind, hfd]; rfl)

/-- What it returns is a descriptor of the inode. -/
theorem Walks.fileOpen_reads (hw : Walks s t h) (hroom : t.HasRoom) (hm : m.toNat < 4096)
    (hno : (s.view m).iNo = m) :
    ∃ fd g f a x u, fileOpen t m 0 = .ok (some fd, u) ∧ 3 ≤ fd ∧ fdLocal2Global u fd = .ok g ∧
      u.file g = .ok f ∧ f.fdInode = some a ∧ u.inodes a = some x ∧ x.iNo = m := by
  obtain ⟨g, hg⟩ := Option.ne_none_iff_exists'.mp hroom.slot
  obtain ⟨task, htask, hfree⟩ := hroom.fd
  obtain ⟨fd, hfd⟩ := Option.ne_none_iff_exists'.mp hfree
  obtain ⟨hle, hmark⟩ := freeFdFrom_spec 5 hfd
  obtain ⟨-, f, hf, -⟩ := getFreeSlotInGlobal_spec hg
  have hlt : g < 32 := lt_of_slot hf
  have hlt' : fd < 8 := (Vector.getElem?_eq_some_iff.mp hmark).1
  obtain ⟨a, u, hopen, -, x, hx, hxn, -⟩ := hw.opened hm hno
  have hb := (inodeOpen_browsed t m).of_ok hopen
  have htask' : u.tasks u.cur = some task := by
    rw [hb.tasks, hb.cur, htask]
  have hfile : (u.setFile g ⟨0, 0, some a⟩).file g = .ok ⟨0, 0, some a⟩ := by
    rw [State.file, setFile_self hlt]
  exact ⟨fd, g, ⟨0, 0, some a⟩, a, x, _, FileSystem.fileOpen_reads hg hopen htask' hfd, hle,
    fdLocal2Global_stored hlt' hlt, hfile, rfl, hx, hxn⟩

/-- `sys_open` passes on what its search found. -/
theorem sysOpen_search (hT : FileTree s dirs) (hheap : ∀ k, s.heap k = true)
    (hlen : p.length + 1 < maxPathLen) (hvalid : ∀ c ∈ components p, ValidName c)
    (hne : components p ≠ []) (hwalk : ¬ Shortcut (slash :: p))
    (hlast : (slash :: p).getLast? ≠ some slash) :
    ∃ ds c n r u, s.tree.Ends (components p) ds c n ∧ Searched s u 0 r ds c n ∧ Browsed s u ∧
      pathDepthCnt r.searchedPath = .ok (ds.length + 1) ∧
      sysOpen s (slash :: p) 0 = openFound u (slash :: p) 0 (components p).length
        (foundNo (s.tree.resolve 0 (components p))) r := by
  obtain ⟨ds, c, n, r, u, hsearch, hends, hs⟩ :=
    (Walks.refl hT.opens hheap).searchFile_ends hT.toTreeOk hlen hvalid hne hwalk
  have hwhere : s.tree.resolve 0 (components p) = s.tree.entry n c := hends.resolve
  have hb : Browsed s u := (searchFile_browsed s (slash :: p)).of_ok hsearch
  have hdepth : pathDepthCnt (slash :: p) = .ok (components (slash :: p)).length :=
    pathDepthCnt_eq (fun c hc => (hvalid c (components_slash ▸ hc)).2.1.le)
      (by rwa [components_slash])
  obtain ⟨es, hcs, -⟩ := hends.names
  have hnames : ∀ b ∈ ds ++ [c], ValidName b := by
    intro b hb
    apply hvalid
    rw [hcs, List.append_cons]
    exact List.mem_append_left es hb
  have hsearched : components r.searchedPath = ds ++ [c] := by
    rw [hs.path, components_joined hnames]
  refine ⟨ds, c, n, r, u, hends, hs, hb, ?_, ?_⟩
  · rw [pathDepthCnt_eq, hsearched, List.length_append, List.length_singleton]
    · rw [hsearched]
      exact fun b hb => (hnames b hb).2.1.le
    · simp [hsearched]
  · unfold sysOpen
    rw [ensure_of (by simp), ok_bind, if_neg hlast, ensure_of (by decide), ok_bind, hdepth, ok_bind,
      hsearch, ok_bind, components_slash, hwhere]

/-- `sys_open` does not find what is no file. -/
theorem sysOpen_missing (hT : FileTree s dirs) (hheap : ∀ k, s.heap k = true)
    (hlen : p.length + 1 < maxPathLen) (hvalid : ∀ c ∈ components p, ValidName c)
    (hne : components p ≠ []) (hwalk : ¬ Shortcut (slash :: p))
    (hlast : (slash :: p).getLast? ≠ some slash)
    (hno : ∀ m, s.tree.resolve 0 (components p) ≠ some (m, false)) :
    ∃ t, sysOpen s (slash :: p) 0 = .ok (-1, t) := by
  obtain ⟨ds, c, n, r, u, hends, hs, -, hdepth, hopen⟩ :=
    sysOpen_search hT hheap hlen hvalid hne hwalk hlast
  obtain ⟨t, hclose, -⟩ := hs.walks.dirClose
  have hwhere : s.tree.resolve 0 (components p) = s.tree.entry n c := hends.resolve
  have htype := hs.fileType
  rw [← hwhere] at htype
  refine ⟨t, ?_⟩
  rw [hopen]
  unfold openFound
  rcases hfound : s.tree.resolve 0 (components p) with _ | ⟨m, d⟩
  · rw [hfound] at htype
    have hunknown : r.fileType ≠ ftDirectory := by
      rw [htype]
      decide
    rw [if_neg hunknown, hdepth, ok_bind, if_pos (Or.inr (Or.inl ⟨rfl, rfl⟩)), hclose, ok_bind]
  · cases d with
    | false => exact absurd hfound (hno m)
    | true =>
      have hdir : r.fileType = ftDirectory := by
        rw [htype, hfound]
        rfl
      rw [if_pos hdir, hclose, ok_bind]

/-- `sys_open` finds a file behind directories. -/
theorem sysOpen_found (hT : FileTree s dirs) (hheap : ∀ k, s.heap k = true) (hroom : s.HasRoom)
    (hlen : p.length + 1 < maxPathLen) (hvalid : ∀ c ∈ components p, ValidName c)
    (hne : components p ≠ []) (hwalk : ¬ Shortcut (slash :: p))
    (hlast : (slash :: p).getLast? ≠ some slash) (hpre : PrefixesAreDirs s (components p))
    (hfound : s.tree.resolve 0 (components p) = some (m, false)) : OpensFile s (slash :: p) m := by
  obtain ⟨ds, c, n, r, u, hends, hs, hb, hdepth, hopen⟩ :=
    sysOpen_search hT hheap hlen hvalid hne hwalk hlast
  have hwhere : s.tree.resolve 0 (components p) = s.tree.entry n c := hends.resolve
  obtain ⟨hm, hno⟩ := hT.number_of_resolve hvalid hends hfound
  obtain ⟨es, hcs, hes⟩ := hpre.last hends
  have hall : (components p).length = ds.length + 1 := by
    rcases hes with rfl | hnone
    · rw [hcs, List.length_append, List.length_singleton]
    · exact absurd (hfound.symm.trans (hwhere.trans hnone)) (by simp)
  have htype : r.fileType ≠ ftDirectory := by
    rw [hs.fileType, ← hwhere, hfound]
    show ftRegular ≠ ftDirectory
    decide
  have hgo : ¬ ((components p).length ≠ ds.length + 1 ∨ m = minusOne ∧ (0 : UInt8) &&& oCreat = 0 ∨
      m ≠ minusOne ∧ (0 : UInt8) &&& oCreat ≠ 0) := by
    rintro (h | ⟨h, -⟩ | ⟨-, h⟩)
    · exact h hall
    · exact ne_minusOne hm h
    · exact h rfl
  obtain ⟨fd, g, f, a, x, t, hfile, hle, hg, hf, ha, hx, hxn⟩ :=
    hs.walks.fileOpen_reads (hb.hasRoom hroom) hm hno
  refine ⟨fd, t, g, f, a, x, ?_, by omega, by rwa [Int.toNat_natCast], hf, ha, hx, hxn⟩
  rw [hopen, openFound, if_neg htype, hdepth, ok_bind, hfound, foundNo, if_neg hgo,
    if_neg (by decide), hfile, ok_bind]
  rfl

theorem OpensFile.unique (hm : OpensFile s path m) {m' : UInt32} (hm' : OpensFile s path m') :
    m = m' := by
  obtain ⟨fd, t, g, f, a, x, hopen, -, hg, hf, ha, hx, rfl⟩ := hm
  obtain ⟨fd', t', g', f', a', x', hopen', -, hg', hf', ha', hx', rfl⟩ := hm'
  obtain ⟨rfl, rfl⟩ : fd = fd' ∧ t = t' := by simpa using hopen.symm.trans hopen'
  obtain rfl : g = g' := Except.ok.inj (hg.symm.trans hg')
  obtain rfl : f = f' := Except.ok.inj (hf.symm.trans hf')
  obtain rfl : a = a' := Option.some.inj (ha.symm.trans ha')
  rw [Option.some.inj (hx.symm.trans hx')]

/-- A call that returns -1 gives no descriptor. -/
theorem not_opensFile (h : sysOpen s path 0 = .ok (-1, t)) : ¬ OpensFile s path m := by
  rintro ⟨fd, u, -, -, -, -, hopen, hle, -⟩
  obtain ⟨rfl, -⟩ : fd = -1 ∧ u = t := by simpa using hopen.symm.trans h
  exact absurd hle (by decide)

end Opening

section Removing

/-- `sys_unlink` gives back the number of the file that its search found. -/
theorem sysUnlink_returns (hT : FileTree s dirs) (hheap : ∀ k, s.heap k = true)
    (hlen : p.length + 1 < maxPathLen) (hvalid : ∀ c ∈ components p, ValidName c)
    (hne : components p ≠ []) (hwalk : ¬ Shortcut (slash :: p)) :
    Returns (sysUnlink s (slash :: p)) fun v => v.1 = true →
      ∃ m, s.tree.resolve 0 (components p) = some (m, false) ∧
        v.2.inodeBitmap = bitmapSet s.inodeBitmap m.toNat false := by
  obtain ⟨ds, c, n, r, u, hsearch, hends, hs⟩ :=
    (Walks.refl hT.opens hheap).searchFile_ends hT.toTreeOk hlen hvalid hne hwalk
  have hwhere : s.tree.resolve 0 (components p) = s.tree.entry n c := hends.resolve
  have hb : Browsed s u := (searchFile_browsed s (slash :: p)).of_ok hsearch
  have htype := hs.fileType
  refine returns_ensure fun _ => ?_
  rw [hsearch, ok_bind]
  refine returns_ensure fun _ => returns_ite (fun _ => ?_) fun hfile => ?_
  · exact returns_skip fun _ h => absurd h (by simp)
  · refine returns_skip fun inUse => returns_ite (fun _ => ?_) fun _ => ?_
    · exact returns_skip fun _ h => absurd h (by simp)
    · dsimp only
      cases hbuf : (sysMalloc u 1024).1 with
      | none => exact returns_skip fun _ h => absurd h (by simp)
      | some b =>
        dsimp only
        refine Returns.bind (deleteDirEntry_numbers ..) fun v hv => ?_
        refine Returns.bind (inodeRelease_numbers ..) fun w hw => ?_
        refine Returns.bind (dirClose_browsed ..) fun t ht _ => ?_
        rcases hfound : s.tree.entry n c with _ | ⟨m, d⟩
        · rw [hfound] at hfile
          exact absurd (Or.inl rfl) hfile
        · cases d with
          | true =>
            rw [hfound] at htype
            exact absurd (Or.inr htype) hfile
          | false =>
            refine ⟨m, by rw [hwhere, hfound], ?_⟩
            rw [hfound] at hw
            have hbits : v.2.inodeBitmap = s.inodeBitmap := hv.trans hb.inodeBitmap
            exact (ht.inodeBitmap.trans hw).trans (by rw [hbits]; rfl)

end Removing

section Agreeing

theorem searchFile_shortcut (hwalk : Shortcut path) : searchFile s path =
    .ok (0, { searchedPath := [], parentDir := .root, fileType := ftDirectory }, s) := by
  unfold Shortcut at hwalk
  rw [searchFile, if_pos hwalk]

/-- `search_file` refuses a path that is too long. -/
theorem searchFile_long (hlen : maxPathLen ≤ path.length) :
    searchFile s path = .error .assert ∧ ¬ Shortcut path := by
  have hwalk : ¬ Shortcut path := by
    intro h
    rcases h with rfl | rfl | rfl <;> exact absurd hlen (by decide)
  refine ⟨?_, hwalk⟩
  unfold Shortcut at hwalk
  rw [searchFile, if_neg hwalk, ensure, if_neg (by omega)]
  rfl

/-- Nothing is opened where the search does not return a file. -/
theorem not_opensFile_of_search (hlast : path.getLast? ≠ some slash)
    (hsearch : Returns (searchFile s path) fun v => v.2.1.fileType = ftDirectory) :
    ¬ OpensFile s path m := by
  rintro ⟨fd, t, -, -, -, -, hopen, hle, -⟩
  have hneg : Returns (sysOpen s path 0) fun v => v.1 = -1 := by
    refine returns_ensure fun _ => returns_ite (fun h => absurd h hlast) fun _ => ?_
    refine returns_ensure fun _ => returns_skip fun depth => Returns.bind hsearch fun ⟨n, r, u⟩ hr => ?_
    unfold openFound
    dsimp only at hr ⊢
    rw [if_pos hr]
    exact returns_skip fun _ => rfl
  have hfd : fd = -1 := hneg.of_ok hopen
  omega

theorem pathNames_concat {d : Bool} : s.pathNames (ds ++ [c]) m d ↔
    ∃ n, s.tree.resolve 0 ds = some (n, true) ∧ s.tree.entry n c = some (m, d) := by
  constructor
  · rintro (⟨hnil, -⟩ | ⟨es, b, n, hcs, hn, hm⟩)
    · exact absurd hnil (by simp)
    · obtain ⟨rfl, hb⟩ := List.append_inj' hcs rfl
      obtain rfl : c = b := by simpa using hb
      exact ⟨n, hn, hm⟩
  · exact fun ⟨n, hn, hm⟩ => Or.inr ⟨ds, c, n, rfl, hn, hm⟩

/-- The names of `/`, `/.` and `/..`. -/
theorem components_shortcut (hwalk : Shortcut (slash :: p)) :
    p = [] ∧ components p = [] ∨ components p = [[dot]] ∨ components p = [[dot, dot]] := by
  have hp : p = [] ∨ p = [dot] ∨ p = [dot, dot] :=
    hwalk.imp (fun h => (List.cons.inj h).2)
      (Or.imp (fun h => (List.cons.inj h).2) fun h => (List.cons.inj h).2)
  rcases hp with rfl | rfl | rfl <;> simp [components, dot, slash]

/-- They lead to the root. -/
theorem pathNames_shortcut (hT : TreeOk s dirs) (hwalk : Shortcut (slash :: p)) {d : Bool} :
    s.pathNames (components p) m d ↔ m = 0 ∧ d = true := by
  have hhere : s.tree.entry 0 [dot] = some (0, true) := hT.entries.here 0 hT.entries.root
  have hup : s.tree.entry 0 [dot, dot] = some (0, true) := hT.entries.upRoot
  have hone : ∀ c, s.tree.entry 0 c = some (0, true) →
      (s.pathNames [c] m d ↔ m = 0 ∧ d = true) := by
    intro c hc
    rw [← List.nil_append [c], pathNames_concat]
    simp [hc, eq_comm]
  rcases components_shortcut hwalk with ⟨-, hcs⟩ | hcs | hcs
  · simp [State.pathNames, hcs]
  · rw [hcs]
    exact hone [dot] hhere
  · rw [hcs]
    exact hone [dot, dot] hup

/-- No file stands before their last name. -/
theorem prefixesAreDirs_shortcut (hwalk : Shortcut (slash :: p)) :
    PrefixesAreDirs s (components p) := by
  intro ds hds hne n d hn
  have hnil : ds = [] := by
    rcases components_shortcut hwalk with ⟨-, hcs⟩ | hcs | hcs
    · rw [hcs] at hds
      exact List.prefix_nil.mp hds
    · rw [hcs] at hds hne
      exact List.prefix_nil.mp ((List.prefix_concat_iff.mp hds).resolve_left hne)
    · rw [hcs] at hds hne
      exact List.prefix_nil.mp ((List.prefix_concat_iff.mp hds).resolve_left hne)
  rw [hnil, resolve_nil] at hn
  exact (congrArg Prod.snd (Option.some.inj hn)).symm

/-- The calls agree on the paths that `search_file` answers at once when the root is empty. -/
theorem shortcut_agrees (hT : FileTree s dirs) (hwalk : Shortcut (slash :: p)) :
    PathsAgree s (slash :: p) (components p) ↔ (s.view 0).iSize = 0 := by
  have hstat := sysStat_shortcut hT.toTreeOk hwalk
  have hsearch := searchFile_shortcut (s := s) hwalk
  refine ⟨fun h => ?_, fun hsize => ⟨?_, fun hlast => ?_, fun hlast t hunlink => ?_, ?_⟩⟩
  · obtain ⟨m, d, hm, hsize⟩ := h.size _ _ hstat
    rw [((pathNames_shortcut hT.toTreeOk hwalk).mp hm).1] at hsize
    exact hsize.symm
  · rw [hstat]
    exact fun h => absurd h (by simp)
  · refine ⟨?_, fun ⟨m, hm⟩ => ?_⟩
    · rintro ⟨st, t, hok, htype⟩
      obtain ⟨rfl, -⟩ : _ = st ∧ _ = t := by simpa using hstat.symm.trans hok
      exact absurd htype (by decide)
    · refine absurd hm (not_opensFile_of_search hlast ?_)
      rw [hsearch]
      rfl
  · obtain ⟨-, h⟩ := of_ensure_eq_ok hunlink
    rw [hsearch, ok_bind] at h
    exact absurd rfl (of_ensure_eq_ok h).1
  · intro st t hok
    obtain ⟨rfl, -⟩ : _ = st ∧ _ = t := by simpa using hstat.symm.trans hok
    exact ⟨0, true, (pathNames_shortcut hT.toTreeOk hwalk).mpr ⟨rfl, rfl⟩, hsize.symm⟩

/-- A path that is too long is refused by all calls. -/
theorem long_agrees (hlen : maxPathLen ≤ path.length) : PathsAgree s path cs := by
  obtain ⟨hsearch, hwalk⟩ := searchFile_long (s := s) hlen
  have hstat : sysStat s path = .error .assert := by
    unfold Shortcut at hwalk
    rw [sysStat, if_neg hwalk, hsearch]
    rfl
  have hopen : path.getLast? ≠ some slash → ∀ m, ¬ OpensFile s path m := by
    intro hlast m
    apply not_opensFile_of_search hlast
    rw [hsearch]
    trivial
  refine ⟨?_, fun hlast => ⟨?_, fun ⟨m, hm⟩ => absurd hm (hopen hlast m)⟩, fun _ t h => ?_, ?_⟩
  · rw [hstat]
    exact fun h => absurd h (by simp)
  · rintro ⟨st, t, hok, -⟩
    exact absurd (hstat.symm.trans hok) (by simp)
  · have hlt := (of_ensure_eq_ok h).1
    omega
  · intro st t hok
    exact absurd (hstat.symm.trans hok) (by simp)

/-- Names that lead through a file name nothing. -/
theorem not_pathNames_of_file {d : Bool} (hds : ds <+: cs) (hne : ds ≠ cs)
    (hfile : s.tree.resolve 0 ds = some (n, false)) : ¬ s.pathNames cs m d := by
  rintro (⟨rfl, -⟩ | ⟨es, c, k, rfl, hk, -⟩)
  · exact hne (List.prefix_nil.mp hds)
  · obtain ⟨bs, rfl⟩ := (List.prefix_concat_iff.mp hds).resolve_left hne
    exact absurd (hk.symm.trans (resolve_append_file hfile)) (by simp)

/-- Where prefixes are directories, names lead to where the walk ends. -/
theorem PrefixesAreDirs.pathNames {d : Bool} (hpre : PrefixesAreDirs s cs)
    (hends : s.tree.Ends cs ds c n) (hm : s.tree.resolve 0 cs = some (m, d)) :
    s.pathNames cs m d := by
  have hwhere : s.tree.resolve 0 cs = s.tree.entry n c := hends.resolve
  obtain ⟨es, rfl, rfl | hnone⟩ := hpre.last hends
  · exact pathNames_concat.mpr ⟨n, hends.reached, hwhere.symm.trans hm⟩
  · exact absurd (hm.symm.trans (hwhere.trans hnone)) (by simp)

/-- The calls agree on a path with names when no file stands before the last of them. -/
theorem names_agree (hT : FileTree s dirs) (hheap : ∀ k, s.heap k = true) (hroom : s.HasRoom)
    (hlen : p.length + 1 < maxPathLen) (hvalid : ∀ c ∈ components p, ValidName c)
    (hne : components p ≠ []) (hwalk : ¬ Shortcut (slash :: p)) :
    PathsAgree s (slash :: p) (components p) ↔ PrefixesAreDirs s (components p) := by
  obtain ⟨t, hstat⟩ := sysStat_eq hT hheap hlen hvalid hne hwalk
  obtain ⟨ds, c, n, -, -, -, hends, -⟩ :=
    (Walks.refl hT.opens hheap).searchFile_ends hT.toTreeOk hlen hvalid hne hwalk
  constructor
  · intro hagree ds hds hproper n d hn
    cases d with
    | true => rfl
    | false =>
      obtain ⟨es, hes⟩ := hds
      have hfound : s.tree.resolve 0 (components p) = some (n, false) := by
        rw [← hes]
        exact resolve_append_file hn
      rw [hfound] at hstat
      obtain ⟨m, d, hm, -⟩ := hagree.size _ t hstat
      exact absurd hm (not_pathNames_of_file ⟨es, hes⟩ hproper hn)
  · intro hpre
    have hopens : (slash :: p).getLast? ≠ some slash → ∀ m,
        s.tree.resolve 0 (components p) = some (m, false) ↔ OpensFile s (slash :: p) m := by
      intro hlast m
      refine ⟨sysOpen_found hT hheap hroom hlen hvalid hne hwalk hlast hpre, fun hm => ?_⟩
      by_contra hno
      have hnone : ∀ k, s.tree.resolve 0 (components p) ≠ some (k, false) := by
        intro k hk
        have hk' := sysOpen_found hT hheap hroom hlen hvalid hne hwalk hlast hpre hk
        exact hno (hk'.unique hm ▸ hk)
      obtain ⟨u, hu⟩ := sysOpen_missing hT hheap hlen hvalid hne hwalk hlast hnone
      exact not_opensFile hu hm
    refine ⟨?_, fun hlast => ?_, fun hlast u hu => ?_, fun st u hu => ?_⟩
    · rw [hstat]
      exact fun h => absurd h (by simp)
    · simp only [← hopens hlast]
      constructor
      · rintro ⟨st, u, hu, htype⟩
        have hst := congrArg Prod.fst (Except.ok.inj (hstat.symm.trans hu))
        obtain ⟨⟨m, d⟩, hm, rfl⟩ := Option.map_eq_some_iff.mp hst
        cases d with
        | false => exact ⟨m, hm⟩
        | true => exact absurd htype (by simp [ftDirectory, ftRegular])
      · rintro ⟨m, hm⟩
        rw [hm] at hstat
        exact ⟨_, t, hstat, rfl⟩
    · obtain ⟨m, hm, hbits⟩ := (sysUnlink_returns hT hheap hlen hvalid hne hwalk).of_ok hu rfl
      exact ⟨m, (hopens hlast m).mp hm, hbits⟩
    · have hst := congrArg Prod.fst (Except.ok.inj (hstat.symm.trans hu))
      obtain ⟨⟨m, d⟩, hm, rfl⟩ := Option.map_eq_some_iff.mp hst
      exact ⟨m, d, hpre.pathNames hends hm, rfl⟩

end Agreeing

/-- `sys_stat`, `sys_open` and `sys_unlink` agree on what a path names, except for `/`, `/.` and
`/..` where the root is not empty, for `//` and the like, and behind a regular file. -/
theorem paths_agree_iff (hT : FileTree s dirs) (hheap : ∀ k, s.heap k = true) (hroom : s.HasRoom)
    (hzero : 0 ∉ p) (hshort : ∀ c ∈ components p, c.length < maxFileNameLen) :
    PathsAgree s (slash :: p) (components p) ↔
      (Shortcut (slash :: p) → (s.view 0).iSize = 0) ∧
      ((slash :: p).length < maxPathLen →
        (components p = [] → p = []) ∧ PrefixesAreDirs s (components p)) := by
  have hvalid := valid_components hzero hshort
  by_cases hwalk : Shortcut (slash :: p)
  · have hempty : components p = [] → p = [] := by
      rcases components_shortcut hwalk with ⟨hp, -⟩ | hcs | hcs
      · exact fun _ => hp
      · simp [hcs]
      · simp [hcs]
    rw [shortcut_agrees hT hwalk]
    exact ⟨fun hsize => ⟨fun _ => hsize, fun _ => ⟨hempty, prefixesAreDirs_shortcut hwalk⟩⟩,
      fun h => h.1 hwalk⟩
  · by_cases hlen : (slash :: p).length < maxPathLen
    · by_cases hne : components p = []
      · have hp : p ≠ [] := by
          rintro rfl
          exact hwalk (Or.inl rfl)
        have hsearch := searchFile_slashes hne hlen hp hT.toTreeOk hheap
        have hstat : sysStat s (slash :: p) = .error .uninit := by
          unfold Shortcut at hwalk
          rw [sysStat, if_neg hwalk, hsearch]
          rfl
        exact ⟨fun h => absurd hstat h.written, fun h => absurd ((h.2 hlen).1 hne) hp⟩
      · rw [names_agree hT hheap hroom hlen hvalid hne hwalk]
        exact ⟨fun hpre => ⟨fun h => absurd h hwalk, fun _ => ⟨fun h => absurd h hne, hpre⟩⟩,
          fun h => (h.2 hlen).2⟩
    · exact ⟨fun _ => ⟨fun h => absurd h hwalk, fun h => absurd h hlen⟩,
        fun _ => long_agrees (Nat.not_lt.mp hlen)⟩

section Sample

/-- The only file is `f`, inode 1. -/
theorem sampleSession_files : ∀ lba ∈ [612, 613], ∀ j < 21,
    (dirEntryAt sampleDisk lba j).fType = ftRegular → (dirEntryAt sampleDisk lba j).iNo = 1 := by
  intro lba hlba
  obtain rfl | rfl : lba = 612 ∨ lba = 613 := by simpa using hlba
  · decide
  · decide

theorem sampleSession_fileTree : FileTree sampleSession.fs {0, 2} := by
  refine ⟨sampleSession_tree, fun n hn c m hv hc => ?_⟩
  obtain ⟨o, ho, hfound⟩ := sampleSession_lookup hn hv
  cases o with
  | none => exact absurd (hc.symm.trans (entry_of_none ho)) (by simp)
  | some e =>
    have hentry := hc.symm.trans (entry_of_found ho)
    obtain ⟨rfl, htype⟩ : m = e.iNo ∧ e.fType ≠ ftDirectory := by simpa using hentry
    have hregular := (sampleSession_tree.typed n hn c e hv ho).resolve_right htype
    obtain ⟨-, j, hj, rfl⟩ := hfound e rfl
    have hlba : (if n = 0 then 612 else 613 : UInt32) ∈ [612, 613] := by split_ifs <;> simp
    rw [sampleSession_files _ hlba j hj hregular]
    exact ⟨by decide, by decide⟩

theorem sampleSession_hasRoom : sampleSession.fs.HasRoom where
  slot := by decide
  fd := ⟨stdTask, rfl, by decide⟩

end Sample

/-- The calls agree on `/d/../f`. -/
theorem paths_agree_up : PathsAgree sampleSession.fs (slash :: pathUpF) (components pathUpF) ↔
    (Shortcut (slash :: pathUpF) → (sampleSession.fs.view 0).iSize = 0) ∧
    ((slash :: pathUpF).length < maxPathLen →
      (components pathUpF = [] → pathUpF = []) ∧
        PrefixesAreDirs sampleSession.fs (components pathUpF)) :=
  paths_agree_iff sampleSession_fileTree (fun _ => rfl) sampleSession_hasRoom (by decide)
    (by rw [components_pathUpF]; decide)

/-- `sys_stat` of `/f/x` tells of the file `/f`, `sys_open` does not find it. -/
theorem paths_disagree : ∃ s dirs p, FileTree s dirs ∧ (∀ k, s.heap k = true) ∧ s.HasRoom ∧
    p = [0x66, slash, 0x78] ∧ (∀ c ∈ components p, c.length < maxFileNameLen) ∧
    ¬ PathsAgree s (slash :: p) (components p) := by
  refine ⟨sampleSession.fs, {0, 2}, _, sampleSession_fileTree, fun _ => rfl, sampleSession_hasRoom,
    rfl, by simp [components, slash, maxFileNameLen], fun h => ?_⟩
  obtain ⟨⟨st, t⟩, hst, hfile⟩ : ∃ v, sysStat sampleSession.fs [slash, 0x66, slash, 0x78] = .ok v ∧
      v.1.map (·.stFiletype) = some ftRegular := by decide
  obtain ⟨v, hopen, hneg⟩ : ∃ v, sysOpen sampleSession.fs [slash, 0x66, slash, 0x78] 0 = .ok v ∧
      v.1 = -1 := by decide
  obtain ⟨x, hx, hreg⟩ := Option.map_eq_some_iff.mp hfile
  obtain rfl : st = some x := hx
  obtain ⟨m, fd, u, -, -, -, -, hfd, hle, -⟩ := (h.regular (by decide)).mp ⟨x, t, hst, hreg⟩
  obtain rfl := Except.ok.inj (hfd.symm.trans hopen)
  dsimp only at hneg
  omega

end X86System.FileSystem
