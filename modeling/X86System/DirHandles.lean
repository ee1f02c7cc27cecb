import X86System.Library.Interleaving
import X86System.DirReads
import X86System.WashPath
import X86System.Backing

/-!
# Directory handles

`sys_opendir` returns an object of its own for every call, but for the path `"/"`: there
every caller gets the one `root_dir`, at the place where the last reader left it. A handle
is a cursor over the listing of its directory, and two handles that are not both `root_dir`
do not notice each other.
-/
namespace X86System.FileSystem
open Bytes Exec Interleaving PathTree

variable {s t u : State} {a : InodePtr} {m : UInt32} {h : Multiset InodePtr}
  {p path : List UInt8} {dirs : Set UInt32}

/-- `struct dir *` as `sys_opendir` returns it: the static `root_dir`, or an object of the
kernel heap. -/
inductive DirPtr
  | rootDir
  | heap (k : ℕ)
  deriving DecidableEq

/-- The calls so far with the directory streams: what `root_dir` has besides its inode, and the
objects of `dir_open`, whose names are never used twice. -/
structure Streams extends Session where
  rootPos : UInt32
  rootBuf : Buffer
  dirs : ℕ → Option DirStream
  nextDir : ℕ

namespace Streams

/-- `*dir`. -/
def load (w : Streams) : DirPtr → Except Fault DirStream
  | .rootDir => .ok ⟨w.fs.rootDir, w.rootPos, w.rootBuf⟩
  | .heap k => deref (w.dirs k)

def store (w : Streams) (dir : DirStream) : DirPtr → Streams
  | .rootDir => { w with rootPos := dir.dirPos, rootBuf := dir.dirBuf }
  | .heap k => { w with dirs := Function.update w.dirs k (some dir) }

/-- A new object with position 0, as `dir_open` returns it. -/
def addDir (w : Streams) (s : Session) (inode : InodePtr) : Streams := { w with
  toSession := s
  dirs := Function.update w.dirs w.nextDir (some ⟨inode, 0, ⟨512, zeros⟩⟩)
  nextDir := w.nextDir + 1 }

/-- The object is freed. -/
def dropDir (w : Streams) (s : Session) (k : ℕ) : Streams :=
  { w with toSession := s, dirs := Function.update w.dirs k none }

/-- `sys_opendir` -/
def sysOpendir (w : Streams) (pathname : List UInt8) : Except Fault (Option DirPtr × Streams) := do
  let (dir, s) ← FileSystem.sysOpendir w.toSession pathname
  match dir with
  | none => .ok (none, { w with toSession := s })
  | some .root => .ok (some .rootDir, { w with toSession := s })
  | some (.opened a) => .ok (some (.heap w.nextDir), w.addDir s a)

/-- `sys_readdir` -/
def sysReaddir (w : Streams) (p : DirPtr) : Except Fault (Option DirEntry × Streams) := do
  let dir ← w.load p
  let (e, dir) ← dirRead w.fs dir
  .ok (e, w.store dir p)

/-- `sys_rewinddir` -/
def sysRewinddir (w : Streams) (p : DirPtr) : Except Fault Streams := do
  let dir ← w.load p
  .ok (w.store { dir with dirPos := 0 } p)

/-- `sys_closedir`: the object is freed with its inode closed. -/
def sysClosedir (w : Streams) : DirPtr → Except Fault Streams
  | .rootDir => do
    let s ← FileSystem.sysClosedir w.toSession .root
    .ok { w with toSession := s }
  | .heap k => do
    let dir ← deref (w.dirs k)
    let s ← FileSystem.sysClosedir w.toSession (.opened dir.inode)
    .ok (w.dropDir s k)

end Streams

/-- What the owner of a handle calls. -/
inductive DirCall
  | opendir
  | readdir
  | rewinddir
  | closedir
  deriving DecidableEq

/-- Two callers, each with the handle that its `sys_opendir` returned. -/
structure Callers extends Streams where
  handle : Bool → Option DirPtr

/-- A call of one of two callers that open `paths`; the answers are the entries of `sys_readdir`. -/
def Callers.step (paths : Bool → List UInt8) (u : Callers) (i : Bool) :
    DirCall → Except Fault (List (Option DirEntry) × Callers)
  | .opendir => do
    let (p, w) ← u.toStreams.sysOpendir (paths i)
    .ok ([], { u with toStreams := w, handle := Function.update u.handle i p })
  | .readdir => do
    let p ← deref (u.handle i)
    let (e, w) ← u.toStreams.sysReaddir p
    .ok ([e], { u with toStreams := w })
  | .rewinddir => do
    let p ← deref (u.handle i)
    let w ← u.toStreams.sysRewinddir p
    .ok ([], { u with toStreams := w })
  | .closedir => do
    let p ← deref (u.handle i)
    let w ← u.toStreams.sysClosedir p
    .ok ([], { u with toStreams := w })

/-- The calls on an open handle: it is not used after it is closed. -/
def usesHandle : List DirCall → Bool
  | [] => true
  | .opendir :: _ => false
  | .closedir :: l => l = []
  | _ :: l => usesHandle l

/-- The calls of one caller: it opens its handle first. -/
def OneHandle : List DirCall → Prop
  | [] => True
  | .opendir :: l => usesHandle l
  | _ => False

/-- In every order of the calls of two callers, each is given the entries that it is given
where the other makes no call. -/
def Independent (w : Streams) (paths : Bool → List UInt8) : Prop :=
  ∀ l : List (Bool × DirCall), (∀ i, OneHandle (own i l)) → ∀ i, ∃ out u out' u',
    run (Callers.step paths) ⟨w, fun _ => none⟩ l = .ok (out, u) ∧
    run (Callers.step paths) ⟨w, fun _ => none⟩ (alone i l) = .ok (out', u') ∧
    own i out = own i out'

section Opening

/-- The next name was short enough for the buffer. -/
theorem nextName_short (sub : Option (List UInt8)) : Returns (nextName sub) fun v =>
    v.1.length < maxFileNameLen ∧ Pending v.1 v.2 (sub.elim [] components) := by
  cases sub with
  | none => exact ⟨by decide, Or.inl ⟨rfl, rfl⟩⟩
  | some p => exact returns_ensure fun hlen => ⟨hlen, pending_pathParse p⟩

/-- A search that ends in a directory has had every name in its buffer, and there was one. -/
theorem searchLoop_names (fuel : ℕ) : ∀ {s : State} {r : PathSearchRecord} {parent : UInt32}
    {name : List UInt8} {sub : Option (List UInt8)} {dirE : Option DirEntry}
    {cs : List (List UInt8)}, Pending name sub cs → r.fileType ≠ ftDirectory →
    Returns (searchLoop fuel s r parent name sub dirE) fun v => v.2.1.fileType = ftDirectory →
      (dirE = none → cs ≠ []) ∧ ∀ c ∈ cs.tail, c.length < maxFileNameLen := by
  induction fuel with
  | zero => exact fun _ _ => trivial
  | succ fuel ih =>
    intro s r parent name sub dirE cs hpend htype
    unfold searchLoop
    rcases hpend with ⟨rfl, rfl⟩ | ⟨hname, rfl⟩
    · rw [if_pos rfl]
      refine returns_skip fun _ => returns_skip fun _ => ?_
      cases dirE with
      | none => trivial
      | some e => exact fun _ => ⟨fun hnone => absurd hnone (Option.some_ne_none e), by simp⟩
    · rw [if_neg hname]
      refine returns_ensure fun _ => returns_ensure fun _ => returns_skip fun w => ?_
      rcases w with ⟨_ | e, t⟩
      · exact fun hdir => absurd hdir htype
      refine Returns.bind (nextName_short sub) fun w hw => ?_
      rcases w with ⟨name', sub'⟩
      obtain ⟨hlen, hpend⟩ := hw
      have hrest : ∀ {v : UInt32 × PathSearchRecord × State}, (v.2.1.fileType = ftDirectory →
          (some e = none → sub.elim [] components ≠ []) ∧
          ∀ c ∈ (sub.elim [] components).tail, c.length < maxFileNameLen) →
          v.2.1.fileType = ftDirectory → (dirE = none → name :: sub.elim [] components ≠ []) ∧
            ∀ c ∈ sub.elim [] components, c.length < maxFileNameLen := by
        intro v hv hdir
        refine ⟨fun _ => List.cons_ne_nil _ _, ?_⟩
        rcases hpend with ⟨-, hnil⟩ | ⟨-, hcons⟩
        · simp [hnil]
        · have htail := (hv hdir).2
          rw [hcons, List.tail_cons] at htail
          rw [hcons]
          intro c hc
          rcases List.mem_cons.mp hc with rfl | hc
          · exact hlen
          · exact htail c hc
      refine returns_ite (fun _ => returns_skip fun w => ?_) fun _ => returns_ite (fun _ => ?_)
        fun _ => ?_
      · rcases w with ⟨parent', dir, u⟩
        refine Returns.mono (ih hpend ?_) fun v hv => hrest hv
        exact htype
      · have hfile : ftRegular ≠ ftDirectory := by decide
        exact fun hdir => absurd hdir hfile
      · refine Returns.mono (ih hpend ?_) fun v hv => hrest hv
        exact htype

/-- The path of a directory that `search_file` finds has short names only. -/
theorem searchFile_names : Returns (searchFile s path) fun v => v.2.1.fileType = ftDirectory →
    ∃ p, path = slash :: p ∧ (components p = [] → p = []) ∧
      ∀ c ∈ components p, c.length < maxFileNameLen := by
  unfold searchFile
  refine returns_ite (fun hshort _ => ?_) fun _ => returns_ensure fun hpath => ?_
  · rcases hshort with rfl | rfl | rfl
    · exact ⟨[], rfl, fun _ => rfl, by simp [components]⟩
    · exact ⟨[dot], rfl, by simp [components, dot, slash],
        by simp [components, dot, slash, maxFileNameLen]⟩
    · exact ⟨[dot, dot], rfl, by simp [components, dot, slash],
        by simp [components, dot, slash, maxFileNameLen]⟩
  · obtain ⟨p, rfl⟩ : ∃ p, path = slash :: p := by
      cases path with
      | nil => simp at hpath
      | cons c p => exact ⟨p, by rw [Option.some.inj hpath.1]⟩
    refine Returns.bind (nextName_short _) fun w hw => ?_
    rcases w with ⟨name, sub⟩
    obtain ⟨hlen, hpend⟩ := hw
    rw [Option.elim_some, components_slash] at hpend
    refine (searchLoop_names _ hpend (by decide)).mono fun v hv hdir => ?_
    obtain ⟨hne, htail⟩ := hv hdir
    refine ⟨p, rfl, fun hnil => absurd hnil (hne rfl), fun c hc => ?_⟩
    rcases hpend with ⟨-, hnil⟩ | ⟨-, hcons⟩
    · exact absurd hnil (hne rfl)
    · rw [hcons] at hc htail
      rcases List.mem_cons.mp hc with rfl | hc
      · exact hlen
      · exact htail c hc

/-- The path leads to the directory `m`, by names that fit the buffer. -/
structure LeadsTo (s : State) (p : List UInt8) (m : UInt32) : Prop where
  length_lt : p.length + 1 < maxPathLen
  valid : ∀ c ∈ components p, ValidName c
  names : components p = [] → p = []
  resolve : s.tree.resolve 0 (components p) = some (m, true)

theorem LeadsTo.mem (hl : LeadsTo s p m) (hT : TreeOk s dirs) : m ∈ dirs :=
  hT.entries.mem_of_resolve hl.valid hl.resolve

/-- A path that `sys_opendir` accepts leads to a directory. -/
theorem leadsTo_of_opendir {w : Session} {d : Option Dir × Session} (hT : TreeOk w.fs dirs)
    (hheap : ∀ k, w.fs.heap k = true) (hzero : 0 ∉ path)
    (hopen : FileSystem.sysOpendir w path = .ok d) (hd : d.1 ≠ none) :
    ∃ p m, path = slash :: p ∧ LeadsTo w.fs p m := by
  unfold FileSystem.sysOpendir at hopen
  obtain ⟨u, hu, hopen⟩ := of_bind_eq_ok hopen
  have hlen := (returns_of_ensure Fault.assert).of_ok hu
  by_cases hroot : path = [slash]
  · subst hroot
    exact ⟨[], 0, rfl, by decide, by simp [components], fun _ => rfl,
      by rw [components, resolve_nil]⟩
  rw [if_neg hroot] at hopen
  obtain ⟨⟨n, r, t⟩, hsearch, hopen⟩ := of_bind_eq_ok hopen
  dsimp only at hopen
  split_ifs at hopen with hfail
  · obtain ⟨u, -, hopen⟩ := of_bind_eq_ok hopen
    obtain rfl := Except.ok.inj hopen
    exact absurd rfl hd
  · obtain ⟨-, hdir⟩ := not_or.mp hfail
    obtain ⟨p, rfl, hnames, hshort⟩ := searchFile_names.of_ok hsearch (not_not.mp hdir)
    have hvalid := valid_components (fun h => hzero (List.mem_cons_of_mem _ h)) hshort
    rw [List.length_cons] at hlen
    obtain ⟨r', u, hsearch', -, htype⟩ :=
      (Walks.refl hT.opens hheap).searchFile_resolve hT hlen hvalid hnames
    obtain rfl : r = r' :=
      congrArg (fun v => v.2.1) (Except.ok.inj (hsearch.symm.trans hsearch'))
    rw [not_not.mp hdir] at htype
    refine ⟨p, ?_⟩
    rcases hresolve : w.fs.tree.resolve 0 (components p) with _ | ⟨m, _ | _⟩
    · rw [hresolve] at htype
      exact absurd htype (by decide)
    · rw [hresolve] at htype
      exact absurd htype (show ftDirectory ≠ ftRegular by decide)
    · exact ⟨m, rfl, hlen, hvalid, hnames, hresolve⟩

/-- A handle that is held sees the same directory as long as its inode keeps its number. -/
theorem Walks.still_sees {h' : Multiset InodePtr} (hw : Walks s t h) (hv : Walks s u h')
    (ha : a ∈ u.openInodes) (hno : (u.inodes a).map Inode.iNo = (t.inodes a).map Inode.iNo)
    (hsees : Sees s t a m) : Sees s u a m := by
  obtain ⟨x, hx, hxn, hplace⟩ := hsees
  by_cases hmem : a ∈ s.openInodes
  · have hkept := (hv.kept a hmem).trans (hw.kept a hmem).symm
    rw [hx, Option.map_some, Option.map_eq_some_iff] at hkept
    obtain ⟨y, hy, hyx⟩ := hkept
    exact ⟨y, hy, (iNo_of_place hyx).trans hxn, hyx.trans hplace⟩
  · obtain ⟨y, hy, -, hloaded⟩ := hv.loaded a ha hmem
    rw [hy, hx, Option.map_some, Option.map_some, Option.some.injEq, hxn] at hno
    exact ⟨y, hy, hno, hno ▸ hloaded⟩

/-- Closing a directory leaves what the other handles see. -/
theorem Walks.dirClose_sees {d : Dir} (hw : Walks s t (d.handles + h)) :
    ∃ u, FileSystem.dirClose t d = .ok u ∧ Walks s u h ∧
      ∀ a ∈ h, ∀ m, Sees s t a m → Sees s u a m := by
  obtain ⟨u, hclose, hu⟩ := hw.dirClose
  refine ⟨u, hclose, hu, fun a ha m hsees => ?_⟩
  cases d with
  | root =>
    obtain rfl : t = u := Except.ok.inj hclose
    exact hsees
  | opened b =>
    have hb : b ∈ t.openInodes :=
      hw.opens.mem_of_held (Multiset.mem_add.mpr (Or.inl (Multiset.mem_singleton_self b)))
    obtain ⟨v, hclose', hshut⟩ := inodeClose_shut hw.opens.ok hb
    obtain rfl : u = v := Except.ok.inj (hclose.symm.trans hclose')
    have hmem := hu.opens.mem_of_held ha
    exact hw.still_sees hu hmem (hshut.kept a hmem).2 hsees

/-- `sys_opendir` of another path than `"/"` opens the directory that the path leads to. -/
theorem Walks.sysOpendir {w : Session} (hw : Walks s w.fs h) (hT : TreeOk s dirs)
    (hl : LeadsTo s p m) (hne : p ≠ []) : ∃ a v,
      FileSystem.sysOpendir w (slash :: p) = .ok (some (.opened a), v) ∧ Walks s v.fs (a ::ₘ h) ∧
      Sees s v.fs a m ∧ ∀ b ∈ h, ∀ k, Sees s w.fs b k → Sees s v.fs b k := by
  obtain ⟨r, t, hsearch, ht, htype⟩ := hw.searchFile_resolve hT hl.length_lt hl.valid hl.names
  obtain ⟨hlt, hno⟩ := hT.number m (hl.mem hT)
  obtain ⟨a, u, hopen, hu, hsees⟩ := ht.dirOpen hlt hno
  rw [hl.resolve] at hsearch htype
  have hclose : Walks s u (r.parentDir.handles + (a ::ₘ h)) := by
    rwa [Multiset.add_cons]
  obtain ⟨v, hclose, hv, hkept⟩ := hclose.dirClose_sees
  have hroot : slash :: p ≠ [slash] := fun h => hne (List.cons.inj h).2
  have hnumber : m ≠ minusOne := by
    rintro rfl
    exact absurd hlt (by decide)
  have hfound : ¬ (m = minusOne ∨ r.fileType ≠ ftDirectory) := by
    rw [htype]
    exact not_or.mpr ⟨hnumber, not_not.mpr rfl⟩
  have hcall : FileSystem.sysOpendir w (slash :: p) =
      .ok (some (.opened a), { w with fs := v, handles := .opened a ::ₘ w.handles }) := by
    unfold FileSystem.sysOpendir
    rw [ensure_of (by rw [List.length_cons]; exact hl.length_lt), ok_bind, if_neg hroot, hsearch,
      ok_bind]
    dsimp only [foundNo]
    rw [if_neg hfound, hopen, ok_bind]
    dsimp only
    rw [hclose, ok_bind]
  refine ⟨a, _, hcall, hv, hkept a (Multiset.mem_cons_self a h) m hsees, fun b hb k hbk => ?_⟩
  obtain ⟨l, ho, -⟩ := (sysOpendir_opens hw.opens.ok (slash :: p)).of_ok hcall
  have hmem := hv.opens.mem_of_held (Multiset.mem_cons_of_mem hb)
  exact hw.still_sees hv hmem (ho.old b (hw.opens.mem_of_held hb)) hbk

end Opening

section Cursors

/-- Where a caller is: before its `sys_opendir`, which will give it a handle at entry `k`, at
entry `k` of its directory, or after its `sys_closedir`. -/
inductive Place
  | before (k : ℕ)
  | entry (k : ℕ)
  | after

/-- A handle as a cursor over the entries of its directory. -/
def Place.step (entries : List DirEntry) :
    Place → DirCall → Option (List (Option DirEntry) × Place)
  | .before k, .opendir => some ([], .entry k)
  | .entry k, .readdir => some ([entries[k]?], .entry (min (k + 1) entries.length))
  | .entry _, .rewinddir => some ([], .entry 0)
  | .entry _, .closedir => some ([], .after)
  | _, _ => none

/-- A cursor takes the calls on an open handle. -/
theorem localRun_uses (entries : List DirEntry) : ∀ (l : List DirCall) (k : ℕ),
    usesHandle l = true → ∃ r, localRun (Place.step entries) (.entry k) l = some r
  | [], k, _ => ⟨_, rfl⟩
  | .opendir :: l, k, hl => by simp [usesHandle] at hl
  | .closedir :: l, k, hl => by
    have hnil : l = [] := by simpa [usesHandle] using hl
    subst hnil
    exact ⟨_, rfl⟩
  | .readdir :: l, k, hl => by
    obtain ⟨r, hr⟩ := localRun_uses entries l (min (k + 1) entries.length) hl
    exact ⟨_, by simp [localRun, Place.step, hr]; rfl⟩
  | .rewinddir :: l, k, hl => by
    obtain ⟨r, hr⟩ := localRun_uses entries l 0 hl
    exact ⟨_, by simp [localRun, Place.step, hr]; rfl⟩

theorem localRun_oneHandle (entries : List DirEntry) {l : List DirCall} (k : ℕ) (hl : OneHandle l) :
    ∃ r, localRun (Place.step entries) (.before k) l = some r := by
  cases l with
  | nil => exact ⟨_, rfl⟩
  | cons c l =>
    cases c with
    | opendir =>
      obtain ⟨r, hr⟩ := localRun_uses entries l k hl
      exact ⟨_, by simp [localRun, Place.step, hr]; rfl⟩
    | readdir => exact hl.elim
    | rewinddir => exact hl.elim
    | closedir => exact hl.elim

end Cursors

section Serving

/-- The inode handle that an open directory stream is. -/
def Streams.held (w : Streams) : DirPtr → Multiset InodePtr
  | .rootDir => 0
  | .heap k => (w.dirs k).elim 0 fun dir => {dir.inode}

def Callers.held (u : Callers) (i : Bool) : Multiset InodePtr :=
  (u.handle i).elim 0 u.toStreams.held

/-- The stream at `p` reads the directory `m` at entry `k`. -/
def Streams.Reads (s : State) (w : Streams) (p : DirPtr) (m : UInt32) (k : ℕ) : Prop :=
  ∃ dir, w.load p = .ok dir ∧ dir.dirPos = cursor k k ∧ dir.dirBuf.size = 512 ∧
    Sees s w.fs dir.inode m

/-- What is known of a caller whose path leads to the directory `m`. -/
def Callers.At (s : State) (u : Callers) (i root : Bool) (m : UInt32) : Place → Prop
  | .before k => u.handle i = none ∧ k ≤ (listing s.disk (s.view m)).length ∧
      if root then u.toStreams.Reads s .rootDir m k else k = 0
  | .entry k => ∃ p, u.handle i = some p ∧ (p = .rootDir ↔ root) ∧
      k ≤ (listing s.disk (s.view m)).length ∧ u.toStreams.Reads s p m k
  | .after => ∃ p, u.handle i = some p ∧ (p = .rootDir ↔ root)

/-- The callers are at their places, and have opened what they hold. -/
structure Tracks (s : State) (root : Bool → Bool) (m : Bool → UInt32) (u : Callers)
    (v : Bool → Place) : Prop where
  walks : Walks s u.fs (u.held false + u.held true)
  fresh : ∀ i k, u.handle i = some (.heap k) → k < u.nextDir
  distinct : ∀ i k, u.handle i = some (.heap k) → u.handle (!i) ≠ some (.heap k)
  place : ∀ i, u.At s i (root i) (m i) (v i)

variable {w w' : Streams} {q : DirPtr} {dir dir' : DirStream} {k : ℕ}

theorem load_store_self (w : Streams) (q : DirPtr) (hin : w.load q = .ok dir)
    (hsame : dir'.inode = dir.inode) : (w.store dir' q).load q = .ok dir' := by
  cases q with
  | rootDir =>
    obtain rfl := Except.ok.inj hin
    have hdir : dir' = ⟨w.fs.rootDir, dir'.dirPos, dir'.dirBuf⟩ := by
      rw [← show dir'.inode = w.fs.rootDir from hsame]
    rw [hdir]
    rfl
  | heap k => simp [Streams.store, Streams.load]

theorem load_store_of_ne {r : DirPtr} (w : Streams) (hne : r ≠ q) :
    (w.store dir' q).load r = w.load r := by
  cases q with
  | rootDir =>
    cases r with
    | rootDir => exact absurd rfl hne
    | heap k => rfl
  | heap k =>
    cases r with
    | rootDir => rfl
    | heap j =>
      have hjk : j ≠ k := fun h => hne (congrArg _ h)
      simp [Streams.store, Streams.load, Function.update_of_ne hjk]

theorem held_store (w : Streams) (hin : w.load q = .ok dir) (hsame : dir'.inode = dir.inode)
    (r : DirPtr) : (w.store dir' q).held r = w.held r := by
  cases r with
  | rootDir => rfl
  | heap j =>
    cases q with
    | rootDir => rfl
    | heap k =>
      by_cases hjk : j = k
      · subst hjk
        have hdir : w.dirs j = some dir := deref_ok hin
        simp [Streams.store, Streams.held, hdir, hsame]
      · simp [Streams.store, Streams.held, Function.update_of_ne hjk]

theorem store_toSession (w : Streams) (dir : DirStream) (q : DirPtr) :
    (w.store dir q).toSession = w.toSession := by
  cases q <;> rfl

theorem store_nextDir (w : Streams) (dir : DirStream) (q : DirPtr) :
    (w.store dir q).nextDir = w.nextDir := by
  cases q <;> rfl

/-- An inode that is seen has the entries of its directory. -/
theorem Sees.listed (hw : Walks s t h) (hL : ListedDir s (s.view m)) (hsees : Sees s t a m) :
    ∃ x, t.inodes a = some x ∧ ListedDir t x ∧ listing t.disk x = listing s.disk (s.view m) := by
  obtain ⟨x, hx, -, hplace⟩ := hsees
  obtain ⟨htable, hblock, hsize, hunused, hdistinct⟩ := hL
  have hview : x = { s.view m with iOpenCnts := x.iOpenCnts } := by
    have hfields := congrArg (fun y : Inode => { y with iOpenCnts := x.iOpenCnts }) hplace
    exact hfields
  have hsame : listing t.disk x = listing s.disk (s.view m) := by
    rw [hview, hw.disk]
    rfl
  refine ⟨x, hx, ?_, hsame⟩
  rw [hview]
  refine ⟨htable, ?_, ?_, ?_, ?_⟩
  · rw [hw.disk]
    exact hblock
  · rw [hw.disk]
    exact hsize
  · rw [hw.disk]
    exact hunused
  · rw [hw.disk]
    exact hdistinct

/-- `sys_readdir` returns the entry at the cursor and moves on. -/
theorem Streams.Reads.sysReaddir (hr : w.Reads s q m k) (hw : Walks s w.fs h)
    (hL : ListedDir s (s.view m)) (hk : k ≤ (listing s.disk (s.view m)).length) :
    ∃ dir dir', w.load q = .ok dir ∧ dir'.inode = dir.inode ∧
      w.sysReaddir q = .ok ((listing s.disk (s.view m))[k]?, w.store dir' q) ∧
      (w.store dir' q).Reads s q m (min (k + 1) (listing s.disk (s.view m)).length) := by
  obtain ⟨dir, hload, hpos, hbuf, hsees⟩ := hr
  obtain ⟨x, hx, hlisted, hsame⟩ := hsees.listed hw hL
  rw [← hsame] at hk ⊢
  obtain ⟨b, hb, hread⟩ := dirRead_eq hlisted hx hpos hk hbuf
  obtain ⟨dir', hread', hin, hpos', hbuf'⟩ : ∃ dir' : DirStream,
      dirRead w.fs dir = .ok ((listing w.fs.disk x)[k]?, dir') ∧ dir'.inode = dir.inode ∧
      dir'.dirPos = cursor (min (k + 1) (listing w.fs.disk x).length)
        (min (k + 1) (listing w.fs.disk x).length) ∧ dir'.dirBuf.size = 512 :=
    ⟨_, hread, rfl, rfl, hb⟩
  refine ⟨dir, dir', hload, hin, ?_, dir', load_store_self w q hload hin, hpos', hbuf', ?_⟩
  · unfold Streams.sysReaddir
    rw [hload, ok_bind, hread', ok_bind]
  · rw [store_toSession, hin]
    exact hsees

/-- `sys_rewinddir` goes back to the first entry. -/
theorem Streams.Reads.sysRewinddir (hr : w.Reads s q m k) :
    ∃ dir dir', w.load q = .ok dir ∧ dir'.inode = dir.inode ∧
      w.sysRewinddir q = .ok (w.store dir' q) ∧ (w.store dir' q).Reads s q m 0 := by
  obtain ⟨dir, hload, hpos, hbuf, hsees⟩ := hr
  refine ⟨dir, { dir with dirPos := 0 }, hload, rfl, ?_, _, load_store_self w q hload rfl, rfl,
    hbuf, ?_⟩
  · unfold Streams.sysRewinddir
    rw [hload, ok_bind]
  · rw [store_toSession]
    exact hsees

variable {root : Bool → Bool} {dirNo : Bool → UInt32} {v : Bool → Place} {c c' : Callers}
  {i : Bool} {place : Place}

theorem held_add (c : Callers) (i : Bool) :
    c.held false + c.held true = c.held i + c.held (!i) := by
  cases i
  · rfl
  · exact add_comm _ _

/-- A call of one caller that leaves the stream of the other. -/
theorem Tracks.next (ht : Tracks s root dirNo c v)
    (hw : Walks s c'.fs (c'.held i + c'.held (!i))) (hnext : c.nextDir ≤ c'.nextDir)
    (hmine : ∀ k, c'.handle i = some (.heap k) →
      k < c'.nextDir ∧ c.handle (!i) ≠ some (.heap k))
    (hother : c'.handle (!i) = c.handle (!i)) (hat : c'.At s i (root i) (dirNo i) place)
    (hreads : ∀ q k, c.handle (!i) = some q ∨ q = .rootDir ∧ root (!i) = true →
      c.toStreams.Reads s q (dirNo !i) k → c'.toStreams.Reads s q (dirNo !i) k) :
    Tracks s root dirNo c' (Function.update v i place) := by
  have hboth : ∀ j, j = i ∨ j = !i := by
    intro j
    cases i <;> cases j <;> simp
  have hne : (!i) ≠ i := by simp
  refine ⟨held_add c' i ▸ hw, fun j k hj => ?_, fun j k hj => ?_, fun j => ?_⟩
  · rcases hboth j with rfl | rfl
    · exact (hmine k hj).1
    · exact (ht.fresh _ k (hother ▸ hj)).trans_le hnext
  · rcases hboth j with rfl | rfl
    · rw [hother]
      exact (hmine k hj).2
    · rw [Bool.not_not]
      rw [hother] at hj
      exact fun hi => (hmine k hi).2 hj
  · rcases hboth j with rfl | rfl
    · rw [Function.update_self]
      exact hat
    · rw [Function.update_of_ne hne]
      have hold := ht.place (!i)
      rcases hv : v (!i) with k | k | _ <;> rw [hv] at hold
      · obtain ⟨hnone, hk, hroot⟩ := hold
        refine ⟨hother.trans hnone, hk, ?_⟩
        split_ifs at hroot ⊢ with htrue
        · exact hreads _ k (Or.inr ⟨rfl, htrue⟩) hroot
        · exact hroot
      · obtain ⟨q, hq, hiff, hk, hr⟩ := hold
        exact ⟨q, hother.trans hq, hiff, hk, hreads q k (Or.inl hq) hr⟩
      · obtain ⟨q, hq, hiff⟩ := hold
        exact ⟨q, hother.trans hq, hiff⟩

theorem Tracks.role (ht : Tracks s root dirNo c v) (hq : c.handle i = some q) :
    q = .rootDir ↔ root i = true := by
  have hold := ht.place i
  rcases hv : v i with k | k | _ <;> rw [hv] at hold
  · rw [hold.1] at hq
    cases hq
  · obtain ⟨r, hr, hiff, -⟩ := hold
    obtain rfl : q = r := Option.some.inj (hq.symm.trans hr)
    exact hiff
  · obtain ⟨r, hr, hiff⟩ := hold
    obtain rfl : q = r := Option.some.inj (hq.symm.trans hr)
    exact hiff

/-- The stream of one caller is not that of the other. -/
theorem Tracks.stream_ne {r : DirPtr} (ht : Tracks s root dirNo c v)
    (hroot : ¬ ∀ i, root i = true) (hq : c.handle i = some q)
    (hr : c.handle (!i) = some r ∨ r = .rootDir ∧ root (!i) = true) : r ≠ q := by
  have hnot : ¬ (root i = true ∧ root (!i) = true) := by
    intro h
    refine hroot fun j => ?_
    cases i <;> cases j <;> simp_all
  rintro rfl
  cases r with
  | rootDir =>
    refine hnot ⟨(ht.role hq).mp rfl, ?_⟩
    exact hr.elim (fun hr => (ht.role hr).mp rfl) fun hr => hr.2
  | heap k =>
    rcases hr with hr | ⟨hr, -⟩
    · exact ht.distinct i k hq hr
    · cases hr

/-- A store to a caller's own stream. -/
theorem Tracks.stored (ht : Tracks s root dirNo c v) (hroot : ¬ ∀ i, root i = true)
    (hq : c.handle i = some q) (hload : c.toStreams.load q = .ok dir)
    (hin : dir'.inode = dir.inode) (hk : k ≤ (listing s.disk (s.view (dirNo i))).length)
    (hr : (c.toStreams.store dir' q).Reads s q (dirNo i) k) :
    Tracks s root dirNo { c with toStreams := c.toStreams.store dir' q }
      (Function.update v i (.entry k)) := by
  have hheld : ∀ j, Callers.held { c with toStreams := c.toStreams.store dir' q } j = c.held j := by
    intro j
    unfold Callers.held
    dsimp only
    rw [funext (held_store c.toStreams hload hin)]
  refine ht.next ?_ (store_nextDir ..).ge (fun k hk => ?_) rfl ⟨q, hq, ht.role hq, hk, hr⟩ ?_
  · rw [hheld, hheld, ← held_add]
    dsimp only
    rw [store_toSession]
    exact ht.walks
  · dsimp only at hk ⊢
    rw [store_nextDir]
    exact ⟨ht.fresh i k hk, ht.distinct i k hk⟩
  · rintro r j hr ⟨dir₂, hload₂, hpos₂, hbuf₂, hsees₂⟩
    refine ⟨dir₂, ?_, hpos₂, hbuf₂, ?_⟩
    · dsimp only
      rw [load_store_of_ne _ (ht.stream_ne hroot hq hr), hload₂]
    · dsimp only
      rw [store_toSession]
      exact hsees₂

/-- The root stream or an object of the heap that an operation on other streams leaves. -/
theorem Streams.Reads.frame (hr : w.Reads s q m k) (hload : q ≠ .rootDir → w'.load q = w.load q)
    (hpos : w'.rootPos = w.rootPos) (hbuf : w'.rootBuf = w.rootBuf)
    (hwalk : Sees s w'.fs w'.fs.rootDir 0) (hzero : q = .rootDir → m = 0)
    (hsees : ∀ a, w.held q = {a} → Sees s w.fs a m → Sees s w'.fs a m) : w'.Reads s q m k := by
  obtain ⟨dir, hdir, hp, hb, hs⟩ := hr
  cases q with
  | rootDir =>
    obtain rfl := Except.ok.inj hdir
    obtain rfl := hzero rfl
    exact ⟨_, rfl, by rw [hpos]; exact hp, by rw [hbuf]; exact hb, hwalk⟩
  | heap j =>
    have hj : w.dirs j = some dir := deref_ok hdir
    refine ⟨dir, (hload nofun).trans hdir, hp, hb, hsees _ ?_ hs⟩
    simp [Streams.held, hj]

/-- The objects of the others stay when one is made. -/
theorem dirs_addDir {y : Session} {j : ℕ} (hj : j < w.nextDir) :
    (w.addDir y a).dirs j = w.dirs j := Function.update_of_ne hj.ne ..

theorem dirs_dropDir {y : Session} {j : ℕ} (hj : j ≠ k) : (w.dropDir y k).dirs j = w.dirs j :=
  Function.update_of_ne hj ..

/-- What is held and read is what the objects say. -/
theorem held_congr (hq : ∀ j, q = .heap j → w'.dirs j = w.dirs j) : w'.held q = w.held q := by
  cases q with
  | rootDir => rfl
  | heap j => rw [Streams.held, Streams.held, hq j rfl]

theorem load_congr (hq : ∀ j, q = .heap j → w'.dirs j = w.dirs j) (hne : q ≠ .rootDir) :
    w'.load q = w.load q := by
  cases q with
  | rootDir => exact absurd rfl hne
  | heap j => rw [Streams.load, Streams.load, hq j rfl]

/-- `sys_opendir` of `"/"`. -/
theorem Tracks.openRoot (ht : Tracks s root dirNo c v)
    (hi : root i = true) (hplace : v i = .before k) :
    Tracks s root dirNo { c with handle := Function.update c.handle i (some .rootDir) }
      (Function.update v i (.entry k)) := by
  have hold := ht.place i
  rw [hplace] at hold
  obtain ⟨hnone, hk, hr⟩ := hold
  rw [if_pos hi] at hr
  have hne : (!i) ≠ i := by simp
  have hheld : ∀ j, Callers.held { c with handle := Function.update c.handle i (some .rootDir) } j =
      c.held j := by
    intro j
    unfold Callers.held
    by_cases hj : j = i
    · subst hj
      simp [hnone, Streams.held]
    · simp [hj]
  refine ht.next ?_ le_rfl (fun k hk => ?_) (Function.update_of_ne hne ..)
    ⟨.rootDir, Function.update_self .., by simp [hi], hk, hr⟩ fun _ _ _ hr => hr
  · rw [hheld, hheld, ← held_add]
    exact ht.walks
  · dsimp only at hk
    rw [Function.update_self] at hk
    cases hk

/-- `sys_opendir` of another path. -/
theorem Tracks.openHeap (ht : Tracks s root dirNo c v) (hT : TreeOk s dirs)
    (hno : ∀ j, root j = true → dirNo j = 0) (hl : LeadsTo s p (dirNo i)) (hne : p ≠ [])
    (hi : root i = false) (hplace : v i = .before k) :
    ∃ w', c.toStreams.sysOpendir (slash :: p) = .ok (some (.heap c.nextDir), w') ∧
      Tracks s root dirNo
        { toStreams := w', handle := Function.update c.handle i (some (.heap c.nextDir)) }
        (Function.update v i (.entry k)) := by
  have hold := ht.place i
  rw [hplace] at hold
  obtain ⟨hnone, hk, hr⟩ := hold
  rw [if_neg (by simp [hi])] at hr
  subst hr
  obtain ⟨a, y, hopen, hw, hsees, hkept⟩ := ht.walks.sysOpendir hT hl hne
  have hother : (!i) ≠ i := by simp
  have hzero : c.held i = 0 := by simp [Callers.held, hnone]
  rw [held_add c i, hzero, zero_add] at hw hkept
  have hnext : c.handle (!i) ≠ some (.heap c.nextDir) := fun h =>
    absurd (ht.fresh _ _ h) (lt_irrefl _)
  have hframe : ∀ q, c.handle (!i) = some q ∨ q = .rootDir ∧ root (!i) = true →
      ∀ j, q = .heap j → (c.toStreams.addDir y a).dirs j = c.dirs j := by
    rintro q hq j rfl
    exact dirs_addDir (ht.fresh _ _ (hq.resolve_right (by simp)))
  have hcall : c.toStreams.sysOpendir (slash :: p) =
      .ok (some (.heap c.nextDir), c.toStreams.addDir y a) := by
    rw [Streams.sysOpendir, hopen, ok_bind]
  refine ⟨_, hcall, ?_⟩
  refine ht.next ?_ (Nat.le_succ _) (fun j hj => ?_) (Function.update_of_ne hother ..) ?_ ?_
  · have hmine : (c.toStreams.addDir y a).held (.heap c.nextDir) = {a} := by
      simp [Streams.held, Streams.addDir]
    have hrest : (c.handle (!i)).elim 0 (c.toStreams.addDir y a).held = c.held (!i) := by
      unfold Callers.held
      rcases hq : c.handle (!i) with _ | q
      · rfl
      · exact held_congr (hframe q (Or.inl hq))
    unfold Callers.held
    dsimp only
    rw [Function.update_self, Function.update_of_ne hother, hrest, Option.elim_some, hmine,
      Multiset.singleton_add]
    exact hw
  · dsimp only at hj
    rw [Function.update_self] at hj
    cases hj
    exact ⟨Nat.lt_succ_self _, hnext⟩
  · refine ⟨.heap c.nextDir, Function.update_self .., by simp [hi], hk, ⟨a, 0, ⟨512, zeros⟩⟩, ?_,
      rfl, rfl, hsees⟩
    simp [Streams.load, Streams.addDir]
  · intro q j hq hreads
    refine hreads.frame (load_congr (hframe q hq)) rfl rfl (hw.sees_root hT) (fun hq' => ?_)
      fun b hb hs => ?_
    · exact hno _ (hq.elim (fun hq => (ht.role hq).mp hq') fun hq => hq.2)
    · refine hkept b ?_ _ hs
      rcases hq with hq | ⟨rfl, -⟩
      · simp [Callers.held, hq, hb]
      · simp [Streams.held] at hb

/-- `sys_closedir` -/
theorem Tracks.closed (ht : Tracks s root dirNo c v) (hT : TreeOk s dirs)
    (hno : ∀ j, root j = true → dirNo j = 0) (hplace : v i = .entry k) :
    ∃ q w', c.handle i = some q ∧ c.toStreams.sysClosedir q = .ok w' ∧
      Tracks s root dirNo { c with toStreams := w' } (Function.update v i .after) := by
  have hold := ht.place i
  rw [hplace] at hold
  obtain ⟨q, hq, hiff, hk, dir, hload, -⟩ := hold
  cases q with
  | rootDir =>
    refine ⟨_, _, hq, rfl, ?_⟩
    refine ht.next ?_ le_rfl (fun j hj => ⟨ht.fresh i j hj, ht.distinct i j hj⟩) rfl
      ⟨.rootDir, hq, hiff⟩ fun _ _ _ hr => hr
    have hsum := ht.walks
    rw [held_add c i] at hsum
    exact hsum
  | heap j =>
    have hdir : c.dirs j = some dir := deref_ok hload
    have hmine : c.held i = (Dir.opened dir.inode).handles := by
      simp [Callers.held, hq, Streams.held, hdir, Dir.handles]
    have hwalk := ht.walks
    rw [held_add c i, hmine] at hwalk
    obtain ⟨y, hclose, hy, hkept⟩ := hwalk.dirClose_sees
    have hframe : ∀ r, c.handle (!i) = some r ∨ r = .rootDir ∧ root (!i) = true →
        ∀ l, r = .heap l → (c.toStreams.dropDir
          { c.toSession with fs := y, handles := c.handles.erase (.opened dir.inode) } j).dirs l =
            c.dirs l := by
      rintro r hr l rfl
      refine dirs_dropDir ?_
      rintro rfl
      exact ht.distinct i _ hq (hr.resolve_right (by simp))
    have hcall : c.toStreams.sysClosedir (.heap j) = .ok (c.toStreams.dropDir
        { c.toSession with fs := y, handles := c.handles.erase (.opened dir.inode) } j) := by
      rw [Streams.sysClosedir, hdir, deref_some, ok_bind, FileSystem.sysClosedir, hclose, ok_bind,
        ok_bind]
    refine ⟨_, _, hq, hcall, ?_⟩
    refine ht.next ?_ le_rfl (fun j' hj' => ⟨ht.fresh i j' hj', ht.distinct i j' hj'⟩) rfl
      ⟨_, hq, hiff⟩ fun r l hr hreads => ?_
    · have hgone : ∀ y', (c.toStreams.dropDir y' j).held (.heap j) = 0 := fun y' => by
        simp [Streams.held, Streams.dropDir]
      unfold Callers.held
      dsimp only
      rw [hq, Option.elim_some, hgone, zero_add]
      rcases hq' : c.handle (!i) with _ | r
      · rw [Callers.held, hq', Option.elim_none] at hy
        exact hy
      · rw [Callers.held, hq', Option.elim_some] at hy
        rw [Option.elim_some, held_congr (hframe r (Or.inl hq'))]
        exact hy
    · refine hreads.frame (load_congr (hframe r hr)) rfl rfl (hy.sees_root hT) (fun hr' => ?_)
        fun b hb hs => ?_
      · exact hno _ (hr.elim (fun hr => (ht.role hr).mp hr') fun hr => hr.2)
      · refine hkept b ?_ _ hs
        rcases hr with hr | ⟨rfl, -⟩
        · simp [Callers.held, hr, hb]
        · simp [Streams.held] at hb

/-- A directory tree whose directories have the size of their live entries. -/
structure ListedTree (s : State) (dirs : Set UInt32) : Prop extends TreeOk s dirs where
  listed : ∀ n ∈ dirs, ListedDir s (s.view n)

theorem sysOpendir_root (w : Streams) :
    w.sysOpendir [slash] = .ok (some .rootDir, w) := rfl

section Steps

variable {paths : Bool → List UInt8} {e : Option DirEntry}

theorem step_opendir (hcall : c.toStreams.sysOpendir (paths i) = .ok (some q, w')) :
    c.step paths i .opendir =
      .ok ([], { toStreams := w', handle := Function.update c.handle i (some q) }) := by
  rw [Callers.step, hcall, ok_bind]

theorem step_readdir (hq : c.handle i = some q) (hcall : c.toStreams.sysReaddir q = .ok (e, w')) :
    c.step paths i .readdir = .ok ([e], { c with toStreams := w' }) := by
  rw [Callers.step, hq, deref_some, ok_bind, hcall, ok_bind]

theorem step_rewinddir (hq : c.handle i = some q) (hcall : c.toStreams.sysRewinddir q = .ok w') :
    c.step paths i .rewinddir = .ok ([], { c with toStreams := w' }) := by
  rw [Callers.step, hq, deref_some, ok_bind, hcall, ok_bind]

theorem step_closedir (hq : c.handle i = some q) (hcall : c.toStreams.sysClosedir q = .ok w') :
    c.step paths i .closedir = .ok ([], { c with toStreams := w' }) := by
  rw [Callers.step, hq, deref_some, ok_bind, hcall, ok_bind]

/-- A reader of a stream that the other reads too, and one that is alone. -/
theorem run_shared {w₁ w₂ w₃ : Streams} {e₁ e₂ : Option DirEntry} (hf : c.handle false = some q)
    (ht : c.handle true = some q) (h₁ : c.toStreams.sysRewinddir q = .ok w₁)
    (h₂ : w₁.sysReaddir q = .ok (e₁, w₂)) (h₃ : w₂.sysReaddir q = .ok (e₂, w₃)) :
    run (Callers.step paths) c [(false, .rewinddir), (true, .readdir), (false, .readdir)] =
      .ok ([(true, e₁), (false, e₂)], { c with toStreams := w₃ }) := by
  have hlast : run (Callers.step paths) { c with toStreams := w₂ } [(false, .readdir)] =
      .ok ([(false, e₂)], { c with toStreams := w₃ }) :=
    run_cons (step_readdir (c := { c with toStreams := w₂ }) hf h₃) rfl
  have hrest : run (Callers.step paths) { c with toStreams := w₁ }
      [(true, .readdir), (false, .readdir)] =
        .ok ([(true, e₁), (false, e₂)], { c with toStreams := w₃ }) :=
    run_cons (step_readdir (c := { c with toStreams := w₁ }) ht h₂) hlast
  exact run_cons (step_rewinddir hf h₁) hrest

theorem run_alone {w₁ w₂ : Streams} {e₁ : Option DirEntry} (hf : c.handle false = some q)
    (h₁ : c.toStreams.sysRewinddir q = .ok w₁) (h₂ : w₁.sysReaddir q = .ok (e₁, w₂)) :
    run (Callers.step paths) c [(false, .rewinddir), (false, .readdir)] =
      .ok ([(false, e₁)], { c with toStreams := w₂ }) := by
  have hlast : run (Callers.step paths) { c with toStreams := w₁ } [(false, .readdir)] =
      .ok ([(false, e₁)], { c with toStreams := w₂ }) :=
    run_cons (step_readdir (c := { c with toStreams := w₁ }) hf h₂) rfl
  exact run_cons (step_rewinddir hf h₁) hlast

end Steps

/-- Each caller is served as by a cursor of its own, unless both hold `root_dir`. -/
theorem callers_served {names paths : Bool → List UInt8} (hT : ListedTree s dirs)
    (hpaths : ∀ i, paths i = slash :: names i) (hl : ∀ i, LeadsTo s (names i) (dirNo i))
    (hiff : ∀ i, root i = true ↔ names i = []) (hroot : ¬ ∀ i, root i = true) :
    Serves (Callers.step paths) (fun i => Place.step (listing s.disk (s.view (dirNo i))))
      (Tracks s root dirNo) := by
  have hno : ∀ j, root j = true → dirNo j = 0 := by
    intro j hj
    have hresolve := (hl j).resolve
    rw [(hiff j).mp hj, components, resolve_nil] at hresolve
    exact (congrArg Prod.fst (Option.some.inj hresolve)).symm
  intro c v i a ys place ht hstep
  have hlisted := hT.listed _ ((hl i).mem hT.toTreeOk)
  rcases hv : v i with k | k | _
  · -- before the handle is opened
    cases a with
    | opendir =>
      obtain ⟨rfl, rfl⟩ : ys = [] ∧ place = .entry k := by
        simpa [hv, Place.step, eq_comm] using hstep
      by_cases hi : root i = true
      · refine ⟨_, step_opendir ?_, ht.openRoot hi hv⟩
        rw [hpaths, (hiff i).mp hi, sysOpendir_root]
      · have hne : names i ≠ [] := fun h => hi ((hiff i).mpr h)
        obtain ⟨w', hopen, hw'⟩ :=
          ht.openHeap hT.toTreeOk hno (hl i) hne (Bool.eq_false_iff.mpr hi) hv
        exact ⟨_, step_opendir (hpaths i ▸ hopen), hw'⟩
    | readdir => simp [hv, Place.step] at hstep
    | rewinddir => simp [hv, Place.step] at hstep
    | closedir => simp [hv, Place.step] at hstep
  · -- the handle is open
    have hold := ht.place i
    rw [hv] at hold
    obtain ⟨q, hq, -, hk, hreads⟩ := hold
    cases a with
    | opendir => simp [hv, Place.step] at hstep
    | readdir =>
      obtain ⟨rfl, rfl⟩ : ys = [(listing s.disk (s.view (dirNo i)))[k]?] ∧ place =
          .entry (min (k + 1) (listing s.disk (s.view (dirNo i))).length) := by
        simpa [hv, Place.step, eq_comm] using hstep
      obtain ⟨dir, dir', hload, hin, hcall, hr⟩ := hreads.sysReaddir ht.walks hlisted hk
      exact ⟨_, step_readdir hq hcall, ht.stored hroot hq hload hin (min_le_right _ _) hr⟩
    | rewinddir =>
      obtain ⟨rfl, rfl⟩ : ys = [] ∧ place = .entry 0 := by
        simpa [hv, Place.step, eq_comm] using hstep
      obtain ⟨dir, dir', hload, hin, hcall, hr⟩ := hreads.sysRewinddir
      exact ⟨_, step_rewinddir hq hcall, ht.stored hroot hq hload hin (Nat.zero_le _) hr⟩
    | closedir =>
      obtain ⟨rfl, rfl⟩ : ys = [] ∧ place = .after := by
        simpa [hv, Place.step, eq_comm] using hstep
      obtain ⟨q, w', hq, hcall, hw'⟩ := ht.closed hT.toTreeOk hno hv
      exact ⟨_, step_closedir hq hcall, hw'⟩
  · cases a <;> simp [hv, Place.step] at hstep

/-- The root directory lists an entry, and the one behind it is another. -/
theorem ListedTree.root_entries (hT : ListedTree s dirs) :
    0 < (listing s.disk (s.view 0)).length ∧
      (listing s.disk (s.view 0))[0]? ≠ (listing s.disk (s.view 0))[min 1
        (listing s.disk (s.view 0)).length]? := by
  have hlisted := hT.listed 0 hT.entries.root
  have hdot : ValidName [dot] := by unfold ValidName; decide
  have hhere : s.tree.entry 0 [dot] = some (0, true) := hT.entries.here 0 hT.entries.root
  have hlookup : s.lookup 0 [dot] = .ok ((dirEntries s.disk (s.view 0)).find? (·.named [dot])) :=
    lookupIn_eq hdot.2.1 hlisted.table_le hlisted.block_le
  have hlen : 0 < (listing s.disk (s.view 0)).length := by
    cases hfind : (dirEntries s.disk (s.view 0)).find? (·.named [dot]) with
    | none =>
      rw [hfind] at hlookup
      rw [entry_of_none hlookup] at hhere
      cases hhere
    | some e =>
      have hmem := (find_named_iff hlisted.namedDir hdot.1 hdot.2.1 hdot.2.2.2).mp hfind
      exact List.length_pos_of_mem hmem.1
  refine ⟨hlen, ?_⟩
  rw [Nat.min_eq_left hlen, List.getElem?_eq_getElem hlen]
  by_cases hone : 1 < (listing s.disk (s.view 0)).length
  · rw [List.getElem?_eq_getElem hone]
    intro hsame
    have hinj := hlisted.distinct.of_map.getElem_inj_iff.mp (Option.some.inj hsame)
    omega
  · rw [List.getElem?_eq_none (by omega)]
    exact nofun

/-- Two readers of `root_dir`: one moves the cursor of the other. -/
theorem not_independent_root {paths : Bool → List UInt8} (hT : ListedTree w.fs dirs)
    (hheap : ∀ k, w.fs.heap k = true) (hr : w.Reads w.fs .rootDir 0 k)
    (hboth : ∀ i, paths i = [slash]) : ¬ Independent w paths := by
  intro hind
  have hwalks := Walks.refl hT.opens hheap
  have hlisted := hT.listed 0 hT.entries.root
  obtain ⟨d, d', -, -, hrewind, hr₀⟩ := hr.sysRewinddir
  have hw₁ : Walks w.fs (w.store d' .rootDir).fs 0 := hwalks
  obtain ⟨d₁, d₁', -, -, hread, hr₁⟩ := hr₀.sysReaddir hw₁ hlisted (Nat.zero_le _)
  have hw₂ : Walks w.fs ((w.store d' .rootDir).store d₁' .rootDir).fs 0 := hwalks
  obtain ⟨d₂, d₂', -, -, hread', -⟩ := hr₁.sysReaddir hw₂ hlisted (min_le_right _ _)
  obtain ⟨hlen, hne⟩ := hT.root_entries
  have hopen : ∀ (v : Streams) i, v.sysOpendir (paths i) = .ok (some .rootDir, v) := by
    intro v i
    rw [hboth, sysOpendir_root]
  obtain ⟨out, u, out', u', hrun, halone, hsame⟩ := hind [(false, .opendir), (true, .opendir),
    (false, .rewinddir), (true, .readdir), (false, .readdir)] (by
      intro i
      cases i <;> simp [own, OneHandle, usesHandle]) false
  have hone := step_opendir (c := ⟨w, fun _ => none⟩) (i := false) (hopen w false)
  have hmine : Function.update (fun _ : Bool => (none : Option DirPtr)) false (some .rootDir)
    false = some .rootDir := rfl
  have htwo : Function.update (Function.update (fun _ : Bool => (none : Option DirPtr)) false
    (some .rootDir)) true (some .rootDir) = fun _ => some .rootDir := by
    funext i
    cases i <;> rfl
  have hsecond := step_opendir (c := ⟨w, Function.update (fun _ => none) false (some .rootDir)⟩)
    (i := true) (hopen w true)
  rw [htwo] at hsecond
  have hrun' := run_cons hone (run_cons hsecond (run_shared rfl rfl hrewind hread hread'))
  have halone' := run_cons hone (run_alone hmine hrewind hread)
  obtain ⟨rfl, -⟩ := Prod.mk.inj (Except.ok.inj (hrun.symm.trans hrun'))
  obtain ⟨rfl, -⟩ := Prod.mk.inj (Except.ok.inj (halone.symm.trans halone'))
  have hentry : (listing w.fs.disk (w.fs.view 0))[min 1
      (listing w.fs.disk (w.fs.view 0)).length]? = (listing w.fs.disk (w.fs.view 0))[0]? := by
    simpa [own] using hsame
  exact hne hentry.symm

/-- A handle besides `root_dir`, and another one. -/
theorem independent_of_not_root {names paths : Bool → List UInt8} (hT : ListedTree w.fs dirs)
    (hheap : ∀ k, w.fs.heap k = true) (hr : w.Reads w.fs .rootDir 0 k)
    (hk : k ≤ (listing w.fs.disk (w.fs.view 0)).length) (hpaths : ∀ i, paths i = slash :: names i)
    (hl : ∀ i, LeadsTo w.fs (names i) (dirNo i)) (hroot : ¬ ∀ i, paths i = [slash]) :
    Independent w paths := by
  have hwalks := Walks.refl hT.opens hheap
  have hserved := callers_served hT hpaths hl (fun i => by
    show decide (names i = []) = true ↔ names i = []
    exact decide_eq_true_iff) fun h => hroot fun i => by
      rw [hpaths, of_decide_eq_true (h i)]
  have hstart : Tracks w.fs (fun i => decide (names i = [])) dirNo ⟨w, fun _ => none⟩
      fun i => .before (if names i = [] then k else 0) := by
    refine ⟨hwalks, fun i j hj => ?_, fun i j hj => ?_, fun i => ⟨rfl, ?_, ?_⟩⟩
    · cases hj
    · cases hj
    · split_ifs with hnil
      · have hresolve := (hl i).resolve
        rw [hnil, components, resolve_nil] at hresolve
        have hno : 0 = dirNo i := congrArg Prod.fst (Option.some.inj hresolve)
        rw [← hno]
        exact hk
      · exact Nat.zero_le _
    · by_cases hnil : names i = []
      · have hresolve := (hl i).resolve
        rw [hnil, components, resolve_nil] at hresolve
        have hno : 0 = dirNo i := congrArg Prod.fst (Option.some.inj hresolve)
        rw [if_pos hnil, if_pos (decide_eq_true hnil), ← hno]
        exact hr
      · rw [if_neg hnil, if_neg (by simpa using hnil)]
  intro l hcalls i
  exact hserved.alone hstart (fun j => localRun_oneHandle _ _ (hcalls j)) i

/-- Two handles do not notice each other if and only if they are not both `root_dir`, that is,
unless both were opened by the path `"/"`. -/
theorem dir_handles_independent_iff {w : Streams} {paths : Bool → List UInt8}
    (hT : ListedTree w.fs dirs) (hheap : ∀ k, w.fs.heap k = true)
    (hpos : ∃ k ≤ (listing w.fs.disk (w.fs.view 0)).length, w.rootPos = cursor k k)
    (hbuf : w.rootBuf.size = 512) (hzero : ∀ i, 0 ∉ paths i)
    (hopen : ∀ i, ∃ q w', w.sysOpendir (paths i) = .ok (some q, w')) :
    Independent w paths ↔ ¬ ∀ i, paths i = [slash] := by
  have hleads : ∀ i, ∃ p m, paths i = slash :: p ∧ LeadsTo w.fs p m := by
    intro i
    obtain ⟨q, w', hcall⟩ := hopen i
    obtain ⟨d, hd, hcall⟩ := of_bind_eq_ok hcall
    refine leadsTo_of_opendir hT.toTreeOk hheap (hzero i) hd ?_
    intro hnone
    rcases d with ⟨d, y⟩
    obtain rfl : d = none := hnone
    cases hcall
  choose names dirNo hpaths hl using hleads
  obtain ⟨k, hk, hpos⟩ := hpos
  have hwalks := Walks.refl hT.opens hheap
  have hreads : w.Reads w.fs .rootDir 0 k := ⟨_, rfl, hpos, hbuf, hwalks.sees_root hT.toTreeOk⟩
  exact ⟨fun hind hboth => not_independent_root hT hheap hreads hboth hind,
    independent_of_not_root hT hheap hreads hk hpaths hl⟩

/-- The sample session before anyone has read a directory. -/
def sampleStreams : Streams where
  toSession := sampleSession
  rootPos := 0
  rootBuf := ⟨512, zeros⟩
  dirs := fun _ => none
  nextDir := 0

theorem sampleSession_listed : ListedTree sampleSession.fs {0, 2} := by
  refine ⟨sampleSession_tree, fun n hn => ?_⟩
  rcases hn with rfl | rfl <;> refine ⟨?_, ?_, ?_, ?_, ?_⟩ <;> decide +kernel

/-- The root directory by `"/"` and by `"/."`. -/
def sampleNames (i : Bool) : List UInt8 := if i then [slash] else [slash, dot]

theorem dir_handles_independent_dot :
    Independent sampleStreams sampleNames ↔ ¬ ∀ i, sampleNames i = [slash] :=
  dir_handles_independent_iff sampleSession_listed (fun _ => rfl) ⟨0, Nat.zero_le _, rfl⟩ rfl
    (by decide) fun i => by
      obtain ⟨⟨q, w⟩, hcall, hq⟩ : ∃ v, sampleStreams.sysOpendir (sampleNames i) = .ok v ∧
          v.1.isSome := by
        cases i <;> decide
      obtain ⟨q, rfl⟩ := Option.isSome_iff_exists.mp hq
      exact ⟨q, w, hcall⟩

/-- Two handles by `"/"`. -/
theorem root_handles_interfere :
    sampleStreams.sysOpendir [slash] = .ok (some .rootDir, sampleStreams) ∧
    ¬ Independent sampleStreams fun _ => [slash] := by
  have hwalks : Walks sampleSession.fs sampleSession.fs 0 :=
    Walks.refl sampleSession_tree.opens fun _ => rfl
  have hreads : sampleStreams.Reads sampleSession.fs .rootDir 0 0 :=
    ⟨_, rfl, rfl, rfl, hwalks.sees_root sampleSession_tree⟩
  exact ⟨rfl, not_independent_root sampleSession_listed (fun _ => rfl) hreads fun _ => rfl⟩

end Serving

end X86System.FileSystem
