import X86System.Lookup
import X86System.Library.PathTree

/-!
# Walking down a path

The names of a path are what repeated `path_parse` cuts off. In a file system whose
directories can be read and whose `.` and `..` entries are correct, `search_file` ends
at the number that the walk down these names in the tree of entries ends at.
-/
namespace X86System.FileSystem
open Bytes Exec PathTree

variable {s t u : State} {a b : InodePtr} {n m : UInt32} {h : Multiset InodePtr} {d : Dir}
  {name p : List UInt8} {sub : Option (List UInt8)} {cs : List (List UInt8)} {dirs : Set UInt32}

section Components

/-- The names of a path. -/
def components : List UInt8 → List (List UInt8)
  | [] => []
  | c :: l =>
    if c = slash then components l
    else (c :: l.takeWhile (· ≠ slash)) :: components (l.dropWhile (· ≠ slash))
termination_by path => path.length
decreasing_by
  · simp
  · exact Nat.lt_succ_of_le (List.dropWhile_suffix _).length_le

/-- Names that a component may have. -/
def ValidName (name : List UInt8) : Prop :=
  name ≠ [] ∧ name.length < maxFileNameLen ∧ slash ∉ name ∧ 0 ∉ name

/-- The names of a path, each after its slash. -/
def joined (cs : List (List UInt8)) : List UInt8 := cs.flatMap (slash :: ·)

theorem dropWhile_head {q : UInt8 → Bool} {c : UInt8} {l r : List UInt8}
    (hr : l.dropWhile q = c :: r) : q c = false := by
  have hhead := List.head?_dropWhile_not q l
  rw [hr] at hhead
  simpa using hhead

theorem components_slash : components (slash :: p) = components p := by
  rw [components, if_pos rfl]

theorem components_dropWhile (p : List UInt8) :
    components (p.dropWhile (· = slash)) = components p := by
  induction p with
  | nil => rfl
  | cons c l ih =>
    by_cases hc : c = slash
    · rw [hc, components_slash, ← ih]
      simp
    · simp [hc]

/-- The names `cs` are those that a walk has before it: the one in its buffer and those of
the rest of the path. -/
def Pending (name : List UInt8) (sub : Option (List UInt8)) (cs : List (List UInt8)) : Prop :=
  name = [] ∧ cs = [] ∨ name ≠ [] ∧ cs = name :: sub.elim [] components

/-- `path_parse` cuts off the first name. -/
theorem pending_pathParse (p : List UInt8) :
    Pending (pathParse p).1 (pathParse p).2 (components p) := by
  rw [← components_dropWhile p]
  unfold pathParse
  rcases hq : p.dropWhile (· = slash) with _ | ⟨c, l⟩
  · exact Or.inl ⟨rfl, by rw [components]⟩
  · have hc : c ≠ slash := of_decide_eq_false (dropWhile_head hq)
    have htake : (c :: l).takeWhile (· ≠ slash) = c :: l.takeWhile (· ≠ slash) := by
      simp [hc]
    have hdrop : (c :: l).dropWhile (· ≠ slash) = l.dropWhile (· ≠ slash) := by
      simp [hc]
    refine Or.inr ⟨?_, ?_⟩ <;> dsimp only
    · rw [htake]
      exact List.cons_ne_nil _ _
    · rw [components, if_neg hc, htake, hdrop]
      rcases l.dropWhile (· ≠ slash) with _ | ⟨e, r⟩
      · simp [components]
      · rfl

/-- The next name that `search_file` has in its buffer. -/
theorem nextName_pending (sub : Option (List UInt8))
    (hcs : ∀ c ∈ sub.elim [] components, c.length < maxFileNameLen) :
    ∃ name rest, nextName sub = .ok (name, rest) ∧
      Pending name rest (sub.elim [] components) := by
  cases sub with
  | none => exact ⟨[], none, rfl, Or.inl ⟨rfl, rfl⟩⟩
  | some p =>
    have hp := pending_pathParse p
    refine ⟨_, _, ?_, hp⟩
    have hlen : (pathParse p).1.length < maxFileNameLen := by
      rcases hp with ⟨hnil, -⟩ | ⟨-, hcons⟩
      · rw [hnil]
        decide
      · refine hcs _ ?_
        rw [Option.elim_some, hcons]
        exact List.mem_cons_self
    unfold nextName
    dsimp only
    rw [ensure_of hlen, ok_bind]

theorem joined_cons (c : List UInt8) (cs : List (List UInt8)) :
    joined (c :: cs) = slash :: c ++ joined cs := rfl

theorem joined_append (cs ds : List (List UInt8)) : joined (cs ++ ds) = joined cs ++ joined ds :=
  List.flatMap_append ..

theorem joined_concat (cs : List (List UInt8)) (c : List UInt8) :
    joined (cs ++ [c]) = joined cs ++ slash :: c := by
  rw [joined_append, joined_cons]
  simp [joined]

/-- A path is at least as long as its names with one slash each. -/
theorem length_joined_components (p : List UInt8) :
    (joined (components (slash :: p))).length ≤ p.length + 1 := by
  rw [components_slash]
  induction hlen : p.length using Nat.strongRecOn generalizing p with
  | ind k ih =>
    subst hlen
    cases p with
    | nil => simp [components, joined]
    | cons c l =>
      rw [components]
      split_ifs with hc
      · have := ih l.length (by simp) l rfl
        simp only [List.length_cons]
        omega
      · have hsplit := congrArg List.length (List.takeWhile_append_dropWhile (p := (· ≠ slash)) (l := l))
        rw [List.length_append] at hsplit
        rw [joined_cons]
        rcases hr : l.dropWhile (· ≠ slash) with _ | ⟨e, r⟩
        · rw [hr, List.length_nil] at hsplit
          simp only [components, joined, List.flatMap_nil, List.append_nil, List.length_cons]
          omega
        · have he : e = slash := by simpa using dropWhile_head hr
          have hrest := ih r.length (by rw [hr] at hsplit; simp at hsplit ⊢; omega) r rfl
          rw [he, components_slash]
          rw [hr] at hsplit
          simp only [List.length_cons, List.length_append] at hsplit hrest ⊢
          omega

/-- A path made of names has these names. -/
theorem components_joined (hcs : ∀ c ∈ cs, ValidName c) : components (joined cs) = cs := by
  induction cs with
  | nil => simp [joined, components]
  | cons c cs ih =>
    obtain ⟨hne, -, hslash, -⟩ := hcs c List.mem_cons_self
    have hrest : (joined cs).takeWhile (· ≠ slash) = [] ∧
        (joined cs).dropWhile (· ≠ slash) = joined cs := by
      cases cs with
      | nil => simp [joined]
      | cons d cs => simp [joined_cons]
    have hall : ∀ b ∈ c, decide (b ≠ slash) = true := by
      intro b hb
      exact decide_eq_true fun h => hslash (h ▸ hb)
    rcases c with _ | ⟨b, c⟩
    · exact absurd rfl hne
    · have hb : b ≠ slash := fun h => hslash (h ▸ List.mem_cons_self)
      have hall' : ∀ e ∈ c, decide (e ≠ slash) = true := fun e he =>
        hall e (List.mem_cons_of_mem b he)
      rw [joined_cons, List.cons_append, components_slash, List.cons_append, components,
        if_neg hb, List.takeWhile_append_of_pos hall', List.dropWhile_append_of_pos hall',
        hrest.1, hrest.2, List.append_nil, ih fun d hd => hcs d (List.mem_cons_of_mem _ hd)]

end Components

section Trees

/-- Where the entries of the directories lead. -/
def State.tree (s : State) : Names UInt32 (List UInt8) where
  root := 0
  here := [dot]
  up := [dot, dot]
  entry n name :=
    match s.lookup n name with
    | .ok (some e) => some (e.iNo, decide (e.fType = ftDirectory))
    | _ => none

/-- A directory tree: the records of the directories in `dirs` have their numbers, their
blocks can be read, entries are files or directories, and `.` and `..` are correct. -/
structure TreeOk (s : State) (dirs : Set UInt32) : Prop where
  opens : OpenOk s
  rootOpen : s.openInode 0 = some s.rootDir
  number : ∀ n ∈ dirs, n.toNat < 4096 ∧ (s.view n).iNo = n
  readable : ∀ n ∈ dirs, ∀ name, ValidName name → ∃ e, s.lookup n name = .ok e
  typed : ∀ n ∈ dirs, ∀ name e, ValidName name → s.lookup n name = .ok (some e) →
    e.fType = ftRegular ∨ e.fType = ftDirectory
  entries : s.tree.Correct dirs ValidName

/-- The number that `search_file` returns for where a walk ends. -/
def foundNo : Option (UInt32 × Bool) → UInt32
  | some (n, _) => n
  | none => minusOne

theorem entry_of_found {e : DirEntry} (he : s.lookup n name = .ok (some e)) :
    s.tree.entry n name = some (e.iNo, decide (e.fType = ftDirectory)) := by
  simp [State.tree, he]

theorem entry_of_none (he : s.lookup n name = .ok none) : s.tree.entry n name = none := by
  simp [State.tree, he]

/-- `search_dir_entry` looks a name up. -/
theorem Walks.searchDirEntry {e : Option DirEntry} (hw : Walks s t h)
    (hd : Sees s t (d.inode t) n) (he : s.lookup n name = .ok e) :
    ∃ u, searchDirEntry t d name = .ok (e, u) ∧ Walks s u h ∧ Sees s u (d.inode u) n := by
  obtain ⟨x, hx, hno, hplace⟩ := hd
  obtain ⟨v, hm, hv, hinodes, hroot⟩ := hw.malloc (48 + 512)
  obtain ⟨u, hm', hu, hinodes', hroot'⟩ := hv.malloc 512
  have hdir : d.inode u = d.inode t := by
    cases d with
    | root => exact hroot'.trans hroot
    | opened a => rfl
  have hdir' : d.inode v = d.inode t := by
    cases d with
    | root => exact hroot
    | opened a => rfl
  refine ⟨u, ?_, hu, x, by rw [hdir, hinodes', hinodes, hx], hno, hplace⟩
  have hlookup : lookupIn s (s.view n) name = .ok e := he
  rw [← lookupIn_congr hu.disk hu.opens.part (iSectors_of_place hplace)] at hlookup
  unfold lookupIn at hlookup
  have hload : ∀ b, loadIndirect v x b = loadIndirect u x b := by
    intro b
    simp only [loadIndirect, ideRead, hv.disk, hu.disk]
  unfold FileSystem.searchDirEntry
  simp only [hm, hdir', hinodes, hx, deref_some, ok_bind, hm', hload]
  rcases hcopy : copyDirect x { size := 560, bytes := zeros } 12 with _ | b
  · simp [hcopy] at hlookup
  · rw [hcopy, ok_bind] at hlookup
    rw [ok_bind]
    rcases hblocks : loadIndirect u x b with _ | b'
    · simp [hblocks] at hlookup
    · rw [hblocks, ok_bind] at hlookup
      rw [ok_bind, hlookup, ok_bind, ensure_of Option.isSome_some, ok_bind]

/-- `search_file` goes down into a directory. -/
theorem Walks.enterDir (hw : Walks s t (d.handles + h)) (hd : Sees s t (d.inode t) n)
    (hlt : m.toNat < 4096) (hno : (s.view m).iNo = m) :
    ∃ a u, enterDir t d m = .ok (n, .opened a, u) ∧
      Walks s u ((Dir.opened a).handles + h) ∧ Sees s u a m := by
  obtain ⟨x, hx, hxn, -⟩ := hd
  obtain ⟨v, hclose, hv⟩ := hw.dirClose
  obtain ⟨a, u, hopen, hu, hsees⟩ := hv.dirOpen hlt hno
  refine ⟨a, u, ?_, by simpa [Dir.handles] using hu, hsees⟩
  unfold FileSystem.enterDir
  rw [hx, deref_some, ok_bind, hclose, ok_bind, hopen, ok_bind, hxn]

/-- The end of `search_file` for a directory: its parent is opened. -/
theorem Walks.finishSearch {r : PathSearchRecord} {e : DirEntry}
    (hw : Walks s t (r.parentDir.handles + h)) (hlt : m.toNat < 4096) (hno : (s.view m).iNo = m) :
    ∃ a u, finishSearch t r m (some e) =
        .ok (e.iNo, { r with parentDir := .opened a, fileType := ftDirectory }, u) ∧
      Walks s u ((Dir.opened a).handles + h) ∧ Sees s u a m := by
  obtain ⟨v, hclose, hv⟩ := hw.dirClose
  obtain ⟨a, u, hopen, hu, hsees⟩ := hv.dirOpen hlt hno
  refine ⟨a, u, ?_, by simpa [Dir.handles] using hu, hsees⟩
  unfold FileSystem.finishSearch
  rw [hclose, ok_bind, hopen, ok_bind]

/-- The type that the search record gets. -/
def fileTypeOf : Option (UInt32 × Bool) → UInt32
  | none => ftUnknown
  | some (_, false) => ftRegular
  | some (_, true) => ftDirectory

/-- What `search_file` leaves: it looked `c` up last, in the directory `n` that the names
`ds` lead to, and holds that directory. -/
structure Searched (s t : State) (h : Multiset InodePtr) (r : PathSearchRecord)
    (ds : List (List UInt8)) (c : List UInt8) (n : UInt32) : Prop where
  path : r.searchedPath = joined (ds ++ [c])
  walks : Walks s t (r.parentDir.handles + h)
  parent : Sees s t (r.parentDir.inode t) n
  fileType : r.fileType = fileTypeOf (s.tree.entry n c)

/-- The loop of `search_file`, entered after the names `ds`, ends where the walk down the
pending names ends. -/
theorem searchLoop_ends (hT : TreeOk s dirs) (fuel : ℕ) : ∀ {t : State}
    {r : PathSearchRecord} {parent n : UInt32} {name : List UInt8} {sub : Option (List UInt8)}
    {dirE : Option DirEntry} {ds cs : List (List UInt8)},
    Walks s t (r.parentDir.handles + h) → Sees s t (r.parentDir.inode t) n →
    n ∈ dirs → s.tree.resolve 0 ds = some (n, true) → r.searchedPath = joined ds →
    r.fileType = ftUnknown → Pending name sub cs → (∀ c ∈ cs, ValidName c) → cs.length < fuel →
    (joined (ds ++ cs)).length < maxPathLen →
    (cs = [] → ∃ e bs b, dirE = some e ∧ e.iNo = n ∧ ds = bs ++ [b] ∧ parent ∈ dirs ∧
      s.tree.resolve 0 bs = some (parent, true)) →
    ∃ bs b k r' u, searchLoop fuel t r parent name sub dirE =
        .ok (foundNo (s.tree.entry k b), r', u) ∧
      s.tree.Ends (ds ++ cs) bs b k ∧ Searched s u h r' bs b k := by
  induction fuel with
  | zero => exact fun _ _ _ _ _ _ _ _ hlen => absurd hlen (Nat.not_lt_zero _)
  | succ fuel ih =>
    intro t r parent n name sub dirE ds cs hw hd hn hds hpath hunknown hpend hvalid hlen hsize hlast
    unfold searchLoop
    rcases hpend with ⟨rfl, rfl⟩ | ⟨hname, rfl⟩
    · -- all names are directories: the record gets the parent of the last one
      obtain ⟨e, bs, b, rfl, rfl, rfl, hparent, hbs⟩ := hlast rfl
      obtain ⟨hlt, hno⟩ := hT.number parent hparent
      obtain ⟨a, u, hfinish, hu, hsees⟩ := hw.finishSearch (e := e) hlt hno
      obtain ⟨k, hk, hb⟩ := resolve_concat hds
      obtain ⟨rfl, -⟩ : parent = k ∧ True := by simpa using hbs.symm.trans hk
      refine ⟨bs, b, parent, { r with parentDir := .opened a, fileType := ftDirectory }, u, ?_,
        ⟨⟨[], by simp, fun _ _ => rfl⟩, hbs⟩, hpath, hu, hsees, ?_⟩
      · rw [if_pos rfl, hfinish, hb]
        rfl
      · rw [hb]
        rfl
    · have hv := hvalid name List.mem_cons_self
      have hrest : ∀ c ∈ sub.elim [] components, ValidName c := fun c hc =>
        hvalid c (List.mem_cons_of_mem _ hc)
      have hjoined : r.searchedPath ++ slash :: name = joined (ds ++ [name]) := by
        rw [joined_concat, hpath]
      have hshort : (r.searchedPath ++ slash :: name).length < maxPathLen := by
        rw [hjoined]
        rw [List.append_cons, joined_append, List.length_append] at hsize
        omega
      have hsearched : r.searchedPath.length < 512 := by
        rw [List.length_append, List.length_cons] at hshort
        unfold maxPathLen at hshort
        omega
      obtain ⟨e, he⟩ := hT.readable n hn name hv
      obtain ⟨u, hsearch, hu, hd'⟩ := hw.searchDirEntry hd he
      rw [if_neg hname, ensure_of hsearched, ok_bind]
      dsimp only
      rw [ensure_of hshort, ok_bind, hsearch, ok_bind]
      cases e with
      | none =>
        have hentry := entry_of_none he
        refine ⟨ds, name, n, { r with searchedPath := r.searchedPath ++ slash :: name }, u,
          by rw [hentry]; rfl, ⟨⟨_, rfl, ?_⟩, hds⟩, hjoined, hu, hd', ?_⟩
        · rw [hentry]
          exact fun _ h => absurd h (by simp)
        · rw [hentry]
          exact hunknown
      | some e =>
        obtain ⟨name', sub', hnext, hpend⟩ := nextName_pending _ fun c hc => (hrest c hc).2.1
        have hentry := entry_of_found he
        dsimp only
        rw [hnext, ok_bind]
        dsimp only
        by_cases htype : e.fType = ftDirectory
        · rw [decide_eq_true htype] at hentry
          have hm := hT.entries.mem_of_entry hn hv hentry
          obtain ⟨hlt, hno⟩ := hT.number _ hm
          obtain ⟨a, w, henter, hw', hsees⟩ := hu.enterDir hd' hlt hno
          have hds' : s.tree.resolve 0 (ds ++ [name]) = some (e.iNo, true) := by
            rw [resolve_append hds, resolve_singleton, hentry]
          rw [if_pos htype, henter, ok_bind, List.append_cons ds]
          refine ih hw' hsees hm hds' hjoined hunknown hpend hrest ?_ ?_
            fun _ => ⟨e, ds, name, rfl, rfl, rfl, hn, hds⟩
          · rw [List.length_cons] at hlen
            exact Nat.lt_of_succ_lt_succ hlen
          · rwa [← List.append_cons ds]
        · rw [decide_eq_false htype] at hentry
          have hregular := (hT.typed n hn name e hv he).resolve_right htype
          rw [if_neg htype, if_pos hregular]
          refine ⟨ds, name, n,
            { r with searchedPath := r.searchedPath ++ slash :: name, fileType := ftRegular }, u,
            by rw [hentry]; rfl, ⟨⟨_, rfl, ?_⟩, hds⟩, hjoined, hu, hd', ?_⟩
          · rw [hentry]
            exact fun _ h => absurd h (by simp)
          · rw [hentry]
            rfl

theorem length_le_joined (cs : List (List UInt8)) : cs.length ≤ (joined cs).length := by
  induction cs with
  | nil => simp
  | cons c cs ih =>
    rw [joined_cons, List.length_append, List.length_cons, List.length_cons]
    omega

/-- The root directory is open throughout a walk. -/
theorem Walks.sees_root (hw : Walks s t h) (hT : TreeOk s dirs) : Sees s t t.rootDir 0 := by
  obtain ⟨x, hx, hno⟩ := openInode_iNo hT.rootOpen
  obtain ⟨y, hy, hplace⟩ := hw.kept_inode (List.mem_of_find?_eq_some hT.rootOpen) hx
  rw [hw.opens.rootDir]
  exact ⟨y, hy, (iNo_of_place hplace).trans hno, by rw [hplace, view_of_open hT.rootOpen hx]⟩

/-- The paths that `search_file` answers at once. -/
def Shortcut (path : List UInt8) : Prop :=
  path = [slash] ∨ path = [slash, dot] ∨ path = [slash, dot, dot]

/-- `search_file` of a path with names walks down these names. -/
theorem Walks.searchFile_ends (hw : Walks s t h) (hT : TreeOk s dirs)
    (hlen : p.length + 1 < maxPathLen) (hvalid : ∀ c ∈ components p, ValidName c)
    (hne : components p ≠ []) (hwalk : ¬ Shortcut (slash :: p)) :
    ∃ ds c n r u, searchFile t (slash :: p) = .ok (foundNo (s.tree.entry n c), r, u) ∧
      s.tree.Ends (components p) ds c n ∧ Searched s u h r ds c n := by
  have hpos : 0 < p.length := by
    apply List.length_pos_of_ne_nil
    rintro rfl
    exact hne (by rw [components])
  have hensure : (slash :: p).head? = some slash ∧ 1 < (slash :: p).length ∧
      (slash :: p).length < maxPathLen := by
    rw [List.length_cons]
    exact ⟨rfl, by omega, hlen⟩
  have hjoined := length_joined_components p
  have hcount := length_le_joined (components (slash :: p))
  rw [components_slash] at hjoined hcount
  obtain ⟨name, sub, hnext, hpend⟩ := nextName_pending (some (slash :: p)) fun c hc =>
    (hvalid c (by rwa [Option.elim_some, components_slash] at hc)).2.1
  rw [Option.elim_some, components_slash] at hpend
  unfold searchFile
  unfold Shortcut at hwalk
  rw [if_neg hwalk, ensure_of hensure, ok_bind, hnext, ok_bind]
  have hstart : Walks s t (Dir.root.handles + h) := by simpa [Dir.handles] using hw
  have hroot : s.tree.resolve 0 [] = some (0, true) := rfl
  have hfuel : (components p).length < (slash :: p).length + 1 := by
    rw [List.length_cons]
    omega
  have hshort : (joined ([] ++ components p)).length < maxPathLen := by
    rw [List.nil_append]
    omega
  exact searchLoop_ends hT _ hstart (hw.sees_root hT) hT.entries.root hroot rfl rfl hpend hvalid
    hfuel hshort fun hnil => absurd hnil hne

/-- `search_file` returns the number that the names of the path lead to from the root. -/
theorem Walks.searchFile_resolve (hw : Walks s t h) (hT : TreeOk s dirs)
    (hlen : p.length + 1 < maxPathLen) (hvalid : ∀ c ∈ components p, ValidName c)
    (hroot : components p = [] → p = []) :
    ∃ r u, searchFile t (slash :: p) = .ok (foundNo (s.tree.resolve 0 (components p)), r, u) ∧
      Walks s u (r.parentDir.handles + h) ∧
      r.fileType = fileTypeOf (s.tree.resolve 0 (components p)) := by
  have hdot : components [dot] = [[dot]] := by simp [components, dot, slash]
  have hdots : components [dot, dot] = [[dot, dot]] := by simp [components, dot, slash]
  have hhere : s.tree.entry 0 [dot] = some (0, true) := hT.entries.here 0 hT.entries.root
  have hup : s.tree.entry 0 [dot, dot] = some (0, true) := hT.entries.upRoot
  by_cases hwalk : Shortcut (slash :: p)
  · have hzero : s.tree.resolve 0 (components p) = some (0, true) := by
      rcases hwalk with hp | hp | hp <;> obtain rfl := (List.cons.inj hp).2
      · rw [components, resolve_nil]
      · rw [hdot, resolve_singleton, hhere]
      · rw [hdots, resolve_singleton, hup]
    unfold searchFile
    unfold Shortcut at hwalk
    rw [if_pos hwalk, hzero]
    exact ⟨_, t, rfl, by simpa [Dir.handles] using hw, rfl⟩
  · have hne : components p ≠ [] := by
      intro h
      rw [hroot h] at hwalk
      exact hwalk (Or.inl rfl)
    obtain ⟨ds, c, n, r, u, hsearch, hends, hs⟩ := hw.searchFile_ends hT hlen hvalid hne hwalk
    have hwhere : s.tree.resolve 0 (components p) = s.tree.entry n c := hends.resolve
    rw [hwhere]
    exact ⟨r, u, hsearch, hs.walks, hs.fileType⟩

end Trees

end X86System.FileSystem
