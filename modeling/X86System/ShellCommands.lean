import X86System.CanonicalPaths
import X86System.WorkingDir

/-!
# Moving about in the shell

`cd` and `pwd` work on strings: the working directory is read as a string from the kernel, the
argument is appended, `.` and `..` are washed out of it, and the kernel searches for the result. To
the user the working directory is a stack of names.
-/
namespace X86System.FileSystem
open Bytes Exec PathTree Pieces

variable {s t : State} {x : Session} {p q path : List UInt8} {cs stack : List (List UInt8)}
  {dirs : Set UInt32}

section Source

/-- The bytes of a text. -/
def text (s : String) : List UInt8 := s.toUTF8.toList

/-- `make_clear_abs_path`; each `strcat` is to a buffer of `MAX_PATH_LEN` bytes. -/
def makeClearAbsPath (x : Session) (path : List UInt8) :
    Except Fault (List UInt8 × Session) := do
  if path.head? = some slash then
    ensure Fault.overrun (path.length < maxPathLen)
    let new ← washPath path
    .ok (new, x)
  else
    let (cwd, x) ← sysGetcwd x maxPathLen
    let absPath := match cwd with
      | none => []
      | some cwd => if cwd = [slash] then cwd else cwd ++ [slash]
    ensure Fault.overrun (absPath.length < maxPathLen)
    ensure Fault.overrun ((absPath ++ path).length < maxPathLen)
    let new ← washPath (absPath ++ path)
    .ok (new, x)

/-- The path that `buildin_cd` enters. -/
def cdPath (x : Session) : List (List UInt8) → Except Fault (List UInt8 × Session)
  | [] => .ok ([slash], x)
  | path :: _ => makeClearAbsPath x path

/-- `buildin_cd` with the arguments behind `argv[0]`: what it prints, and whether it returns a
path. -/
def buildinCd (x : Session) (args : List (List UInt8)) :
    Except Fault (List UInt8 × Bool × Session) := do
  if 1 < args.length then .ok (text "cd: only support 1 argument!\n", false, x)
  else
    let (finalPath, x) ← cdPath x args
    let (moved, x) ← sysChdir x finalPath
    if moved then .ok ([], true, x)
    else .ok (text "cd: no such directory " ++ finalPath ++ text "\n", false, x)

def buildinPwd (x : Session) (args : List (List UInt8)) : Except Fault (List UInt8 × Session) := do
  if args ≠ [] then .ok (text "pwd: no argument support!\n", x)
  else
    let (cwd, x) ← sysGetcwd x maxPathLen
    match cwd with
    | some cwd => .ok (cwd ++ text "\n", x)
    | none => .ok (text "pwd: get current work directory failed.\n", x)

/-- The commands that look at the working directory, with the arguments behind `argv[0]`. -/
inductive NavCommand
  | cd (args : List (List UInt8))
  | pwd (args : List (List UInt8))

def NavCommand.execute (x : Session) : NavCommand → Except Fault (List UInt8 × Session)
  | .cd args => do
    let (printed, _, x) ← buildinCd x args
    .ok (printed, x)
  | .pwd args => buildinPwd x args

/-- Commands one after the other, and all that they print. -/
def executeAll (x : Session) : List NavCommand → Except Fault (List UInt8 × Session)
  | [] => .ok ([], x)
  | c :: l => do
    let (printed, x) ← c.execute x
    let (rest, x) ← executeAll x l
    .ok (printed ++ rest, x)

end Source

section Stacks

/-- Where a path leads from the directory with the names `stack`. -/
def destination (stack : List (List UInt8)) (path : List UInt8) : List (List UInt8) :=
  (components path).foldl pushName (if path.head? = some slash then [] else stack)

/-- The names lead to a directory. -/
def State.leadsToDir (s : State) (stack : List (List UInt8)) : Bool :=
  match s.tree.resolve 0 stack with
  | some (_, true) => true
  | _ => false

/-- `cd` as the user sees it: the names of the new directory, if there is one. -/
def State.moveTo (s : State) (stack new : List (List UInt8)) : List UInt8 × List (List UInt8) :=
  if s.leadsToDir new then ([], new)
  else (text "cd: no such directory " ++ render new ++ text "\n", stack)

/-- What a command prints, and the working directory behind it. -/
def NavCommand.meaning (s : State) (stack : List (List UInt8)) :
    NavCommand → List UInt8 × List (List UInt8)
  | .cd [] => s.moveTo stack []
  | .cd [path] => s.moveTo stack (destination stack path)
  | .cd _ => (text "cd: only support 1 argument!\n", stack)
  | .pwd [] => (render stack ++ text "\n", stack)
  | .pwd _ => (text "pwd: no argument support!\n", stack)

def meaningAll (s : State) (stack : List (List UInt8)) :
    List NavCommand → List UInt8 × List (List UInt8)
  | [] => ([], stack)
  | c :: l =>
    let (printed, stack) := c.meaning s stack
    let (rest, stack) := meaningAll s stack l
    (printed ++ rest, stack)

/-- The buffers hold the path that a command makes. -/
def NavCommand.Fits (stack : List (List UInt8)) : NavCommand → Prop
  | .cd [path] => 0 ∉ path ∧ (∀ c ∈ components path, c.length < maxFileNameLen) ∧
      (render stack).length + 1 + path.length < maxPathLen
  | _ => True

def FitsAll (s : State) (stack : List (List UInt8)) : List NavCommand → Prop
  | [] => True
  | c :: l => c.Fits stack ∧ FitsAll s (c.meaning s stack).2 l

end Stacks

section Paths

/-- The names of a stack and of a path that is appended. -/
theorem components_append (hcs : ∀ c ∈ cs, ValidName c) (p : List UInt8) :
    components (joined cs ++ slash :: p) = cs ++ components p := by
  rw [components_eq_splitOn, components_eq_splitOn]
  show pieces slash _ = cs ++ pieces slash p
  induction cs with
  | nil =>
    rw [joined, List.flatMap_nil, List.nil_append, List.nil_append, pieces_sep]
  | cons c cs ih =>
    have hrest := ih fun d hd => hcs d (List.mem_cons_of_mem c hd)
    obtain ⟨hne, -, hslash, -⟩ := hcs c List.mem_cons_self
    obtain ⟨r, hr⟩ : ∃ r, joined cs ++ slash :: p = slash :: r := by
      cases cs with
      | nil => exact ⟨p, rfl⟩
      | cons d cs => exact ⟨d ++ (joined cs ++ slash :: p), by rw [joined_cons]; simp⟩
    rw [hr, pieces_sep] at hrest
    have hcons : joined (c :: cs) ++ slash :: p = slash :: (c ++ slash :: r) := by
      rw [← hr, joined_cons]
      simp
    rw [hcons, pieces_sep, pieces_append_sep hne hslash, hrest, List.cons_append]

theorem length_render (stack : List (List UInt8)) :
    (joined stack).length ≤ (render stack).length := by
  unfold render
  split_ifs with h
  · rw [h]
    exact Nat.zero_le _
  · exact le_rfl

/-- The path that `make_clear_abs_path` washes. -/
theorem absolute_path (hstack : PlainStack stack) (path : List UInt8) : ∃ q,
    (if render stack = [slash] then render stack else render stack ++ [slash]) ++ path =
      slash :: q ∧
      components q = stack ++ components path ∧
      (slash :: q).length ≤ (render stack).length + 1 + path.length := by
  by_cases hne : stack = []
  · subst hne
    refine ⟨path, by simp, rfl, ?_⟩
    rw [List.length_cons, render_nil, List.length_singleton]
    omega
  · have hvalid : ∀ c ∈ stack, ValidName c := fun c hc => (hstack c hc).1
    obtain ⟨q, hq, -⟩ := render_eq hvalid
    have hpath := components_append hvalid path
    rw [← render_of_ne hne, hq, List.cons_append, components_slash] at hpath
    refine ⟨q ++ slash :: path, ?_, hpath, ?_⟩
    · rw [render_of_ne hne, if_neg (joined_ne_slash hvalid hne), ← render_of_ne hne, hq]
      simp
    · rw [hq, List.length_cons, List.length_cons, List.length_append, List.length_cons]
      omega

/-- Washing makes no path longer. -/
theorem length_render_wash (q : List UInt8) :
    (render ((components q).foldl pushName [])).length ≤ q.length + 1 := by
  have hjoined := length_joined_components q
  have hwash := length_joined_wash (components q)
  rw [components_slash] at hjoined
  unfold render
  split_ifs
  · rw [List.length_singleton]
    omega
  · omega

theorem plainStack_destination (hstack : PlainStack stack)
    (hvalid : ∀ c ∈ components path, ValidName c) : PlainStack (destination stack path) := by
  unfold destination
  split_ifs
  · exact plainStack_foldl (fun c hc => absurd hc (by simp)) hvalid
  · exact plainStack_foldl hstack hvalid

end Paths

section Calls

/-- `sys_chdir` of a path enters the directory that the names lead to, if there is one. -/
theorem Walks.sysChdir {h : Multiset InodePtr} (hw : Walks s x.fs h) (hT : TreeOk s dirs)
    (hlen : p.length + 1 < maxPathLen) (hvalid : ∀ c ∈ components p, ValidName c)
    (hroot : components p = [] → p = []) :
    ∃ t moved cwd, sysChdir x (slash :: p) = .ok (moved, { x with fs := t, cwdInodeNr := cwd }) ∧
      Walks s t h ∧ moved = s.leadsToDir (components p) ∧
      (moved = false → cwd = x.cwdInodeNr) ∧
      (moved = true → s.tree.resolve 0 (components p) = some (cwd x.fs.cur, true)) := by
  obtain ⟨r, u, hsearch, hu, htype⟩ := hw.searchFile_resolve hT hlen hvalid hroot
  obtain ⟨t, hclose, ht⟩ := hu.dirClose
  unfold FileSystem.sysChdir State.leadsToDir
  rw [hsearch, ok_bind]
  dsimp only
  rw [hclose, ok_bind]
  refine ⟨t, _, _, rfl, ht, ?_⟩
  rcases hres : s.tree.resolve 0 (components p) with _ | ⟨n, _ | _⟩
  · simp [foundNo]
  · have hfile : r.fileType ≠ ftDirectory := by
      rw [htype, hres]
      show ftRegular ≠ ftDirectory
      decide
    simp [hfile]
  · have hdir : r.fileType = ftDirectory := by rw [htype, hres]; rfl
    have hne : n ≠ minusOne := by
      rintro rfl
      exact absurd (hT.number _ (hT.entries.mem_of_resolve hvalid hres)).1 (by decide)
    simp [foundNo, hdir, hne]

/-- The working directory is the one that the names lead to. -/
structure Located (s : State) (x : Session) (stack : List (List UInt8)) : Prop where
  walks : Walks s x.fs 0
  plain : PlainStack stack
  fits : (render stack).length < maxPathLen
  cwd : s.tree.resolve 0 stack = some (x.cwdInodeNr x.fs.cur, true)

theorem Located.getcwd (h : Located s x stack) (hD : DirTree s dirs) :
    ∃ t, sysGetcwd x maxPathLen = .ok (some (render stack), { x with fs := t }) ∧
      Located s { x with fs := t } stack := by
  obtain ⟨t, ht, hw⟩ := h.walks.sysGetcwd hD h.plain
    (lt_of_le_of_lt (length_render stack) h.fits) h.cwd
  refine ⟨t, ht, hw, h.plain, h.fits, ?_⟩
  rw [h.cwd, h.walks.opens.cur, ← hw.opens.cur]

/-- `make_clear_abs_path` makes the path of the destination. -/
theorem Located.makeClearAbsPath (h : Located s x stack) (hD : DirTree s dirs)
    (hfits : (NavCommand.cd [path]).Fits stack) : ∃ t,
    makeClearAbsPath x path = .ok (render (destination stack path), { x with fs := t }) ∧
      Located s { x with fs := t } stack ∧ PlainStack (destination stack path) ∧
      (render (destination stack path)).length < maxPathLen := by
  obtain ⟨hzero, hshort, hlen⟩ := hfits
  have hvalid := valid_components hzero hshort
  have hplain := plainStack_destination h.plain hvalid
  unfold FileSystem.makeClearAbsPath
  unfold destination at hplain ⊢
  by_cases habs : path.head? = some slash
  · obtain ⟨q, rfl⟩ := List.head?_eq_some_iff.mp habs
    rw [List.length_cons] at hlen
    rw [components_slash] at hvalid ⊢
    rw [if_pos habs, components_slash] at hplain
    have hwash := length_render_wash q
    rw [if_pos habs, if_pos habs, ensure_of (by rw [List.length_cons]; omega), ok_bind,
      washPath_render (by omega) hvalid, ok_bind]
    exact ⟨x.fs, rfl, h, hplain, by omega⟩
  · obtain ⟨t, hcwd, ht⟩ := h.getcwd hD
    obtain ⟨q, hq, hnames, hshort⟩ := absolute_path h.plain path
    rw [if_neg habs, if_neg habs, hcwd, ok_bind]
    dsimp only
    have happend := congrArg List.length hq
    rw [List.length_append] at happend
    rw [List.length_cons] at hshort happend
    have hwash := length_render_wash q
    rw [if_neg habs] at hplain
    rw [hnames, List.foldl_append, foldl_plainStack h.plain, List.nil_append] at hwash
    rw [ensure_of (by omega), ok_bind, hq, ensure_of (by rw [List.length_cons]; omega), ok_bind,
      washPath_render (by omega) ?_, ok_bind, hnames, List.foldl_append,
      foldl_plainStack h.plain, List.nil_append]
    · exact ⟨t, rfl, ht, hplain, by omega⟩
    · rw [hnames]
      exact fun c hc => (List.mem_append.mp hc).elim (fun hc => (h.plain c hc).1) (hvalid c)

/-- `sys_chdir` to the path of a stack. -/
theorem Located.chdir (h : Located s x stack) (hD : DirTree s dirs) (new : List (List UInt8))
    (hnew : PlainStack new) (hlen : (render new).length < maxPathLen) :
    ∃ y, sysChdir x (render new) = .ok (s.leadsToDir new, y) ∧
      Located s y (s.moveTo stack new).2 := by
  obtain ⟨q, hq, hnames, hempty, -⟩ := render_eq fun c hc => (hnew c hc).1
  have hvalid : ∀ c ∈ components q, ValidName c := by
    rw [hnames]
    exact fun c hc => (hnew c hc).1
  obtain ⟨t, moved, cwd, hchdir, hw, hmoved, hstays, hgoes⟩ := h.walks.sysChdir hD.toTreeOk
    (by rwa [hq, List.length_cons] at hlen) hvalid hempty
  rw [hnames] at hmoved hgoes
  rw [← hq] at hchdir
  have hcur : t.cur = x.fs.cur := hw.opens.cur.trans h.walks.opens.cur.symm
  refine ⟨_, hmoved ▸ hchdir, ?_⟩
  unfold State.moveTo
  rw [← hmoved]
  cases moved with
  | false =>
    obtain rfl := hstays rfl
    rw [if_neg (by simp)]
    exact ⟨hw, h.plain, h.fits, by rw [h.cwd, hcur]⟩
  | true =>
    rw [if_pos rfl]
    exact ⟨hw, hnew, hlen, by rw [hgoes rfl, hcur]⟩

/-- What `buildin_cd` prints for a destination. -/
theorem moved_printed (stack new : List (List UInt8)) (y : Session) :
    (if s.leadsToDir new then Except.ok (([] : List UInt8), true, y)
      else .ok (text "cd: no such directory " ++ render new ++ text "\n", false, y) :
        Except Fault (List UInt8 × Bool × Session)) =
      .ok ((s.moveTo stack new).1, s.leadsToDir new, y) := by
  unfold State.moveTo
  cases s.leadsToDir new <;> rfl

theorem Located.cd (h : Located s x stack) (hD : DirTree s dirs) {args : List (List UInt8)}
    (hfits : (NavCommand.cd args).Fits stack) : ∃ y,
    (NavCommand.cd args).execute x = .ok (((NavCommand.cd args).meaning s stack).1, y) ∧
      Located s y ((NavCommand.cd args).meaning s stack).2 := by
  rw [NavCommand.execute, buildinCd]
  match args with
  | [] =>
    obtain ⟨y, hy, hlocated⟩ := h.chdir hD [] (by simp [PlainStack]) (by decide)
    refine ⟨y, ?_, hlocated⟩
    rw [if_neg (by simp), cdPath, ok_bind]
    dsimp only
    rw [← render_nil, hy, ok_bind]
    dsimp only
    rw [moved_printed stack, ok_bind]
    rfl
  | [path] =>
    obtain ⟨t, ht, hlocated, hplain, hlen⟩ := h.makeClearAbsPath hD hfits
    obtain ⟨y, hy, hmoved⟩ := hlocated.chdir hD _ hplain hlen
    refine ⟨y, ?_, hmoved⟩
    rw [if_neg (by simp), cdPath, ht, ok_bind]
    dsimp only
    rw [hy, ok_bind]
    dsimp only
    rw [moved_printed stack, ok_bind]
    rfl
  | _ :: _ :: _ => exact ⟨x, rfl, h⟩

/-- A command prints and does what it means. -/
theorem Located.execute (h : Located s x stack) (hD : DirTree s dirs) {c : NavCommand}
    (hfits : c.Fits stack) : ∃ y, c.execute x = .ok ((c.meaning s stack).1, y) ∧
      Located s y (c.meaning s stack).2 := by
  cases c with
  | cd args => exact h.cd hD hfits
  | pwd args =>
    cases args with
    | nil =>
      obtain ⟨t, ht, hlocated⟩ := h.getcwd hD
      refine ⟨_, ?_, hlocated⟩
      rw [NavCommand.execute, buildinPwd, if_neg (by simp), ht, ok_bind]
      rfl
    | cons arg args => exact ⟨x, rfl, h⟩

/-- The shell's commands work on the working directory as on a stack of names. -/
theorem shell_navigates (hD : DirTree s dirs) : ∀ (l : List NavCommand) {x : Session}
    {stack : List (List UInt8)}, Located s x stack → FitsAll s stack l →
    ∃ y, executeAll x l = .ok ((meaningAll s stack l).1, y) ∧
      Located s y (meaningAll s stack l).2 := by
  intro l
  induction l with
  | nil => exact fun h _ => ⟨_, rfl, h⟩
  | cons c l ih =>
    intro x stack h hfits
    obtain ⟨y, hy, hlocated⟩ := h.execute hD hfits.1
    obtain ⟨z, hz, hend⟩ := ih hlocated hfits.2
    refine ⟨z, ?_, hend⟩
    rw [executeAll, hy, ok_bind]
    dsimp only
    rw [hz, ok_bind]
    rfl

theorem sampleSession_located : Located sampleSession.fs sampleSession [] where
  walks := Walks.refl sampleSession_tree.opens fun _ => rfl
  plain := by simp [PlainStack]
  fits := by decide
  cwd := rfl

/-- `cd d/.` and `pwd` print `/d`. -/
theorem shell_navigates_d : ∃ y, executeAll sampleSession [.cd [pathDHere], .pwd []] =
    .ok (render [[0x64]] ++ text "\n", y) ∧ Located sampleSession.fs y [[0x64]] := by
  have hfits : FitsAll sampleSession.fs [] [.cd [pathDHere], .pwd []] := by
    refine ⟨⟨by decide, ?_, by decide⟩, trivial, trivial⟩
    rw [components_pathDHere]
    decide
  have hdest : destination [] pathDHere = [[0x64]] := by
    rw [destination, components_pathDHere]
    rfl
  have hdir : sampleSession.fs.leadsToDir [[0x64]] = true := by decide
  have hmeaning : meaningAll sampleSession.fs [] [.cd [pathDHere], .pwd []] =
      (render [[0x64]] ++ text "\n", [[0x64]]) := by
    simp [meaningAll, NavCommand.meaning, hdest, State.moveTo, hdir]
  have hrun := shell_navigates sampleSession_dirTree _ sampleSession_located hfits
  rwa [hmeaning] at hrun

end Calls

end X86System.FileSystem
