import X86System.Slots

/-!
# What each call does

Every slot that refers to an inode, every directory handle and the root directory is
a handle that the inode's count covers, so that closing never finds an inode gone.
With this a call that returns has one of a few effects on the tables and counts;
the invariants of runs are shown for each effect.
-/
namespace X86System.FileSystem
open Bytes Exec

variable {s s₀ t u : State} {a b : InodePtr} {h H H' : Multiset InodePtr} {g : ℕ} {f : File}

/-- Every slot and every handle in `H` is covered by the count of its inode. -/
structure Backed (s : State) (H : Multiset InodePtr) : Prop where
  ok : OpenOk s
  counted : ∀ a, (s.slotsOf a).card + H.count a ≤ s.openCount a

section Backed

theorem Backed.slot_open (hb : Backed s H) (hf : s.fileTable[g]? = some f)
    (hfile : f.fdFlag ≠ pipeFlag) (ha : f.fdInode = some a) : a ∈ s.openInodes := by
  rw [← hb.ok.openCount_pos]
  have hmem : g ∈ s.slotsOf a := mem_slotsOf.mpr ⟨f, hf, hfile, ha⟩
  have hpos := Finset.card_pos.mpr ⟨g, hmem⟩
  have := hb.counted a
  omega

theorem Backed.held_open (hb : Backed s H) (ha : a ∈ H) : a ∈ s.openInodes := by
  rw [← hb.ok.openCount_pos]
  have hpos := Multiset.count_pos.mpr ha
  have := hb.counted a
  omega

theorem Backed.le (hb : Backed s H) (hle : H' ≤ H) : Backed s H' :=
  ⟨hb.ok, fun a => (Nat.add_le_add_left (Multiset.count_le_of_le a hle) _).trans (hb.counted a)⟩

theorem Backed.opens (hb : Backed s H) (ho : Opens s t h) : Backed t (h + H) := by
  refine ⟨ho.ok, fun a => ?_⟩
  have := hb.counted a
  rw [ho.tables.slotsOf, ho.count, Multiset.count_add]
  omega

/-- A handle goes, and what it was counted for. -/
theorem Backed.shut (hb : Backed s (a ::ₘ H)) (hst : Shut s t a) : Backed t H := by
  refine ⟨hst.ok, fun b => ?_⟩
  have hcnt := hb.counted b
  have hback := hst.count b
  rw [hst.tables.slotsOf]
  by_cases hba : b = a
  · subst hba
    rw [if_pos rfl] at hback
    rw [Multiset.count_cons_self] at hcnt
    omega
  · rw [if_neg hba] at hback
    rw [Multiset.count_cons_of_ne hba] at hcnt
    omega

/-- The slots of an inode after one was taken. -/
theorem TakesSlot.card {flag : UInt32} {o : Option InodePtr} (htake : TakesSlot s flag o u)
    (hflag : flag ≠ pipeFlag) (a : InodePtr) :
    (u.slotsOf a).card = (s.slotsOf a).card + (slotHandle o).count a := by
  have hfill : ∀ {g : ℕ} {b : InodePtr}, s.freeSlot g →
      ((s.setFile g ⟨0, flag, some b⟩).slotsOf a).card =
        (s.slotsOf a).card + ({b} : Multiset InodePtr).count a := by
    intro g b hfree
    have hnot : g ∉ s.slotsOf a := notMem_slotsOf_of_free hfree
    obtain ⟨f, hf, -⟩ := hfree
    rw [slotsOf_setFile (lt_of_slot hf)]
    by_cases hba : b = a
    · subst hba
      simp [hflag, Finset.card_insert_of_notMem hnot]
    · simp [hba, Ne.symm hba, Finset.erase_eq_of_notMem hnot]
  cases htake with
  | none => simp [slotHandle]
  | cleared _ hfree =>
    have hnot := notMem_slotsOf_of_free (a := a) hfree
    obtain ⟨f, hf, -⟩ := hfree
    rw [slotsOf_setFile (lt_of_slot hf)]
    simp [slotHandle, Finset.erase_eq_of_notMem hnot]
  | filled _ hfree => exact hfill hfree
  | named _ hfree => exact hfill hfree

theorem TakesSlot.openCount {flag : UInt32} {o : Option InodePtr} (htake : TakesSlot s flag o u)
    (a : InodePtr) : u.openCount a = s.openCount a := by
  cases htake <;> rfl

theorem Backed.opened {flag : UInt32} {P : InodePtr → Prop} (hb : Backed s H)
    (ho : Opened s flag h P t) (hflag : flag ≠ pipeFlag) : Backed t H := by
  obtain ⟨o, u, htake, hu, -⟩ := ho
  refine ⟨hu.ok, fun a => ?_⟩
  have hcnt := hb.counted a
  rw [hu.tables.slotsOf, hu.count, htake.card hflag, htake.openCount, Multiset.count_add]
  omega

end Backed

section Closing

/-- `file_close` of a slot whose inode is open. -/
theorem fileClose_shut (hs : OpenOk s) (hf : s.fileTable[g]? = some f)
    (ha : f.fdInode = some a) (hopen : a ∈ s.openInodes) :
    ∃ t, fileClose s g = .ok (t.setFile g { f with fdInode := none }) ∧ Shut s t a := by
  obtain ⟨x, hx, hpos⟩ := hs.live a hopen
  have hfile : s.file g = .ok f := by
    unfold State.file
    rw [hf]
  have hok : OpenOk (s.setInode a { x with writeDeny := 0 }) := hs.setInode hpos
  obtain ⟨t, ht, hshut⟩ := inodeClose_shut hok hopen
  have hcount : ∀ b, (s.setInode a { x with writeDeny := 0 }).openCount b = s.openCount b := by
    intro b
    rw [openCount_setInode hopen]
    by_cases hba : b = a
    · rw [if_pos hba, hba, openCount_of_mem hopen hx]
    · rw [if_neg hba]
  refine ⟨t, ?_, hshut.ok, fun b => (hshut.count b).trans (hcount b), fun b hb => ?_,
    hshut.nextInode, hshut.rootDir, hshut.part, hshut.cur, ?_⟩
  · unfold fileClose
    rw [hfile, ok_bind, ha, deref_some, ok_bind, hx, deref_some, ok_bind, ht, ok_bind]
  · refine ⟨(hshut.kept b hb).1, (hshut.kept b hb).2.trans ?_⟩
    by_cases hba : b = a
    · simp [State.setInode, hba, hx]
    · simp [State.setInode, hba]
  · exact ⟨hshut.tables.slots, hshut.tables.tasks⟩

/-- The slot loses its inode and the inode one of its handles. -/
theorem Backed.fileClose (hb : Backed s H) (hf : s.fileTable[g]? = some f)
    (hfile : f.fdFlag ≠ pipeFlag) (ha : f.fdInode = some a) (hst : Shut s t a) :
    Backed (t.setFile g { f with fdInode := none }) H := by
  refine ⟨hst.ok.tables rfl rfl rfl, fun b => ?_⟩
  have hcnt := hb.counted b
  have hback := hst.count b
  have hopen : (t.setFile g { f with fdInode := none }).openCount b = t.openCount b := rfl
  have hslots : (t.setFile g { f with fdInode := none }).slotsOf b = (s.slotsOf b).erase g := by
    rw [slotsOf_setFile (lt_of_slot hf), hst.tables.slotsOf]
    simp
  rw [hopen, hslots]
  by_cases hba : b = a
  · subst hba
    have hmem : g ∈ s.slotsOf b := mem_slotsOf.mpr ⟨f, hf, hfile, ha⟩
    have hcard := Finset.card_erase_add_one hmem
    rw [if_pos rfl] at hback
    omega
  · have hcard := Finset.card_erase_le (s := s.slotsOf b) (a := g)
    rw [if_neg hba] at hback
    omega

end Closing

section LocalTables

/-- Descriptor `fd` of process `p` names slot `g`. -/
def State.names (s : State) (p fd g : ℕ) : Prop :=
  ∃ task, s.tasks p = some task ∧ task.fd fd = some (g : ℤ)

theorem localFd_ok {fd : ℕ} {v : ℤ} (hv : localFd s fd = .ok v) :
    ∃ task, s.tasks s.cur = some task ∧ task.fd fd = some v := by
  unfold localFd at hv
  cases htask : s.tasks s.cur with
  | none =>
    rw [htask] at hv
    exact absurd hv (by simp)
  | some task =>
    rw [htask, deref_some, ok_bind] at hv
    cases hfd : task.fd fd with
    | none => simp [hfd] at hv
    | some w =>
      simp only [hfd] at hv
      exact ⟨task, rfl, hfd.trans (congrArg some (Except.ok.inj hv))⟩

theorem fdLocal2Global_ok {fd : ℕ} (hg : fdLocal2Global s fd = .ok g) :
    s.names s.cur fd g ∧ g < 32 := by
  have hspec : Returns (fdLocal2Global s fd) fun g => s.names s.cur fd g ∧ g < 32 := by
    refine returns_bind fun v hv => returns_ensure fun hrange => ?_
    obtain ⟨task, htask, hfd⟩ := localFd_ok hv
    have hval : ((v.toNat : ℕ) : ℤ) = v := Int.toNat_of_nonneg hrange.1
    exact ⟨⟨task, htask, by rw [hfd, hval]⟩, by omega⟩
  exact hspec.of_ok hg

theorem storeFd_spec (s : State) (fd : ℕ) (v : ℤ) : Returns (storeFd s fd v) fun t =>
    ∃ task, s.tasks s.cur = some task ∧ fd < 8 ∧ t = s.setTask s.cur (task.setFd fd v) := by
  unfold storeFd
  cases htask : s.tasks s.cur with
  | none => trivial
  | some task =>
    rw [deref_some, ok_bind]
    exact returns_ensure fun hfd => ⟨task, rfl, hfd, rfl⟩

theorem State.names.unique {p fd g g' : ℕ} (hn : s.names p fd g) (hn' : s.names p fd g') :
    g = g' := by
  obtain ⟨task, htask, hfd⟩ := hn
  obtain ⟨task', htask', hfd'⟩ := hn'
  obtain rfl : task = task' := Option.some.inj (htask.symm.trans htask')
  have := Option.some.inj (hfd.symm.trans hfd')
  exact_mod_cast this

theorem file_ok (hf : s.file g = .ok f) : s.fileTable[g]? = some f := by
  unfold State.file at hf
  cases hslot : s.fileTable[g]? with
  | none => simp [hslot] at hf
  | some f' =>
    simp only [hslot] at hf
    exact congrArg some (Except.ok.inj hf)

/-- `is_pipe` looks at the flag of the slot. -/
theorem isPipe_ok {fd : ℕ} {pipe : Bool} (hp : isPipe s fd = .ok pipe) :
    ∃ g f, s.names s.cur fd g ∧ s.fileTable[g]? = some f ∧
      pipe = decide (f.fdFlag = pipeFlag) := by
  have hspec : Returns (isPipe s fd) fun pipe => ∃ g f, s.names s.cur fd g ∧
      s.fileTable[g]? = some f ∧ pipe = decide (f.fdFlag = pipeFlag) := by
    refine returns_bind fun g hg => returns_bind fun f hf => ?_
    exact ⟨g, f, (fdLocal2Global_ok hg).1, file_ok hf, rfl⟩
  exact hspec.of_ok hp

/-- A slot that `is_pipe` says no to is that of a file. -/
theorem fileSlot_of_isPipe {fd : ℕ} {pipe : Bool} (hp : isPipe s fd = .ok pipe)
    (hno : ¬ pipe) (hn : s.names s.cur fd g) : FileSlot s g := by
  obtain ⟨g', f, hn', hf, rfl⟩ := isPipe_ok hp
  obtain rfl := hn.unique hn'
  intro f' hf'
  obtain rfl : f = f' := Option.some.inj (hf.symm.trans hf')
  simpa using hno

theorem sysWrite_still (s : State) (fd : ℤ) (src : Image) (count : UInt32) :
    Stills s (sysWrite s fd src count) id := by
  refine Stills.ite (fun _ => Still.refl s) fun _ => returns_bind fun pipe hp => ?_
  refine Stills.ite (fun _ => Still.refl s) fun hno => returns_bind fun g hg => ?_
  have hfile := fileSlot_of_isPipe hp (fun h => hno (Or.inl h)) (fdLocal2Global_ok hg).1
  refine Stills.skip fun f => Stills.ite (fun _ => ?_) fun _ => Still.refl s
  exact Stills.bind (fileWrite_still hfile src count) fun v => Still.refl v.2

theorem sysRead_still (s : State) (fd : ℤ) (count : UInt32) :
    Stills s (sysRead s fd count) id := by
  refine Stills.ite (fun _ => Still.refl s) fun _ => returns_bind fun pipe hp => ?_
  refine Stills.ite (fun _ => Still.refl s) fun hno => returns_bind fun g hg => ?_
  have hfile := fileSlot_of_isPipe hp (fun h => hno (Or.inl h)) (fdLocal2Global_ok hg).1
  exact Stills.bind (fileRead_still hfile zeros count) fun v => Still.refl v.2.2

end LocalTables

section Effects

variable {x y : Session}

/-- The handles that are not slots: the root directory and the opened directories. -/
def Session.held (x : Session) : Multiset InodePtr := x.fs.rootDir ::ₘ x.handles.bind Dir.handles

/-- One descriptor of a slot goes. -/
inductive Dropped (x : Session) (g : ℕ) : Session → Prop
  | file {f : File} {a : InodePtr} {t : State} : x.fs.fileTable[g]? = some f →
      f.fdFlag ≠ pipeFlag → f.fdInode = some a → Shut x.fs t a →
      Dropped x g { x with fs := t.setFile g { f with fdInode := none } }
  | last {f : File} {page : ℕ} : x.fs.fileTable[g]? = some f → f.fdFlag = pipeFlag →
      f.fdPos - 1 = 0 → f.fdInode = some page →
      Dropped x g { x with
        fs := x.fs.setFile g { f with fdPos := 0, fdInode := none }
        ringPages := x.ringPages.erase page }
  | more {f : File} : x.fs.fileTable[g]? = some f → f.fdFlag = pipeFlag → f.fdPos - 1 ≠ 0 →
      Dropped x g { x with fs := x.fs.setFile g { f with fdPos := f.fdPos - 1 } }

theorem dropPipe_dropped (hf : x.fs.fileTable[g]? = some f) (hpipe : f.fdFlag = pipeFlag) :
    Returns (dropPipe x g) (Dropped x g) := by
  have hfile : x.fs.file g = .ok f := by
    unfold State.file
    rw [hf]
  unfold dropPipe
  rw [hfile, ok_bind]
  refine returns_ite (fun hlast => ?_) fun hmore => .more hf hpipe hmore
  cases hpage : f.fdInode with
  | none => trivial
  | some page => exact .last hf hpipe hlast hpage

theorem closeSlot_dropped (hb : Backed x.fs H) (hf : x.fs.fileTable[g]? = some f) {pipe : Bool}
    (hpipe : pipe = decide (f.fdFlag = pipeFlag)) :
    Returns (closeSlot x g pipe) (Dropped x g) := by
  subst hpipe
  unfold closeSlot
  refine returns_ite (fun h => dropPipe_dropped hf (of_decide_eq_true h)) fun h => ?_
  have hfile : f.fdFlag ≠ pipeFlag := by simpa using h
  cases ha : f.fdInode with
  | none =>
    have hslot : x.fs.file g = .ok f := by
      unfold State.file
      rw [hf]
    unfold fileClose
    rw [hslot, ok_bind, ha, deref_none]
    trivial
  | some a =>
    obtain ⟨t, ht, hshut⟩ := fileClose_shut hb.ok hf ha (hb.slot_open hf hfile ha)
    rw [ht]
    exact .file hf hfile ha hshut

theorem Dropped.tasks (hd : Dropped x g y) : y.fs.tasks = x.fs.tasks := by
  cases hd with
  | file _ _ _ hshut => exact hshut.tables.tasks
  | last => rfl
  | more => rfl

theorem Dropped.cur (hd : Dropped x g y) : y.fs.cur = x.fs.cur := by
  cases hd with
  | file _ _ _ hshut => exact hshut.cur
  | last => rfl
  | more => rfl

/-- The running process gives up a descriptor. -/
theorem sysClose_dropped (hb : Backed x.fs H) (fd : ℤ) : Returns (sysClose x fd) fun r =>
    fd ≤ 2 ∧ r = (false, x) ∨ ∃ g u task, 2 < fd ∧ x.fs.names x.fs.cur fd.toNat g ∧ Dropped x g u ∧
      x.fs.tasks x.fs.cur = some task ∧
      r = (true, { u with fs := u.fs.setTask x.fs.cur (task.setFd fd.toNat (-1)) }) := by
  refine returns_ite (fun hfd => ?_) fun hfd => Or.inl ⟨Int.not_lt.mp hfd, rfl⟩
  refine returns_bind fun g hg => returns_bind fun pipe hp => ?_
  obtain ⟨g', f, hn', hf, hpipe⟩ := isPipe_ok hp
  have hn := (fdLocal2Global_ok hg).1
  obtain rfl := hn.unique hn'
  refine Returns.bind (closeSlot_dropped hb hf hpipe) fun u hu => ?_
  refine Returns.bind (storeFd_spec ..) fun t ⟨task, htask, _, ht⟩ => ?_
  rw [hu.tasks, hu.cur] at htask
  exact Or.inr ⟨g, u, task, hfd, hn, hu, htask, by rw [ht, hu.cur]⟩

/-- The state in which a pipe has its slot and its page. -/
def State.withPipe (s : State) (g : ℕ) : State :=
  { s with heap := fun k => s.heap (k + 1), nextInode := s.nextInode + 1 }.setFile g
    { fdPos := 2, fdFlag := pipeFlag, fdInode := some s.nextInode }

/-- The effects that a call of the running process may have. -/
inductive Effect (x : Session) : Call → Session → Prop
  | quiet {c : Call} {y : Session} {h : Multiset InodePtr} : Opens x.fs y.fs h →
      y.ringPages = x.ringPages → y.held ≤ h + x.held → Effect x c y
  | shut {d : Dir} {y : Session} {a : InodePtr} : Shut x.fs y.fs a →
      y.ringPages = x.ringPages → x.held = a ::ₘ y.held → Effect x (.closedir d) y
  | opened {path : List UInt8} {flags : UInt8} {t : State} {h : Multiset InodePtr} :
      Opened x.fs flags.toUInt32 h (fun a => x.fs.nextInode ≤ a ∨
        ∃ n, OpensExisting x.fs path flags n ∧ x.fs.newOr a n) t →
      Effect x (.open path flags) { x with fs := t }
  | close {fd : ℤ} {g : ℕ} {u : Session} {task : Task} : 2 < fd →
      x.fs.names x.fs.cur fd.toNat g → Dropped x g u → x.fs.tasks x.fs.cur = some task →
      Effect x (.close fd)
        { u with fs := u.fs.setTask x.fs.cur (task.setFd fd.toNat (-1)) }
  | pipe {g : ℕ} {fd0 fd1 : Option ℕ} {t u : State} : 3 ≤ g → x.fs.freeSlot g →
      pcbFdInstall (x.fs.withPipe g) g = .ok (fd0, t) → pcbFdInstall t g = .ok (fd1, u) →
      Effect x .pipe { x with fs := u, ringPages := insert x.fs.nextInode x.ringPages }
  | dup2 {fd1 fd2 : ℕ} {task : Task} {v : ℤ} : x.fs.tasks x.fs.cur = some task → fd2 < 8 →
      (fd1 < 3 ∧ v = fd1 ∨ 3 ≤ fd1 ∧ task.fd fd1 = some v) →
      Effect x (.dup2 fd1 fd2) { x with fs := x.fs.setTask x.fs.cur (task.setFd fd2 v) }
  | fork {child : ℕ} {y : Session} : forkFiles x.fs child = .ok y.fs →
      y.ringPages = x.ringPages → y.handles = x.handles → Effect x (.fork child) y
  | exit {y : Session} : exitFiles x = .ok y → Effect x .exit y

theorem sysOpendir_opens (hok : OpenOk x.fs) (path : List UInt8) :
    Returns (sysOpendir x path) fun r => ∃ h, Opens x.fs r.2.fs h ∧
      r.2.ringPages = x.ringPages ∧ r.2.held ≤ h + x.held := by
  refine returns_ensure fun _ => returns_ite (fun _ => ?_) fun _ => ?_
  · exact ⟨0, Opens.refl hok, rfl, by simp⟩
  · refine Returns.bind (searchFile_opens (Opens.refl hok) path) fun ⟨n, r, t⟩ ht => ?_
    refine returns_ite (fun _ => ?_) fun _ => ?_
    · refine Returns.bind (dirClose_opens ht) fun u hu => ⟨0, hu, rfl, ?_⟩
      simp [Session.held, hu.rootDir]
    · refine Returns.bind (dirOpen_opens ht n) fun ⟨d, u⟩ hu => ?_
      have hcomm : Opens x.fs u (r.parentDir.handles + (d.handles + 0)) := by
        rw [← add_assoc, add_comm r.parentDir.handles, add_assoc]
        exact hu
      refine Returns.bind (dirClose_opens hcomm) fun v hv => ⟨_, hv, rfl, ?_⟩
      simp [Session.held, hv.rootDir, Multiset.cons_bind]

theorem sysClosedir_effect (hb : Backed x.fs x.held) {d : Dir}
    (hd : d = .root ∨ d ∈ x.handles) :
    Returns (sysClosedir x d) (Effect x (.closedir d)) := by
  cases d with
  | root =>
    refine .quiet (Opens.refl hb.ok) rfl ?_
    obtain ⟨rest, hrest⟩ := Multiset.le_iff_exists_add.mp (Multiset.erase_le Dir.root x.handles)
    have hbind := congrArg (Multiset.bind · Dir.handles) hrest
    rw [zero_add]
    refine Multiset.cons_le_cons _ ?_
    rw [hbind, Multiset.add_bind]
    exact Multiset.le_add_right _ _
  | opened a =>
    have hmem : Dir.opened a ∈ x.handles := hd.resolve_left (by simp)
    have hheld : x.held = a ::ₘ (x.fs.rootDir ::ₘ (x.handles.erase (.opened a)).bind Dir.handles) := by
      have hbind := congrArg (Multiset.bind · Dir.handles) (Multiset.cons_erase hmem)
      rw [Multiset.cons_swap, Session.held, ← hbind]
      simp [Multiset.cons_bind, Dir.handles]
    have hopen : a ∈ x.fs.openInodes := hb.held_open (hheld ▸ Multiset.mem_cons_self a _)
    obtain ⟨t, ht, hshut⟩ := inodeClose_shut hb.ok hopen
    have hclose : dirClose x.fs (.opened a) = .ok t := ht
    unfold sysClosedir
    rw [hclose, ok_bind]
    refine .shut hshut rfl (hheld.trans ?_)
    simp [Session.held, hshut.rootDir]

theorem sysChdir_opens (hok : OpenOk x.fs) (path : List UInt8) :
    Returns (sysChdir x path) fun r => Opens x.fs r.2.fs 0 ∧
      r.2.ringPages = x.ringPages ∧ r.2.held = x.held := by
  refine Returns.bind (searchFile_opens (Opens.refl hok) path) fun ⟨n, r, t⟩ ht => ?_
  refine Returns.bind (dirClose_opens ht) fun u hu => ⟨hu, rfl, ?_⟩
  simp [Session.held, hu.rootDir]

theorem sysPipe_spec (x : Session) : Returns (sysPipe x) fun r =>
    ∃ g fd0 fd1 t u, 3 ≤ g ∧ x.fs.freeSlot g ∧
      pcbFdInstall (x.fs.withPipe g) g = .ok (fd0, t) ∧ pcbFdInstall t g = .ok (fd1, u) ∧
      r.2 = { x with fs := u, ringPages := insert x.fs.nextInode x.ringPages } := by
  unfold sysPipe
  cases hslot : getFreeSlotInGlobal x.fs with
  | none => trivial
  | some g =>
    obtain ⟨hg, hfree⟩ := getFreeSlotInGlobal_spec hslot
    refine returns_ite (fun _ => ?_) fun _ => trivial
    exact returns_bind fun ⟨fd0, t⟩ h0 => returns_bind fun ⟨fd1, u⟩ h1 =>
      ⟨g, fd0, fd1, t, u, hg, hfree, h0, h1, rfl⟩

theorem sysDup2_spec (s : State) (fd1 fd2 : ℕ) : Returns (sysDup2 s fd1 fd2) fun t =>
    ∃ (task : Task) (v : ℤ), s.tasks s.cur = some task ∧ fd2 < 8 ∧
      (fd1 < 3 ∧ v = fd1 ∨ 3 ≤ fd1 ∧ task.fd fd1 = some v) ∧
      t = s.setTask s.cur (task.setFd fd2 v) := by
  refine returns_ite (fun hlow => ?_) fun hlow => returns_bind fun v hv => ?_
  · refine (storeFd_spec s fd2 fd1).mono fun t ⟨task, htask, hfd2, ht⟩ => ?_
    exact ⟨task, fd1, htask, hfd2, Or.inl ⟨hlow, rfl⟩, ht⟩
  · obtain ⟨task, htask, hfd1⟩ := localFd_ok hv
    refine (storeFd_spec s fd2 v).mono fun t ⟨task', htask', hfd2, ht⟩ => ?_
    obtain rfl : task = task' := Option.some.inj (htask.symm.trans htask')
    exact ⟨task, v, htask, hfd2, Or.inr ⟨Nat.not_lt.mp hlow, hfd1⟩, ht⟩

/-- The effect of a call that returns. -/
theorem perform_effect (hb : Backed x.fs x.held) {c : Call} (hc : c.possible x) :
    Returns (x.perform c) (Effect x c) := by
  have hquiet : ∀ {t : State}, Opens x.fs t 0 → Effect x c { x with fs := t } := fun ho =>
    .quiet ho rfl (by simp [Session.held, ho.rootDir])
  have ho := Opens.refl hb.ok
  cases c with
  | «open» path flags =>
    exact Returns.bind (sysOpen_opened hb.ok path flags) fun r ⟨h, hr⟩ => .opened hr
  | close fd =>
    refine Returns.bind (sysClose_dropped hb fd) fun r hr => ?_
    rcases hr with ⟨-, rfl⟩ | ⟨g, u, task, hfd, hn, hd, htask, rfl⟩
    · exact hquiet ho
    · exact .close hfd hn hd htask
  | pipe =>
    refine Returns.bind (sysPipe_spec x) fun ⟨fds, y⟩ hr => ?_
    obtain ⟨g, fd0, fd1, t, u, hg, hfree, h0, h1, rfl⟩ := hr
    exact .pipe hg hfree h0 h1
  | dup2 fd1 fd2 =>
    refine Returns.bind (sysDup2_spec x.fs fd1 fd2) fun t ht => ?_
    obtain ⟨task, v, htask, hfd2, hv, rfl⟩ := ht
    exact .dup2 htask hfd2 hv
  | fork child => exact returns_bind fun t ht => .fork ht rfl rfl
  | exit => exact Returns.intro fun y hy => .exit hy
  | write fd src count =>
    exact Returns.bind (sysWrite_still ..) fun t ht => hquiet (ho.still ht)
  | read fd count => exact Returns.bind (sysRead_still ..) fun t ht => hquiet (ho.still ht)
  | mkdir path => exact Returns.bind (sysMkdir_opens ho path) fun r hr => hquiet hr
  | rmdir path => exact Returns.bind (sysRmdir_opens ho path) fun r hr => hquiet hr
  | unlink path => exact Returns.bind (sysUnlink_opens ho path) fun r hr => hquiet hr
  | opendir path =>
    exact Returns.bind (sysOpendir_opens hb.ok path) fun r ⟨h, hr, hp, hh⟩ => .quiet hr hp hh
  | closedir d => exact sysClosedir_effect hb hc
  | chdir path =>
    exact Returns.bind (sysChdir_opens hb.ok path) fun r ⟨hr, hp, hh⟩ =>
      .quiet hr hp (by simp [hh])

/-- Pipes do not count. -/
theorem Backed.setPipe (hb : Backed s H) (hf : s.fileTable[g]? = some f)
    (hpipe : f.fdFlag = pipeFlag ∨ f.fdInode = none) {f' : File} (hpipe' : f'.fdFlag = pipeFlag) :
    Backed (s.setFile g f') H := by
  refine ⟨hb.ok.tables rfl rfl rfl, fun a => ?_⟩
  have hnot : g ∉ s.slotsOf a := by
    intro hmem
    obtain ⟨f₁, hf₁, hflag, hinode⟩ := mem_slotsOf.mp hmem
    obtain rfl : f = f₁ := Option.some.inj (hf.symm.trans hf₁)
    rcases hpipe with hpipe | hnone
    · exact hflag hpipe
    · simp [hnone] at hinode
  rw [slotsOf_setFile (lt_of_slot hf), if_neg fun h => h.1 hpipe', Finset.erase_eq_of_notMem hnot]
  exact hb.counted a

theorem Backed.setTask (hb : Backed s H) (p : ℕ) (task : Task) : Backed (s.setTask p task) H :=
  ⟨hb.ok.tables rfl rfl rfl, hb.counted⟩

theorem Dropped.backed (hd : Dropped x g y) (hb : Backed x.fs H) : Backed y.fs H := by
  cases hd with
  | file hf hfile ha hshut => exact hb.fileClose hf hfile ha hshut
  | last hf hpipe _ _ => exact hb.setPipe hf (Or.inl hpipe) hpipe
  | more hf hpipe _ => exact hb.setPipe hf (Or.inl hpipe) hpipe

theorem pcbFdInstall_backed (hb : Backed s H) (g : ℕ) :
    Returns (pcbFdInstall s g) fun r => Backed r.2 H ∧ r.2.rootDir = s.rootDir := by
  refine (pcbFdInstall_spec s g).mono fun r hr => ?_
  rcases hr with ⟨rfl, -⟩ | ⟨task, fd, -, -, -, rfl⟩
  · exact ⟨hb, rfl⟩
  · exact ⟨hb.setTask _ _, rfl⟩

theorem Backed.withPipe (hb : Backed s H) (hfree : s.freeSlot g) : Backed (s.withPipe g) H := by
  have hnext : Backed { s with heap := fun k => s.heap (k + 1), nextInode := s.nextInode + 1 } H :=
    ⟨⟨hb.ok.nodup, hb.ok.live, fun a ha => (hb.ok.used a ha).trans (Nat.lt_succ_self _)⟩,
      hb.counted⟩
  obtain ⟨f, hf, hnone⟩ := hfree
  exact hnext.setPipe hf (Or.inr hnone) rfl

/-- One more descriptor of a slot. -/
theorem shareSlot_spec (hb : Backed s H) (g : ℕ) : Returns (shareSlot s g) fun t =>
    ∃ f, s.fileTable[g]? = some f ∧
      (f.fdFlag = pipeFlag ∧ t = s.setFile g { f with fdPos := f.fdPos + 1 } ∨
        f.fdFlag ≠ pipeFlag ∧ ∃ a, f.fdInode = some a ∧ Opens s t {a}) := by
  refine returns_bind fun f hf => returns_ite (fun hpipe => ?_) fun hfile => ?_
  · exact ⟨f, file_ok hf, Or.inl ⟨hpipe, rfl⟩⟩
  · cases ha : f.fdInode with
    | none => trivial
    | some a =>
      have hopen := hb.slot_open (file_ok hf) hfile ha
      obtain ⟨z, hz, -⟩ := hb.ok.live a hopen
      rw [deref_some, ok_bind, hz, deref_some, ok_bind]
      refine ⟨f, file_ok hf, Or.inr ⟨hfile, a, ha, ?_⟩⟩
      refine (Opens.refl hb.ok).setCount hopen hz rfl (Nat.succ_pos _) fun b => ?_
      by_cases hba : b = a
      · subst hba
        simp [openCount_of_mem hopen hz]
      · simp [hba]

theorem shareSlot_backed (hb : Backed s H) (g : ℕ) :
    Returns (shareSlot s g) fun t => Backed t H ∧ t.rootDir = s.rootDir := by
  refine (shareSlot_spec hb g).mono fun t ht => ?_
  obtain ⟨f, hf, ⟨hpipe, rfl⟩ | ⟨-, a, -, ho⟩⟩ := ht
  · exact ⟨hb.setPipe hf (Or.inl hpipe) hpipe, rfl⟩
  · exact ⟨(hb.opens ho).le (Multiset.le_add_left _ _), ho.rootDir⟩

/-- What one shared slot keeps, the loop of a fork keeps. -/
theorem updateInodeOpenCnts_keeps {I : State → Prop}
    (hshare : ∀ s g, I s → Returns (shareSlot s g) I) (task : Task) (fuel : ℕ) :
    ∀ {fd : ℕ} {s : State}, I s → Returns (updateInodeOpenCnts task fuel fd s) I := by
  induction fuel with
  | zero => exact fun hs => hs
  | succ fuel ih =>
    intro fd s hs
    unfold updateInodeOpenCnts
    split
    · trivial
    · refine returns_ite (fun _ => ih hs) fun _ => returns_ensure fun _ => ?_
      exact Returns.bind (hshare s _ hs) fun t ht => ih ht

theorem Dropped.held (hd : Dropped x g y) : y.held = x.held := by
  cases hd with
  | file _ _ _ hshut => exact congrArg (· ::ₘ _) hshut.rootDir
  | last => rfl
  | more => rfl

theorem releaseFd_spec (hb : Backed x.fs H) {fd : ℕ} (hfd : 3 ≤ fd) :
    Returns (releaseFd x fd) fun y =>
    (∃ task, x.fs.tasks x.fs.cur = some task ∧ task.fd fd = some (-1)) ∧ y = x ∨
      ∃ g f u, x.fs.names x.fs.cur fd g ∧ x.fs.fileTable[g]? = some f ∧ Dropped x g u ∧
        (f.fdFlag = pipeFlag ∧ y = u ∨ f.fdFlag ≠ pipeFlag ∧ ∃ task,
          x.fs.tasks x.fs.cur = some task ∧
          y = { u with fs := u.fs.setTask x.fs.cur (task.setFd fd (-1)) }) := by
  refine returns_bind fun v hv => returns_ite (fun hnone => ?_) fun hsome => ?_
  · obtain ⟨task, htask, hfd⟩ := localFd_ok hv
    exact Or.inl ⟨⟨task, htask, hnone ▸ hfd⟩, rfl⟩
  · refine returns_bind fun pipe hp => ?_
    obtain ⟨g, f, hn, hf, rfl⟩ := isPipe_ok hp
    refine returns_ite (fun hpipe => ?_) fun hfile => ?_
    · obtain ⟨task, htask, hfd⟩ := localFd_ok hv
      obtain ⟨task', htask', hfd'⟩ := hn
      obtain rfl : task = task' := Option.some.inj (htask.symm.trans htask')
      obtain rfl : v = g := Option.some.inj (hfd.symm.trans hfd')
      refine (dropPipe_dropped hf (of_decide_eq_true hpipe)).mono fun y hd => ?_
      exact Or.inr ⟨g, f, y, ⟨task, htask, hfd⟩, hf, hd, Or.inl ⟨of_decide_eq_true hpipe, rfl⟩⟩
    · refine Returns.bind (sysClose_dropped hb fd) fun r hr => ?_
      rcases hr with ⟨hlow, -⟩ | ⟨g', u, task, -, hn', hd, htask, rfl⟩
      · omega
      · obtain rfl := hn.unique hn'
        exact Or.inr ⟨g, f, u, hn, hf, hd, Or.inr ⟨by simpa using hfile, task, htask, rfl⟩⟩

/-- What one released descriptor keeps, the loop of an exit keeps. -/
theorem releaseFds_keeps {I : Session → Prop}
    (hrelease : ∀ x fd, 3 ≤ fd → I x → Returns (releaseFd x fd) I) (fuel : ℕ) :
    ∀ {fd : ℕ} {x : Session}, 3 ≤ fd → I x → Returns (releaseFds fuel fd x) I := by
  induction fuel with
  | zero => exact fun _ hx => hx
  | succ fuel ih =>
    exact fun hfd hx => Returns.bind (hrelease _ _ hfd hx) fun y hy => ih (Nat.le_succ_of_le hfd) hy

/-- What a dropped descriptor keeps, a released one keeps. -/
theorem releaseFd_keeps {I : Session → Prop} (hb : Backed x.fs H) {fd : ℕ} (hfd : 3 ≤ fd)
    (hx : I x) (hdrop : ∀ g u, Dropped x g u → I u)
    (htask : ∀ u p task, I u → I { u with fs := u.fs.setTask p task }) :
    Returns (releaseFd x fd) I := by
  refine (releaseFd_spec hb hfd).mono fun y hy => ?_
  rcases hy with ⟨-, rfl⟩ | ⟨g, f, u, -, -, hd, ⟨-, rfl⟩ | ⟨-, task, -, rfl⟩⟩
  · exact hx
  · exact hdrop g y hd
  · exact htask u _ _ (hdrop g u hd)

theorem forkFiles_backed (hb : Backed s H) (child : ℕ) :
    Returns (forkFiles s child) fun t => Backed t H ∧ t.rootDir = s.rootDir := by
  refine returns_skip fun task => ?_
  refine Returns.bind (updateInodeOpenCnts_keeps (I := fun t =>
    Backed t H ∧ t.rootDir = s.rootDir) (fun t g ht => ?_) task 5 ⟨hb, rfl⟩) fun t ht => ?_
  · exact (shareSlot_backed ht.1 g).mono fun u hu => ⟨hu.1, hu.2.trans ht.2⟩
  · exact ⟨ht.1.setTask _ _, ht.2⟩

theorem exitFiles_backed (hb : Backed x.fs H) :
    Returns (exitFiles x) fun y => Backed y.fs H ∧ y.held = x.held := by
  refine Returns.bind (releaseFds_keeps (I := fun y => Backed y.fs H ∧ y.held = x.held)
    (fun y fd hfd hy => ?_) 5 le_rfl ⟨hb, rfl⟩) fun z hz => ?_
  · exact releaseFd_keeps hy.1 hfd hy
      (fun g u hd => ⟨hd.backed hy.1, hd.held.trans hy.2⟩) fun u p task hu =>
        ⟨hu.1.setTask _ _, hu.2⟩
  · exact ⟨⟨hz.1.ok.tables rfl rfl rfl, hz.1.counted⟩, hz.2⟩

theorem openFlag_ne_pipeFlag (flags : UInt8) : flags.toUInt32 ≠ pipeFlag := by
  intro heq
  have hval := congrArg UInt32.toNat heq
  have hlt := flags.toNat_lt
  simp [pipeFlag] at hval
  omega

theorem TakesSlot.rootDir {flag : UInt32} {o : Option InodePtr} (htake : TakesSlot s flag o u) :
    u.rootDir = s.rootDir := by
  cases htake <;> rfl

/-- Every call keeps the handles covered. -/
theorem Effect.backed {c : Call} (he : Effect x c y) (hb : Backed x.fs x.held) :
    Backed y.fs y.held := by
  cases he with
  | quiet ho _ hheld => exact (hb.opens ho).le hheld
  | shut hshut _ hheld => exact Backed.shut (hheld ▸ hb) hshut
  | @opened path flags t h ho =>
    have hroot : t.rootDir = x.fs.rootDir := by
      obtain ⟨o, u, htake, hu, -⟩ := ho
      exact hu.rootDir.trans htake.rootDir
    have hheld : Session.held { x with fs := t } = x.held := congrArg (· ::ₘ _) hroot
    exact hheld ▸ hb.opened ho (openFlag_ne_pipeFlag flags)
  | close _ _ hd _ =>
    have hheld := hd.held
    exact ((hd.backed hb).setTask _ _).le hheld.le
  | @pipe g fd0 fd1 t u hg hfree h0 h1 =>
    have ht := (pcbFdInstall_backed (hb.withPipe hfree) g).of_ok h0
    have hu := (pcbFdInstall_backed ht.1 g).of_ok h1
    have hroot : u.rootDir = x.fs.rootDir := hu.2.trans ht.2
    have hheld : Session.held { x with
        fs := u, ringPages := insert x.fs.nextInode x.ringPages } = x.held :=
      congrArg (· ::ₘ _) hroot
    exact hheld ▸ hu.1
  | dup2 => exact hb.setTask _ _
  | @fork child y hy _ hh =>
    obtain ⟨hfs, hroot⟩ := (forkFiles_backed hb child).of_ok hy
    have hheld : y.held = x.held := by rw [Session.held, Session.held, hroot, hh]
    exact hheld ▸ hfs
  | exit hy =>
    obtain ⟨hfs, hheld⟩ := (exitFiles_backed hb).of_ok hy
    exact hheld.symm ▸ hfs

/-- In every state that a run reaches, every use of an inode is covered. -/
theorem backed_start (hx : SessionStart x) : Backed x.fs x.held := by
  obtain ⟨z, hz, hpos⟩ := hx.rootOpen
  have hmem : ∀ a, a ∈ x.fs.openInodes ↔ a = x.fs.rootDir := by simp [hx.openInodes]
  refine ⟨⟨?_, fun a ha => ?_, fun a ha => ?_⟩, fun a => ?_⟩
  · rw [hx.openInodes]
    exact List.nodup_singleton _
  · rw [(hmem a).mp ha]
    exact ⟨z, hz, hpos⟩
  · rw [(hmem a).mp ha]
    exact hx.used _ _ hz
  · have hheld : x.held = {x.fs.rootDir} := by simp [Session.held, hx.noHandles]
    rw [hx.slotsOf, hheld, Finset.card_empty, Nat.zero_add, Multiset.count_singleton]
    split_ifs with ha
    · rw [ha, openCount_of_mem ((hmem _).mpr rfl) hz]
      exact hpos
    · exact Nat.zero_le _

/-- What the running process does is a step of the session. -/
theorem step_effect {p : ℕ} {c : Call} (hb : Backed x.fs x.held)
    (hstep : sessions.step x (p, c) y) : Effect (x.run p) c y := by
  obtain ⟨-, hpossible, hrun⟩ := hstep
  have hb' : Backed (x.run p).fs (x.run p).held := ⟨hb.ok.tables rfl rfl rfl, hb.counted⟩
  have hpossible' : c.possible (x.run p) := by
    cases c <;> exact hpossible
  exact (perform_effect hb' hpossible').of_ok hrun

theorem step_backed {p : ℕ} {c : Call} (hb : Backed x.fs x.held)
    (hstep : sessions.step x (p, c) y) : Backed y.fs y.held :=
  (step_effect hb hstep).backed ⟨hb.ok.tables rfl rfl rfl, hb.counted⟩

end Effects

end X86System.FileSystem
