import X86System.DescriptorCalls
import X86System.OpenAccounts

/-!
# Opening a file for reading and closing it again

`sys_open` for reading either gives a descriptor, whose slot holds a handle of the file,
or -1. In both cases further handles may stay open behind it; they are what is left when
the descriptor is closed again. What is done with the descriptor in between moves a
position and nothing else that an open handle depends on.
-/
namespace X86System.FileSystem
open Bytes Exec

variable {s t u : State} {x : Session} {a : InodePtr} {g fd : ℕ} {h : Multiset InodePtr}
  {path : List UInt8}

/-- Since `s` the free descriptor `fd` was given slot `g` with a handle of `a`, and besides it
the handles in `h` were opened. -/
structure Holding (s t : State) (fd g : ℕ) (a : InodePtr) (h : Multiset InodePtr) : Prop where
  ok : OpenOk t
  slot : ∃ f, t.fileTable[g]? = some f ∧ f.fdFlag ≠ pipeFlag ∧ f.fdInode = some a
  cur : t.cur = s.cur
  tasks : ∃ task, s.tasks s.cur = some task ∧ task.fd fd = some (-1) ∧
    t.tasks = (s.setTask s.cur (task.setFd fd g)).tasks
  count : ∀ b, t.openCount b = s.openCount b + (h.count b + if b = a then 1 else 0)

/-- The descriptors are as in `s`, and the handles in `h` were opened. -/
structure Leaving (s t : State) (h : Multiset InodePtr) : Prop where
  tasks : t.tasks = s.tasks
  count : ∀ b, t.openCount b = s.openCount b + h.count b

section Opening

theorem TakesSlot.cur {flag : UInt32} {o : Option InodePtr} (h : TakesSlot s flag o u) :
    u.cur = s.cur := by
  cases h <;> rfl

/-- What the two exits of `file_open` hold after the search. -/
theorem fileOpen_holds {r : PathSearchRecord} (hb : Browsed s u)
    (ho : Opens s u (r.parentDir.handles + 0)) (n : UInt32) : Returns (fileOpen u n 0) fun v =>
      ∃ h, (h = 0 ↔ AccountsFor s (fdResult v.1) v.2) ∧ (v.1 = none ∧ Leaving s v.2 h ∨
        ∃ fd g a, v.1 = some fd ∧ 3 ≤ fd ∧ Holding s v.2 fd g a h) := by
  refine ((fileOpen_exits u n 0).and (fileOpen_opened ho n 0)).mono
    fun ⟨d, t⟩ ⟨hexit, hopened⟩ => ?_
  rw [hb.slotFree, hb.fdFree] at hexit
  rw [add_zero] at hopened
  obtain ⟨hr, -⟩ | ⟨g, a, -, hfree, ⟨hnone, -, hleft⟩ | ⟨d', hsome, hle, -, -, hnames⟩⟩ := hexit
  · -- no slot
    obtain ⟨rfl, rfl⟩ : d = none ∧ t = u := by simpa using hr
    refine ⟨r.parentDir.handles, ⟨fun hzero => ?_, fun hacc => ?_⟩,
      Or.inl ⟨rfl, hb.tasks, hopened.count_untouched hb.fileTable⟩⟩
    · rw [hzero] at hopened
      exact accounts_of_same hopened hb.fileTable hb.tasks
    · refine Multiset.eq_zero_of_forall_notMem fun b hmem => ?_
      have hcount := (hacc.2 rfl).count b
      rw [hopened.count_untouched hb.fileTable] at hcount
      have hpos := Multiset.count_pos.mpr hmem
      omega
  · -- the slot stays filled in
    obtain rfl : d = none := hnone
    have hfree := hb.freeSlot.mp hfree
    have hleft := hb.leavesSlot hleft
    refine ⟨a ::ₘ r.parentDir.handles, iff_of_false (Multiset.cons_ne_zero) ?_,
      Or.inl ⟨rfl, hleft.tasks, fun b => ?_⟩⟩
    · exact not_accounts_of_leaves hfree rfl hleft
    · rw [hopened.count_filled hfree rfl hleft.fileTable, Multiset.count_cons]
  · obtain rfl : d = some d' := hsome
    have hfree := hb.freeSlot.mp hfree
    have hnames := hb.namesSlot hnames
    refine ⟨r.parentDir.handles, ⟨fun hzero => ?_, fun hacc => ?_⟩,
      Or.inr ⟨d', g, a, rfl, hle, ?_⟩⟩
    · rw [hzero] at hopened
      exact accounts_of_names hopened hfree rfl hnames
    · cases hdir : r.parentDir with
      | root => rfl
      | opened b =>
        rw [hdir] at hopened
        exact absurd hacc (not_accounts_of_held hopened hfree rfl hnames hle)
    · obtain ⟨f₀, hf₀, -⟩ := id hfree
      have hcount := hopened.count_filled hfree rfl hnames.fileTable
      obtain ⟨o, w, htake, hw, -⟩ := hopened
      refine ⟨hw.ok, ⟨⟨0, 0, some a⟩, ?_, openFlag_ne_pipeFlag 0, rfl⟩, hw.cur.trans htake.cur, hnames.tasks,
        hcount⟩
      rw [hnames.fileTable]
      exact setFile_self (lt_of_slot hf₀)

/-- What `sys_open` holds of a file that is opened for reading. -/
theorem sysOpen_holds (hs : OpenOk s) (hslash : path.getLast? ≠ some slash) :
    Returns (sysOpen s path 0) fun v => ∃ h, (h = 0 ↔ OpenBalances s path 0) ∧
      (v.1 = -1 ∧ Leaving s v.2 h ∨
        ∃ (fd : ℕ) (g : ℕ) (a : InodePtr), v.1 = (fd : ℤ) ∧ 3 ≤ fd ∧ Holding s v.2 fd g a h) := by
  have hbalance := sysOpen_accounts hs path 0
  have hholds : Returns (sysOpen s path 0) fun v => ∃ h, (h = 0 ↔ AccountsFor s v.1 v.2) ∧
      (v.1 = -1 ∧ Leaving s v.2 h ∨
        ∃ (fd : ℕ) (g : ℕ) (a : InodePtr), v.1 = (fd : ℤ) ∧ 3 ≤ fd ∧ Holding s v.2 fd g a h) := by
    unfold sysOpen
    refine returns_ensure fun _ => returns_ite (fun h => absurd h hslash) fun _ => ?_
    refine returns_ensure fun _ => returns_bind fun depth _ => returns_bind fun ⟨n, r, u⟩ hv => ?_
    have ho := (searchFile_opens (Opens.refl hs) path).of_ok hv
    have hb := (searchFile_browsed s path).of_ok hv
    have hclose : Returns (dirClose u r.parentDir >>= fun t => Except.ok ((-1 : ℤ), t)) fun v =>
        ∃ h, (h = 0 ↔ AccountsFor s v.1 v.2) ∧ (v.1 = -1 ∧ Leaving s v.2 h ∨
          ∃ (fd : ℕ) (g : ℕ) (a : InodePtr), v.1 = (fd : ℤ) ∧ 3 ≤ fd ∧ Holding s v.2 fd g a h) := by
      have hidle : Opened s 0 (r.parentDir.handles + 0) (fun _ => True) u := Opened.idle ho
      refine Returns.bind ((dirClose_browsed u r.parentDir).and hidle.dirClose)
        fun t ⟨hbt, ht⟩ => ?_
      have hfile := hbt.fileTable.trans hb.fileTable
      have htasks := hbt.tasks.trans hb.tasks
      exact ⟨0, iff_of_true rfl (accounts_of_same ht hfile htasks),
        Or.inl ⟨rfl, htasks, ht.count_untouched hfile⟩⟩
    unfold openFound
    refine returns_ite (fun _ => hclose) fun _ => returns_bind fun depth' _ => ?_
    refine returns_ite (fun _ => hclose) fun _ => returns_ite (fun hcreat => ?_) fun _ => ?_
    · exact absurd (by decide) hcreat
    · refine Returns.bind (fileOpen_holds hb ho n) fun ⟨d, t⟩ hd => ?_
      obtain ⟨h, hzero, ⟨rfl, hleft⟩ | ⟨fd, g, a, rfl, hle, hheld⟩⟩ := hd
      · exact ⟨h, hzero, Or.inl ⟨rfl, hleft⟩⟩
      · exact ⟨h, hzero, Or.inr ⟨fd, g, a, rfl, hle, hheld⟩⟩
  refine (hholds.and hbalance).mono fun v ⟨⟨h, hzero, hcase⟩, hacc⟩ => ⟨h, hzero.trans hacc, hcase⟩

end Opening

section Using

variable {task : Task}

theorem setFd_setFd_free {k : ℕ} {v : ℤ} (hfree : task.fd k = some (-1)) :
    (task.setFd k v).setFd k (-1) = task := by
  obtain ⟨hk, hget⟩ := Vector.getElem?_eq_some_iff.mp hfree
  cases task with
  | mk fdTable =>
    dsimp only [Task.setFd] at hget ⊢
    congr 1
    ext1 j hj
    by_cases hjk : k = j
    · subst hjk
      simp [hget]
    · simp [hjk]

/-- Moving a position keeps what is held. -/
theorem Holding.still (hh : Holding s t fd g a h) (hst : Still t u) : Holding s u fd g a h where
  ok := hst.openOk hh.ok
  slot := by
    obtain ⟨f, hf, hflag, ha⟩ := hh.slot
    obtain ⟨f', hf', hflag', ha'⟩ := hst.tables.symm.slot hf
    exact ⟨f', hf', hflag' ▸ hflag, ha'.trans ha⟩
  cur := hst.cur.trans hh.cur
  tasks := by
    obtain ⟨task, htask, hfree, hset⟩ := hh.tasks
    exact ⟨task, htask, hfree, hst.tables.tasks.trans hset⟩
  count b := by
    rw [hst.openCount, hh.count]

/-- The descriptor names its slot. -/
theorem Holding.names (hh : Holding s t fd g a h) : t.names t.cur fd g := by
  obtain ⟨task, htask, hfree, hset⟩ := hh.tasks
  have hfd := (Vector.getElem?_eq_some_iff.mp hfree).1
  refine ⟨task.setFd fd g, ?_, ?_⟩
  · rw [hset, hh.cur]
    exact Function.update_self ..
  · simp [Task.fd, Task.setFd, hfd]

theorem Holding.fileSlot (hh : Holding s t fd g a h) : FileSlot t g := by
  obtain ⟨f, hf, hflag, -⟩ := hh.slot
  intro f' hf'
  obtain rfl := Option.some.inj (hf.symm.trans hf')
  exact hflag

/-- The descriptor is moved. -/
theorem Holding.sysLseek (hh : Holding s t fd g a h) (offset : Int32) (whence : UInt8) :
    Returns (sysLseek t fd offset whence) fun r => Holding s r.2 fd g a h := by
  have hpos : ¬ (fd : ℤ) < 0 := by omega
  unfold FileSystem.sysLseek
  rw [if_neg hpos, Int.toNat_natCast]
  refine returns_ensure fun _ => returns_bind fun g' hg' => ?_
  obtain rfl := hh.names.unique (fdLocal2Global_ok hg').1
  refine returns_bind fun f hf => returns_skip fun b => returns_skip fun y => ?_
  refine returns_ite (fun _ => hh) fun _ => hh.still ?_
  exact setFile_still (file_ok hf) (by simp [File.key, hh.fileSlot f (file_ok hf)])

/-- The file is read. -/
theorem Holding.fileRead (hh : Holding s t fd g a h) (dst : Image) (count : UInt32) :
    Returns (fileRead t g dst count) fun r => Holding s r.2.2 fd g a h :=
  (fileRead_still hh.fileSlot dst count).mono fun _ hr => hh.still hr

/-- Closing the descriptor leaves what was opened besides it. -/
theorem Holding.sysClose (hh : Holding s x.fs fd g a h) (hfd : 3 ≤ fd) :
    Returns (sysClose x fd) fun r => Leaving s r.2.fs h := by
  obtain ⟨f, hf, hflag, ha⟩ := hh.slot
  obtain ⟨task, htask, hfree, hset⟩ := hh.tasks
  have hlt : (2 : ℤ) < fd := by omega
  unfold FileSystem.sysClose
  rw [if_pos hlt, Int.toNat_natCast]
  refine returns_bind fun g' hg' => ?_
  obtain rfl := hh.names.unique (fdLocal2Global_ok hg').1
  refine returns_bind fun pipe hpipe => ?_
  obtain ⟨g', f', hn', hf', rfl⟩ := isPipe_ok hpipe
  obtain rfl := hh.names.unique hn'
  obtain rfl := Option.some.inj (hf.symm.trans hf')
  have hopen : a ∈ x.fs.openInodes := by
    rw [← hh.ok.openCount_pos, hh.count a, if_pos rfl]
    omega
  obtain ⟨t, hclose, hshut⟩ := fileClose_shut hh.ok hf ha hopen
  unfold closeSlot
  rw [if_neg (by simpa using hflag), hclose, ok_bind, ok_bind]
  refine Returns.bind (storeFd_spec ..) fun u hu => ?_
  obtain ⟨task', htask', -, rfl⟩ := hu
  have hcur : t.cur = s.cur := hshut.cur.trans hh.cur
  have htasks : t.tasks = (s.setTask s.cur (task.setFd fd g)).tasks := hshut.tables.tasks.trans hset
  obtain rfl : task' = task.setFd fd g := by
    change t.tasks t.cur = some task' at htask'
    rw [htasks, hcur] at htask'
    change Function.update s.tasks s.cur _ s.cur = some task' at htask'
    rw [Function.update_self] at htask'
    exact (Option.some.inj htask').symm
  refine ⟨?_, fun b => ?_⟩
  · change Function.update t.tasks t.cur _ = _
    rw [htasks, hcur, setFd_setFd_free hfree]
    change Function.update (Function.update s.tasks s.cur _) s.cur _ = _
    rw [Function.update_idem, ← htask, Function.update_eq_self]
  · have hback := hshut.count b
    rw [hh.count] at hback
    change t.openCount b = _
    omega

end Using

end X86System.FileSystem
