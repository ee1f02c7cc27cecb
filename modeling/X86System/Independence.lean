import X86System.DescriptorRuns

/-!
# Descriptors of other processes

A fork shares the slots of the parent with the child. While no process gives up a
descriptor of a file whose slot another descriptor names, a descriptor stays on its
slot and its inode through whatever the other processes do.
-/
namespace X86System.FileSystem
open Bytes Exec Transition

variable {s t : State} {x y z u : Session} {a : InodePtr} {g p fd : ℕ} {H : Multiset InodePtr}

/-- The process itself does not close the descriptor, overwrite it or exit. -/
def KeepsFd (p fd : ℕ) (c : ℕ × Call) : Prop :=
  c.1 = p → match c.2 with
    | .close fd' => fd'.toNat ≠ fd
    | .dup2 _ fd2 => fd2 ≠ fd
    | .exit => False
    | _ => True

/-- The descriptor names a slot that refers to the inode. -/
def State.refersTo (s : State) (p fd g : ℕ) (a : InodePtr) : Prop :=
  s.names p fd g ∧ g ∈ s.slotsOf a

theorem State.refersTo.tables (h : s.refersTo p fd g a) (ht : SameTables s t) :
    t.refersTo p fd g a :=
  ⟨(names_congr ht.tasks).mpr h.1, ht.slotsOf a ▸ h.2⟩

/-- A store to another slot. -/
theorem State.refersTo.setFile {j : ℕ} {f : File} (h : s.refersTo p fd g a) (hj : j < 32)
    (hne : g ≠ j) : (s.setFile j f).refersTo p fd g a := by
  refine ⟨h.1, ?_⟩
  rw [slotsOf_setFile hj]
  split_ifs
  · exact Finset.mem_insert_of_mem h.2
  · exact Finset.mem_erase_of_ne_of_mem hne h.2

theorem State.refersTo.setFree {j : ℕ} {f : File} (h : s.refersTo p fd g a)
    (hfree : s.freeSlot j) : (s.setFile j f).refersTo p fd g a := by
  have hne : g ≠ j := fun hgj => notMem_slotsOf_of_free hfree (hgj ▸ h.2)
  obtain ⟨f', hf', -⟩ := hfree
  exact h.setFile (lt_of_slot hf') hne

/-- A store to another entry of a table. -/
theorem State.refersTo.setFd {q e : ℕ} {task : Task} {v : ℤ} (h : s.refersTo p fd g a)
    (htask : s.tasks q = some task) (he : e < 8) (hne : ¬ (p = q ∧ fd = e)) :
    (s.setTask q (task.setFd e v)).refersTo p fd g a := by
  refine ⟨?_, h.2⟩
  rw [names_setFd htask he, if_neg hne]
  exact h.1

/-- A descriptor goes into an entry that is free. -/
theorem State.refersTo.install {q e : ℕ} {task : Task} {v : ℤ} (h : s.refersTo p fd g a)
    (htask : s.tasks q = some task) (hfree : task.fd e = some (-1)) :
    (s.setTask q (task.setFd e v)).refersTo p fd g a := by
  refine h.setFd htask (Vector.getElem?_eq_some_iff.mp hfree).1 ?_
  rintro ⟨rfl, rfl⟩
  obtain ⟨task', htask', hfd⟩ := h.1
  obtain rfl : task = task' := Option.some.inj (htask.symm.trans htask')
  have hval := Option.some.inj (hfree.symm.trans hfd)
  omega

theorem State.refersTo.pcbFdInstall (h : s.refersTo p fd g a) (j : ℕ) :
    Returns (pcbFdInstall s j) fun r => r.2.refersTo p fd g a := by
  refine (pcbFdInstall_spec s j).mono fun r hr => ?_
  rcases hr with ⟨rfl, -⟩ | ⟨task, e, htask, -, hfree, rfl⟩
  · exact h
  · exact h.install htask hfree

theorem State.refersTo.opened {flag : UInt32} {h : Multiset InodePtr} {P : InodePtr → Prop}
    (hr : s.refersTo p fd g a) (ho : Opened s flag h P t) : t.refersTo p fd g a := by
  obtain ⟨o, v, htake, hv, -⟩ := ho
  refine State.refersTo.tables ?_ hv.tables
  cases htake with
  | none => exact hr
  | cleared _ hfree => exact hr.setFree hfree
  | filled _ hfree => exact hr.setFree hfree
  | named _ hfree htask _ hfd => exact (hr.setFree hfree).install htask hfd

/-- Sharing any slot of the parent leaves the descriptors of all. -/
theorem State.refersTo.forkFiles {child : ℕ} (h : s.refersTo p fd g a) (hb : Backed s H)
    (hne : p ≠ child) : Returns (forkFiles s child) fun t => t.refersTo p fd g a := by
  refine returns_skip fun task => ?_
  have hshare : ∀ t j, Backed t H ∧ t.refersTo p fd g a →
      Returns (shareSlot t j) fun t => Backed t H ∧ t.refersTo p fd g a := by
    intro t j ⟨hbt, ht⟩
    have hrefers : Returns (shareSlot t j) fun u => u.refersTo p fd g a := by
      refine (shareSlot_spec hbt j).mono fun u hu => ?_
      obtain ⟨f, hf, ⟨hpipe, rfl⟩ | ⟨-, b, -, ho⟩⟩ := hu
      · exact ht.setFile (lt_of_slot hf) fun hgj =>
          not_pipeSlot_of_slotsOf ht.2 ⟨f, hgj ▸ hf, hpipe⟩
      · exact ht.tables ho.tables
    exact ((shareSlot_backed hbt j).and hrefers).mono fun u hu => ⟨hu.1.1, hu.2⟩
  refine Returns.bind (updateInodeOpenCnts_keeps hshare task 5 ⟨hb, h⟩) fun t ht => ?_
  refine ⟨?_, ht.2.2⟩
  rw [names_setTask, if_neg hne]
  exact ht.2.1

/-- An orderly call of any process leaves the descriptor. -/
theorem Effect.refersTo {c : Call} (he : Effect x c y) (h : x.fs.refersTo p fd g a)
    (hb : Backed x.fs H) (hx : DescriptorsOk x) (horder : Orderly x x.fs.cur c)
    (hpossible : c.possible x) (hkeeps : KeepsFd p fd (x.fs.cur, c)) :
    y.fs.refersTo p fd g a := by
  cases he with
  | quiet ho => exact h.tables ho.tables
  | shut hshut => exact h.tables hshut.tables
  | opened ho => exact h.opened ho
  | @close e j u task he hn hd htask =>
    have hother : ¬ (p = x.fs.cur ∧ fd = e.toNat) := fun heq => hkeeps heq.1.symm heq.2.symm
    have hgj : g ≠ j := by
      rintro rfl
      exact hother (horder he g hn (not_pipeSlot_of_slotsOf h.2) p fd h.1 trivial)
    have hlt : e.toNat < 8 := by
      obtain ⟨task', -, hfd⟩ := hn
      exact (Vector.getElem?_eq_some_iff.mp hfd).1
    have hu : u.fs.refersTo p fd g a :=
      ⟨(names_congr hd.tasks).mpr h.1, hd.slotsOf_of_ne hgj h.2⟩
    exact hu.setFd (hd.tasks.symm ▸ htask) hlt hother
  | @pipe j fd0 fd1 t u _ hfree h0 h1 =>
    have hpipe : (x.fs.withPipe j).refersTo p fd g a :=
      State.refersTo.setFree (s := { x.fs with
        heap := fun k => x.fs.heap (k + 1), nextInode := x.fs.nextInode + 1 }) h hfree
    have ht := (hpipe.pcbFdInstall j).of_ok h0
    exact (ht.pcbFdInstall j).of_ok h1
  | @dup2 fd1 fd2 task v htask hfd2 hv =>
    exact h.setFd htask hfd2 fun heq => hkeeps heq.1.symm heq.2.symm
  | @fork child y hy =>
    have hne : p ≠ child := by
      rintro rfl
      obtain ⟨task, htask, -⟩ := h.1
      simp [hpossible.2] at htask
    exact (h.forkFiles hb hne).of_ok hy
  | exit hy =>
    obtain ⟨z, hz, rfl⟩ := (exitFiles_exiting hb hx horder).of_ok hy
    have hne : p ≠ x.fs.cur := fun heq => hkeeps heq.symm
    refine ⟨?_, hz.refs g a p fd hne h.1 h.2⟩
    obtain ⟨task, htask, hfd⟩ := h.1
    refine ⟨task, ?_, hfd⟩
    rw [hz.cur]
    simp [hne, hz.others p hne, htask]

/-- Closing a descriptor of a file whose slot refers to an inode takes one handle of it. -/
theorem sysClose_refersTo (hb : Backed x.fs H) (h : x.fs.refersTo x.fs.cur fd g a)
    (hfd : 3 ≤ fd) : ∃ u, sysClose x fd = .ok (true, u) ∧
      ∀ b, u.fs.openCount b + (if b = a then 1 else 0) = x.fs.openCount b := by
  obtain ⟨⟨task, htask, hval⟩, hmem⟩ := h
  obtain ⟨f, hf, hfile, ha⟩ := mem_slotsOf.mp hmem
  have hlt : g < 32 := lt_of_slot hf
  have hlow : (2 : ℤ) < fd := by omega
  have hnat : (fd : ℤ).toNat = fd := Int.toNat_natCast fd
  have hslot : fdLocal2Global x.fs fd = .ok g := by
    have hrange : 0 ≤ (g : ℤ) ∧ (g : ℤ) < 32 := by omega
    simp only [fdLocal2Global, localFd, htask, deref_some, ok_bind, hval, ensure_of hrange,
      Int.toNat_natCast]
  have hpipe : isPipe x.fs fd = .ok false := by
    simp only [isPipe, hslot, ok_bind, State.file, hf, hfile, decide_false]
  obtain ⟨t, ht, hshut⟩ := fileClose_shut hb.ok hf ha (hb.slot_open hf hfile ha)
  have hclose : closeSlot x g false =
      .ok { x with fs := t.setFile g { f with fdInode := none } } := by
    simp only [closeSlot, Bool.false_eq_true, if_false, ht, ok_bind]
  have htask' : t.tasks t.cur = some task := by
    rw [hshut.tables.tasks, hshut.cur, htask]
  have hlt' : fd < 8 := (Vector.getElem?_eq_some_iff.mp hval).1
  have hstore : storeFd (t.setFile g { f with fdInode := none }) fd (-1) =
      .ok ((t.setFile g { f with fdInode := none }).setTask t.cur (task.setFd fd (-1))) := by
    unfold storeFd
    have hcur : (t.setFile g { f with fdInode := none }).tasks
        (t.setFile g { f with fdInode := none }).cur = some task := htask'
    rw [hcur, deref_some, ok_bind, ensure_of hlt', ok_bind]
    rfl
  have hclosed : sysClose x fd = .ok (true, { x with
      fs := (t.setFile g { f with fdInode := none }).setTask t.cur (task.setFd fd (-1)) }) := by
    unfold sysClose
    rw [if_pos hlow, hnat, hslot, ok_bind, hpipe, ok_bind, hclose, ok_bind, hstore, ok_bind]
  exact ⟨_, hclosed, hshut.count⟩

/-- In a run of orderly calls a descriptor of a file stays on its slot, the slot on its inode
and the inode open until the process itself gives it up, and closing it takes the count down
once. -/
theorem descriptors_independent {l l' : List (ℕ × Call)} (hx : SessionStart x)
    (hrun : sessions.RunWhere (fun w c => Orderly (w.run c.1) c.1 c.2) x l y)
    (hfd : 3 ≤ fd) (hg : 3 ≤ g) (hn : y.fs.names p fd g) (hfile : ¬ y.fs.pipeSlot g)
    (hrun' : sessions.RunWhere (fun w c => Orderly (w.run c.1) c.1 c.2 ∧ KeepsFd p fd c) y l' z) :
    ∃ a, y.fs.refersTo p fd g a ∧ z.fs.refersTo p fd g a ∧ a ∈ z.fs.openInodes ∧
      1 ≤ z.fs.openCount a ∧ ∃ w, sysClose (z.run p) fd = .ok (true, w) ∧
        ∀ b, w.fs.openCount b + (if b = a then 1 else 0) = z.fs.openCount b := by
  obtain ⟨hb, hok⟩ := run_descriptorsOk hx hrun
  obtain ⟨f, a, hf, ha⟩ := hok.counted.named g hg ⟨_, hok.namesMem hn⟩
  have hflag : f.fdFlag ≠ pipeFlag := fun h => hfile ⟨f, hf, h⟩
  have hy : y.fs.refersTo p fd g a := ⟨hn, mem_slotsOf.mpr ⟨f, hf, hflag, ha⟩⟩
  have hz : (Backed z.fs z.held ∧ DescriptorsOk z) ∧ z.fs.refersTo p fd g a := by
    refine hrun'.keeps (I := fun w => (Backed w.fs w.held ∧ DescriptorsOk w) ∧
      w.fs.refersTo p fd g a) ?_ ⟨⟨hb, hok⟩, hy⟩
    rintro v ⟨q, c⟩ w ⟨hv, href⟩ ⟨horder, hkeeps⟩ hstep
    have hb' : Backed (v.run q).fs v.held := ⟨hv.1.ok.tables rfl rfl rfl, hv.1.counted⟩
    have hok' : DescriptorsOk (v.run q) := hv.2.tables ⟨fun _ => rfl, rfl⟩ rfl le_rfl
    exact ⟨step_descriptorsOk hv horder hstep, (step_effect hv.1 hstep).refersTo
      (x := v.run q) href hb' hok' horder (step_possible hstep) hkeeps⟩
  obtain ⟨⟨hbz, -⟩, href⟩ := hz
  obtain ⟨f', hf', hflag', ha'⟩ := mem_slotsOf.mp href.2
  have hopen := hbz.slot_open hf' hflag' ha'
  have hbz' : Backed (z.run p).fs z.held := ⟨hbz.ok.tables rfl rfl rfl, hbz.counted⟩
  obtain ⟨w, hw, hcount⟩ := sysClose_refersTo (x := z.run p) hbz' href hfd
  exact ⟨a, hy, href, hopen, hbz.ok.openCount_pos.mpr hopen, w, hw, hcount⟩

theorem names_of_fdTable {task : Vector ℤ 8} (ht : (s.tasks p).map (·.fdTable) = some task)
    (hfd : task[fd]? = some (g : ℤ)) : s.names p fd g := by
  obtain ⟨task', htask, rfl⟩ := Option.map_eq_some_iff.mp ht
  exact ⟨task', htask, hfd⟩

/-- A child has the descriptor that its parent opened while the parent opens another. -/
theorem descriptors_independent_fork : ∃ y z a, sampleSession.exec
    [(1, .open pathF 0), (1, .fork 2)] = .ok y ∧ y.exec [(1, .open pathF 0)] = .ok z ∧
      y.fs.refersTo 2 3 3 a ∧ z.fs.refersTo 2 3 3 a ∧ 1 ≤ z.fs.openCount a := by
  obtain ⟨y, hy, z, hz, hslot, htask⟩ :
      ∃ y, sampleSession.exec [(1, .open pathF 0), (1, .fork 2)] = .ok y ∧
        ∃ z, y.exec [(1, .open pathF 0)] = .ok z ∧
          (y.fs.fileTable[3]?).map (·.fdFlag) = some 0 ∧
          (y.fs.tasks 2).map (·.fdTable) = some #v[0, 1, 2, 3, -1, -1, -1, -1] := by
    decide
  obtain ⟨v, hv, hvy⟩ := exec_cons hy
  obtain ⟨w, hw, hwy⟩ := exec_cons hvy
  obtain rfl : w = y := Except.ok.inj hwy
  obtain ⟨z', hz', hzz⟩ := exec_cons hz
  obtain rfl : z' = z := Except.ok.inj hzz
  have hfile : ¬ w.fs.pipeSlot 3 := by
    rintro ⟨f, hf, hpipe⟩
    rw [hf, Option.map_some, hpipe] at hslot
    exact absurd hslot (by decide)
  have hopens : sessions.RunWhere (fun w c => Orderly (w.run c.1) c.1 c.2) sampleSession
      [(1, .open pathF 0), (1, .fork 2)] w := by
    refine .snoc (.snoc .nil ?_ hv) ?_ hw <;> exact trivial
  have hkeeps : sessions.RunWhere (fun w c => Orderly (w.run c.1) c.1 c.2 ∧ KeepsFd 2 3 c) w
      [(1, .open pathF 0)] z' := .snoc .nil ⟨trivial, fun _ => trivial⟩ hz'
  obtain ⟨a, hya, hza, -, hcount, -⟩ := descriptors_independent sampleSession_start hopens
    le_rfl le_rfl (names_of_fdTable htask rfl) hfile hkeeps
  exact ⟨w, z', a, hy, hz, hya, hza, hcount⟩

/-- A parent opens a file, forks and closes its descriptor: the slot that the child's
descriptor names has lost its inode, and the close of the child reads through NULL. -/
theorem close_after_fork : ∃ x l y, SessionStart x ∧ sessions.Run x l y ∧ y.fs.names 2 3 3 ∧
    (∀ a, ¬ y.fs.refersTo 2 3 3 a) ∧
      sysClose (y.run 2) 3 = .error Fault.page := by
  obtain ⟨y, hy, ⟨hslot, htask⟩, e, he, rfl⟩ :
      ∃ y, sampleSession.exec [(1, .open pathF 0), (1, .fork 2), (1, .close 3)] = .ok y ∧
        ((y.fs.fileTable[3]?).map (·.fdInode) = some none ∧
          (y.fs.tasks 2).map (·.fdTable) = some #v[0, 1, 2, 3, -1, -1, -1, -1]) ∧
        ∃ e, sysClose (y.run 2) 3 = .error e ∧ e = Fault.page := by decide
  refine ⟨_, _, y, sampleSession_start, exec_run hy, names_of_fdTable htask rfl,
    fun a href => ?_, he⟩
  obtain ⟨f, hf, -, ha⟩ := mem_slotsOf.mp href.2
  rw [hf, Option.map_some, ha] at hslot
  exact absurd hslot (by simp)

end X86System.FileSystem
