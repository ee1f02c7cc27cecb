import X86System.Backing

/-!
# Who may write to a file

A slot that is taken for a new inode is the only one of that inode. A slot that is
taken for an open inode joins those that refer to it, and `file_open` fills it in
before it looks at `write_deny`. So one writer at a time is what the callers keep
to: the inode that they ask to write has no slot for writing yet.
-/
namespace X86System.FileSystem
open Bytes Exec Transition

variable {s t u : State} {x y : Session} {a : InodePtr} {g : ℕ} {f : File}
  {h H : Multiset InodePtr} {flag : UInt32}

/-- A slot for writing. -/
def State.writes (s : State) (g : ℕ) : Prop :=
  ∃ f, s.fileTable[g]? = some f ∧ forWriting f.fdFlag

/-- No two slots that refer to one inode are both for writing. -/
def OneWriter (s : State) : Prop :=
  ∀ a, ∀ g ∈ s.slotsOf a, ∀ g' ∈ s.slotsOf a, s.writes g → s.writes g' → g = g'

/-- Some slot for writing refers to an inode with this number. -/
def State.writtenTo (s : State) (n : UInt32) : Prop :=
  ∃ a z, s.inodes a = some z ∧ z.iNo = n ∧ ∃ g ∈ s.slotsOf a, s.writes g

/-- A call of `sys_open` that asks to write an existing file that is open for writing, when
there is a free slot. -/
def AsksTwice (x : Session) : Call → Prop
  | .open path flags => forWriting flags.toUInt32 ∧ (∃ g, 3 ≤ g ∧ x.fs.freeSlot g) ∧
      ∃ n, OpensExisting x.fs path flags n ∧ x.fs.writtenTo n
  | _ => False

theorem SameTables.writes (ht : SameTables s t) (hw : t.writes g) : s.writes g := by
  obtain ⟨f, hf, hw⟩ := hw
  obtain ⟨f', hf', hflag, -⟩ := ht.slot hf
  exact ⟨f', hf', hflag ▸ hw⟩

/-- Fewer slots with the same flags. -/
theorem OneWriter.fewer (hs : OneWriter s) (hslots : ∀ a, t.slotsOf a ⊆ s.slotsOf a)
    (hwrites : ∀ a, ∀ g ∈ t.slotsOf a, t.writes g → s.writes g) : OneWriter t :=
  fun a g hg g' hg' hw hw' => hs a g (hslots a hg) g' (hslots a hg')
    (hwrites a g hg hw) (hwrites a g' hg' hw')

theorem OneWriter.tables (hs : OneWriter s) (ht : SameTables s t) : OneWriter t :=
  hs.fewer (fun a => (ht.slotsOf a).subset) fun _ _ _ hw => ht.writes hw

/-- A store to a slot that leaves it without an inode, or with a pipe. -/
theorem OneWriter.setFile (hs : OneWriter s) (hg : g < 32)
    (hf : f.fdFlag = pipeFlag ∨ f.fdInode = none) : OneWriter (s.setFile g f) := by
  have hslots : ∀ a, (s.setFile g f).slotsOf a = (s.slotsOf a).erase g := by
    intro a
    rw [slotsOf_setFile hg, if_neg]
    rintro ⟨hflag, hinode⟩
    rcases hf with hpipe | hnone
    · exact hflag hpipe
    · simp [hnone] at hinode
  refine hs.fewer (fun a => (hslots a).subset.trans (Finset.erase_subset _ _)) ?_
  intro a j hj hw
  rw [hslots] at hj
  obtain ⟨f', hf', hw⟩ := hw
  rw [setFile_of_ne (Finset.ne_of_mem_erase hj)] at hf'
  exact ⟨f', hf', hw⟩

/-- A slot that is filled for an inode that nothing else writes to, or not for writing. -/
theorem OneWriter.fill (hs : OneWriter s) (hfree : s.freeSlot g)
    (halone : forWriting flag → ∀ j ∈ s.slotsOf a, ¬ s.writes j) :
    OneWriter (s.setFile g ⟨0, flag, some a⟩) := by
  have hg : g < 32 := by
    obtain ⟨f, hf, -⟩ := hfree
    exact lt_of_slot hf
  have hmem : ∀ {b j}, j ≠ g → j ∈ (s.setFile g ⟨0, flag, some a⟩).slotsOf b →
      j ∈ s.slotsOf b := by
    intro b j hj hmem
    rw [slotsOf_setFile hg] at hmem
    split_ifs at hmem
    · exact (Finset.mem_insert.mp hmem).resolve_left hj
    · exact Finset.mem_of_mem_erase hmem
  have hwrites : ∀ {j}, j ≠ g → (s.setFile g ⟨0, flag, some a⟩).writes j → s.writes j := by
    rintro j hj ⟨f, hf, hw⟩
    rw [setFile_of_ne hj] at hf
    exact ⟨f, hf, hw⟩
  -- the new slot cannot share its inode with another one for writing
  have hnew : ∀ {b j}, j ≠ g → g ∈ (s.setFile g ⟨0, flag, some a⟩).slotsOf b →
      j ∈ (s.setFile g ⟨0, flag, some a⟩).slotsOf b →
      (s.setFile g ⟨0, flag, some a⟩).writes g →
      ¬ (s.setFile g ⟨0, flag, some a⟩).writes j := by
    intro b j hj hgb hjb hw hwj
    obtain ⟨f, hf, -, hinode⟩ := mem_slotsOf.mp hgb
    obtain ⟨f', hf', hw⟩ := hw
    rw [setFile_self hg] at hf hf'
    obtain rfl := Option.some.inj hf
    obtain rfl := Option.some.inj hf'
    obtain rfl : a = b := by simpa using hinode
    exact halone hw j (hmem hj hjb) (hwrites hj hwj)
  intro b j hj j' hj' hw hw'
  by_cases hjg : j = g <;> by_cases hjg' : j' = g
  · rw [hjg, hjg']
  · subst hjg
    exact absurd hw' (hnew hjg' hj hj' hw)
  · subst hjg'
    exact absurd hw (hnew hjg hj' hj hw')
  · exact hs b j (hmem hjg hj) j' (hmem hjg' hj') (hwrites hjg hw) (hwrites hjg' hw')

theorem OneWriter.setTask (hs : OneWriter s) (p : ℕ) (task : Task) :
    OneWriter (s.setTask p task) := hs

theorem OneWriter.withPipe (hs : OneWriter s) (hfree : s.freeSlot g) :
    OneWriter (s.withPipe g) := by
  obtain ⟨f, hf, -⟩ := hfree
  have hnext : OneWriter { s with
      heap := fun k => s.heap (k + 1), nextInode := s.nextInode + 1 } :=
    hs.tables ⟨fun _ => rfl, rfl⟩
  exact hnext.setFile (lt_of_slot hf) (Or.inl rfl)

theorem Dropped.oneWriter (hd : Dropped x g y) (hx : OneWriter x.fs) : OneWriter y.fs := by
  cases hd with
  | file hf _ _ hshut => exact (hx.tables hshut.tables).setFile (lt_of_slot hf) (Or.inr rfl)
  | last hf hpipe _ _ => exact hx.setFile (lt_of_slot hf) (Or.inl hpipe)
  | more hf hpipe _ => exact hx.setFile (lt_of_slot hf) (Or.inl hpipe)

theorem shareSlot_oneWriter (hb : Backed s H) (hs : OneWriter s) (g : ℕ) :
    Returns (shareSlot s g) OneWriter := by
  refine (shareSlot_spec hb g).mono fun t ht => ?_
  obtain ⟨f, hf, ⟨hpipe, rfl⟩ | ⟨-, a, -, ho⟩⟩ := ht
  · exact hs.setFile (lt_of_slot hf) (Or.inl hpipe)
  · exact hs.tables ho.tables

theorem pcbFdInstall_oneWriter (hs : OneWriter s) (g : ℕ) :
    Returns (pcbFdInstall s g) fun r => OneWriter r.2 := by
  refine (pcbFdInstall_spec s g).mono fun r hr => ?_
  rcases hr with ⟨rfl, -⟩ | ⟨task, fd, -, -, -, rfl⟩
  · exact hs
  · exact hs.setTask _ _

theorem Opened.oneWriter {P : InodePtr → Prop} (ho : Opened s flag h P t) (hs : OneWriter s)
    (halone : ∀ a, P a → (∃ g, 3 ≤ g ∧ s.freeSlot g) → forWriting flag →
      ∀ j ∈ s.slotsOf a, ¬ s.writes j) : OneWriter t := by
  obtain ⟨o, u, htake, hu, hP⟩ := ho
  refine OneWriter.tables ?_ hu.tables
  cases htake with
  | none => exact hs
  | cleared _ hfree =>
    obtain ⟨f, hf, -⟩ := hfree
    exact hs.setFile (lt_of_slot hf) (Or.inr rfl)
  | filled hg hfree => exact hs.fill hfree (halone _ (hP _ rfl) ⟨_, hg, hfree⟩)
  | named hg hfree => exact (hs.fill hfree (halone _ (hP _ rfl) ⟨_, hg, hfree⟩)).setTask _ _

theorem forkFiles_oneWriter (hb : Backed s H) (hs : OneWriter s) (child : ℕ) :
    Returns (forkFiles s child) OneWriter := by
  refine returns_skip fun task => ?_
  refine Returns.bind (updateInodeOpenCnts_keeps (I := fun t => Backed t H ∧ OneWriter t)
    (fun t g ht => ?_) task 5 ⟨hb, hs⟩) fun t ht => ht.2.setTask _ _
  exact ((shareSlot_backed ht.1 g).and (shareSlot_oneWriter ht.1 ht.2 g)).mono
    fun u hu => ⟨hu.1.1, hu.2⟩

theorem exitFiles_oneWriter (hb : Backed x.fs H) (hx : OneWriter x.fs) :
    Returns (exitFiles x) fun y => OneWriter y.fs := by
  refine Returns.bind (releaseFds_keeps (I := fun y => Backed y.fs H ∧ OneWriter y.fs)
    (fun y fd hfd hy => ?_) 5 le_rfl ⟨hb, hx⟩) fun z hz => hz.2
  exact releaseFd_keeps hy.1 hfd hy (fun g u hd => ⟨hd.backed hy.1, hd.oneWriter hy.2⟩)
    fun u p task hu => ⟨hu.1.setTask _ _, hu.2⟩

/-- A call that does not ask twice keeps one writer for each inode. -/
theorem Effect.oneWriter {c : Call} (he : Effect x c y) (hb : Backed x.fs H)
    (hx : OneWriter x.fs) (hask : ¬ AsksTwice x c) : OneWriter y.fs := by
  cases he with
  | quiet ho => exact hx.tables ho.tables
  | shut hshut => exact hx.tables hshut.tables
  | @opened path flags t h ho =>
    refine ho.oneWriter hx fun a ha hfree hwriting j hj hw => ?_
    obtain ⟨f, hf, hfile, hinode⟩ := mem_slotsOf.mp hj
    have hopen := hb.slot_open hf hfile hinode
    have hold : ¬ x.fs.nextInode ≤ a := Nat.not_le.mpr (hb.ok.used a hopen)
    obtain ⟨n, hex, hnew⟩ := ha.resolve_left hold
    obtain ⟨-, z, hz, hn⟩ := hnew.resolve_left hold
    exact hask ⟨hwriting, hfree, n, hex, a, z, hz, hn, j, hj, hw⟩
  | close _ _ hd _ => exact (hd.oneWriter hx).setTask _ _
  | @pipe g fd0 fd1 t u _ hfree h0 h1 =>
    have hpipe : OneWriter (x.fs.withPipe g) := hx.withPipe hfree
    have ht := (pcbFdInstall_oneWriter hpipe g).of_ok h0
    have hu := (pcbFdInstall_oneWriter ht g).of_ok h1
    exact hu
  | dup2 => exact hx.setTask _ _
  | fork hy => exact (forkFiles_oneWriter hb hx _).of_ok hy
  | exit hy => exact (exitFiles_oneWriter hb hx).of_ok hy

/-- In a run whose calls never ask twice to write, no two slots that refer to one inode are
both for writing. -/
theorem one_writer_per_inode {p : List (ℕ × Call)} (hx : SessionStart x)
    (hrun : sessions.RunWhere (fun z c => ¬ AsksTwice (z.run c.1) c.2) x p y) :
    OneWriter y.fs := by
  have hinv : Backed y.fs y.held ∧ OneWriter y.fs := by
    refine hrun.keeps (I := fun z => Backed z.fs z.held ∧ OneWriter z.fs) ?_
      ⟨backed_start hx, ?_⟩
    · rintro z ⟨q, c⟩ w ⟨hb, hz⟩ hask hstep
      have hb' : Backed (z.run q).fs z.held := ⟨hb.ok.tables rfl rfl rfl, hb.counted⟩
      exact ⟨step_backed hb hstep, (step_effect hb hstep).oneWriter hb' hz hask⟩
    · intro a g hg
      simp [hx.slotsOf] at hg
  exact hinv.2

/-- A writer opens the file and closes it. -/
theorem one_writer_after_close : ∃ y, sampleSession.exec
    [(1, .open pathF 1), (1, .close 3)] = .ok y ∧ OneWriter y.fs := by
  obtain ⟨y, hy, -⟩ : ∃ y, sampleSession.exec [(1, .open pathF 1), (1, .close 3)] = .ok y ∧ True := by
    decide
  obtain ⟨z, hz, hzy⟩ := exec_cons hy
  obtain ⟨w, hw, hwy⟩ := exec_cons hzy
  obtain rfl : w = y := Except.ok.inj hwy
  refine ⟨w, hy, one_writer_per_inode sampleSession_start (.snoc (.snoc .nil ?_ hz) ?_ hw)⟩
  · rintro ⟨-, -, n, -, a, -, -, -, g, hg, -⟩
    have hnone : g ∈ sampleSession.fs.slotsOf a := hg
    simp [sampleSession_start.slotsOf] at hnone
  · exact id

/-- A reader that comes and goes leaves the file to a second writer. -/
theorem two_writers : ∃ x l y, SessionStart x ∧ sessions.Run x l y ∧ ¬ OneWriter y.fs := by
  obtain ⟨y, hy, h3, h4⟩ : ∃ y, sampleSession.exec
      [(1, .open pathF 1), (1, .open pathF 0), (1, .close 4), (1, .open pathF 1)] = .ok y ∧
      y.fs.fileTable[3]? = some ⟨0, 1, some 1⟩ ∧ y.fs.fileTable[4]? = some ⟨0, 1, some 1⟩ := by
    decide
  refine ⟨_, _, y, sampleSession_start, exec_run hy, fun hone => ?_⟩
  have hmem : ∀ {g : ℕ}, y.fs.fileTable[g]? = some ⟨0, 1, some 1⟩ →
      g ∈ y.fs.slotsOf 1 ∧ y.fs.writes g := fun hg =>
    ⟨mem_slotsOf.mpr ⟨_, hg, by decide, rfl⟩, _, hg, by decide⟩
  exact absurd (hone 1 3 (hmem h3).1 4 (hmem h4).1 (hmem h3).2 (hmem h4).2) (by decide)

end X86System.FileSystem
