import X86System.Counting

/-!
# Descriptors over whole runs

A fork counts the descriptors of the child one by one, an exit takes those of the
process out one by one. Calls that keep to the order in which counting works keep
every pipe's count exact and every descriptor on a slot that is in use.
-/
namespace X86System.FileSystem
open Bytes Exec Transition

variable {s t : State} {x y u : Session} {a : InodePtr} {g : ℕ} {f : File} {page : ℕ}
  {N N' : ℕ → Finset (ℕ × ℕ)} {d : ℕ × ℕ} {H : Multiset InodePtr}

section Forks

variable {task : Task} {p child : ℕ} {B : ℕ → Finset (ℕ × ℕ)}

/-- In the middle of a fork the child's descriptors below `fd` are counted besides `B`. -/
def CountedTo (B N : ℕ → Finset (ℕ × ℕ)) (task : Task) (child fd : ℕ) : Prop :=
  ∀ j d, d ∈ N j ↔ d ∈ B j ∨
    d.1 = child ∧ 3 ≤ d.2 ∧ d.2 < fd ∧ task.fd d.2 = some (j : ℤ)

/-- What the loop of a fork starts from: the parent's descriptors are in `B` and the child's
are not. -/
structure ForkBase (B : ℕ → Finset (ℕ × ℕ)) (task : Task) (p child : ℕ) : Prop where
  parent : ∀ e j : ℕ, task.fd e = some (j : ℤ) → (p, e) ∈ B j
  fresh : ∀ e j, (child, e) ∉ B j
  subset : ∀ j, B j ⊆ allDescriptors
  pid : child < 1024

theorem lt_succ_of_fd_ne {fd e j : ℕ} (hne : task.fd fd ≠ some (j : ℤ)) :
    e < fd + 1 ∧ task.fd e = some (j : ℤ) ↔ e < fd ∧ task.fd e = some (j : ℤ) := by
  refine ⟨fun h => ⟨?_, h.2⟩, fun h => ⟨Nat.lt_succ_of_lt h.1, h.2⟩⟩
  rcases Nat.lt_succ_iff_lt_or_eq.mp h.1 with hlt | rfl
  · exact hlt
  · exact absurd h.2 hne

/-- One round of the loop. -/
theorem shareSlot_countedTo {fd : ℕ} {v : ℤ} (hbase : ForkBase B task p child)
    (hb : Backed s H) (hx : Counted { x with fs := s } N) (hN : CountedTo B N task child fd)
    (hfd : 3 ≤ fd) (hv : task.fd fd = some v) (hnat : 0 ≤ v) :
    Returns (shareSlot s v.toNat) fun t => (∃ N', Counted { x with fs := t } N' ∧
      CountedTo B N' task child (fd + 1)) ∧ t.tasks = s.tasks ∧
        ∀ j, t.pipeSlot j ↔ s.pipeSlot j := by
  obtain ⟨g, rfl⟩ := Int.eq_ofNat_of_zero_le hnat
  have hlt : fd < 8 := (Vector.getElem?_eq_some_iff.mp hv).1
  have hnot : (child, fd) ∉ N g := by
    rw [hN]
    rintro (h | ⟨-, -, h, -⟩)
    · exact hbase.fresh fd g h
    · exact lt_irrefl _ h
  have hne : (N g).Nonempty := ⟨(p, fd), (hN g _).mpr (Or.inl (hbase.parent fd g hv))⟩
  have hcard : (N g).card < 8192 := by
    have hsub : insert (child, fd) (N g) ⊆ allDescriptors := by
      intro d hd
      rcases Finset.mem_insert.mp hd with rfl | hd
      · exact mem_allDescriptors.mpr ⟨hbase.pid, hlt⟩
      · rcases (hN g d).mp hd with hd | ⟨hchild, -, -, hd⟩
        · exact hbase.subset g hd
        · refine mem_allDescriptors.mpr ⟨hchild ▸ hbase.pid, ?_⟩
          exact (Vector.getElem?_eq_some_iff.mp hd).1
    have hle := Finset.card_le_card hsub
    rw [card_allDescriptors, Finset.card_insert_of_notMem hnot] at hle
    exact hle
  have hto : CountedTo B (Function.update N g (insert (child, fd) (N g))) task child (fd + 1) := by
    rintro j ⟨q, e⟩
    by_cases hj : j = g
    · subst hj
      rw [Function.update_self, Finset.mem_insert, hN]
      constructor
      · rintro (h | h | ⟨hq, he, hlt', h⟩)
        · obtain ⟨rfl, rfl⟩ : q = child ∧ e = fd := by simpa using h
          exact Or.inr ⟨rfl, hfd, Nat.lt_succ_self _, hv⟩
        · exact Or.inl h
        · exact Or.inr ⟨hq, he, Nat.lt_succ_of_lt hlt', h⟩
      · rintro (h | ⟨rfl, he, hlt', h⟩)
        · exact Or.inr (Or.inl h)
        · rcases Nat.lt_succ_iff_lt_or_eq.mp hlt' with hlt' | rfl
          · exact Or.inr (Or.inr ⟨rfl, he, hlt', h⟩)
          · exact Or.inl rfl
    · rw [Function.update_of_ne hj, hN]
      have hne' : task.fd fd ≠ some (j : ℤ) := by
        rw [hv]
        exact fun h => hj (by exact_mod_cast (Option.some.inj h).symm)
      exact or_congr_right (and_congr_right fun _ => and_congr_right fun _ =>
        (lt_succ_of_fd_ne hne').symm)
  have hspec := (shareSlot_spec hb g).mono fun t ht => show t.tasks = s.tasks ∧
      (∀ j, t.pipeSlot j ↔ s.pipeSlot j) ∧ 3 ≤ g by
    obtain ⟨f, hf, hcase⟩ := ht
    have hg : 3 ≤ g := by
      by_contra hlow
      obtain ⟨f', hf', hnone, hfile⟩ := hx.streams g (Nat.not_le.mp hlow)
      obtain rfl : f = f' := Option.some.inj (hf.symm.trans hf')
      rcases hcase with ⟨hpipe, -⟩ | ⟨-, a, ha, -⟩
      · exact hfile hpipe
      · simp [hnone] at ha
    rcases hcase with ⟨hpipe, rfl⟩ | ⟨-, a, -, ho⟩
    · refine ⟨rfl, fun j => ?_, hg⟩
      rw [pipeSlot_setFile (lt_of_slot hf)]
      by_cases hj : j = g
      · simp [hj, State.pipeSlot, hf]
      · rw [if_neg hj]
    · exact ⟨ho.tables.tasks, fun j => pipeSlot_tables ho.tables, hg⟩
  by_cases hg : 3 ≤ g
  · have hshare := shareSlot_counted (x := { x with fs := s }) hb hx hg hne hnot hcard
    exact (hshare.and hspec).mono fun t ht => ⟨⟨_, ht.1, hto⟩, ht.2.1, ht.2.2.1⟩
  · exact hspec.mono fun t ht => absurd ht.2.2 hg

theorem updateInodeOpenCnts_countedTo (hbase : ForkBase B task p child) (fuel : ℕ) :
    ∀ {fd : ℕ} {s : State} {N : ℕ → Finset (ℕ × ℕ)}, fd + fuel = 8 → 3 ≤ fd → Backed s H →
      Counted { x with fs := s } N → CountedTo B N task child fd →
      Returns (updateInodeOpenCnts task fuel fd s) fun t => (∃ N', Counted { x with fs := t } N' ∧
        CountedTo B N' task child 8) ∧ t.tasks = s.tasks ∧
          ∀ j, t.pipeSlot j ↔ s.pipeSlot j := by
  induction fuel with
  | zero =>
    intro fd s N hsum _ _ hx hN
    obtain rfl : fd = 8 := hsum
    exact ⟨⟨N, hx, hN⟩, rfl, fun _ => Iff.rfl⟩
  | succ fuel ih =>
    intro fd s N hsum hfd hb hx hN
    unfold updateInodeOpenCnts
    cases hv : task.fd fd with
    | none => trivial
    | some v =>
      refine returns_ite (fun hnone => ?_) fun _ => returns_ensure fun hrange => ?_
      · refine ih (by omega) (by omega) hb hx fun j d => ?_
        rw [hN]
        have hne : task.fd fd ≠ some (j : ℤ) := by
          rw [hv, hnone]
          exact fun h => absurd (Option.some.inj h) (by omega)
        exact or_congr_right (and_congr_right fun _ => and_congr_right fun _ =>
          (lt_succ_of_fd_ne hne).symm)
      · refine Returns.bind ((shareSlot_countedTo hbase hb hx hN hfd hv hrange.1).and
          (shareSlot_backed hb _)) fun t ht => ?_
        obtain ⟨⟨⟨N', hx', hN'⟩, htasks, hpipe⟩, hb', -⟩ := ht
        refine (ih (by omega) (by omega) hb' hx' hN').mono fun u hu => ?_
        exact ⟨hu.1, hu.2.1.trans htasks, fun j => (hu.2.2 j).trans (hpipe j)⟩

/-- A fork counts the descriptors of the child. -/
theorem forkFiles_descriptorsOk (hb : Backed x.fs H) (hx : DescriptorsOk x)
    (hpid : child < 1024) (hnew : x.fs.tasks child = none) :
    Returns (forkFiles x.fs child) fun t => DescriptorsOk { x with fs := t } := by
  refine returns_bind fun task htask => ?_
  have htask : x.fs.tasks x.fs.cur = some task := by
    cases h : x.fs.tasks x.fs.cur with
    | none => simp [h] at htask
    | some task' =>
      rw [h, deref_some] at htask
      exact congrArg some (Except.ok.inj htask)
  have hchild : ∀ e j, ¬ x.fs.names child e j := by
    rintro e j ⟨task', htask', -⟩
    simp [hnew] at htask'
  have hbase : ForkBase x.fs.naming task x.fs.cur child :=
    ⟨fun e j he => hx.namesMem ⟨task, htask, he⟩,
      fun e j h => hchild e j (mem_naming.mp h).2, naming_subset x.fs, hpid⟩
  have hstart : CountedTo x.fs.naming x.fs.naming task child 3 := fun j d =>
    ⟨Or.inl, fun h => h.resolve_right fun ⟨_, hle, hlt, _⟩ => absurd hlt (Nat.not_lt.mpr hle)⟩
  refine Returns.bind (updateInodeOpenCnts_countedTo hbase 5 rfl le_rfl hb hx.counted hstart) ?_
  rintro t ⟨⟨N, hN, hto⟩, htasks, hpipe⟩
  -- what the child's streams name are not pipes, and have a descriptor of the parent
  have hnames : ∀ q e j, (t.setTask child task).names q e j ↔
      x.fs.names q e j ∨ q = child ∧ task.fd e = some (j : ℤ) := by
    intro q e j
    rw [names_setTask, names_congr htasks]
    by_cases hq : q = child
    · subst hq
      simp [hchild]
    · simp [hq]
  have hlow : ∀ e j : ℕ, e < 3 → task.fd e = some (j : ℤ) → ¬ t.pipeSlot j := fun e j he hfd =>
    (hpipe j).not.mpr (hx.streams x.fs.cur e j he ⟨task, htask, hfd⟩)
  have hmem : ∀ j d, d ∈ (t.setTask child task).naming j ↔
      d ∈ x.fs.naming j ∨ d.1 = child ∧ task.fd d.2 = some (j : ℤ) := by
    intro j d
    rw [mem_naming, mem_naming, hnames]
    constructor
    · rintro ⟨hlt, h | h⟩
      · exact Or.inl ⟨hlt, h⟩
      · exact Or.inr h
    · rintro (⟨hlt, h⟩ | h)
      · exact ⟨hlt, Or.inl h⟩
      · exact ⟨h.1 ▸ hpid, Or.inr h⟩
  have hcounted : Counted { x with fs := t } (t.setTask child task).naming := by
    refine hN.recount (fun j hj => ?_) (fun j hj hne => ?_) fun j => naming_card_le ..
    · ext d
      rw [hmem, hto]
      refine or_congr_right (and_congr_right fun _ => ⟨fun h => ?_, fun h => h.2.2⟩)
      refine ⟨Nat.not_lt.mp fun hlt => hlow d.2 j hlt h hj, ?_, h⟩
      exact (Vector.getElem?_eq_some_iff.mp h).1
    · obtain ⟨d, hd⟩ := hne
      rcases (hmem j d).mp hd with hd | ⟨-, hd⟩
      · exact Or.inl ⟨d, (hto j d).mpr (Or.inl hd)⟩
      · exact Or.inl ⟨_, (hto j _).mpr (Or.inl (hbase.parent d.2 j hd))⟩
  refine ⟨hcounted.setTask child task, fun q e j he hn => ?_, fun q task' hq => ?_⟩
  · rcases (hnames q e j).mp hn with hn | ⟨-, hn⟩
    · exact (hpipe j).not.mpr (hx.streams q e j he hn)
    · exact hlow e j he hn
  · exact lt_of_setTask (fun q task hq => hx.pids q task (htasks ▸ hq)) hpid hq

end Forks

section Exits

variable {p k : ℕ}

/-- In the middle of an exit of `p` its descriptors below `k` are not counted any more. -/
def CountedFrom (B N : ℕ → Finset (ℕ × ℕ)) (p k : ℕ) : Prop :=
  ∀ j d, d ∈ N j ↔ d ∈ B j ∧ (d.1 ≠ p ∨ k ≤ d.2)

/-- What an exit of `p` from session `x` has done before descriptor `k`. -/
structure Exiting (x y : Session) (H : Multiset InodePtr) (p k : ℕ) : Prop where
  backed : Backed y.fs H
  counted : ∃ N, Counted y N ∧ CountedFrom x.fs.naming N p k
  cur : y.fs.cur = p
  left : ∀ e j, k ≤ e → (y.fs.names p e j ↔ x.fs.names p e j)
  slots : ∀ j, y.fs.pipeSlot j ↔ x.fs.pipeSlot j
  others : ∀ q, q ≠ p → y.fs.tasks q = x.fs.tasks q
  refs : ∀ g a q e, q ≠ p → x.fs.names q e g → g ∈ x.fs.slotsOf a → g ∈ y.fs.slotsOf a

/-- Dropping a descriptor of another slot leaves a slot with its inode. -/
theorem Dropped.slotsOf_of_ne {j : ℕ} (hd : Dropped x g u) (hj : j ≠ g)
    (hmem : j ∈ x.fs.slotsOf a) : j ∈ u.fs.slotsOf a := by
  have hstore : ∀ {s : State} {f : File}, g < 32 → j ∈ s.slotsOf a →
      j ∈ (s.setFile g f).slotsOf a := by
    intro s f hg hs
    rw [slotsOf_setFile hg]
    split_ifs
    · exact Finset.mem_insert_of_mem hs
    · exact Finset.mem_erase_of_ne_of_mem hj hs
  cases hd with
  | file hf _ _ hshut => exact hstore (lt_of_slot hf) (hshut.tables.slotsOf a ▸ hmem)
  | last hf _ _ _ => exact hstore (lt_of_slot hf) hmem
  | more hf _ _ => exact hstore (lt_of_slot hf) hmem

theorem not_pipeSlot_of_slotsOf (hmem : g ∈ s.slotsOf a) : ¬ s.pipeSlot g := by
  rintro ⟨f, hf, hpipe⟩
  obtain ⟨f', hf', hfile, -⟩ := mem_slotsOf.mp hmem
  obtain rfl : f = f' := Option.some.inj (hf.symm.trans hf')
  exact hfile hpipe

theorem countedFrom_erase {B : ℕ → Finset (ℕ × ℕ)} (hN : CountedFrom B N p k) :
    CountedFrom B (fun j => (N j).erase (p, k)) p (k + 1) := by
  rintro j ⟨q, e⟩
  rw [Finset.mem_erase, hN, Ne, Prod.mk.injEq]
  dsimp only
  constructor
  · rintro ⟨hne, hB, hq | he⟩
    · exact ⟨hB, Or.inl hq⟩
    · by_cases hq : q = p
      · have hek : e ≠ k := fun h => hne ⟨hq, h⟩
        exact ⟨hB, Or.inr (by omega)⟩
      · exact ⟨hB, Or.inl hq⟩
  · rintro ⟨hB, hq | he⟩
    · exact ⟨fun h => hq h.1, hB, Or.inl hq⟩
    · exact ⟨fun h => absurd h.2 (by omega), hB, Or.inr (by omega)⟩

theorem countedFrom_succ {B : ℕ → Finset (ℕ × ℕ)} (hN : CountedFrom B N p k)
    (hnone : ∀ j, (p, k) ∉ B j) : CountedFrom B N p (k + 1) := by
  have hsame : (fun j => (N j).erase (p, k)) = N := funext fun j =>
    Finset.erase_eq_of_notMem fun h => hnone j ((hN j _).mp h).1
  exact hsame ▸ countedFrom_erase hN

/-- One descriptor of the process that exits. -/
theorem releaseFd_exiting (hx : DescriptorsOk x)
    (hone : ∀ fd, 3 ≤ fd → x.fs.onlyOne p fd fun q fd' => q ≠ p ∨ 3 ≤ fd')
    (hy : Exiting x y H p k) (hk : 3 ≤ k) :
    Returns (releaseFd y k) fun z => Exiting x z H p (k + 1) := by
  obtain ⟨hb, ⟨N, hN, hfrom⟩, hcur, hleft, hslots, hothers, hrefs⟩ := hy
  refine (releaseFd_spec hb hk).mono fun z hz => ?_
  rcases hz with ⟨⟨task, htask, hfd⟩, rfl⟩ | ⟨g, f, u, hn, hf, hd, hcase⟩
  · have hnone : ∀ j, (p, k) ∉ x.fs.naming j := by
      intro j hmem
      obtain ⟨task', htask', hfd'⟩ := (hleft k j le_rfl).mpr (mem_naming.mp hmem).2
      rw [hcur] at htask
      obtain rfl : task = task' := Option.some.inj (htask.symm.trans htask')
      rw [hfd] at hfd'
      exact absurd (Option.some.inj hfd') (by omega)
    exact ⟨hb, ⟨N, hN, countedFrom_succ hfrom hnone⟩, hcur, fun e j he => hleft e j (by omega),
      hslots, hothers, hrefs⟩
  · rw [hcur] at hn
    have hnx : x.fs.names p k g := (hleft k g le_rfl).mp hn
    have hmem : (p, k) ∈ N g := (hfrom g _).mpr ⟨hx.namesMem hnx, Or.inr le_rfl⟩
    have hother : ∀ j, j ≠ g → (p, k) ∉ N j := fun j hj hmem =>
      hj ((mem_naming.mp ((hfrom j _).mp hmem).1).2.unique hnx)
    have halone : ¬ y.fs.pipeSlot g → N g = {(p, k)} := by
      intro hfile
      refine Finset.eq_singleton_iff_unique_mem.mpr ⟨hmem, fun d hd => ?_⟩
      obtain ⟨hB, hstays⟩ := (hfrom g d).mp hd
      obtain ⟨hq, he⟩ := hone k hk g hnx ((hslots g).not.mp hfile) d.1 d.2
        (mem_naming.mp hB).2 (hstays.imp id fun h => hk.trans h)
      exact Prod.ext hq he
    have hcounted := hd.counted hN (hd.three_le hN) hmem hother halone
    have hu : Exiting x u H p (k + 1) := by
      refine ⟨hd.backed hb, ⟨_, hcounted, countedFrom_erase hfrom⟩, hd.cur.trans hcur,
        fun e j he => ?_, fun j => hd.pipeSlot.trans (hslots j), fun q hq => ?_,
        fun j a q e hq hqn hj => ?_⟩
      · rw [names_congr hd.tasks]
        exact hleft e j (by omega)
      · rw [hd.tasks]
        exact hothers q hq
      · refine hd.slotsOf_of_ne (fun hjg => ?_) (hrefs j a q e hq hqn hj)
        subst hjg
        exact hq (hone k hk j hnx (not_pipeSlot_of_slotsOf hj) q e hqn (Or.inl hq)).1
    rcases hcase with ⟨-, rfl⟩ | ⟨-, task, htask, rfl⟩
    · exact hu
    · -- the entry is cleared, which only descriptor `k` of `p` notices
      have htask' : u.fs.tasks p = some task := by rw [hd.tasks, ← hcur, htask]
      have hlt : k < 8 := by
        obtain ⟨task', -, hfd⟩ := hn
        exact (Vector.getElem?_eq_some_iff.mp hfd).1
      rw [hcur]
      obtain ⟨N', hN', hfrom'⟩ := hu.counted
      refine ⟨hu.backed.setTask _ _, ⟨N', hN'.setTask _ _, hfrom'⟩, hu.cur, fun e j he => ?_,
        hu.slots, fun q hq => ?_, hu.refs⟩
      · have hset := @names_setFd _ p p _ e j _ (-1) htask' hlt
        rw [if_neg (by omega)] at hset
        exact hset.trans (hu.left e j he)
      · rw [← hu.others q hq]
        simp [State.setTask, hq]

theorem releaseFds_exiting (hx : DescriptorsOk x)
    (hone : ∀ fd, 3 ≤ fd → x.fs.onlyOne p fd fun q fd' => q ≠ p ∨ 3 ≤ fd') (fuel : ℕ) :
    ∀ {k : ℕ} {y : Session}, Exiting x y H p k → 3 ≤ k →
      Returns (releaseFds fuel k y) fun z => Exiting x z H p (k + fuel) := by
  induction fuel with
  | zero => exact fun hy _ => hy
  | succ fuel ih =>
    intro k y hy hk
    refine Returns.bind (releaseFd_exiting hx hone hy hk) fun z hz => ?_
    refine (ih hz (by omega)).mono fun w hw => ?_
    rwa [Nat.add_right_comm] at hw

/-- An exit is the release of all descriptors, after which the process is gone. -/
theorem exitFiles_exiting (hb : Backed x.fs H) (hx : DescriptorsOk x)
    (horder : Orderly x x.fs.cur .exit) : Returns (exitFiles x) fun y => ∃ z,
      Exiting x z H x.fs.cur 8 ∧ y = { z with
        fs := { z.fs with tasks := Function.update z.fs.tasks z.fs.cur none } } := by
  have hstart : Exiting x x H x.fs.cur 3 := by
    refine ⟨hb, ⟨fun j => (x.fs.naming j).filter fun d => d.1 ≠ x.fs.cur ∨ 3 ≤ d.2, ?_, ?_⟩, rfl,
      fun _ _ _ => Iff.rfl, fun _ => Iff.rfl, fun _ _ => rfl, fun _ _ _ _ _ _ h => h⟩
    · refine hx.counted.recount (fun j hj => ?_) (fun j _ hne => Or.inl ?_) fun j => ?_
      · refine Finset.filter_true_of_mem fun d hd => ?_
        by_contra hlow
        obtain ⟨hq, he⟩ := not_or.mp hlow
        exact hx.streams d.1 d.2 j (Nat.not_le.mp he) (mem_naming.mp hd).2 hj
      · exact hne.mono (Finset.filter_subset _ _)
      · exact (Finset.card_filter_le _ _).trans (naming_card_le ..)
    · exact fun j d => Finset.mem_filter
  exact Returns.bind (releaseFds_exiting hx horder 5 hstart le_rfl) fun z hz => ⟨z, hz, rfl⟩

/-- An exit takes the descriptors of the process out of the counts. -/
theorem Exiting.descriptorsOk (hz : Exiting x y H p 8) (hx : DescriptorsOk x) :
    DescriptorsOk { y with
      fs := { y.fs with tasks := Function.update y.fs.tasks y.fs.cur none } } := by
  obtain ⟨-, ⟨N, hN, hfrom⟩, hcur, -, hslots, hothers, -⟩ := hz
  have hnames : ∀ q e j, State.names { y.fs with
      tasks := Function.update y.fs.tasks y.fs.cur none } q e j ↔ q ≠ p ∧ x.fs.names q e j := by
    intro q e j
    by_cases hq : q = p
    · simp [State.names, hcur, hq]
    · simp [State.names, hcur, hq, hothers q hq]
  have hnaming : State.naming { y.fs with
      tasks := Function.update y.fs.tasks y.fs.cur none } = N := by
    funext j
    ext d
    rw [mem_naming, hnames, hfrom, mem_naming]
    constructor
    · rintro ⟨hlt, hq, hn⟩
      exact ⟨⟨hlt, hn⟩, Or.inl hq⟩
    · rintro ⟨⟨hlt, hn⟩, hq | he⟩
      · exact ⟨hlt, hq, hn⟩
      · obtain ⟨task, -, hfd⟩ := hn
        exact absurd (Vector.getElem?_eq_some_iff.mp hfd).1 (Nat.not_lt.mpr he)
  refine ⟨?_, fun q e j he hn => ?_, fun q task hq => ?_⟩
  · rw [hnaming]
    exact ⟨hN.streams, hN.named, hN.counts, hN.pages, hN.distinct, hN.used, hN.small⟩
  · exact (hslots j).not.mpr (hx.streams q e j he ((hnames q e j).mp hn).2)
  · by_cases hqp : q = p
    · simp [hcur, hqp] at hq
    · simp only [hcur, Function.update_of_ne hqp, hothers q hqp] at hq
      exact hx.pids q task hq

end Exits

section Runs

theorem dup2_descriptorsOk {fd1 fd2 : ℕ} {task : Task} {v : ℤ} (hx : DescriptorsOk x)
    (htask : x.fs.tasks x.fs.cur = some task) (hfd2 : fd2 < 8)
    (hv : fd1 < 3 ∧ v = fd1 ∨ 3 ≤ fd1 ∧ task.fd fd1 = some v)
    (horder : Orderly x x.fs.cur (.dup2 fd1 fd2)) :
    DescriptorsOk { x with fs := x.fs.setTask x.fs.cur (task.setFd fd2 v) } := by
  refine hx.setFd htask hfd2 (fun j hj => ?_) fun j hj hvj => ?_
  · rw [← horder j hj]
    constructor
    · rintro rfl
      rcases hv with ⟨hlow, hval⟩ | ⟨hfd1, hval⟩
      · have hj3 : j < 3 := by omega
        exact absurd hj (not_pipeSlot_of_free hx.counted hj3)
      · exact ⟨hfd1, task, htask, hval⟩
    · rintro ⟨hfd1, task', htask', hval'⟩
      obtain rfl : task = task' := Option.some.inj (htask.symm.trans htask')
      rcases hv with ⟨hlow, -⟩ | ⟨-, hval⟩
      · omega
      · exact Option.some.inj (hval.symm.trans hval')
  · rcases hv with ⟨hlow, hval⟩ | ⟨-, hval⟩
    · omega
    · exact Or.inl ⟨_, hx.namesMem ⟨task, htask, hvj ▸ hval⟩⟩

/-- An orderly call keeps all descriptors counted. -/
theorem Effect.descriptorsOk {c : Call} (he : Effect x c y) (hb : Backed x.fs H)
    (hx : DescriptorsOk x) (horder : Orderly x x.fs.cur c)
    (hlive : ∃ task, x.fs.tasks x.fs.cur = some task) (hpossible : c.possible x) :
    DescriptorsOk y := by
  cases he with
  | quiet ho hpages => exact hx.tables ho.tables hpages ho.nextInode
  | shut hshut hpages => exact hx.tables hshut.tables hpages hshut.nextInode.ge
  | @opened path flags t h ho =>
    obtain ⟨o, u, htake, hu, -⟩ := ho
    have htaken := htake.descriptorsOk (openFlag_ne_pipeFlag flags) hx
    exact htaken.tables hu.tables rfl hu.nextInode
  | close hfd hn hd htask =>
    exact hd.descriptorsOk hx htask hn (by omega) (horder hfd)
  | pipe hg hfree h0 h1 =>
    obtain ⟨task, htask⟩ := hlive
    exact pipe_descriptorsOk hx hg hfree htask horder h0 h1
  | dup2 htask hfd2 hv => exact dup2_descriptorsOk hx htask hfd2 hv horder
  | @fork child y hy hpages _ =>
    have hfork := (forkFiles_descriptorsOk hb hx hpossible.1 hpossible.2).of_ok hy
    exact hfork.tables (SameTables.refl _) hpages le_rfl
  | exit hy =>
    obtain ⟨z, hz, rfl⟩ := (exitFiles_exiting hb hx horder).of_ok hy
    exact hz.descriptorsOk hx

theorem descriptorsOk_start (hx : SessionStart x) : DescriptorsOk x := by
  have hslot : ∀ {g : ℕ} {f : File}, x.fs.fileTable[g]? = some f → f.fdInode = none ∧ f.fdFlag ≠ pipeFlag := by
    intro g f hf
    obtain ⟨hlt, rfl⟩ := Vector.getElem?_eq_some_iff.mp hf
    exact hx.noSlots _ (by simp)
  have hnames : ∀ {q e j : ℕ}, x.fs.names q e j → j < 3 := by
    rintro q e j ⟨task, htask, hfd⟩
    obtain ⟨-, rfl⟩ := hx.std q task htask
    have he := (Vector.getElem?_eq_some_iff.mp hfd).1
    have hall : ∀ e < 8, (stdTask.fd e).all (fun v => decide (v < 3)) = true := by decide
    have hval := hall e he
    rw [hfd] at hval
    have hlt : (j : ℤ) < 3 := by simpa using hval
    omega
  have hring : ∀ g page, ¬ x.fs.ringAt g page := by
    rintro g page ⟨f, hf, hpipe, -⟩
    exact (hslot hf).2 hpipe
  refine ⟨⟨fun g hg => ?_, fun g hg hne => ?_, fun g f hf hpipe => absurd hpipe (hslot hf).2,
    fun page => ?_, fun g g' page h => absurd h (hring g page), fun page hp => ?_,
    fun g => naming_card_le ..⟩, fun q e j _ _ => ?_, fun q task htask => (hx.std q task htask).1⟩
  · have hlt : g < 32 := by omega
    have hget : x.fs.fileTable[g]? = some x.fs.fileTable[g] := Vector.getElem?_eq_getElem hlt
    exact ⟨_, hget, hslot hget⟩
  · obtain ⟨d, hd⟩ := hne
    exact absurd (hnames (mem_naming.mp hd).2) (Nat.not_lt.mpr hg)
  · rw [hx.noPages]
    exact ⟨fun h => absurd h (Finset.notMem_empty page), fun ⟨g, h⟩ => absurd h (hring g page)⟩
  · rw [hx.noPages] at hp
    exact absurd hp (Finset.notMem_empty page)
  · rintro ⟨f, hf, hpipe⟩
    exact (hslot hf).2 hpipe

theorem step_possible {p : ℕ} {c : Call} (hstep : sessions.step x (p, c) y) :
    c.possible (x.run p) := by
  have hpossible := hstep.2.1
  cases c <;> exact hpossible

/-- An orderly step keeps all descriptors counted. -/
theorem step_descriptorsOk {p : ℕ} {c : Call} (hx : Backed x.fs x.held ∧ DescriptorsOk x)
    (horder : Orderly (x.run p) p c) (hstep : sessions.step x (p, c) y) :
    Backed y.fs y.held ∧ DescriptorsOk y := by
  obtain ⟨hb, hx⟩ := hx
  have hb' : Backed (x.run p).fs x.held := ⟨hb.ok.tables rfl rfl rfl, hb.counted⟩
  have hx' : DescriptorsOk (x.run p) := hx.tables ⟨fun _ => rfl, rfl⟩ rfl le_rfl
  exact ⟨step_backed hb hstep,
    (step_effect hb hstep).descriptorsOk hb' hx' horder hstep.1 (step_possible hstep)⟩

/-- Every state of a run of orderly calls counts its descriptors. -/
theorem run_descriptorsOk {l : List (ℕ × Call)} (hx : SessionStart x)
    (hrun : sessions.RunWhere (fun z c => Orderly (z.run c.1) c.1 c.2) x l y) :
    Backed y.fs y.held ∧ DescriptorsOk y :=
  hrun.keeps (I := fun z => Backed z.fs z.held ∧ DescriptorsOk z)
    (fun _ _ _ hz horder hstep => step_descriptorsOk hz horder hstep)
    ⟨backed_start hx, descriptorsOk_start hx⟩

/-- In a run of orderly calls `fd_pos` of every pipe slot is the number of its descriptors in
all live processes, a ring's page is allocated exactly while a descriptor names its slot, and
no descriptor names a slot whose `fd_inode` was set to NULL. -/
theorem descriptor_references_counted {l : List (ℕ × Call)} (hx : SessionStart x)
    (hrun : sessions.RunWhere (fun z c => Orderly (z.run c.1) c.1 c.2) x l y) :
    (∀ p fd g, y.fs.names p fd g → (p, fd) ∈ y.fs.naming g) ∧
    (∀ g f, y.fs.fileTable[g]? = some f → f.fdFlag = pipeFlag →
      f.fdPos.toNat = (y.fs.naming g).card) ∧
    (∀ page, page ∈ y.ringPages ↔ ∃ g, y.fs.ringAt g page ∧ (y.fs.naming g).Nonempty) ∧
    ∀ p fd g f, 3 ≤ g → y.fs.names p fd g → y.fs.fileTable[g]? = some f → f.fdInode ≠ none := by
  obtain ⟨-, hy⟩ := run_descriptorsOk hx hrun
  refine ⟨fun p fd g hn => hy.namesMem hn, fun g f hf hpipe => (hy.counted.counts g f hf hpipe).1,
    fun page => ?_, fun p fd g f hg hn hf => ?_⟩
  · rw [hy.counted.pages]
    refine exists_congr fun g => ⟨fun hring => ⟨hring, ?_⟩, fun h => h.1⟩
    obtain ⟨f, hf, hpipe, hpage⟩ := hring
    rw [Finset.nonempty_iff_ne_empty, Ne, ← (hy.counted.counts g f hf hpipe).2]
    simp [hpage]
  · obtain ⟨f', a, hf', ha⟩ := hy.counted.named g hg ⟨_, hy.namesMem hn⟩
    obtain rfl : f = f' := Option.some.inj (hf.symm.trans hf')
    simp [ha]

/-- A process makes a pipe. -/
theorem descriptor_references_counted_pipe : ∃ y f, sampleSession.exec [(1, .pipe)] = .ok y ∧
    y.fs.fileTable[3]? = some f ∧ f.fdPos = 2 ∧ (y.fs.naming 3).card = 2 := by
  obtain ⟨y, hy, hslot⟩ : ∃ y, sampleSession.exec [(1, .pipe)] = .ok y ∧
      y.fs.fileTable[3]? = some ⟨2, pipeFlag, some 1⟩ := by decide
  obtain ⟨z, hz, hzy⟩ := exec_cons hy
  obtain rfl : z = y := Except.ok.inj hzy
  have horder : Orderly (sampleSession.run 1) 1 .pipe := by
    intro task htask
    obtain ⟨-, rfl⟩ := sampleSession_start.std 1 task htask
    exact ⟨3, 4, by decide⟩
  have hcount := descriptor_references_counted sampleSession_start (.snoc .nil horder hz)
  have hcard := hcount.2.1 3 _ hslot rfl
  exact ⟨z, _, hy, hslot, rfl, hcard.symm⟩

/-- A copy that `sys_dup2` made is not counted: the page goes while the copy names the slot. -/
theorem dup2_not_counted : ∃ x l y, SessionStart x ∧ sessions.Run x l y ∧
    ∃ g f, y.fs.fileTable[g]? = some f ∧ f.fdFlag = pipeFlag ∧ y.ringPages = ∅ ∧
      f.fdPos.toNat ≠ (y.fs.naming g).card := by
  obtain ⟨y, hy, hslot, hpages, htask⟩ : ∃ y, sampleSession.exec
      [(1, .pipe), (1, .dup2 3 5), (1, .close 3), (1, .close 4)] = .ok y ∧
      y.fs.fileTable[3]? = some ⟨0, pipeFlag, none⟩ ∧ y.ringPages = ∅ ∧
      (y.fs.tasks 1).map (·.fdTable) = some #v[0, 1, 2, -1, -1, 3, -1, -1] := by decide
  refine ⟨_, _, y, sampleSession_start, exec_run hy, 3, _, hslot, rfl, hpages, ?_⟩
  obtain ⟨task, htask, htable⟩ := Option.map_eq_some_iff.mp htask
  have hnames : y.fs.names 1 5 3 := by
    refine ⟨task, htask, ?_⟩
    unfold Task.fd
    rw [htable]
    rfl
  have hmem : (1, 5) ∈ y.fs.naming 3 := mem_naming.mpr ⟨by decide, hnames⟩
  have hpos : 0 < (y.fs.naming 3).card := Finset.card_pos.mpr ⟨_, hmem⟩
  exact hpos.ne

end Runs

end X86System.FileSystem
