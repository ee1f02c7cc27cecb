import X86System.SpaceCalls

/-!
# Starting tasks and switching between them

A new task is kept in fresh pages of the kernel heap: its PCB, for a process also its
bitmap and its page directory. With them it joins the tasks whose address spaces the
invariant speaks of, and a switch only exchanges the directory in use.
-/
namespace X86System.Memory
open Exec Paging

/-- The task that keeps something in a page. -/
def Use.task : Use → ℕ
  | pcb p | pgdir p | bitmap p => p

/-- A page of the kernel heap that no task is kept in. -/
structure Spare (s : State) (G : Layout) (n : ℕ) : Prop where
  owned : ∃ f, G.owns (.kernel n) = some f
  unused : ∀ u, ¬ s.Uses u n

section Tasks

variable {s : State} {m m' : Machine} {G G' : Layout} {p next n nb : ℕ} {nd : Option ℕ} {new : Set ℕ}

/-- `page_dir_activate` makes the directory of a task the one in use. -/
theorem Coherent.pageDirActivate (hc : Coherent m G) (hcr3 : m.cr3 ∈ G.dirs) {d : ℕ}
    (hd : DirOf m G p d) : pageDirActivate m p = .ok { m with cr3 := d } := by
  unfold Memory.pageDirActivate
  unfold DirOf at hd
  cases hv : (m.tasks p).pgdir with
  | none =>
    rw [hv] at hd
    rw [hd]
    rfl
  | some v =>
    rw [hv] at hd
    dsimp only at hd ⊢
    obtain ⟨n, rfl⟩ : ∃ n, v = n * 4096 := ⟨v / 4096, by omega⟩
    rw [Nat.mul_div_cancel _ (by norm_num)] at hd
    have hframe : (d * 4096) >>> 12 = d := by
      rw [Nat.shiftRight_eq_div_pow]
      omega
    rw [@Coherent.addrV2p_page m G .kernel n d hc hcr3 hd.2, ok_bind, pure_eq_ok, hframe]

/-- A switch to another task goes to its directory. -/
theorem Sound.switches (hs : Sound s G) (hnext : next ∈ s.threads) :
    ∃ d, DirOf s.machine G next d ∧
      switchTo s.machine next = .ok { s.machine with cr3 := d, running := next } := by
  obtain ⟨d, -, hd⟩ := hs.dir next hnext
  refine ⟨d, hd, ?_⟩
  unfold switchTo
  rw [hs.coherent.pageDirActivate hs.cr3_mem hd]
  rfl

/-- The switch to another task. -/
theorem Sound.schedule (hs : Sound s G) (hnext : next ∈ s.threads) (hlive : next ∉ s.hanging)
    (h : switchTo s.machine next = .ok m') : Sound { s with machine := m' } G := by
  obtain ⟨d, hd, hswitch⟩ := hs.switches hnext
  obtain rfl := Except.ok.inj (h.symm.trans hswitch)
  exact ⟨⟨hs.coherent.marked, hs.coherent.encoded⟩, hs.held, hs.kernel, hs.kernelBase,
    hs.kernelPages, hnext, hlive, hs.hanging_sub, hd, hs.dir, hs.user, hs.dirs, hs.closed,
    hs.owned, hs.uses_inj, hs.aligned, hs.bare⟩

/-- Only PCBs and pids differ. -/
def Retasked (m m' : Machine) : Prop :=
  ∃ tasks pid, m' = { m with tasks := tasks, pidBitmap := pid }

theorem retasked_setTask (m : Machine) (pcb : ℕ) (task : Task) : Retasked m (m.setTask pcb task) :=
  ⟨_, m.pidBitmap, rfl⟩

/-- Pids, names and the PCBs outside the task list may change. -/
theorem Sound.respace (hs : Sound s G) (hm : Retasked s.machine m')
    (htasks : ∀ q ∈ s.threads, (m'.tasks q).pgdir = (s.machine.tasks q).pgdir ∧
      (m'.tasks q).userprocVaddr = (s.machine.tasks q).userprocVaddr) :
    Sound { s with machine := m' } G := by
  have hpgdir (q : ℕ) (hq : q ∈ s.threads) : (m'.tasks q).pgdir = (s.machine.tasks q).pgdir :=
    (htasks q hq).1
  have hvaddr (q : ℕ) (hq : q ∈ s.threads) :
      (m'.tasks q).userprocVaddr = (s.machine.tasks q).userprocVaddr := (htasks q hq).2
  have hdirOf (q d : ℕ) (hq : q ∈ s.threads) : DirOf m' G q d ↔ DirOf s.machine G q d := by
    unfold DirOf
    rw [hpgdir q hq]
  have huses := uses_of_spaces htasks
  obtain ⟨tasks, pid, rfl⟩ := hm
  exact {
    coherent := ⟨hs.coherent.marked, hs.coherent.encoded⟩
    held := hs.held
    kernel := hs.kernel
    kernelBase := hs.kernelBase
    kernelPages := hs.kernelPages
    running_mem := hs.running_mem
    running_notMem := hs.running_notMem
    hanging_sub := hs.hanging_sub
    cr3 := (hdirOf _ _ hs.running_mem).mpr hs.cr3
    dir := fun q hq => by
      obtain ⟨d, hd, hdir⟩ := hs.dir q hq
      exact ⟨d, hd, (hdirOf q d hq).mpr hdir⟩
    user := fun q hq hh => by
      obtain ⟨d, hd, hspace⟩ := hs.user q hq hh
      refine ⟨d, (hdirOf q d hq).mpr hd, ?_⟩
      rwa [hpgdir q hq, hvaddr q hq]
    dirs := fun d hd hne => by
      obtain ⟨q, hq, hproc, hdir⟩ := hs.dirs d hd hne
      refine ⟨q, hq, ?_, (hdirOf q d hq).mpr hdir⟩
      rwa [hpgdir q hq]
    closed := fun q hq hproc d hd => by
      have hmem := hs.hanging_sub hq
      rw [hpgdir q hmem] at hproc
      exact hs.closed q hq hproc d ((hdirOf q d hmem).mp hd)
    owned := fun u x hu => hs.owned u x ((huses u x).mp hu)
    uses_inj := fun u u' x hu hu' => hs.uses_inj u u' x ((huses u x).mp hu) ((huses u' x).mp hu')
    aligned := fun q hq => by
      rw [hvaddr q hq]
      exact hs.aligned q hq
    bare := fun q hq hnone => by
      rw [hpgdir q hq] at hnone
      rw [hvaddr q hq]
      exact hs.bare q hq hnone }

/-- PCBs outside the task list and the pids may change. -/
theorem Sound.retask (hs : Sound s G) (hm : Retasked s.machine m')
    (htasks : ∀ q ∈ s.threads, m'.tasks q = s.machine.tasks q) :
    Sound { s with machine := m' } G :=
  hs.respace hm fun q hq => by
    rw [htasks q hq]
    exact ⟨rfl, rfl⟩

/-- A new task `p` with its PCB in page `n`, its bitmap from page `nb` on and its directory in page
`nd`, if it has one; `new` is the set of the frames of that directory. -/
structure Joins (s : State) (G : Layout) (m' : Machine) (G' : Layout) (p n nb : ℕ)
    (nd : Option ℕ) (new : Set ℕ) : Prop where
  coherent : Coherent m' G'
  kernelVaddr : m'.kernelVaddr = s.machine.kernelVaddr
  cr3 : m'.cr3 = s.machine.cr3
  running : m'.running = s.machine.running
  tasks : ∀ q ∈ s.threads, m'.tasks q = s.machine.tasks q
  kernel : ∀ x, G'.owns (.kernel x) = G.owns (.kernel x)
  held : ∀ pf, G'.owns (.held pf) = none
  user : ∀ d ∉ new, ∀ x, G'.owns (.user d x) = G.owns (.user d x)
  dirs : G'.dirs = G.dirs ∪ new
  spaces : G'.spaces = G.spaces ∪ new
  fresh : ∀ d ∈ new, d ∉ G.dirs ∧ nd ≠ none ∧ DirOf m' G' p d
  space : UserSpace m' G' p
  notMem : p ∉ s.threads
  pcb : p = n * 4096
  pgdir : (m'.tasks p).pgdir = nd.map (· * 4096)
  bits : (m'.tasks p).userprocVaddr.bits = nb * 4096
  sparePcb : Spare s G n
  spareDir : ∀ x ∈ nd, Spare s G x ∧ x ≠ n
  spareBits : nd ≠ none → ∀ i < bitmapPgCnt, Spare s G (nb + i) ∧ nb + i ≠ n ∧ nd ≠ some (nb + i)
  bare : nd = none → (m'.tasks p).userprocVaddr.vaddrBitmap.btmpBytesLen = 0

section Joining

variable {q d x : ℕ} {u u' : Use}

theorem Joins.dirOf_iff (h : Joins s G m' G' p n nb nd new) (hq : q ∈ s.threads) :
    DirOf m' G' q d ↔ DirOf s.machine G q d := by
  unfold DirOf
  rw [h.tasks q hq]
  simp only [h.kernel]

/-- What the new task is kept in, or what tasks were kept in before. -/
theorem Joins.uses_cases (h : Joins s G m' G' p n nb nd new)
    (hu : (⟨m', insert p s.threads, s.hanging⟩ : State).Uses u x) :
    s.Uses u x ∨ u = .pcb p ∧ x = n ∨ u = .pgdir p ∧ nd = some x ∨
      u = .bitmap p ∧ nd ≠ none ∧ ∃ i < bitmapPgCnt, x = nb + i := by
  cases u with
  | pcb q =>
    obtain ⟨hq, hmain, rfl⟩ := hu
    obtain rfl | hq := Finset.mem_insert.mp hq
    · exact .inr (.inl ⟨rfl, by rw [h.pcb]; omega⟩)
    · exact .inl ⟨hq, hmain, rfl⟩
  | pgdir q =>
    obtain ⟨hq, v, hv, rfl⟩ := hu
    obtain rfl | hq := Finset.mem_insert.mp hq
    · obtain ⟨y, hy, rfl⟩ := Option.map_eq_some_iff.mp (h.pgdir.symm.trans hv)
      exact .inr (.inr (.inl ⟨rfl, by rw [hy]; simp⟩))
    · dsimp only at hv
      rw [h.tasks q hq] at hv
      exact .inl ⟨hq, v, hv, rfl⟩
  | bitmap q =>
    obtain ⟨hq, hh, hproc, hle, hlt⟩ := hu
    obtain rfl | hq := Finset.mem_insert.mp hq
    · dsimp only at hproc hle hlt
      rw [h.bits, Nat.mul_div_cancel _ (by norm_num)] at hle hlt
      refine .inr (.inr (.inr ⟨rfl, ?_, x - nb, by omega, by omega⟩))
      rintro rfl
      exact hproc h.pgdir
    · dsimp only at hproc hle hlt
      rw [h.tasks q hq] at hproc hle hlt
      exact .inl ⟨hq, hh, hproc, hle, hlt⟩

/-- The pages of the new task were spare. -/
theorem Joins.uses_spare (h : Joins s G m' G' p n nb nd new)
    (hu : (⟨m', insert p s.threads, s.hanging⟩ : State).Uses u x) : s.Uses u x ∨ Spare s G x := by
  obtain hu | ⟨-, rfl⟩ | ⟨-, hx⟩ | ⟨-, hproc, i, hi, rfl⟩ := h.uses_cases hu
  · exact .inl hu
  · exact .inr h.sparePcb
  · exact .inr (h.spareDir x hx).1
  · exact .inr (h.spareBits hproc i hi).1

/-- The new task is kept in each page for one purpose. -/
theorem Joins.uses_inj (h : Joins s G m' G' p n nb nd new) (hs : Sound s G)
    (hu : (⟨m', insert p s.threads, s.hanging⟩ : State).Uses u x)
    (hu' : (⟨m', insert p s.threads, s.hanging⟩ : State).Uses u' x) : u = u' := by
  obtain ho | ho := h.uses_spare hu
  · obtain ho' | ho' := h.uses_spare hu'
    · exact hs.uses_inj u u' x ho ho'
    · exact absurd ho (ho'.2 u)
  obtain h1 | ⟨rfl, h1⟩ | ⟨rfl, h1⟩ | ⟨rfl, hp1, i, hi, h1⟩ := h.uses_cases hu
  · exact absurd h1 (ho.2 u)
  · obtain h2 | ⟨rfl, -⟩ | ⟨-, h2⟩ | ⟨-, hp2, i, hi, h2⟩ := h.uses_cases hu'
    · exact absurd h2 (ho.2 u')
    · rfl
    · exact absurd h1 (h.spareDir x h2).2
    · exact absurd (h2.symm.trans h1) (h.spareBits hp2 i hi).2.1
  · obtain h2 | ⟨-, h2⟩ | ⟨rfl, -⟩ | ⟨-, hp2, i, hi, h2⟩ := h.uses_cases hu'
    · exact absurd h2 (ho.2 u')
    · exact absurd h2 (h.spareDir x h1).2
    · rfl
    · exact absurd (h2 ▸ h1) (h.spareBits hp2 i hi).2.2
  · obtain h2 | ⟨-, h2⟩ | ⟨-, h2⟩ | ⟨rfl, -⟩ := h.uses_cases hu'
    · exact absurd h2 (ho.2 u')
    · exact absurd (h1.symm.trans h2) (h.spareBits hp1 i hi).2.1
    · exact absurd (h1 ▸ h2) (h.spareBits hp1 i hi).2.2
    · rfl

/-- The address space of a task that was there is as before. -/
theorem Joins.userSpace (h : Joins s G m' G' p n nb nd new) (hs : Sound s G) (hq : q ∈ s.threads)
    (hu : UserSpace s.machine G q) : UserSpace m' G' q := by
  obtain ⟨d, hd, htrack, hsize⟩ := hu
  obtain ⟨d', hmem, hd'⟩ := hs.dir q hq
  obtain rfl := hd.unique hd'
  have hnew : d ∉ new := fun hin => (h.fresh d hin).1 hmem
  refine ⟨d, h.dirOf_iff hq |>.mpr hd, ?_, ?_⟩
  · rw [h.tasks q hq]
    exact (show Tracked _ (Owner.ofPage .user d) _ from htrack).other (h.user d hnew)
  · rw [h.tasks q hq, h.spaces]
    exact fun hproc => (hsize hproc).imp .inl id

/-- A new task joins the others. -/
theorem Sound.join (hs : Sound s G) (h : Joins s G m' G' p n nb nd new) :
    Sound ⟨m', insert p s.threads, s.hanging⟩ G' where
  coherent := h.coherent
  held := h.held
  kernel := by
    rw [h.kernelVaddr]
    exact (show Tracked _ (Owner.ofPage .kernel 0) _ from hs.kernel).other h.kernel
  kernelBase := by
    rw [h.kernelVaddr]
    exact hs.kernelBase
  kernelPages := by
    rw [h.kernelVaddr]
    exact hs.kernelPages
  running_mem := by
    rw [h.running]
    exact Finset.mem_insert_of_mem hs.running_mem
  running_notMem := by
    rw [h.running]
    exact hs.running_notMem
  hanging_sub := fun _ hq => Finset.mem_insert_of_mem (hs.hanging_sub hq)
  cr3 := by
    rw [h.running, h.cr3]
    exact (h.dirOf_iff hs.running_mem).mpr hs.cr3
  dir := fun q hq => by
    obtain rfl | hq := Finset.mem_insert.mp hq
    · obtain ⟨d, hd, -, hsize⟩ := h.space
      refine ⟨d, ?_, hd⟩
      by_cases hproc : (m'.tasks q).pgdir = none
      · unfold DirOf at hd
        rw [hproc] at hd
        rw [hd]
        exact h.coherent.encoded.kernelDir_mem
      · exact h.coherent.encoded.spaces_subset (hsize hproc).1
    · obtain ⟨d, hd, hdir⟩ := hs.dir q hq
      exact ⟨d, by rw [h.dirs]; exact .inl hd, (h.dirOf_iff hq).mpr hdir⟩
  user := fun q hq hh => by
    obtain rfl | hq := Finset.mem_insert.mp hq
    · exact h.space
    · exact h.userSpace hs hq (hs.user q hq hh)
  dirs := fun d hd hne => by
    rw [h.dirs] at hd
    obtain hd | hd := hd
    · obtain ⟨q, hq, hproc, hdir⟩ := hs.dirs d hd hne
      refine ⟨q, Finset.mem_insert_of_mem hq, ?_, (h.dirOf_iff hq).mpr hdir⟩
      dsimp only
      rwa [h.tasks q hq]
    · obtain ⟨-, hproc, hdir⟩ := h.fresh d hd
      refine ⟨p, Finset.mem_insert_self .., ?_, hdir⟩
      dsimp only
      rw [h.pgdir]
      simpa using hproc
  closed := fun q hq hproc d hd => by
    have hmem := hs.hanging_sub hq
    dsimp only at hproc
    rw [h.tasks q hmem] at hproc
    have hd' := (h.dirOf_iff hmem).mp hd
    obtain ⟨d', hd₁, hd₂⟩ := hs.dir q hmem
    obtain rfl := hd'.unique hd₂
    rw [h.spaces]
    rintro (hin | hin)
    · exact hs.closed q hq hproc d hd' hin
    · exact (h.fresh d hin).1 hd₁
  owned := fun u x hu => by
    rw [h.kernel]
    obtain hu | ⟨hx, -⟩ := h.uses_spare hu
    · exact hs.owned u x hu
    · exact hx
  uses_inj := fun u u' x hu hu' => h.uses_inj hs hu hu'
  aligned := fun q hq => by
    dsimp only
    obtain rfl | hq := Finset.mem_insert.mp hq
    · rw [h.bits, h.pcb]
      exact ⟨by omega, fun _ => by omega⟩
    · rw [h.tasks q hq]
      exact hs.aligned q hq
  bare := fun q hq hnone => by
    dsimp only at hnone ⊢
    obtain rfl | hq := Finset.mem_insert.mp hq
    · apply h.bare
      rw [h.pgdir] at hnone
      simpa using hnone
    · rw [h.tasks q hq] at hnone ⊢
      exact hs.bare q hq hnone

end Joining

section Starting

variable {L' : Ledger Owner ℕ} {i cnt : ℕ} {r : Option ℕ}

/-- The kernel took pages that nobody owned. -/
theorem Fresh.none (hf : Fresh s G m' L' n cnt) (hi : i < cnt) : G.owns (.kernel (n + i)) = none :=
  (hf.grown.new (.kernel (n + i)) ⟨i, hi, rfl⟩).1

theorem Fresh.owns (hf : Fresh s G m' L' n cnt) (hi : i < cnt) :
    ∃ f, L'.owns (.kernel (n + i)) = some f :=
  (hf.grown.new (.kernel (n + i)) ⟨i, hi, rfl⟩).2

/-- No PCB is in a page that nobody owned. -/
theorem Sound.notMem_of_none (hs : Sound s G) (hheap : HeapPage n) (hn : G.owns (.kernel n) = none) :
    n * 4096 ∉ s.threads := by
  intro hmem
  refine hs.not_uses hn (.pcb (n * 4096)) ⟨hmem, ?_, by omega⟩
  unfold HeapPage at hheap
  unfold mainThread
  omega

theorem Fresh.notMem (hs : Sound s G) (hf : Fresh s G m' L' n cnt) (hi : i < cnt) :
    (n + i) * 4096 ∉ s.threads := by
  obtain ⟨f, ho⟩ := hf.owns hi
  exact hs.notMem_of_none (hf.sound.coherent.encoded.kernelPage _ f ho).1 (hf.none hi)

/-- Pages that stay owned stay spare while the tasks are kept where they were. -/
theorem Fresh.spare (hs : Sound s G) (hf : Fresh s G m' L' n cnt) (hi : i < cnt) :
    Spare { s with machine := m' } (G.withLedger L') (n + i) := by
  refine ⟨hf.owns hi, fun u => ?_⟩
  rw [uses_of_tasks fun q _ => congrFun hf.only.tasks q]
  exact hs.not_uses (hf.none hi) u

/-- What tasks are kept in does not change with their PCBs. -/
theorem Spare.retask {x : ℕ} (hx : Spare s G x) (htasks : ∀ q ∈ s.threads, m'.tasks q = s.machine.tasks q) :
    Spare { s with machine := m' } G x := by
  refine ⟨hx.owned, fun u => ?_⟩
  rw [uses_of_tasks htasks]
  exact hx.unused u

/-- A spare page stays spare when pages are taken. -/
theorem Spare.grown {x : ℕ} (hx : Spare s G x)
    (hg : Grown s.machine.cr3 G.ledger L' (pages .kernel s.machine.cr3 n cnt))
    (htasks : ∀ q ∈ s.threads, m'.tasks q = s.machine.tasks q) :
    Spare { s with machine := m' } (G.withLedger L') x := by
  obtain ⟨⟨f, hf⟩, hu⟩ := hx
  refine ⟨⟨f, (hg.of_owned hf (by simp)).trans hf⟩, fun u => ?_⟩
  rw [uses_of_tasks htasks]
  exact hu u

/-- `allocate_pid` changes the bitmap of the pids. -/
theorem allocatePid_ok {pid : ℕ} (h : allocatePid m = .ok (pid, m')) :
    ∃ btmp, m' = { m with pidBitmap := btmp } := by
  unfold allocatePid at h
  obtain ⟨r, -, h⟩ := of_bind_eq_ok h
  cases r with
  | none => cases h
  | some i => exact ⟨_, (Prod.mk.inj (Except.ok.inj h)).2.symm⟩

/-- `init_thread` takes a pid and writes the PCB. -/
theorem initThread_ok {name : List UInt8} (h : initThread m p name = .ok m') :
    Retasked m m' ∧ ∃ pid, m'.tasks =
      Function.update m.tasks p { emptyTask with pid := pid, name := name } := by
  unfold initThread at h
  obtain ⟨⟨pid, m₁⟩, ha, h⟩ := of_bind_eq_ok h
  obtain ⟨btmp, rfl⟩ := allocatePid_ok ha
  obtain rfl := Except.ok.inj h
  exact ⟨⟨_, _, rfl⟩, pid, rfl⟩

/-- Coherence is about the pools and the words in memory. -/
theorem Coherent.congr (h : Coherent m G) (hpools : m'.pools = m.pools) (hram : m'.ram = m.ram) :
    Coherent m' G :=
  ⟨by rw [hpools]; exact h.marked, by rw [hram]; exact h.encoded⟩

/-- A task without a directory owns no user page. -/
theorem Coherent.userSpace_kernel (h : Coherent m G) (hnone : (m.tasks p).pgdir = none)
    (halign : (m.tasks p).userprocVaddr.vaddrStart % 4096 = 0)
    (hclear : ∀ j, bitmapScanTest (m.tasks p).userprocVaddr.vaddrBitmap j = false) :
    UserSpace m G p := by
  refine ⟨kernelDir, ?_, ⟨halign, ?_, ?_⟩, fun hproc => absurd hnone hproc⟩
  · unfold DirOf
    rw [hnone]
  · intro x hx
    exact absurd (h.user_none_of_notMem h.encoded.kernelDir_notMem x) hx
  · intro j _ hset
    rw [hclear] at hset
    cases hset

/-- A task without a directory joins the others. -/
theorem Sound.joinKernel (hs : Sound s G) (hn : Spare s G n) (hnot : n * 4096 ∉ s.threads)
    (hm : Retasked s.machine m') (htasks : ∀ q ∈ s.threads, m'.tasks q = s.machine.tasks q)
    (hpgdir : (m'.tasks (n * 4096)).pgdir = none)
    (hbits : (m'.tasks (n * 4096)).userprocVaddr.bits % 4096 = 0)
    (halign : (m'.tasks (n * 4096)).userprocVaddr.vaddrStart % 4096 = 0)
    (hclear : ∀ j, bitmapScanTest (m'.tasks (n * 4096)).userprocVaddr.vaddrBitmap j = false)
    (hlen : (m'.tasks (n * 4096)).userprocVaddr.vaddrBitmap.btmpBytesLen = 0) :
    Sound ⟨m', insert (n * 4096) s.threads, s.hanging⟩ G := by
  obtain ⟨tasks, pid, rfl⟩ := hm
  have hc : Coherent { s.machine with tasks := tasks, pidBitmap := pid } G :=
    hs.coherent.congr rfl rfl
  have hjoins : Joins s G { s.machine with tasks := tasks, pidBitmap := pid } G (n * 4096) n
      ((tasks (n * 4096)).userprocVaddr.bits / 4096) none ∅ := {
    coherent := hc
    kernelVaddr := rfl
    cr3 := rfl
    running := rfl
    tasks := htasks
    kernel := fun _ => rfl
    held := hs.held
    user := fun _ _ _ => rfl
    dirs := (Set.union_empty _).symm
    spaces := (Set.union_empty _).symm
    fresh := fun d hd => hd.elim
    space := hc.userSpace_kernel hpgdir halign hclear
    notMem := hnot
    pcb := rfl
    pgdir := hpgdir
    bits := (Nat.div_mul_cancel (Nat.dvd_of_mod_eq_zero hbits)).symm
    sparePcb := hn
    spareDir := by simp
    spareBits := by simp
    bare := fun _ => hlen }
  exact hs.join hjoins

/-- `thread_start` keeps the invariant. -/
theorem Sound.threadStart (hs : Sound s G) {name : List UInt8}
    (h : threadStart s.machine name = .ok (p, m')) :
    ∃ G', Sound ⟨m', insert p s.threads, s.hanging⟩ G' := by
  unfold Memory.threadStart at h
  obtain ⟨⟨r, m₁⟩, hget, h⟩ := of_bind_eq_ok h
  obtain ⟨rfl, -⟩ | ⟨n, L', rfl, -, hf⟩ := hs.getKernelPages hget
  · cases h
  obtain ⟨m₂, hinit, h⟩ := of_bind_eq_ok h
  obtain ⟨rfl, rfl⟩ := Prod.mk.inj (Except.ok.inj h)
  obtain ⟨⟨tasks, btmp, rfl⟩, pid, rfl⟩ := initThread_ok hinit
  have hnot := hf.notMem hs (i := 0) (by norm_num)
  refine ⟨_, Sound.joinKernel (s := { s with machine := m₁ }) hf.sound
    (hf.spare hs (i := 0) (by norm_num)) hnot ⟨_, _, rfl⟩ ?_ ?_ ?_ ?_ ?_ ?_⟩
  · intro q hq
    apply Function.update_of_ne
    rintro rfl
    exact hnot hq
  all_goals simp [emptyTask, bitmapScanTest]

end Starting

end Tasks

end X86System.Memory
