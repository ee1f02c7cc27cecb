import X86System.SpaceForks

/-!
# What a fork leaves behind

A fork that succeeds adds a task whose user half has the pages of the parent with the
same words, in frames of its own. A fork that gives up has taken pages of the kernel
heap, and the address spaces are as they were.
-/
namespace X86System.Memory
open Exec Paging

/-- What was owned still is, no user page came or went, and no word of a frame in use that holds
no entries has changed. -/
structure Extends (G : Layout) (m : Machine) (G' : Layout) (m' : Machine) : Prop where
  owned : ∀ {o g}, G.owns o = some g → G'.owns o = some g
  user : ∀ d x, G'.owns (.user d x) = G.owns (.user d x)
  dirs : G'.dirs = G.dirs
  kept : Kept G m m'

section Forks

variable {s : State} {m m' m₁ m₂ : Machine} {G G₁ G' : Layout} {p n nb cnt : ℕ}

theorem Extends.trans (h : Extends G m G₁ m₁) (h' : Extends G₁ m₁ G' m') : Extends G m G' m' where
  owned := fun ho => h'.owned (h.owned ho)
  user := fun d x => (h'.user d x).trans (h.user d x)
  dirs := h'.dirs.trans h.dirs
  kept := fun o g ho hs => by
    rw [h'.kept o g (h.owned ho), h.kept o g ho hs]
    rintro (hd | hlow | ⟨d, e, ht⟩)
    · rw [h.dirs] at hd
      exact hs (.inl hd)
    · exact hs (.inr (.inl hlow))
    · obtain rfl := G₁.ledger.inj (h.owned ho) ht
      exact hs (.inr (.inr ⟨d, e, ho⟩))

/-- The bit of a user page is set exactly where the page is mapped. -/
theorem UserSpace.page_iff (hs : Sound s G) (hproc : (s.machine.tasks p).pgdir ≠ none)
    (h : UserSpace s.machine G p) {d : ℕ} (hd : DirOf s.machine G p d) {x : ℕ} :
    G.owns (.user d x) ≠ none ↔ (s.machine.tasks p).userprocVaddr.base ≤ x ∧
      x < (s.machine.tasks p).userprocVaddr.base + (s.machine.tasks p).userprocVaddr.pages ∧
      bitmapScanTest (s.machine.tasks p).userprocVaddr.vaddrBitmap
        (x - (s.machine.tasks p).userprocVaddr.base) = true := by
  obtain ⟨d', hd', htrack, hsize⟩ := h
  obtain rfl := hd.unique hd'
  obtain ⟨-, hstart, hlen⟩ := hsize hproc
  constructor
  · intro hx
    obtain ⟨hle, hbit⟩ := htrack.marks x hx
    refine ⟨hle, ?_, hbit⟩
    obtain ⟨f, hf⟩ := Option.ne_none_iff_exists'.mp hx
    obtain ⟨t, ht, -⟩ := hs.coherent.encoded.userPage d x f hf
    have htop := (hs.coherent.encoded.tableEntry _ _ _ ht).2.1
    have := userSpace_end
    simp only [VirtualAddr.base, VirtualAddr.pages, hstart, hlen]
    omega
  · rintro ⟨hle, hlt, hbit⟩
    have := htrack.owned (x - (s.machine.tasks p).userprocVaddr.base) (by omega) hbit
    rwa [Nat.add_sub_cancel' hle] at this

/-- The address space of a process ends below the kernel half. -/
theorem Sound.user_top (hs : Sound s G) (hproc : (s.machine.tasks s.machine.running).pgdir ≠ none) :
    (s.machine.tasks s.machine.running).userprocVaddr.base +
      (s.machine.tasks s.machine.running).userprocVaddr.pages ≤ 0xc0000 := by
  obtain ⟨d, -, -, hsize⟩ := hs.user _ hs.running_mem hs.running_notMem
  obtain ⟨-, hstart, hlen⟩ := hsize hproc
  have := userSpace_end
  simp only [VirtualAddr.base, VirtualAddr.pages, hstart, hlen]
  omega

/-- The machine after the child got a copy of the PCB and the pid of bit `i`. -/
def Machine.seed (m : Machine) (child parent i : ℕ) : Machine :=
  { m.setTask child { m.tasks parent with pid := i + 1 } with
    pidBitmap := bitmapSet m.pidBitmap i true }

/-- The child with its own bitmap at `b` and its name. -/
def Machine.adopt (m : Machine) (child b : ℕ) : Machine :=
  m.setTask child { m.tasks child with
    name := (m.tasks child).name ++ forkSuffix
    userprocVaddr := { (m.tasks child).userprocVaddr with bits := b } }

/-- `copy_pcb_vaddrbitmap_stack0` in its steps: the pid, the bitmap, the name. -/
theorem copyPcbVaddrbitmap_eq (m : Machine) (child parent : ℕ) :
    copyPcbVaddrbitmap m child parent = bitmapScan m.pidBitmap 1 >>= fun r =>
      r.elim (.error .assert) fun i =>
        getKernelPages (m.seed child parent i) bitmapPgCnt >>= fun x =>
          x.1.elim (.ok (false, x.2)) fun b =>
            ensure .assert ((x.2.tasks child).name.length < 11) >>= fun _ =>
              .ok (true, x.2.adopt child b) := by
  unfold copyPcbVaddrbitmap allocatePid
  change bitmapScan m.pidBitmap 1 >>= _ >>= _ = _
  cases bitmapScan m.pidBitmap 1 with
  | error e => rfl
  | ok r =>
    cases r with
    | none => rfl
    | some i =>
      have hseed : ({ m.setTask child (m.tasks parent) with
          pidBitmap := bitmapSet m.pidBitmap i true } : Machine).setTask child
          { m.tasks parent with pid := i + 1 } = m.seed child parent i := by
        simp [Machine.seed, Machine.setTask]
      simp only [ok_bind, pure_eq_ok, Option.elim_some]
      simp only [Machine.setTask, Function.update_self, Function.update_idem] at hseed ⊢
      rw [hseed]
      congr 1
      funext x
      obtain ⟨b, m₂⟩ := x
      cases b <;> rfl

/-- PCBs and pids are not in the pages that a layout speaks of. -/
theorem Retasked.extends (h : Retasked m m') : Extends G m G m' := by
  obtain ⟨tasks, pid, rfl⟩ := h
  exact ⟨id, fun _ _ => rfl, rfl, fun _ _ _ _ => rfl⟩

theorem Fresh.extends {L' : Ledger Owner ℕ} (hf : Fresh s G m' L' n cnt) :
    Extends G s.machine (G.withLedger L') m' where
  owned := fun ho => hf.grown.owned ho
  user := fun d x => hf.grown.kept _ (by rintro ⟨i, -, heq⟩; cases heq) (by simp)
  dirs := rfl
  kept := hf.kept

theorem NewDir.extends {L' : Ledger Owner ℕ} {d : ℕ} (hd : NewDir s G m' L' n d) :
    Extends G s.machine (G.withLedger L') m' where
  owned := fun ho => hd.grown.owned ho
  user := fun d x => hd.grown.kept _ (by rintro ⟨i, -, heq⟩; cases heq) (by simp)
  dirs := rfl
  kept := hd.kept

theorem Retasked.trans (h : Retasked m m₁) (h' : Retasked m₁ m') : Retasked m m' := by
  obtain ⟨tasks, pid, rfl⟩ := h
  obtain ⟨tasks', pid', rfl⟩ := h'
  exact ⟨tasks', pid', rfl⟩

theorem retasked_seed (m : Machine) (child parent i : ℕ) : Retasked m (m.seed child parent i) :=
  ⟨_, _, rfl⟩

theorem retasked_adopt (m : Machine) (child b : ℕ) : Retasked m (m.adopt child b) :=
  ⟨_, m.pidBitmap, rfl⟩

/-- The child has its PCB in page `n`, its bitmap from page `nb` on, and page `buf` is at hand. -/
structure Prepared (s : State) (G : Layout) (m' : Machine) (G' : Layout) (n nb buf : ℕ) : Prop where
  sound : Sound { s with machine := m' } G'
  kit : Kit { s with machine := m' } G' n nb
  spare : Spare { s with machine := m' } G' buf
  buf_ne : buf ≠ n ∧ ∀ i < bitmapPgCnt, nb + i ≠ buf
  buf_new : G.owns (.kernel buf) = none
  grown : Extends G s.machine G' m'
  spaces : G'.spaces = G.spaces
  cr3 : m'.cr3 = s.machine.cr3
  running : m'.running = s.machine.running
  tasks : ∀ q ∈ s.threads, m'.tasks q = s.machine.tasks q
  child : (m'.tasks (n * 4096)).userprocVaddr =
    { (s.machine.tasks s.machine.running).userprocVaddr with bits := nb * 4096 }

/-- The first steps of `fork`: a page for the PCB, one for the buffer, a copy of the PCB. -/
structure Seeded (s : State) (G : Layout) (m₁ m₂ : Machine) (L₁ L₂ : Ledger Owner ℕ) (n b i : ℕ) :
    Prop where
  pcb : Fresh s G m₁ L₁ n 1
  buf : Fresh { s with machine := m₁ } (G.withLedger L₁) m₂ L₂ b 1
  notMem : n * 4096 ∉ s.threads
  tasks : ∀ q ∈ s.threads, (m₂.seed (n * 4096) s.machine.running i).tasks q = m₂.tasks q
  sound : Sound { s with machine := m₂.seed (n * 4096) s.machine.running i }
    ((G.withLedger L₁).withLedger L₂)

theorem Sound.seeded (hs : Sound s G) {child buf : ℕ}
    (h₁ : Memory.getKernelPages s.machine 1 = .ok (some child, m₁))
    (h₂ : Memory.getKernelPages m₁ 1 = .ok (some buf, m₂)) (i : ℕ) :
    ∃ n b L₁ L₂, child = n * 4096 ∧ buf = b * 4096 ∧ Seeded s G m₁ m₂ L₁ L₂ n b i := by
  obtain ⟨hr, -⟩ | ⟨n, L₁, hr, -, hf₁⟩ := hs.getKernelPages h₁
  · cases hr
  obtain rfl := Option.some.inj hr
  obtain ⟨hr, -⟩ | ⟨b, L₂, hr, -, hf₂⟩ := hf₁.sound.getKernelPages h₂
  · cases hr
  obtain rfl := Option.some.inj hr
  have hnot : n * 4096 ∉ s.threads := hf₁.notMem hs (i := 0) (by norm_num)
  have htasks (q : ℕ) (hq : q ∈ s.threads) :
      (m₂.seed (n * 4096) s.machine.running i).tasks q = m₂.tasks q := by
    apply Function.update_of_ne
    rintro rfl
    exact hnot hq
  exact ⟨n, b, L₁, L₂, rfl, rfl, hf₁, hf₂, hnot, htasks,
    hf₂.sound.retask (retasked_seed ..) htasks⟩

/-- With the pages of its bitmap the child is prepared. -/
theorem Seeded.prepared (hs : Sound s G) {L₁ L₂ : Ledger Owner ℕ} {b i bits : ℕ}
    (h : Seeded s G m₁ m₂ L₁ L₂ n b i) (hget : getKernelPages
      (m₂.seed (n * 4096) s.machine.running i) bitmapPgCnt = .ok (some bits, m')) :
    ∃ G' nb, bits = nb * 4096 ∧ Prepared s G (m'.adopt (n * 4096) bits) G' n nb b ∧
      ∀ j < bitmapPgCnt, G.owns (.kernel (nb + j)) = none := by
  have hf₁ := h.pcb
  have hf₂ := h.buf
  have htasks₂ := h.tasks
  have hseed := retasked_seed m₂ (n * 4096) s.machine.running i
  obtain ⟨hr, -⟩ | ⟨nb, L₄, hr, -, hf₄⟩ := h.sound.getKernelPages hget
  · cases hr
  obtain rfl := Option.some.inj hr
  have htasks₄ (q : ℕ) (hq : q ∈ s.threads) : (m'.adopt (n * 4096) (nb * 4096)).tasks q =
      m'.tasks q := by
    apply Function.update_of_ne
    rintro rfl
    exact h.notMem hq
  have hadopt := retasked_adopt m' (n * 4096) (nb * 4096)
  have hspare : Spare { s with machine := m₂.seed (n * 4096) s.machine.running i }
      ((G.withLedger L₁).withLedger L₂) n :=
    ((hf₁.spare hs (i := 0) (by norm_num)).grown hf₂.grown
      fun q _ => congrFun hf₂.only.tasks q).retask htasks₂
  have hspareBuf : Spare { s with machine := m₂.seed (n * 4096) s.machine.running i }
      ((G.withLedger L₁).withLedger L₂) b :=
    (hf₂.spare hf₁.sound (i := 0) (by norm_num)).retask htasks₂
  have hbuf : G.owns (.kernel b) = none := by
    have hnone : (G.withLedger L₁).owns (.kernel b) = none := hf₂.none (i := 0) (by norm_num)
    cases ho : G.owns (.kernel b) with
    | none => rfl
    | some f => cases hnone.symm.trans (hf₁.grown.owned ho)
  have hbits (j : ℕ) (hj : j < bitmapPgCnt) : G.owns (.kernel (nb + j)) = none := by
    have hnone := hf₄.none hj
    cases ho : G.owns (.kernel (nb + j)) with
    | none => rfl
    | some f => cases hnone.symm.trans (hf₂.grown.owned (hf₁.grown.owned ho))
  refine ⟨_, nb, rfl, ⟨hf₄.sound.retask hadopt htasks₄,
    (hf₄.kit h.sound hspare h.notMem).retask htasks₄,
    (hspareBuf.grown hf₄.grown fun q _ => congrFun hf₄.only.tasks q).retask htasks₄,
    ⟨hf₂.grown.ne_of_owned (hf₁.owns (i := 0) (by norm_num)) (i := 0) (by norm_num),
      fun j hj => hf₄.grown.ne_of_owned hspareBuf.owned hj⟩, hbuf,
    hf₁.extends.trans (hf₂.extends.trans (hseed.extends.trans
      (hf₄.extends.trans hadopt.extends))), rfl, ?_, ?_, ?_, ?_⟩, hbits⟩
  · exact hf₄.only.cr3.trans (hf₂.only.cr3.trans hf₁.only.cr3)
  · exact hf₄.only.running.trans (hf₂.only.running.trans hf₁.only.running)
  · intro q hq
    rw [htasks₄ q hq, hf₄.only.tasks, htasks₂ q hq, hf₂.only.tasks, hf₁.only.tasks]
  · change (Function.update m'.tasks (n * 4096) _ (n * 4096)).userprocVaddr = _
    rw [Function.update_self, hf₄.only.tasks]
    change { (Function.update m₂.tasks (n * 4096) _ (n * 4096)).userprocVaddr with
      bits := nb * 4096 } = _
    rw [Function.update_self, hf₂.only.tasks, hf₁.only.tasks]

/-- The child `p` with directory `d` next to the parent, which runs on. -/
structure Forked (s : State) (G : Layout) (p d : ℕ) (m' : Machine) (G' : Layout) : Prop where
  dirOf : DirOf m' G' p d
  notMem : d ∉ G.dirs
  pages : ∀ x, G'.owns (.user d x) ≠ none ↔ G.owns (.user s.machine.cr3 x) ≠ none
  words : ∀ x g g', G'.owns (.user d x) = some g → G.owns (.user s.machine.cr3 x) = some g' →
    ∀ j < 1024, m'.ram g j = s.machine.ram g' j
  owned : ∀ o g, G.owns o = some g → G'.owns o = some g
  kept : Kept G s.machine m'
  others : ∀ d' ≠ d, ∀ x, G'.owns (.user d' x) = G.owns (.user d' x)
  cr3 : m'.cr3 = s.machine.cr3
  running : m'.running = s.machine.running
  fresh : p ∉ s.threads
  tasks : ∀ q ∈ s.threads, m'.tasks q = s.machine.tasks q
  userprocVaddr : (m'.tasks p).userprocVaddr =
    { (s.machine.tasks s.machine.running).userprocVaddr with
      bits := (m'.tasks p).userprocVaddr.bits }

/-- The child with its page directory. -/
def Machine.settle (m : Machine) (child v : ℕ) : Machine :=
  m.setTask child { m.tasks child with pgdir := some v }

section Settled

variable {L₂ : Ledger Owner ℕ} {buf nd d f : ℕ}

theorem Prepared.ne (hp : Prepared s G m₁ G₁ n nb buf) {q : ℕ} (hq : q ∈ s.threads) :
    q ≠ n * 4096 := by
  rintro rfl
  exact hp.kit.notMem hq

/-- The other tasks are as they were. -/
theorem Prepared.tasks_settle (hp : Prepared s G m₁ G₁ n nb buf)
    (hd : NewDir { s with machine := m₁ } G₁ m₂ L₂ nd d) {q : ℕ} (hq : q ∈ s.threads) :
    (m₂.settle (n * 4096) (nd * 4096)).tasks q = s.machine.tasks q := by
  rw [← hp.tasks q hq, ← congrFun hd.only.tasks q]
  exact Function.update_of_ne (hp.ne hq) ..

/-- With its directory the child is ready to get the pages of the parent. -/
theorem Prepared.ready (hs : Sound s G) (hp : Prepared s G m₁ G₁ n nb buf)
    (hproc : (s.machine.tasks s.machine.running).pgdir ≠ none)
    (hd : NewDir { s with machine := m₁ } G₁ m₂ L₂ nd d) (hf : G₁.owns (.kernel buf) = some f) :
    CopyReady (m₂.settle (n * 4096) (nd * 4096)) ((G₁.withLedger L₂).addDir d)
      (s.machine.tasks s.machine.running).userprocVaddr (n * 4096) s.machine.running buf d f := by
  have hs₁ := hp.sound
  have hmem : s.machine.running ∈ s.threads := hs.running_mem
  have hparent := hp.tasks_settle hd hmem
  have hspace : d ∉ G₁.spaces := fun h => hd.notMem (hs₁.coherent.encoded.spaces_subset h)
  have hf₂ : L₂.owns (.kernel buf) = some f := hd.grown.owned hf
  have hdir : DirOf m₂ (G₁.withLedger L₂) s.machine.running s.machine.cr3 := by
    have hcr3 := hd.sound.cr3
    change DirOf m₂ (G₁.withLedger L₂) m₂.running m₂.cr3 at hcr3
    rw [hd.only.running, hd.only.cr3] at hcr3
    change DirOf m₂ (G₁.withLedger L₂) m₁.running m₁.cr3 at hcr3
    rwa [hp.running, hp.cr3] at hcr3
  have hcr3 : (m₂.settle (n * 4096) (nd * 4096)).cr3 = s.machine.cr3 := hd.only.cr3.trans hp.cr3
  have htask : m₂.tasks s.machine.running = s.machine.tasks s.machine.running := by
    rw [hd.only.tasks]
    exact hp.tasks _ hmem
  exact {
    coherent := hd.coherent.congr rfl rfl
    cr3_mem := by
      rw [hcr3]
      right
      have := hd.sound.cr3_mem
      change m₂.cr3 ∈ G₁.dirs at this
      rwa [hd.only.cr3, hp.cr3] at this
    parentDir := by
      rw [hcr3]
      exact hdir.congr (by rw [hparent, htask]) fun _ _ ho => ho
    childDir := by
      unfold DirOf Machine.settle Machine.setTask
      simp only [Function.update_self]
      refine ⟨by omega, ?_⟩
      rw [Nat.mul_div_cancel _ (by norm_num)]
      exact hd.dir
    space := .inl rfl
    held := hd.sound.held _
    buf := hf₂
    buf_notMem := by
      rintro (rfl | hmem)
      · obtain rfl : buf = nd := by simpa using L₂.inj hf₂ hd.dir
        cases (hd.grown.new (.kernel buf) ⟨0, by norm_num, rfl⟩).1.symm.trans hf
      · exact hs₁.not_dir hp.spare.unused hf hmem
    empty := hd.sound.coherent.user_none_of_notMem hspace
    bare := fun e => by
      by_contra hne
      obtain ⟨t, ht⟩ := Option.ne_none_iff_exists'.mp hne
      exact hspace (hd.sound.coherent.encoded.tableEntry d e t ht).1
    vaddr := by rw [hparent]
    tracked := by
      rw [hcr3, ← htask]
      obtain ⟨d', hd', htrack, -⟩ := hd.sound.user _ hmem hs.running_notMem
      obtain rfl := hdir.unique hd'
      exact htrack
    top := hs.user_top hproc }

/-- When the pages are copied the child joins the other tasks. -/
theorem Prepared.joins (hs : Sound s G) (hp : Prepared s G m₁ G₁ n nb buf)
    (hproc : (s.machine.tasks s.machine.running).pgdir ≠ none)
    (hd : NewDir { s with machine := m₁ } G₁ m₂ L₂ nd d) {m₃ : Machine} {L₃ : Ledger Owner ℕ}
    (hc : Copied (m₂.settle (n * 4096) (nd * 4096)) ((G₁.withLedger L₂).addDir d)
      (s.machine.tasks s.machine.running).userprocVaddr d f
      (s.machine.tasks s.machine.running).userprocVaddr.pages m₃ L₃) :
    Joins { s with machine := m₂ } (G₁.withLedger L₂) m₃
      (((G₁.withLedger L₂).addDir d).withLedger L₃) (n * 4096) n nb (some nd) {d} := by
  have hchild : m₃.tasks (n * 4096) = { m₁.tasks (n * 4096) with pgdir := some (nd * 4096) } := by
    rw [hc.same.tasks, ← hd.only.tasks]
    exact Function.update_self ..
  have hva : (m₃.tasks (n * 4096)).userprocVaddr =
      { (s.machine.tasks s.machine.running).userprocVaddr with bits := nb * 4096 } := by
    rw [hchild, ← hp.child]
  obtain ⟨d', -, -, hsize⟩ := hs.user _ hs.running_mem hs.running_notMem
  apply hp.kit.joins hp.sound hd hc.coherent
    ⟨hc.same.kernelVaddr, hc.same.cr3, hc.same.running⟩
  · intro q hq
    rw [hc.same.tasks]
    exact Function.update_of_ne (hp.ne hq) ..
  · exact fun x => hc.kept _ (by simp) (by simp)
  · intro pf
    rw [hc.kept _ (by simp) (by simp)]
    exact hd.sound.held pf
  · intro d'' hne x
    exact hc.kept _ (by simp) (by simp [hne])
  · rw [hchild]
  · rw [hva]
  · rw [hva]
    exact (hsize hproc).2
  · rw [hva]
    refine ⟨?_, ?_, ?_⟩
    · obtain ⟨-, hstart, -⟩ := hsize hproc
      dsimp only
      rw [hstart]
      rfl
    · intro x hx
      obtain ⟨h1, -, h3⟩ := (hc.pages x).mp hx
      exact ⟨h1, h3⟩
    · intro i hi hset
      apply (hc.pages _).mpr
      exact ⟨Nat.le_add_right .., Nat.add_lt_add_left hi _, by
        rw [show VirtualAddr.base { (s.machine.tasks s.machine.running).userprocVaddr with
          bits := nb * 4096 } = (s.machine.tasks s.machine.running).userprocVaddr.base from rfl,
          Nat.add_sub_cancel_left]
        exact hset⟩

/-- What is behind the pages of the tasks after the copy, and the words in it. -/
theorem Prepared.copied (hp : Prepared s G m₁ G₁ n nb buf)
    (hd : NewDir { s with machine := m₁ } G₁ m₂ L₂ nd d) (hf : G₁.owns (.kernel buf) = some f)
    (hr : CopyReady (m₂.settle (n * 4096) (nd * 4096)) ((G₁.withLedger L₂).addDir d)
      (s.machine.tasks s.machine.running).userprocVaddr (n * 4096) s.machine.running buf d f)
    {m₃ : Machine} {L₃ : Ledger Owner ℕ}
    (hc : Copied (m₂.settle (n * 4096) (nd * 4096)) ((G₁.withLedger L₂).addDir d)
      (s.machine.tasks s.machine.running).userprocVaddr d f
      (s.machine.tasks s.machine.running).userprocVaddr.pages m₃ L₃) {o : Owner} {g : ℕ}
    (ho : G.owns o = some g) : o ≠ .kernel buf ∧ o ≠ .kernel nd ∧ L₃.owns o = some g ∧
      (¬ Structural G g → ¬ Structural (((G₁.withLedger L₂).addDir d).withLedger L₃) g ∧
        m₂.ram g = s.machine.ram g ∧ m₃.ram g = s.machine.ram g) := by
  have hext := hp.grown.trans hd.extends
  have ho₁ := hp.grown.owned ho
  have ho₂ : ((G₁.withLedger L₂).addDir d).owns o = some g := hext.owned ho
  have hbuf : o ≠ .kernel buf := by
    rintro rfl
    cases hp.buf_new.symm.trans ho
  have hnd : o ≠ .kernel nd := by
    rintro rfl
    cases (hd.grown.new (.kernel nd) ⟨0, by norm_num, rfl⟩).1.symm.trans ho₁
  refine ⟨hbuf, hnd, hc.owned hr ho₂, fun hstruct => ?_⟩
  have hstruct₂ : ¬ Structural ((G₁.withLedger L₂).addDir d) g := by
    rintro ((rfl | hmem) | hlow | ⟨d', e, ht⟩)
    · exact hnd (L₂.inj ho₂ hd.dir)
    · change g ∈ G₁.dirs at hmem
      rw [hp.grown.dirs] at hmem
      exact hstruct (.inl hmem)
    · exact hstruct (.inr (.inl hlow))
    · obtain rfl := L₂.inj ho₂ ht
      exact hstruct (.inr (.inr ⟨d', e, ho⟩))
  have hram := hext.kept o g ho hstruct
  refine ⟨hc.not_structural hr ho₂ hstruct₂, hram, ?_⟩
  rw [hc.ram o g ho₂ hstruct₂]
  · exact hram
  · rintro rfl
    exact hbuf (G₁.ledger.inj ho₁ hf)

/-- The steps of `fork` from the directory of the child on. -/
theorem Prepared.finish {r : Option ℕ} {m₃ : Machine} (hs : Sound s G)
    (hp : Prepared s G m₁ G₁ n nb buf) (hproc : (s.machine.tasks s.machine.running).pgdir ≠ none)
    (hdir : createPageDir m₁ = .ok (r, m₂))
    (hbody : copyBodyStack3 (m₂.setTask (n * 4096) { m₂.tasks (n * 4096) with pgdir := r })
      (n * 4096) s.machine.running (buf * 4096) = .ok m₃) :
    ∃ m' G' d, mfreePage m₃ .kernel (buf * 4096) 1 = .ok m' ∧
      Sound ⟨m', insert (n * 4096) s.threads, s.hanging⟩ G' ∧ Forked s G (n * 4096) d m' G' ∧
      (m'.tasks (n * 4096)).pgdir ≠ none ∧
      (m'.tasks (n * 4096)).userprocVaddr.bits = nb * 4096 := by
  obtain ⟨nd, d, L₂, rfl, hd⟩ := hp.sound.createPageDir hdir
  obtain ⟨f, hf⟩ := hp.spare.owned
  have hr := hp.ready hs hproc hd hf
  obtain ⟨L₃, hc⟩ := hr.copied hbody
  have hjoins := hp.joins hs hproc hd hc
  have hs₃ := Sound.join (s := { s with machine := m₂ }) hd.sound hjoins
  have hbuf : L₃.owns (.kernel buf) = some f := hc.owned hr hr.buf
  have hunused (u : Use) :
      ¬ (⟨m₃, insert (n * 4096) s.threads, s.hanging⟩ : State).Uses u buf := by
    intro hu
    obtain hu | ⟨-, hx⟩ | ⟨-, hx⟩ | ⟨-, -, i, hi, hx⟩ := hjoins.uses_cases hu
    · rw [uses_of_tasks fun q _ => congrFun hd.only.tasks q] at hu
      exact hp.spare.unused u hu
    · exact hp.buf_ne.1 hx
    · obtain rfl := Option.some.inj hx
      cases (hd.grown.new (.kernel nd) ⟨0, by norm_num, rfl⟩).1.symm.trans hf
    · exact hp.buf_ne.2 i hi hx.symm
  obtain ⟨m', L₄, hfree, hs₄, hsh, hsame, huntouched⟩ :=
    @Sound.mfreePage ⟨m₃, insert (n * 4096) s.threads, s.hanging⟩ _ .kernel buf 1 hs₃ (by norm_num)
      (fun i hi => ⟨f, by
        obtain rfl : i = 0 := by omega
        exact hbuf⟩)
      (fun _ i hi => by
        obtain rfl : i = 0 := by omega
        exact hunused)
  have hkept {o : Owner} (ho : o ≠ .kernel buf) : L₄.owns o = L₃.owns o := by
    apply hsh.kept
    rintro ⟨i, hi, rfl⟩
    obtain rfl : i = 0 := by omega
    exact ho rfl
  have hpages (x : ℕ) : L₄.owns (.user d x) = L₃.owns (.user d x) := hkept (by simp)
  have hcr3 : (m₂.settle (n * 4096) (nd * 4096)).cr3 = s.machine.cr3 := hd.only.cr3.trans hp.cr3
  have hmem : s.machine.running ∈ s.threads := hs.running_mem
  have htask (q : ℕ) (hq : q ∈ s.threads) : m'.tasks q = s.machine.tasks q := by
    rw [hsame.tasks]
    exact (congrFun hc.same.tasks q).trans (hp.tasks_settle hd hq)
  have hcopied {o : Owner} {g : ℕ} (ho : G.owns o = some g) := hp.copied hd hf hr hc ho
  have howned {o : Owner} {g : ℕ} (ho : G.owns o = some g) : L₄.owns o = some g := by
    rw [hkept (hcopied ho).1]
    exact (hcopied ho).2.2.1
  have hchild : m'.tasks (n * 4096) = { m₁.tasks (n * 4096) with pgdir := some (nd * 4096) } := by
    rw [hsame.tasks, ← hd.only.tasks]
    exact (congrFun hc.same.tasks _).trans (Function.update_self ..)
  have hdirKept : L₄.owns (.kernel nd) = some d := by
    rw [hkept, hc.owned hr hd.dir]
    intro heq
    cases (hd.grown.new (.kernel nd) ⟨0, by norm_num, rfl⟩).1.symm.trans (heq ▸ hf)
  refine ⟨m', _, d, hfree, hs₄, ⟨?_, ?_, ?_, ?_, fun o g ho => howned ho, ?_, ?_, ?_, ?_,
    hp.kit.notMem, htask, ?_⟩, by simp [hchild], by rw [hchild, hp.child]⟩
  · unfold DirOf
    rw [hchild]
    refine ⟨by omega, ?_⟩
    rw [Nat.mul_div_cancel _ (by norm_num)]
    exact hdirKept
  · rw [← hp.grown.dirs]
    exact hd.notMem
  · intro x
    obtain ⟨d', hd', -, -⟩ := hs.user _ hmem hs.running_notMem
    obtain rfl := hs.cr3.unique hd'
    rw [withLedger_owns, hpages, hc.pages,
      (hs.user _ hmem hs.running_notMem).page_iff hs hproc hd']
  · intro x g g' hg hg' j hj
    have hg₃ : L₃.owns (.user d x) = some g := (hpages x).symm.trans hg
    have hstruct' : ¬ Structural G g' :=
      hs.coherent.not_structural hg' (hs.coherent.user_not_dir hg') (by simp)
    have hstruct : ¬ Structural (((G₁.withLedger L₂).addDir d).withLedger L₃) g :=
      hc.coherent.not_structural hg₃ (hc.coherent.user_not_dir hg₃) (by simp)
    rw [huntouched g hstruct]
    have hcr3' : m₂.cr3 = s.machine.cr3 := hcr3
    have hg₂ : ((G₁.withLedger L₂).addDir d).owns
        (.user (m₂.settle (n * 4096) (nd * 4096)).cr3 x) = some g' := by
      rw [hcr3]
      exact hd.extends.owned (hp.grown.owned hg')
    change m₃.ram g j = _
    rw [hc.words x g g' hg₃ hg₂ j hj]
    exact congrFun ((hcopied hg').2.2.2 hstruct').2.1 j
  · intro o g ho hstruct
    obtain ⟨-, -, -, hw⟩ := hcopied ho
    obtain ⟨hstruct', -, hram⟩ := hw hstruct
    rw [huntouched g hstruct']
    exact hram
  · intro d' hne x
    have h₃ : L₃.owns (.user d' x) = ((G₁.withLedger L₂).addDir d).owns (.user d' x) :=
      hc.kept _ (by simp) (by simp [hne])
    have h₂ : L₂.owns (.user d' x) = G₁.owns (.user d' x) := hd.extends.user d' x
    exact (hkept (by simp)).trans (h₃.trans (h₂.trans (hp.grown.user d' x)))
  · rw [hsame.cr3, setVaddrs_cr3]
    exact hc.same.cr3.trans hcr3
  · rw [hsame.running, setVaddrs_running]
    exact (hc.same.running.trans hd.only.running).trans hp.running
  · rw [hchild]
    dsimp only
    rw [hp.child]

end Settled

/-- The steps of a fork that returns a child. -/
structure ForkSteps (m : Machine) (child : ℕ) (m' : Machine) (buf i nb pgdir : ℕ)
    (m₁ m₂ m₄ m₅ m₆ : Machine) : Prop where
  pcb : getKernelPages m 1 = .ok (some child, m₁)
  process : (m₁.tasks m.running).pgdir ≠ none
  buffer : getKernelPages m₁ 1 = .ok (some buf, m₂)
  pid : bitmapScan m₂.pidBitmap 1 = .ok (some i)
  bitmap : getKernelPages (m₂.seed child m.running i) bitmapPgCnt = .ok (some nb, m₄)
  name : (m₄.tasks child).name.length < 11
  dir : createPageDir (m₄.adopt child nb) = .ok (some pgdir, m₅)
  body : copyBodyStack3 (m₅.settle child pgdir) child m.running buf = .ok m₆
  free : mfreePage m₆ .kernel buf 1 = .ok m'

/-- The three ways through `copy_pcb_vaddrbitmap_stack0`. -/
theorem copyPcbVaddrbitmap_cases {child parent : ℕ} {done : Bool}
    (h : copyPcbVaddrbitmap m child parent = .ok (done, m')) :
    ∃ i r m₁, bitmapScan m.pidBitmap 1 = .ok (some i) ∧
      getKernelPages (m.seed child parent i) bitmapPgCnt = .ok (r, m₁) ∧
      (r = none ∧ done = false ∧ m' = m₁ ∨
        ∃ b, r = some b ∧ (m₁.tasks child).name.length < 11 ∧ done = true ∧ m' = m₁.adopt child b) := by
  rw [copyPcbVaddrbitmap_eq] at h
  obtain ⟨r, hscan, h⟩ := of_bind_eq_ok h
  cases r with
  | none => cases h
  | some i =>
    obtain ⟨⟨rb, m₁⟩, hget, h⟩ := of_bind_eq_ok h
    refine ⟨i, rb, m₁, hscan, hget, ?_⟩
    cases rb with
    | none =>
      obtain ⟨rfl, rfl⟩ := Prod.mk.inj (Except.ok.inj h)
      exact .inl ⟨rfl, rfl, rfl⟩
    | some b =>
      obtain ⟨hname, h⟩ := of_ensure_eq_ok h
      obtain ⟨rfl, rfl⟩ := Prod.mk.inj (Except.ok.inj h)
      exact .inr ⟨b, rfl, hname, rfl, rfl⟩

/-- `fork` returns -1 only where the pages of the bitmap are not found; else it takes all steps. -/
theorem sysFork_cases {r : Option ℕ} (h : sysFork m = .ok (r, m')) :
    (∃ child m₁ buf m₂ i, getKernelPages m 1 = .ok (some child, m₁) ∧
      getKernelPages m₁ 1 = .ok (some buf, m₂) ∧ bitmapScan m₂.pidBitmap 1 = .ok (some i) ∧
      getKernelPages (m₂.seed child m.running i) bitmapPgCnt = .ok (none, m') ∧ r = none) ∨
    ∃ child buf i nb pgdir m₁ m₂ m₄ m₅ m₆, r = some child ∧
      ForkSteps m child m' buf i nb pgdir m₁ m₂ m₄ m₅ m₆ := by
  unfold sysFork at h
  obtain ⟨⟨r₁, m₁⟩, h₁, h⟩ := of_bind_eq_ok h
  cases r₁ with
  | none => exact absurd rfl (getKernelPages_ne_none h₁)
  | some child =>
    obtain ⟨hproc, h⟩ := of_ensure_eq_ok h
    obtain ⟨⟨done, m₇⟩, hcopy, h⟩ := of_bind_eq_ok h
    obtain ⟨rfl, rfl⟩ := Prod.mk.inj (Except.ok.inj h)
    unfold copyProcess at hcopy
    obtain ⟨⟨r₂, m₂⟩, h₂, hcopy⟩ := of_bind_eq_ok hcopy
    cases r₂ with
    | none => exact absurd rfl (getKernelPages_ne_none h₂)
    | some buf =>
      obtain ⟨⟨done', m₃⟩, h₃, hcopy⟩ := of_bind_eq_ok hcopy
      obtain ⟨i, rb, m₄, hpid, hbits, ⟨rfl, rfl, rfl⟩ | ⟨nb, rfl, hname, rfl, rfl⟩⟩ :=
        copyPcbVaddrbitmap_cases h₃
      · obtain ⟨rfl, rfl⟩ := Prod.mk.inj (Except.ok.inj hcopy)
        exact .inl ⟨child, m₁, buf, m₂, i, h₁, h₂, hpid, hbits, rfl⟩
      · obtain ⟨⟨r₅, m₅⟩, hdir, hcopy⟩ := of_bind_eq_ok hcopy
        cases r₅ with
        | none => exact absurd rfl (createPageDir_ne_none hdir)
        | some pgdir =>
          dsimp only at hcopy
          rw [if_neg (Option.some_ne_none _)] at hcopy
          obtain ⟨m₆, hbody, hcopy⟩ := of_bind_eq_ok hcopy
          obtain ⟨m₇', hfree, hcopy⟩ := of_bind_eq_ok hcopy
          obtain ⟨rfl, rfl⟩ := Prod.mk.inj (Except.ok.inj hcopy)
          exact .inr ⟨child, buf, i, nb, pgdir, m₁, m₂, m₄, m₅, m₆, rfl, h₁, hproc, h₂, hpid, hbits,
            hname, hdir, hbody, hfree⟩

/-- All steps of a fork, taken. -/
theorem ForkSteps.sysFork {child buf i nb pgdir : ℕ} {m₄ m₅ m₆ : Machine}
    (h : ForkSteps m child m' buf i nb pgdir m₁ m₂ m₄ m₅ m₆) :
    Memory.sysFork m = .ok (some child, m') := by
  have hpcb : copyPcbVaddrbitmap m₂ child m.running = .ok (true, m₄.adopt child nb) := by
    rw [copyPcbVaddrbitmap_eq, h.pid, ok_bind, Option.elim_some, h.bitmap, ok_bind,
      Option.elim_some, ensure_of h.name, ok_bind]
  have hcopy : copyProcess m₁ child m.running = .ok (true, m') := by
    unfold copyProcess
    rw [h.buffer, ok_bind]
    dsimp only
    rw [hpcb, ok_bind]
    dsimp only
    rw [h.dir, ok_bind]
    dsimp only
    rw [if_neg (Option.some_ne_none _)]
    change copyBodyStack3 (m₅.settle child pgdir) child m.running buf >>= _ = _
    rw [h.body, ok_bind, h.free]
    rfl
  unfold Memory.sysFork
  rw [h.pcb, ok_bind]
  dsimp only
  rw [ensure_of h.process, ok_bind, hcopy]
  rfl

/-- All steps of a fork: the child has a bitmap in pages that were free. -/
theorem Sound.forks (hs : Sound s G) {child buf i bits pgdir : ℕ} {m₄ m₅ m₆ : Machine}
    (hf : ForkSteps s.machine child m' buf i bits pgdir m₁ m₂ m₄ m₅ m₆) :
    ∃ d G' nb, Sound ⟨m', insert child s.threads, s.hanging⟩ G' ∧ Forked s G child d m' G' ∧
      (m'.tasks child).pgdir ≠ none ∧ (m'.tasks child).userprocVaddr.bits = nb * 4096 ∧
      ∀ j < bitmapPgCnt, G.owns (.kernel (nb + j)) = none := by
  obtain ⟨n, b, L₁, L₂, rfl, rfl, hseed⟩ := hs.seeded hf.pcb hf.buffer i
  obtain ⟨G₁, nb, rfl, hp, hfree⟩ := hseed.prepared hs hf.bitmap
  have hproc : (s.machine.tasks s.machine.running).pgdir ≠ none := by
    rw [← hseed.pcb.only.tasks]
    exact hf.process
  obtain ⟨m'', G', d, hgive, hs', hforked, hdir, hbits⟩ := hp.finish hs hproc hf.dir hf.body
  obtain rfl := Except.ok.inj (hf.free.symm.trans hgive)
  exact ⟨d, G', nb, hs', hforked, hdir, hbits, hfree⟩

/-- `fork` of a process: a child with a copy of its user half, or kernel pages that stay taken. -/
theorem Sound.sysFork (hs : Sound s G) {r : Option ℕ}
    (h : Memory.sysFork s.machine = .ok (r, m')) :
    (r = none ∧ ∃ G', Sound { s with machine := m' } G') ∨
    ∃ p d G', r = some p ∧ Sound ⟨m', insert p s.threads, s.hanging⟩ G' ∧
      Forked s G p d m' G' := by
  obtain ⟨child, m₁, buf, m₂, i, h₁, h₂, -, hbits, rfl⟩ |
    ⟨child, buf, i, bits, pgdir, m₁, m₂, m₄, m₅, m₆, rfl, hf⟩ := sysFork_cases h
  · obtain ⟨n, b, L₁, L₂, rfl, rfl, hseed⟩ := hs.seeded h₁ h₂ i
    obtain ⟨-, rfl⟩ | ⟨_, _, hr, -⟩ := hseed.sound.getKernelPages hbits
    · exact .inl ⟨rfl, _, hseed.sound⟩
    · cases hr
  · obtain ⟨d, G', -, hs', hforked, -⟩ := hs.forks hf
    exact .inr ⟨child, d, G', rfl, hs', hforked⟩

end Forks

end X86System.Memory
