import X86System.SpaceTasks

/-!
# Creating processes

`process_execute` takes the pages that a process is kept in and makes its directory;
`fork` does the same and then copies every page of the parent by way of a page of the
kernel heap, switching to the child's directory and back for each of them.
-/
namespace X86System.Memory
open Exec Paging

section Creating

variable {s : State} {m m' m₁ : Machine} {G G' : Layout} {L' L₁ : Ledger Owner ℕ}
  {p n nb nd d i cnt : ℕ} {r : Option ℕ}

/-- The pages for the PCB and the bitmap of a process that is about to be created. -/
structure Kit (s : State) (G : Layout) (n nb : ℕ) : Prop where
  notMem : n * 4096 ∉ s.threads
  pcb : Spare s G n
  bits : ∀ i < bitmapPgCnt, Spare s G (nb + i) ∧ nb + i ≠ n

/-- What was owned is not among the pages that were taken. -/
theorem Grown.ne_of_owned {dir x : ℕ} {L L' : Ledger Owner ℕ}
    (hg : Grown dir L L' (pages .kernel dir n cnt)) (hx : ∃ f, L.owns (.kernel x) = some f)
    (hi : i < cnt) : n + i ≠ x := by
  rintro rfl
  obtain ⟨f, hf⟩ := hx
  have hnone := (hg.new (.kernel (n + i)) ⟨i, hi, rfl⟩).1
  rw [hf] at hnone
  cases hnone

theorem Kit.grown (hk : Kit s G n nb) {n' : ℕ}
    (hg : Grown s.machine.cr3 G.ledger L' (pages .kernel s.machine.cr3 n' cnt))
    (htasks : ∀ q ∈ s.threads, m'.tasks q = s.machine.tasks q) :
    Kit { s with machine := m' } (G.withLedger L') n nb where
  notMem := hk.notMem
  pcb := hk.pcb.grown hg htasks
  bits := fun i hi => ((hk.bits i hi).imp_left fun h => h.grown hg htasks)

theorem Kit.retask (hk : Kit s G n nb) (htasks : ∀ q ∈ s.threads, m'.tasks q = s.machine.tasks q) :
    Kit { s with machine := m' } G n nb :=
  ⟨hk.notMem, hk.pcb.retask htasks, fun i hi => (hk.bits i hi).imp_left fun h => h.retask htasks⟩

/-- The pages of the bitmap complete the kit. -/
theorem Fresh.kit (hs : Sound s G) (hf : Fresh s G m' L' nb bitmapPgCnt) (hn : Spare s G n)
    (hnot : n * 4096 ∉ s.threads) : Kit { s with machine := m' } (G.withLedger L') n nb where
  notMem := hnot
  pcb := hn.grown hf.grown fun q _ => congrFun hf.only.tasks q
  bits := fun _ hi => ⟨hf.spare hs hi, hf.grown.ne_of_owned hn.owned hi⟩

/-- The kit of a process with its directory: all that the new process needs to join. -/
theorem Kit.joins (hs : Sound s G) (hk : Kit s G n nb) (hd : NewDir s G m₁ L₁ nd d)
    (hc : Coherent m' (((G.withLedger L₁).addDir d).withLedger L'))
    (hsame : m'.kernelVaddr = m₁.kernelVaddr ∧ m'.cr3 = m₁.cr3 ∧ m'.running = m₁.running)
    (htasks : ∀ q ∈ s.threads, m'.tasks q = m₁.tasks q)
    (hkernel : ∀ x, L'.owns (.kernel x) = L₁.owns (.kernel x))
    (hheld : ∀ pf, L'.owns (.held pf) = none)
    (huser : ∀ d' ≠ d, ∀ x, L'.owns (.user d' x) = L₁.owns (.user d' x))
    (hpgdir : (m'.tasks (n * 4096)).pgdir = some (nd * 4096))
    (hbits : (m'.tasks (n * 4096)).userprocVaddr.bits = nb * 4096)
    (hspace : (m'.tasks (n * 4096)).userprocVaddr.vaddrStart = userVaddrStart ∧
      (m'.tasks (n * 4096)).userprocVaddr.vaddrBitmap.btmpBytesLen = userBitmapLen)
    (htrack : Tracked (m'.tasks (n * 4096)).userprocVaddr (Owner.user d) L') :
    Joins { s with machine := m₁ } (G.withLedger L₁) m'
      (((G.withLedger L₁).addDir d).withLedger L') (n * 4096) n nb (some nd) {d} := by
  have hnew : DirOf m' (((G.withLedger L₁).addDir d).withLedger L') (n * 4096) d := by
    unfold DirOf
    rw [hpgdir]
    refine ⟨by omega, ?_⟩
    rw [Nat.mul_div_cancel _ (by norm_num), withLedger_owns, hkernel]
    exact hd.dir
  have hsame₁ (q : ℕ) (_ : q ∈ s.threads) : m₁.tasks q = s.machine.tasks q :=
    congrFun hd.only.tasks q
  have hk₁ := hk.grown hd.grown hsame₁
  have hdne (x : ℕ) (hx : ∃ f, G.owns (.kernel x) = some f) : nd ≠ x := hd.grown.ne_of_owned hx
    (i := 0) (by norm_num)
  exact {
    coherent := hc
    kernelVaddr := hsame.1
    cr3 := hsame.2.1
    running := hsame.2.2
    tasks := htasks
    kernel := hkernel
    held := hheld
    user := fun d' hd' => huser d' hd'
    dirs := Set.union_singleton.symm
    spaces := Set.union_singleton.symm
    fresh := by
      rintro _ rfl
      exact ⟨hd.notMem, by simp, hnew⟩
    space := ⟨d, hnew, htrack, fun _ => ⟨Set.mem_insert .., hspace⟩⟩
    notMem := hk.notMem
    pcb := rfl
    pgdir := hpgdir
    bits := hbits
    sparePcb := hk₁.pcb
    spareDir := by
      rintro _ ⟨⟩
      refine ⟨⟨⟨d, hd.dir⟩, fun u => ?_⟩, hdne n hk.pcb.1⟩
      rw [uses_of_tasks hsame₁]
      exact hs.not_uses (hd.grown.new (.kernel nd) ⟨0, by norm_num, rfl⟩).1 u
    spareBits := fun _ i hi =>
      ⟨(hk₁.bits i hi).1, (hk₁.bits i hi).2, fun heq => hdne _ (hk.bits i hi).1.1 (Option.some.inj heq)⟩
    bare := by simp }

/-- An empty bitmap tracks a directory that owns no user page. -/
theorem tracked_empty {va : VirtualAddr} (hva : va.vaddrStart % 4096 = 0)
    (hclear : ∀ j, bitmapScanTest va.vaddrBitmap j = false)
    (hnone : ∀ x, L'.owns (.user d x) = none) : Tracked va (Owner.user d) L' := by
  refine ⟨hva, fun x hx => absurd (hnone x) hx, ?_⟩
  intro j _ hset
  rw [hclear] at hset
  cases hset

/-- `process_execute` keeps the invariant. -/
theorem Sound.processExecute (hs : Sound s G) {name : List UInt8}
    (h : processExecute s.machine name = .ok (p, m')) :
    ∃ G', Sound ⟨m', insert p s.threads, s.hanging⟩ G' := by
  unfold Memory.processExecute at h
  obtain ⟨⟨r₁, m₁⟩, hget₁, h⟩ := of_bind_eq_ok h
  obtain ⟨rfl, -⟩ | ⟨n, L₁, rfl, -, hf₁⟩ := hs.getKernelPages hget₁
  · cases h
  obtain ⟨m₂, hinit, h⟩ := of_bind_eq_ok h
  obtain ⟨m₄, hbits, h⟩ := of_bind_eq_ok h
  obtain ⟨⟨r₅, m₅⟩, hdir, h⟩ := of_bind_eq_ok h
  obtain ⟨rfl, rfl⟩ := Prod.mk.inj (Except.ok.inj h)
  obtain ⟨hre₂, pid, htask₂⟩ := initThread_ok hinit
  have hnot := hf₁.notMem hs (i := 0) (by norm_num)
  have hne (q : ℕ) (hq : q ∈ s.threads) : q ≠ n * 4096 := by
    rintro rfl
    exact hnot hq
  have htasks₂ (q : ℕ) (hq : q ∈ s.threads) : m₂.tasks q = m₁.tasks q := by
    rw [htask₂, Function.update_of_ne (hne q hq)]
  have hs₂ := hf₁.sound.retask hre₂ htasks₂
  have hn₂ := (hf₁.spare hs (i := 0) (by norm_num)).retask htasks₂
  unfold createUserVaddrBitmap at hbits
  obtain ⟨⟨r₃, m₃⟩, hget₃, hbits⟩ := of_bind_eq_ok hbits
  obtain ⟨rfl, -⟩ | ⟨nb, L₃, rfl, -, hf₃⟩ := hs₂.getKernelPages hget₃
  · cases hbits
  replace hbits := (Except.ok.inj hbits).symm
  have htasks₄ (q : ℕ) (hq : q ∈ s.threads) : m₄.tasks q = m₃.tasks q := by
    rw [hbits]
    exact Function.update_of_ne (hne q hq) ..
  have hs₄ := hf₃.sound.retask (by rw [hbits]; exact retasked_setTask ..) htasks₄
  have hk := (hf₃.kit hs₂ hn₂ hnot).retask htasks₄
  obtain ⟨nd, d, L₅, rfl, hd⟩ := hs₄.createPageDir hdir
  have htask : m₅.tasks (n * 4096) = { m₃.tasks (n * 4096) with userprocVaddr :=
      ⟨bitmapInit ⟨userBitmapLen, fun _ => 0⟩, nb * 4096, userVaddrStart⟩ } := by
    rw [hd.only.tasks]
    simp [hbits, Machine.setTask]
  have hempty (x : ℕ) : L₅.owns (.user d x) = none :=
    hd.sound.coherent.user_none_of_notMem
      (fun hin => hd.notMem (hs₄.coherent.encoded.spaces_subset hin)) x
  have hc : Coherent
      (m₅.setTask (n * 4096) { m₅.tasks (n * 4096) with pgdir := some (nd * 4096) })
      (((G.withLedger L₃).addDir d).withLedger L₅) := hd.coherent.congr rfl rfl
  have hjoins := hk.joins hs₄ hd hc ⟨rfl, rfl, rfl⟩ (fun q hq => Function.update_of_ne (hne q hq) ..)
    (fun _ => rfl) hd.sound.held (fun _ _ _ => rfl) (by simp [Machine.setTask])
    (by simp [Machine.setTask, htask]) (by simp [Machine.setTask, htask, bitmapInit])
    (tracked_empty (by simp [Machine.setTask, htask, userVaddrStart])
      (by simp [Machine.setTask, htask, bitmapInit, bitmapScanTest]) hempty)
  exact ⟨_, Sound.join (s := { s with machine := m₅ }) hd.sound hjoins⟩

end Creating

end X86System.Memory
