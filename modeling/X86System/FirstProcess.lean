import X86System.ForkSupply
import X86System.SpaceRuns

/-!
# The first process

While nothing was given back the scan takes the bits of a bitmap in order. So after power on
a process can be created and switched to wherever the kernel pool has a frame for each page that
the process is kept in, and what is left can be counted.
-/
namespace X86System.Memory
open Exec Paging

/-- The first `k` bits are set and no other. -/
def Filled (btmp : Bitmap) (k : ℕ) : Prop :=
  ∀ i < 8 * btmp.btmpBytesLen, bitmapScanTest btmp i = decide (i < k)

section Bits

variable {btmp : Bitmap} {k cnt : ℕ}

theorem Filled.scan (h : Filled btmp k) (hcnt : 0 < cnt) (hk : k + cnt ≤ 8 * btmp.btmpBytesLen) :
    bitmapScan btmp cnt = .ok (some k) := by
  have hclear (i : ℕ) (h1 : k ≤ i) (h2 : i < k + cnt) : bitmapScanTest btmp i = false := by
    rw [h i (by omega), decide_eq_false_iff_not]
    omega
  obtain ⟨r, hr, hleast⟩ := bitmapScan_first hcnt
    ⟨k, (Bitmap.mem_free _ _).mpr ⟨by omega, hclear k le_rfl (by omega)⟩⟩
  rw [hr, (hleast k).mpr]
  refine ⟨⟨hclear, by omega⟩, fun i hi => ?_⟩
  by_contra hlt
  have hset := hi.1 i le_rfl (by omega)
  rw [h i (by omega), decide_eq_false_iff_not] at hset
  omega

theorem Filled.take (h : Filled btmp k) (cnt : ℕ) : Filled (setBits btmp k true cnt) (k + cnt) := by
  intro i hi
  rw [setBits_len] at hi
  rw [setBits_test, h i hi, Bool.eq_iff_iff]
  by_cases hin : k ≤ i ∧ i < k + cnt
  · rw [if_pos hin]
    simp [hin.2]
  · rw [if_neg hin, decide_eq_true_iff, decide_eq_true_iff]
    omega

theorem Filled.serves {cnts : List ℕ} (h : Filled btmp k) (hcnts : ∀ cnt ∈ cnts, 0 < cnt)
    (hk : k + cnts.sum ≤ 8 * btmp.btmpBytesLen) : Serves btmp cnts := by
  induction cnts generalizing btmp k with
  | nil => trivial
  | cons cnt cnts ih =>
    rw [List.sum_cons] at hk
    refine ⟨k, h.scan (hcnts _ List.mem_cons_self) (by omega), ih (h.take cnt) ?_ ?_⟩
    · exact fun c hc => hcnts c (List.mem_cons_of_mem _ hc)
    · rw [setBits_len]
      omega

/-- A bitmap just made is all clear. -/
theorem filled_init (btmp : Bitmap) : Filled (bitmapInit btmp) 0 := by
  intro i hi
  rw [bitmapInit_test btmp hi]
  simp

end Bits

/-- A process `p` called `name` was created. -/
structure Executed (m m' : Machine) (p : ℕ) (name : List UInt8) : Prop where
  task : ∃ pid v bits, m'.tasks p = ⟨pid, name, some v,
    ⟨bitmapInit ⟨userBitmapLen, fun _ => 0⟩, bits, userVaddrStart⟩⟩
  len : m'.heap.btmpBytesLen = m.heap.btmpBytesLen
  kernel : m'.room .kernel + (bitmapPgCnt + 2) = m.room .kernel
  user : m'.room .user = m.room .user
  pid : ∃ i, m'.pidBitmap = bitmapSet m.pidBitmap i true

section Creation

variable {s : State} {m m' : Machine} {G : Layout} {i k p cnt : ℕ}

/-- A pid is found while one is free. -/
theorem initThread_of_free (hpid : m.pidBitmap.free.Nonempty) (p : ℕ) (name : List UInt8) :
    ∃ i, initThread m p name = .ok ({ m with pidBitmap := bitmapSet m.pidBitmap i true }.setTask p
      { emptyTask with pid := i + 1, name := name }) := by
  obtain ⟨i, hscan, -⟩ := bitmapScan_one_of_free hpid
  refine ⟨i, ?_⟩
  unfold initThread allocatePid
  rw [hscan]
  rfl

/-- Pages of a heap that was taken in order are the next ones. -/
theorem Spent.filled (h : Spent m m' cnt i) (hcnt : 0 < cnt) (hheap : Filled m.heap k)
    (hk : k + cnt ≤ 8 * m.heap.btmpBytesLen) :
    Filled m'.heap (k + cnt) ∧ m'.heap.btmpBytesLen = m.heap.btmpBytesLen := by
  have hscan := h.scan
  rw [hheap.scan hcnt hk] at hscan
  obtain rfl := Option.some.inj (Except.ok.inj hscan)
  rw [h.heap, setBits_len]
  exact ⟨hheap.take cnt, rfl⟩

/-- `process_execute` succeeds where it finds a pid, pages of the heap and frames for these. -/
theorem Sound.processExecute_of_room (hs : Sound s G) (name : List UInt8)
    (hpid : s.machine.pidBitmap.free.Nonempty) (hheap : Filled s.machine.heap k)
    (hlen : k + (bitmapPgCnt + 2) ≤ 8 * s.machine.heap.btmpBytesLen)
    (hroom : bitmapPgCnt + 2 ≤ s.machine.room .kernel) :
    ∃ p m', Memory.processExecute s.machine name = .ok (p, m') ∧ Executed s.machine m' p name ∧
      Filled m'.heap (k + (bitmapPgCnt + 2)) := by
  obtain ⟨n, m₁, L₁, hget₁, hf₁, hspent₁⟩ := hs.getKernelPages_of_room (by norm_num)
    (hheap.scan Nat.one_pos (by omega)) (by omega)
  obtain ⟨hheap₁, hlen₁⟩ := hspent₁.filled Nat.one_pos hheap (by omega)
  have hk₁ := hspent₁.kernel
  obtain ⟨i, hinit⟩ := initThread_of_free (m := m₁) (by rwa [hf₁.only.pidBitmap]) (n * 4096) name
  have hne (q : ℕ) (hq : q ∈ s.threads) : q ≠ n * 4096 := by
    rintro rfl
    exact hf₁.notMem hs (i := 0) (by norm_num) hq
  obtain ⟨hre, -⟩ := initThread_ok hinit
  have hs₂ := hf₁.sound.retask hre fun q hq => Function.update_of_ne (hne q hq) ..
  have hcnt : 0 < bitmapPgCnt ∧ bitmapPgCnt < 3840 := by
    rw [bitmapPgCnt_eq]
    norm_num
  obtain ⟨nb, m₃, L₃, hget₃, hf₃, hspent₃⟩ := hs₂.getKernelPages_of_room hcnt
    (hheap₁.scan hcnt.1 (by omega)) (by change _ ≤ m₁.room .kernel; omega)
  obtain ⟨hheap₃, hlen₃⟩ := hspent₃.filled hcnt.1 hheap₁ (by
    change _ ≤ 8 * m₁.heap.btmpBytesLen
    omega)
  have hk₃ : m₃.room .kernel + bitmapPgCnt = m₁.room .kernel := hspent₃.kernel
  replace hlen₃ : m₃.heap.btmpBytesLen = m₁.heap.btmpBytesLen := hlen₃
  set m₄ := m₃.setTask (n * 4096) { m₃.tasks (n * 4096) with
    userprocVaddr := ⟨bitmapInit ⟨userBitmapLen, fun _ => 0⟩, nb * 4096, userVaddrStart⟩ } with hm₄
  have hs₄ := hf₃.sound.retask (show Retasked m₃ m₄ from retasked_setTask ..) fun q hq =>
    Function.update_of_ne (hne q hq) ..
  obtain ⟨nd, d, m₅, L₅, hdir, hd, hspent₅⟩ := hs₄.createPageDir_of_room
    (hheap₃.scan Nat.one_pos (by omega)) (by change _ ≤ m₃.room .kernel; omega)
  obtain ⟨hheap₅, hlen₅⟩ := hspent₅.filled Nat.one_pos hheap₃ (by
    change _ ≤ 8 * m₃.heap.btmpBytesLen
    omega)
  have hk₅ : m₅.room .kernel + 1 = m₃.room .kernel := hspent₅.kernel
  refine ⟨n * 4096, m₅.setTask (n * 4096) { m₅.tasks (n * 4096) with pgdir := some (nd * 4096) },
    ?_, ⟨⟨i + 1, nd * 4096, nb * 4096, ?_⟩, hlen₅.trans (hlen₃.trans hlen₁), ?_, ?_, ⟨i, ?_⟩⟩, ?_⟩
  · unfold Memory.processExecute createUserVaddrBitmap
    rw [hget₁, ok_bind]
    dsimp only
    rw [hinit, ok_bind, hget₃, ok_bind]
    dsimp only
    rw [pure_eq_ok, ok_bind, hdir]
    rfl
  · change Function.update m₅.tasks (n * 4096) _ (n * 4096) = _
    rw [Function.update_self, hd.only.tasks]
    change { Function.update m₃.tasks (n * 4096) _ (n * 4096) with pgdir := some (nd * 4096) } = _
    rw [Function.update_self, hf₃.only.tasks]
    simp [Machine.setTask]
  · change m₅.room .kernel + _ = _
    omega
  · exact hspent₅.user.trans (hspent₃.user.trans hspent₁.user)
  · change m₅.pidBitmap = _
    rw [hd.only.pidBitmap]
    change m₃.pidBitmap = _
    rw [hf₃.only.pidBitmap]
    change bitmapSet m₁.pidBitmap i true = _
    rw [hf₁.only.pidBitmap]
  · rw [show k + (bitmapPgCnt + 2) = k + 1 + bitmapPgCnt + 1 by omega]
    exact hheap₅

/-- A directory in use can be switched to. -/
theorem Sound.switchTo_runs (hs : Sound s G) (hp : p ∈ s.threads) :
    ∃ d, switchTo s.machine p = .ok { s.machine with cr3 := d, running := p } := by
  obtain ⟨d, -, hd⟩ := hs.dir p hp
  refine ⟨d, ?_⟩
  unfold switchTo
  rw [hs.coherent.pageDirActivate hs.cr3_mem hd]
  rfl

end Creation

/-- The first process runs; of the `frames` frames of the kernel pool it has taken what it needs. -/
structure Started (name : List UInt8) (frames : ℕ) (s : State) : Prop where
  reachable : memoryCalls.Reachable s
  task : ∃ pid v bits, s.machine.tasks s.machine.running = ⟨pid, name, some v,
    ⟨bitmapInit ⟨userBitmapLen, fun _ => 0⟩, bits, userVaddrStart⟩⟩
  heap : Filled s.machine.heap (bitmapPgCnt + 2)
  len : 8 * s.machine.heap.btmpBytesLen = frames
  kernel : s.machine.room .kernel + (bitmapPgCnt + 2) = frames
  pid : s.machine.pidBitmap.free.Nonempty

section Starting

variable {s : State} {name : List UInt8} {frames : ℕ}

theorem free_init (btmp : Bitmap) :
    (bitmapInit btmp).free = Finset.range (8 * btmp.btmpBytesLen) := by
  ext i
  rw [Bitmap.mem_free, Finset.mem_range]
  exact and_iff_left_of_imp fun hi => bitmapInit_test btmp hi

/-- After power on the first process is created where the kernel pool has a frame for each page
that it is kept in, and switched to. The frames of the user pool are all free. -/
theorem exists_started_user (name : List UInt8) {allMem : ℕ}
    (hframes : 8 * (allFreePages allMem / 2 / 8) = frames) (hroom : bitmapPgCnt + 2 ≤ frames) :
    ∃ s, Started name frames s ∧
      s.machine.room .user = 8 * ((allFreePages allMem - allFreePages allMem / 2) / 8) := by
  obtain ⟨⟨-, hlen⟩, -, hulen⟩ :=
    @memPoolInit_sizes (setupPage fun _ _ => 0) (fun _ => 0) allMem _ rfl
  set boot : State := ⟨memPoolInit (setupPage fun _ _ => 0) (fun _ => 0) allMem, {mainThread}, ∅⟩
    with hboot
  have hs : Sound boot bootLayout := sound_boot fun _ _ _ _ => rfl
  have hheap : 8 * boot.machine.heap.btmpBytesLen = frames := by
    rw [← hframes, ← hlen]
    rfl
  have hkernel : boot.machine.room .kernel = frames := by
    rw [← hheap]
    change (bitmapInit _).free.card = _
    rw [free_init, Finset.card_range]
    rfl
  have huser : boot.machine.room .user =
      8 * ((allFreePages allMem - allFreePages allMem / 2) / 8) := by
    rw [← hulen]
    change (bitmapInit _).free.card = _
    rw [free_init, Finset.card_range]
    rfl
  have hpid : boot.machine.pidBitmap.free = Finset.range (8 * 128) := free_init _
  obtain ⟨p, m₁, hexec, hm₁, hheap₁⟩ := hs.processExecute_of_room (k := 0) name
    (by rw [hpid]; exact ⟨0, Finset.mem_range.mpr (by norm_num)⟩) (filled_init _)
    (by omega) (by omega)
  obtain ⟨G₁, hs₁⟩ := hs.processExecute hexec
  obtain ⟨d, hswitch⟩ := hs₁.switchTo_runs (Finset.mem_insert_self ..)
  have hstart : memoryCalls.start boot := ⟨_, _, _, fun _ _ _ _ => rfl, rfl⟩
  have hstep : memoryCalls.step boot (.processExecute name) ⟨m₁, insert p boot.threads, ∅⟩ :=
    Step.processExecute hexec
  have hstep₁ : memoryCalls.step ⟨m₁, insert p boot.threads, ∅⟩ (.schedule p)
      ⟨{ m₁ with cr3 := d, running := p }, insert p boot.threads, ∅⟩ :=
    Step.schedule (Finset.mem_insert_self ..) (Finset.notMem_empty _) hswitch
  refine ⟨_, ⟨⟨boot, _, hstart, (Transition.System.Run.nil.snoc hstep).snoc hstep₁⟩, hm₁.task,
    ?_, ?_, ?_, ?_⟩, hm₁.user.trans huser⟩
  · rw [Nat.zero_add] at hheap₁
    exact hheap₁
  · change 8 * m₁.heap.btmpBytesLen = _
    rw [hm₁.len, hheap]
  · change m₁.room .kernel + _ = _
    rw [hm₁.kernel, hkernel]
  · obtain ⟨i, hi⟩ := hm₁.pid
    change m₁.pidBitmap.free.Nonempty
    rw [hi, free_set_true, hpid]
    apply Finset.Nontrivial.erase_nonempty
    exact ⟨0, by simp, 1, by simp, by norm_num⟩

theorem exists_started (name : List UInt8) {allMem : ℕ}
    (hframes : 8 * (allFreePages allMem / 2 / 8) = frames) (hroom : bitmapPgCnt + 2 ≤ frames) :
    ∃ s, Started name frames s := by
  obtain ⟨s, hs, -⟩ := exists_started_user name hframes hroom
  exact ⟨s, hs⟩

/-- The first process has no pages yet. -/
theorem Started.marked_eq (h : Started name frames s) :
    (s.machine.tasks s.machine.running).userprocVaddr.marked
      (s.machine.tasks s.machine.running).userprocVaddr.pages = ∅ := by
  obtain ⟨pid, v, bits, htask⟩ := h.task
  rw [htask, VirtualAddr.marked, Finset.image_eq_empty, Finset.filter_eq_empty_iff]
  intro i hi
  have hclear := bitmapInit_test ⟨userBitmapLen, fun _ => 0⟩ (Finset.mem_range.mp hi)
  exact ne_true_of_eq_false hclear

theorem Started.tables_eq (h : Started name frames s) :
    (s.machine.tasks s.machine.running).userprocVaddr.tables
      (s.machine.tasks s.machine.running).userprocVaddr.pages = ∅ := by
  rw [VirtualAddr.tables, h.marked_eq]
  rfl

/-- The first process can fork where its name leaves room for a suffix and there are frames for
the child. -/
theorem Started.forkReady (h : Started name frames s) (hname : name.length < 11)
    (hframes : 2 * bitmapPgCnt + 5 ≤ frames) : ForkReady s.machine := by
  obtain ⟨pid, v, bits, htask⟩ := h.task
  have hkernel := h.kernel
  have hlen := h.len
  exact {
    process := by simp [htask]
    name := by simpa [htask]
    pid := h.pid
    heap := h.heap.serves (by simp [bitmapPgCnt_eq]) (by
      simp only [List.sum_cons, List.sum_nil]
      omega)
    kernel := by
      rw [h.tables_eq, Finset.card_empty]
      omega
    user := by
      rw [h.marked_eq]
      exact Nat.zero_le _ }

end Starting

end X86System.Memory
