import X86System.ForkCalls
import X86System.FrameSupply
import X86System.HeapSupply
import X86System.SpaceExits

/-!
# What a fork costs

A fork takes pages of the kernel heap for the PCB, the buffer, the bitmap and the
directory of the child, a frame for every page of the parent and one for every table
that shows them. It succeeds exactly where all of these are there.
-/
namespace X86System.Memory
open Exec Paging

section Loops

variable {copy : ℕ → Machine → Except Fault Machine} {P : ℕ → Machine → Prop} {btmp : Bitmap}
  {m : Machine} {left idxByte idxBit bound : ℕ}

/-- The loop over the bits of one byte returns if every page whose bit is set can be copied. -/
theorem copyBits_runs
    (hset : ∀ k m, k < bound → bitmapScanTest btmp k = true → P k m →
      ∃ m', copy k m = .ok m' ∧ P (k + 1) m')
    (hclear : ∀ k m, k < bound → bitmapScanTest btmp k = false → P k m → P (k + 1) m)
    (hend : idxBit + left = 8) (hbound : idxByte * 8 + 8 ≤ bound)
    (hm : P (idxByte * 8 + idxBit) m) :
    ∃ m', copyBits copy (btmp.bits idxByte) idxByte left idxBit m = .ok m' ∧
      P (idxByte * 8 + 8) m' := by
  induction left generalizing idxBit m with
  | zero =>
    obtain rfl : idxBit = 8 := hend
    exact ⟨m, rfl, hm⟩
  | succ left ih =>
    unfold copyBits
    by_cases hb : bitmapMask idxBit &&& btmp.bits idxByte ≠ 0
    · obtain ⟨m₁, hcopy, hm₁⟩ := hset (idxByte * 8 + idxBit) m (by omega)
        ((bitmapMask_and_ne_zero (by omega)).mp hb) hm
      rw [if_pos hb, hcopy, ok_bind]
      exact ih (by omega) hm₁
    · rw [if_neg hb, pure_eq_ok, ok_bind]
      apply ih (by omega)
      rw [bitmapMask_and_ne_zero (by omega), Bool.not_eq_true] at hb
      exact hclear (idxByte * 8 + idxBit) m (by omega) hb hm

/-- The loop over the bitmap returns if every page whose bit is set can be copied. -/
theorem copyBytes_runs
    (hset : ∀ k m, k < bound → bitmapScanTest btmp k = true → P k m →
      ∃ m', copy k m = .ok m' ∧ P (k + 1) m')
    (hclear : ∀ k m, k < bound → bitmapScanTest btmp k = false → P k m → P (k + 1) m)
    (hbound : (idxByte + left) * 8 = bound) (hm : P (idxByte * 8) m) :
    ∃ m', copyBytes copy btmp.bits left idxByte m = .ok m' ∧ P bound m' := by
  induction left generalizing idxByte m with
  | zero =>
    rw [Nat.add_zero] at hbound
    rw [hbound] at hm
    exact ⟨m, rfl, hm⟩
  | succ left ih =>
    have hnext : idxByte * 8 + 8 = (idxByte + 1) * 8 := by omega
    unfold copyBytes
    by_cases hb : btmp.bits idxByte ≠ 0
    · obtain ⟨m₁, hbyte, hm₁⟩ :=
        copyBits_runs hset hclear (show 0 + 8 = 8 from rfl) (by omega) hm
      rw [if_pos hb, hbyte, ok_bind]
      rw [hnext] at hm₁
      exact ih (by omega) hm₁
    · rw [if_neg hb, pure_eq_ok, ok_bind]
      apply ih (by omega)
      rw [← hnext]
      exact skipByte hclear (not_not.mp hb) (by omega) (by norm_num) hm

end Loops

/-- The pages of the first `k` bits that are set. -/
def VirtualAddr.marked (va : VirtualAddr) (k : ℕ) : Finset ℕ :=
  ((Finset.range k).filter fun i => bitmapScanTest va.vaddrBitmap i = true).image (va.base + ·)

/-- The directory entries that these pages need. -/
def VirtualAddr.tables (va : VirtualAddr) (k : ℕ) : Finset ℕ := (va.marked k).image (· / 1024)

section Marked

variable {va : VirtualAddr} {k x : ℕ}

theorem mem_marked : x ∈ va.marked k ↔
    va.base ≤ x ∧ x < va.base + k ∧ bitmapScanTest va.vaddrBitmap (x - va.base) = true := by
  simp only [VirtualAddr.marked, Finset.mem_image, Finset.mem_filter, Finset.mem_range]
  constructor
  · rintro ⟨i, ⟨hi, hset⟩, rfl⟩
    rw [Nat.add_sub_cancel_left]
    exact ⟨Nat.le_add_right .., Nat.add_lt_add_left hi _, hset⟩
  · rintro ⟨h1, h2, h3⟩
    exact ⟨x - va.base, ⟨by omega, h3⟩, by omega⟩

theorem marked_succ_of_set (h : bitmapScanTest va.vaddrBitmap k = true) :
    va.marked (k + 1) = insert (va.base + k) (va.marked k) := by
  rw [VirtualAddr.marked, Finset.range_add_one, Finset.filter_insert, if_pos h,
    Finset.image_insert]
  rfl

theorem marked_succ_of_clear (h : bitmapScanTest va.vaddrBitmap k = false) :
    va.marked (k + 1) = va.marked k := by
  rw [VirtualAddr.marked, Finset.range_add_one, Finset.filter_insert,
    if_neg (by rw [h]; exact Bool.false_ne_true)]
  rfl

theorem notMem_marked : va.base + k ∉ va.marked k := by
  rw [mem_marked]
  omega

theorem marked_mono {k' : ℕ} (h : k ≤ k') : va.marked k ⊆ va.marked k' := by
  intro x hx
  rw [mem_marked] at hx ⊢
  exact ⟨hx.1, by omega, hx.2.2⟩

end Marked

/-- What mapping page `x` in the directory `d` costs. -/
structure Cost (m m' : Machine) (d x : ℕ) : Prop where
  pde : present (m'.ram d (x / 1024))
  others : ∀ e, e ≠ x / 1024 → m'.ram d e = m.ram d e
  user : m'.room .user + 1 = m.room .user
  kernel : m'.room .kernel + (if present (m.ram d (x / 1024)) then 0 else 1) = m.room .kernel

section Pages

variable {m m' : Machine} {G : Layout} {n x f f' d child parent : ℕ}

/-- `get_a_page_without_opvaddrbitmap` in its steps. -/
theorem getAPageWithoutOpvaddrbitmap_ok_iff {v : ℕ} {r : Option ℕ} :
    getAPageWithoutOpvaddrbitmap m .user v = .ok (r, m') ↔ r = some v ∧
      ∃ a pool, pmalloc (m.pools .user) = .ok (some a, pool) ∧
        pageTableAdd (m.setPool .user pool) v a = .ok m' := by
  unfold getAPageWithoutOpvaddrbitmap
  cases hpm : pmalloc (m.pools .user) with
  | error e => simp
  | ok y =>
    obtain ⟨b, pool⟩ := y
    cases b with
    | none => exact absurd rfl (pmalloc_ne_none hpm)
    | some a =>
      rw [ok_bind]
      dsimp only
      cases hadd : pageTableAdd (m.setPool .user pool) v a with
      | error e => simp [hadd]
      | ok m₁ => simp [hadd, eq_comm]

theorem bare_card (m : Machine) (n : ℕ) :
    (m.bare n 1).card = if present (m.ram m.cr3 (n / 1024)) then 0 else 1 := by
  by_cases hp : present (m.ram m.cr3 (n / 1024))
  · rw [if_pos hp, bare_one_of_present hp, Finset.card_empty]
  · rw [if_neg hp, bare_one hp, Finset.card_singleton]

theorem PageReady.wanted (h : PageReady m G child parent n x d f f') : Wanted G d .user x where
  mappable := ⟨h.space, h.top.le⟩
  low := fun _ => h.top
  free := h.fresh

/-- Copying a page costs a frame for it and, where the table is missing, one for the table. -/
theorem PageReady.cost (h : PageReady m G child parent n x d f f')
    (hcopy : copyPage child parent (n * 4096) (x * 4096) m = .ok m') : Cost m m' d x := by
  obtain ⟨ram, hc₂, -, hkept₁, hstart⟩ := h.start
  rw [hstart] at hcopy
  obtain ⟨⟨r, m₃⟩, hget, hcopy⟩ := of_bind_eq_ok hcopy
  have hmem := h.coherent.encoded.spaces_subset h.space
  obtain ⟨ram', L', g, hend, hc₄, -, -, hgx, -, -, hkept₄⟩ := h.finish hc₂ rfl rfl hget
  dsimp only at hcopy
  rw [hend] at hcopy
  obtain rfl := Except.ok.inj hcopy
  obtain ⟨-, a, pool, hpm, hadd⟩ := getAPageWithoutOpvaddrbitmap_ok_iff.mp hget
  have hs := mapPage_supplied hc₂ hmem h.wanted hpm hadd
  have hcard := bare_card { m.setRam ram with cr3 := d } x
  -- neither the buffer nor the new page is the directory
  have h1 : ram d = m.ram d := by
    apply hkept₁
    rintro rfl
    exact h.buf_notMem hmem
  have h2 : ram' d = m₃.ram d := by
    apply hkept₄
    rintro rfl
    exact hc₄.user_not_dir hgx hmem
  refine ⟨?_, fun e he => ?_, hs.room, ?_⟩
  · change present (ram' d _)
    rw [h2]
    exact hs.pde
  · change ram' d e = m.ram d e
    rw [h2, ← h1]
    exact hs.others e he
  · have hkernel := hs.kernel rfl
    rw [hcard] at hkernel
    change m₃.room .kernel + (if present (ram d (x / 1024)) then 0 else 1) = m.room .kernel
      at hkernel
    rw [h1] at hkernel
    exact hkernel

/-- A page is copied where there are frames for it and its table. -/
theorem PageReady.of_room (h : PageReady m G child parent n x d f f') (huser : 0 < m.room .user)
    (hkernel : (if present (m.ram d (x / 1024)) then 0 else 1) ≤ m.room .kernel) :
    ∃ m', copyPage child parent (n * 4096) (x * 4096) m = .ok m' := by
  obtain ⟨ram, hc₂, -, hkept₁, hstart⟩ := h.start
  have hmem := h.coherent.encoded.spaces_subset h.space
  have h1 : ram d = m.ram d := by
    apply hkept₁
    rintro rfl
    exact h.buf_notMem hmem
  have hcard := bare_card { m.setRam ram with cr3 := d } x
  obtain ⟨a, pool, m₃, hpm, hadd⟩ := (mapPage_runs_iff hc₂ hmem h.wanted).mpr ⟨huser, by
    rw [hcard]
    change (if present (ram d (x / 1024)) then 0 else 1) ≤ m.room .kernel
    rwa [h1]⟩
  have hget := getAPageWithoutOpvaddrbitmap_ok_iff.mpr ⟨rfl, a, pool, hpm, hadd⟩
  obtain ⟨ram', L', g, hend, -⟩ := h.finish hc₂ rfl rfl hget
  exact ⟨_, by rw [hstart, hget, ok_bind]; exact hend⟩

end Pages

/-- What the pages of the first `k` bits have cost. -/
structure Paid (m₀ m : Machine) (va : VirtualAddr) (d k : ℕ) : Prop where
  user : m.room .user + (va.marked k).card = m₀.room .user
  kernel : m.room .kernel + (va.tables k).card = m₀.room .kernel
  tables : ∀ e < 768, present (m.ram d e) ↔ e ∈ va.tables k

section Body

variable {m₀ m m' : Machine} {G : Layout} {va : VirtualAddr} {L : Ledger Owner ℕ}
  {n d f k child parent : ℕ}

theorem Paid.skip (h : Paid m₀ m va d k) (hk : bitmapScanTest va.vaddrBitmap k = false) :
    Paid m₀ m va d (k + 1) := by
  have htables : va.tables (k + 1) = va.tables k := by
    rw [VirtualAddr.tables, marked_succ_of_clear hk]
    rfl
  exact ⟨by rw [marked_succ_of_clear hk]; exact h.user, by rw [htables]; exact h.kernel,
    by rw [htables]; exact h.tables⟩

theorem tables_succ_of_set (hset : bitmapScanTest va.vaddrBitmap k = true) :
    va.tables (k + 1) = insert ((va.base + k) / 1024) (va.tables k) := by
  rw [VirtualAddr.tables, marked_succ_of_set hset, Finset.image_insert]
  rfl

theorem Paid.copy (h : Paid m₀ m va d k) (hset : bitmapScanTest va.vaddrBitmap k = true)
    (hk : va.base + k < 0xc0000) (hcost : Cost m m' d (va.base + k)) : Paid m₀ m' va d (k + 1) := by
  have hmarked := marked_succ_of_set hset
  have htables := tables_succ_of_set hset
  have hpde := h.tables ((va.base + k) / 1024) (by omega)
  refine ⟨?_, ?_, ?_⟩
  · rw [hmarked, Finset.card_insert_of_notMem notMem_marked, ← h.user, ← hcost.user]
    omega
  · have hkernel := hcost.kernel
    have hbefore := h.kernel
    rw [htables]
    by_cases hmem : (va.base + k) / 1024 ∈ va.tables k
    · rw [if_pos (hpde.mpr hmem)] at hkernel
      rw [Finset.insert_eq_of_mem hmem]
      omega
    · rw [if_neg (by rwa [hpde])] at hkernel
      rw [Finset.card_insert_of_notMem hmem]
      omega
  · intro e he
    rw [htables, Finset.mem_insert]
    by_cases heq : e = (va.base + k) / 1024
    · rw [heq]
      exact ⟨fun _ => .inl rfl, fun _ => hcost.pde⟩
    · rw [hcost.others e heq, h.tables e he]
      simp [heq]

/-- While not all is paid there is a frame for the next page and its table. -/
theorem Paid.room (h : Paid m₀ m va d k) (hset : bitmapScanTest va.vaddrBitmap k = true)
    (htop : va.base + k < 0xc0000) (hk : k < va.pages)
    (huser : (va.marked va.pages).card ≤ m₀.room .user)
    (hkernel : (va.tables va.pages).card ≤ m₀.room .kernel) : 0 < m.room .user ∧
      (if present (m.ram d ((va.base + k) / 1024)) then 0 else 1) ≤ m.room .kernel := by
  have hpages : (va.marked (k + 1)).card ≤ (va.marked va.pages).card :=
    Finset.card_le_card (marked_mono hk)
  have htables : (va.tables (k + 1)).card ≤ (va.tables va.pages).card :=
    Finset.card_le_card (Finset.image_subset_image (marked_mono hk))
  have h1 := h.user
  have h2 := h.kernel
  rw [marked_succ_of_set hset, Finset.card_insert_of_notMem notMem_marked] at hpages
  rw [tables_succ_of_set hset] at htables
  refine ⟨by omega, ?_⟩
  by_cases hp : present (m.ram d ((va.base + k) / 1024))
  · rw [if_pos hp]
    exact Nat.zero_le _
  · rw [h.tables _ (by omega)] at hp
    rw [Finset.card_insert_of_notMem hp] at htables
    rw [if_neg (by rwa [h.tables _ (by omega)])]
    omega

/-- Before the loops nothing has been paid: the user half of the child is bare. -/
theorem CopyReady.paid (hr : CopyReady m G va child parent n d f) : Paid m m va d 0 := by
  have hmarked : va.marked 0 = ∅ := rfl
  have htables : va.tables 0 = ∅ := rfl
  refine ⟨by rw [hmarked]; rfl, by rw [htables]; rfl, fun e he => ?_⟩
  rw [htables]
  simp only [Finset.notMem_empty, iff_false]
  exact hr.coherent.encoded.noTable d hr.space e he (hr.bare e)

/-- The loops of `copy_body_stack3` return if and only if there are frames for the pages of the
parent and for the tables that show them. -/
theorem CopyReady.runs_iff (hr : CopyReady m G va child parent n d f) :
    (∃ m', copyBodyStack3 m child parent (n * 4096) = .ok m') ↔
      (va.marked va.pages).card ≤ m.room .user ∧ (va.tables va.pages).card ≤ m.room .kernel := by
  have haddr (k : ℕ) : k * pgSize + va.vaddrStart = (va.base + k) * 4096 := by
    have := hr.tracked.aligned
    unfold VirtualAddr.base pgSize
    omega
  have hlen : (0 + va.vaddrBitmap.btmpBytesLen) * 8 = va.pages := by
    unfold VirtualAddr.pages
    omega
  have htop := hr.top
  have hclear (k : ℕ) (m₁ : Machine) (hk : bitmapScanTest va.vaddrBitmap k = false)
      (h : ∃ L, Copied m G va d f k m₁ L ∧ Paid m m₁ va d k) :
      ∃ L, Copied m G va d f (k + 1) m₁ L ∧ Paid m m₁ va d (k + 1) := by
    obtain ⟨L, hL, hpaid⟩ := h
    exact ⟨L, hL.skip hk, hpaid.skip hk⟩
  have hset {k : ℕ} {m₁ m₂ : Machine} (hk : k < va.pages)
      (hbit : bitmapScanTest va.vaddrBitmap k = true)
      (h : ∃ L, Copied m G va d f k m₁ L ∧ Paid m m₁ va d k)
      (hcopy : copyPage child parent (n * 4096) ((va.base + k) * 4096) m₁ = .ok m₂) :
      ∃ L, Copied m G va d f (k + 1) m₂ L ∧ Paid m m₂ va d (k + 1) := by
    obtain ⟨L, hL, hpaid⟩ := h
    obtain ⟨f', -, hready⟩ := hL.pageReady hr hk hbit
    obtain ⟨L', hL'⟩ := hL.copyPage hr hk hbit hcopy
    exact ⟨L', hL', hpaid.copy hbit (by omega) (hready.cost hcopy)⟩
  unfold copyBodyStack3
  rw [← hr.vaddr]
  simp only [haddr]
  constructor
  · rintro ⟨m', h⟩
    obtain ⟨L, -, hpaid⟩ := copyBytes_spec
      (P := fun k m₁ => ∃ L, Copied m G va d f k m₁ L ∧ Paid m m₁ va d k)
      (fun k m₁ m₂ hk hbit hP hcopy => hset hk hbit hP hcopy)
      (fun k m₁ _ hk hP => hclear k m₁ hk hP) hlen
      (by rw [Nat.zero_mul]; exact ⟨_, hr.zero, hr.paid⟩) h
    have huser := hpaid.user
    have hkernel := hpaid.kernel
    omega
  · rintro ⟨huser, hkernel⟩
    obtain ⟨m', h, -⟩ := @copyBytes_runs
      (fun k => copyPage child parent (n * 4096) ((va.base + k) * 4096))
      (fun k m₁ => ∃ L, Copied m G va d f k m₁ L ∧ Paid m m₁ va d k) va.vaddrBitmap m
      va.vaddrBitmap.btmpBytesLen 0 va.pages
      (fun k m₁ hk hbit hP => by
        obtain ⟨L, hL, hpaid⟩ := hP
        obtain ⟨f', -, hready⟩ := hL.pageReady hr hk hbit
        obtain ⟨h1, h2⟩ := hpaid.room hbit (by omega) hk huser hkernel
        obtain ⟨m₂, hcopy⟩ := hready.of_room h1 h2
        exact ⟨m₂, hcopy, hset hk hbit ⟨L, hL, hpaid⟩ hcopy⟩)
      (fun k m₁ _ hk hP => hclear k m₁ hk hP) hlen
      (by rw [Nat.zero_mul]; exact ⟨_, hr.zero, hr.paid⟩)
    exact ⟨m', h⟩

end Body

/-- The scan finds the runs that are asked for, one after the other. -/
def Serves : Bitmap → List ℕ → Prop
  | _, [] => True
  | btmp, cnt :: cnts =>
    ∃ i, bitmapScan btmp cnt = .ok (some i) ∧ Serves (setBits btmp i true cnt) cnts

/-- What `fork` needs: a process with a short name, a pid, pages of the kernel heap for the PCB,
the buffer, the bitmap and the directory, and frames for these, the user pages and their tables. -/
structure ForkReady (m : Machine) : Prop where
  process : (m.tasks m.running).pgdir ≠ none
  name : (m.tasks m.running).name.length < 11
  pid : m.pidBitmap.free.Nonempty
  heap : Serves m.heap [1, 1, bitmapPgCnt, 1]
  kernel : bitmapPgCnt + 3 + ((m.tasks m.running).userprocVaddr.tables
    (m.tasks m.running).userprocVaddr.pages).card ≤ m.room .kernel
  user : ((m.tasks m.running).userprocVaddr.marked
    (m.tasks m.running).userprocVaddr.pages).card ≤ m.room .user

section Forks

variable {s : State} {m' : Machine} {G : Layout} {p : ℕ}

/-- The child has the name of the parent until its bitmap is there. -/
theorem Seeded.name {m₁ m₂ m' : Machine} {L₁ L₂ : Ledger Owner ℕ} {n b i cnt : ℕ} {r : Option ℕ}
    (h : Seeded s G m₁ m₂ L₁ L₂ n b i)
    (hget : getKernelPages (m₂.seed (n * 4096) s.machine.running i) cnt = .ok (r, m')) :
    (m'.tasks (n * 4096)).name = (s.machine.tasks s.machine.running).name := by
  have htasks : m'.tasks = (m₂.seed (n * 4096) s.machine.running i).tasks := by
    obtain ⟨-, rfl⟩ | ⟨_, _, -, -, hf⟩ := h.sound.getKernelPages hget
    · rfl
    · exact hf.only.tasks
  rw [htasks, ← h.pcb.only.tasks, ← h.buf.only.tasks]
  change (Function.update m₂.tasks (n * 4096) _ (n * 4096)).name = _
  rw [Function.update_self]

/-- A fork that returns a child had all that it needs. -/
theorem ForkSteps.ready (hs : Sound s G) {buf i bits pgdir : ℕ} {m₁ m₂ m₄ m₅ m₆ : Machine}
    (h : ForkSteps s.machine p m' buf i bits pgdir m₁ m₂ m₄ m₅ m₆) : ForkReady s.machine := by
  obtain ⟨n, b, L₁, L₂, rfl, rfl, hseed⟩ := hs.seeded h.pcb h.buffer i
  obtain ⟨G₁, nb, rfl, hp, -⟩ := hseed.prepared hs h.bitmap
  have hproc : (s.machine.tasks s.machine.running).pgdir ≠ none := by
    rw [← hseed.pcb.only.tasks]
    exact h.process
  obtain ⟨i₁, hspent₁⟩ := hs.getKernelPages_spent h.pcb
  obtain ⟨i₂, hspent₂⟩ := hseed.pcb.sound.getKernelPages_spent h.buffer
  obtain ⟨i₃, hspent₃⟩ := hseed.sound.getKernelPages_spent h.bitmap
  obtain ⟨i₄, hspent₄⟩ := hp.sound.createPageDir_spent h.dir
  obtain ⟨nd, d, L₅, hr, hd⟩ := hp.sound.createPageDir h.dir
  obtain rfl := Option.some.inj hr
  obtain ⟨f, hf⟩ := hp.spare.owned
  have hready := hp.ready hs hproc hd hf
  obtain ⟨huser, hkernel⟩ := hready.runs_iff.mp ⟨m₆, h.body⟩
  have hk₁ := hspent₁.kernel
  have hk₂ := hspent₂.kernel
  have hk₃ : m₄.room .kernel + bitmapPgCnt = m₂.room .kernel := hspent₃.kernel
  have hk₄ : m₅.room .kernel + 1 = m₄.room .kernel := hspent₄.kernel
  change _ ≤ m₅.room .kernel at hkernel
  dsimp only at hk₂
  refine ⟨hproc, ?_, ?_, ⟨i₁, hspent₁.scan, i₂, ?_, i₃, ?_, i₄, ?_, trivial⟩, by omega, ?_⟩
  · rw [← hseed.name h.bitmap]
    exact h.name
  · obtain ⟨j, -, hj, -⟩ := bitmapScan_one h.pid
    rw [hseed.buf.only.pidBitmap, hseed.pcb.only.pidBitmap] at hj
    exact ⟨j, hj⟩
  · rw [← hspent₁.heap]
    exact hspent₂.scan
  · rw [← hspent₁.heap, ← hspent₂.heap]
    exact hspent₃.scan
  · rw [← hspent₁.heap, ← hspent₂.heap]
    exact hspent₃.heap ▸ hspent₄.scan
  · calc _ ≤ m₅.room .user := huser
      _ = m₄.room .user := hspent₄.user
      _ = m₂.room .user := hspent₃.user
      _ = m₁.room .user := hspent₂.user
      _ = s.machine.room .user := hspent₁.user

/-- Where all that a fork needs is there, it returns a child. -/
theorem ForkReady.sysFork (hs : Sound s G) (h : ForkReady s.machine) :
    ∃ p m', Memory.sysFork s.machine = .ok (some p, m') := by
  obtain ⟨i₁, hscan₁, i₂, hscan₂, i₃, hscan₃, i₄, hscan₄, -⟩ := h.heap
  have hkernel := h.kernel
  have huser := h.user
  obtain ⟨n, m₁, L₁, hget₁, hf₁, hspent₁⟩ :=
    hs.getKernelPages_of_room (by norm_num) hscan₁ (by omega)
  rw [← hspent₁.heap] at hscan₂ hscan₃ hscan₄
  have hk₁ := hspent₁.kernel
  obtain ⟨b, m₂, L₂, hget₂, hf₂, hspent₂⟩ :=
    hf₁.sound.getKernelPages_of_room (by norm_num) hscan₂ (by dsimp only; omega)
  rw [← hspent₂.heap] at hscan₃ hscan₄
  have hk₂ : m₂.room .kernel + 1 = m₁.room .kernel := hspent₂.kernel
  obtain ⟨i, hpid, -⟩ := bitmapScan_one_of_free h.pid
  rw [← hf₁.only.pidBitmap, ← hf₂.only.pidBitmap] at hpid
  obtain ⟨n', b', L₁', L₂', hn, hb, hseed⟩ := hs.seeded hget₁ hget₂ i
  obtain rfl : n = n' := by omega
  obtain rfl : b = b' := by omega
  obtain ⟨nb, m₄, L₄, hget₄, hf₄, hspent₄⟩ := hseed.sound.getKernelPages_of_room
    (by rw [bitmapPgCnt_eq]; norm_num) hscan₃ (by change _ ≤ m₂.room .kernel; omega)
  have hk₄ : m₄.room .kernel + bitmapPgCnt = m₂.room .kernel := hspent₄.kernel
  have hname : (m₄.tasks (n * 4096)).name.length < 11 := by
    rw [hseed.name hget₄]
    exact h.name
  obtain ⟨G₁, nb', hnb, hp, -⟩ := hseed.prepared hs hget₄
  obtain rfl : nb = nb' := by omega
  obtain ⟨nd, d, m₅, L₅, hget₅, hd, hspent₅⟩ := hp.sound.createPageDir_of_room
    (by change bitmapScan m₄.heap 1 = _; exact hspent₄.heap ▸ hscan₄)
    (by change 1 ≤ m₄.room .kernel; omega)
  have hk₅ : m₅.room .kernel + 1 = m₄.room .kernel := hspent₅.kernel
  obtain ⟨f, hf⟩ := hp.spare.owned
  have hu : m₅.room .user = s.machine.room .user := hspent₅.user.trans
    (hspent₄.user.trans (hspent₂.user.trans hspent₁.user))
  obtain ⟨m₆, hbody⟩ := (hp.ready hs h.process hd hf).runs_iff.mpr
    ⟨by change _ ≤ m₅.room .user; rwa [hu], by change _ ≤ m₅.room .kernel; omega⟩
  obtain ⟨m', G', d', hfree, -⟩ := hp.finish hs h.process hget₅ hbody
  have hproc : (m₁.tasks s.machine.running).pgdir ≠ none := by
    rw [hf₁.only.tasks]
    exact h.process
  have hsteps : ForkSteps s.machine (n * 4096) m' (b * 4096) i (nb * 4096) (nd * 4096) m₁ m₂ m₄ m₅
      m₆ := ⟨hget₁, hproc, hget₂, hpid, hget₄, hname, hget₅, hbody, hfree⟩
  exact ⟨_, _, hsteps.sysFork⟩

end Forks

end X86System.Memory
