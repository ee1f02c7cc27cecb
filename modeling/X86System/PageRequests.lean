import X86System.FirstProcess
import X86System.Library.Logged

/-!
# Pages at a given address

`get_a_page` marks the address in the bitmap of the running process, takes a frame and maps
it. What it does to the lock of the pool and to the bytes of the bitmap is logged, since it
may stop after it has done so.
-/
namespace X86System.Memory
open Exec Paging Logged

/-- What a request for a page does besides what it returns. -/
inductive PageEvent
  | acquire (pf : PoolFlags)
  | release (pf : PoolFlags)
  /-- `bitmap_set` writes this bit. -/
  | setBit (bitIdx : ℕ)
  deriving DecidableEq

namespace Locked

/-- `get_a_page` up to the frame: the bit of the address. -/
def markAddress (m : Machine) (pf : PoolFlags) (vaddr : ℕ) : Logged PageEvent Fault Machine :=
  let cur := m.tasks m.running
  match cur.pgdir, pf with
  | some _, .user => do
    let bitIdx := sub32 vaddr cur.userprocVaddr.vaddrStart / pgSize
    let btmp := bitmapSet cur.userprocVaddr.vaddrBitmap bitIdx true
    ensure Fault.assert (bitIdx > 0)
    event (.setBit bitIdx)
    return m.setTask m.running
      { cur with userprocVaddr := { cur.userprocVaddr with vaddrBitmap := btmp } }
  | none, .kernel => do
    let bitIdx := sub32 vaddr m.kernelVaddr.vaddrStart / pgSize
    let btmp := bitmapSet m.kernelVaddr.vaddrBitmap bitIdx true
    ensure Fault.assert (bitIdx > 0)
    event (.setBit bitIdx)
    return { m with kernelVaddr := { m.kernelVaddr with vaddrBitmap := btmp } }
  | _, _ => liftM (Except.error Fault.assert : Except Fault Machine)

/-- `get_a_page` from the frame on; where there is none it returns with the lock held. -/
def mapFrame (m : Machine) (pf : PoolFlags) (vaddr : ℕ) :
    Logged PageEvent Fault (Option ℕ × Machine) := do
  let (some pagePhyaddr, pool) ← pmalloc (m.pools pf) | return (none, m)
  let m ← pageTableAdd (m.setPool pf pool) vaddr pagePhyaddr
  event (.release pf)
  return (some vaddr, m)

/-- `get_a_page` with its log. -/
def getAPage (m : Machine) (pf : PoolFlags) (vaddr : ℕ) :
    Logged PageEvent Fault (Option ℕ × Machine) := do
  event (.acquire pf)
  mapFrame (← markAddress m pf vaddr) pf vaddr

end Locked

section Log

variable {m : Machine} {pf : PoolFlags} {vaddr : ℕ}

theorem mapFrame_result :
    (Locked.mapFrame m pf vaddr).result = getAPageWithoutOpvaddrbitmap m pf vaddr := by
  unfold Locked.mapFrame getAPageWithoutOpvaddrbitmap
  rw [result_bind, result_lift]
  cases pmalloc (m.pools pf) with
  | error e => rfl
  | ok r =>
    obtain ⟨a, pool⟩ := r
    cases a <;> rfl

/-- The log changes nothing. -/
theorem getAPage_result : (Locked.getAPage m pf vaddr).result = getAPage m pf vaddr := by
  unfold Locked.getAPage getAPage Locked.markAddress
  simp only [result_bind, result_event, ok_bind, mapFrame_result]
  cases hp : (m.tasks m.running).pgdir with
  | none =>
    cases pf with
    | kernel =>
      by_cases hidx : sub32 vaddr m.kernelVaddr.vaddrStart / pgSize > 0
      · simp only [result_bind, result_lift, ensure_of hidx]
        rfl
      · simp only [result_bind, result_lift, ensure_of_not hidx]
        rfl
    | user => rfl
  | some v =>
    cases pf with
    | kernel => rfl
    | user =>
      by_cases hidx : sub32 vaddr (m.tasks m.running).userprocVaddr.vaddrStart / pgSize > 0
      · simp only [result_bind, result_lift, ensure_of hidx]
        rfl
      · simp only [result_bind, result_lift, ensure_of_not hidx]
        rfl

/-- The bit of the address is written unless its index is zero. -/
theorem setBit_mem_log {v : ℕ} (hproc : (m.tasks m.running).pgdir = some v)
    (hidx : sub32 vaddr (m.tasks m.running).userprocVaddr.vaddrStart / pgSize > 0) :
    PageEvent.setBit (sub32 vaddr (m.tasks m.running).userprocVaddr.vaddrStart / pgSize) ∈
      (Locked.getAPage m .user vaddr).log := by
  have hmark : PageEvent.setBit (sub32 vaddr (m.tasks m.running).userprocVaddr.vaddrStart / pgSize) ∈
      (Locked.markAddress m .user vaddr).log := by
    unfold Locked.markAddress
    simp only [hproc]
    rw [log_bind (by rw [result_lift, ensure_of hidx]), log_bind (result_event _)]
    simp
  unfold Locked.getAPage
  rw [log_bind (result_event _)]
  exact List.mem_append_right _ (mem_log_bind hmark)

end Log

/-- A page that a process asks for is served: it is mapped while a frame is free, else NULL is
returned with nothing changed and the lock given back. A request for an address that no process
has writes no bit outside the bitmap. -/
def ServesPage (m : Machine) (vaddr : ℕ) : Prop :=
  (vaddr % 4096 = 0 → userVaddrStart ≤ vaddr → vaddr < 0xc0000000 →
    walk m.ram m.cr3 vaddr = none →
    (0 < m.room .user → ∃ m' f, getAPage m .user vaddr = .ok (some vaddr, m') ∧
      walk m'.ram m'.cr3 vaddr = some (f, 0) ∧ (m'.vaddrs .user).vaddrBitmap =
        bitmapSet (m.vaddrs .user).vaddrBitmap ((vaddr - userVaddrStart) / 4096) true) ∧
    (m.room .user = 0 → ∃ m', getAPage m .user vaddr = .ok (none, m') ∧
      (m'.vaddrs .user).vaddrBitmap = (m.vaddrs .user).vaddrBitmap ∧
      .release .user ∈ (Locked.getAPage m .user vaddr).log)) ∧
  (vaddr < userVaddrStart ∨ 0xc0000000 ≤ vaddr →
    ∀ i, .setBit i ∈ (Locked.getAPage m .user vaddr).log →
      i < 8 * (m.vaddrs .user).vaddrBitmap.btmpBytesLen)

/-- The address is one of a process, and if its page can be asked for then it is not the first
one, and there is a frame for it and, where the table is missing, one for the table. -/
def PageServable (m : Machine) (vaddr : ℕ) : Prop :=
  userVaddrStart ≤ vaddr ∧ vaddr < 0xc0000000 ∧
    (vaddr % 4096 = 0 → walk m.ram m.cr3 vaddr = none → vaddr ≠ userVaddrStart ∧
      0 < m.room .user ∧ (present (m.ram m.cr3 (dirIndex vaddr)) ∨ 0 < m.room .kernel))

section Requests

variable {s : State} {m' : Machine} {G : Layout} {vaddr n v : ℕ} {r : Option ℕ}

/-- The bitmap of a process starts at `USER_VADDR_START` and ends at the kernel half. -/
theorem Sound.running_space (hs : Sound s G)
    (hproc : (s.machine.tasks s.machine.running).pgdir ≠ none) : s.machine.cr3 ∈ G.spaces ∧
      (s.machine.vaddrs .user).vaddrStart = userVaddrStart ∧
      (s.machine.vaddrs .user).vaddrBitmap.btmpBytesLen = userBitmapLen := by
  obtain ⟨d, hd, -, hsize⟩ := hs.user _ hs.running_mem hs.running_notMem
  obtain rfl := hs.cr3.unique hd
  exact hsize hproc

/-- The index of a page of the user half. -/
theorem page_index (hlo : userVaddrStart ≤ n * 4096) (hhi : n * 4096 < 0xc0000000) :
    sub32 (n * 4096) userVaddrStart / pgSize = n - 0x8048 := by
  rw [sub32_eq hlo (by omega)]
  unfold userVaddrStart pgSize
  omega

/-- The bit of a page that a process has is set. -/
theorem Sound.bit_of_owned (hs : Sound s G)
    (hproc : (s.machine.tasks s.machine.running).pgdir ≠ none)
    (ho : G.owns (.user s.machine.cr3 n) ≠ none) :
    bitmapScanTest (s.machine.vaddrs .user).vaddrBitmap (n - 0x8048) = true := by
  obtain ⟨d, hd, htrack, hsize⟩ := hs.user _ hs.running_mem hs.running_notMem
  obtain rfl := hs.cr3.unique hd
  obtain ⟨-, hstart, -⟩ := hsize hproc
  have hmark := (htrack.marks n ho).2
  unfold VirtualAddr.base at hmark
  rw [hstart] at hmark
  exact hmark

/-- An unmapped page of the user half can be mapped. -/
theorem Sound.wanted_user (hs : Sound s G) (hspace : s.machine.cr3 ∈ G.spaces) (hn : n < 0xc0000)
    (hwalk : walk s.machine.ram s.machine.cr3 (n * 4096) = none) :
    Wanted G s.machine.cr3 .user n where
  mappable := ⟨hspace, hn.le⟩
  low := fun _ => hn
  free := by
    rw [hs.coherent.walk_user hspace hn] at hwalk
    exact Option.map_eq_none_iff.mp hwalk

/-- `get_a_page` returns for an unmapped page that is not the first one if there are frames. -/
theorem Sound.getAPage_runs_iff (hs : Sound s G)
    (hproc : (s.machine.tasks s.machine.running).pgdir = some v) (hlo : userVaddrStart ≤ n * 4096)
    (hhi : n * 4096 < 0xc0000000) (hwalk : walk s.machine.ram s.machine.cr3 (n * 4096) = none) :
    (∃ m', Memory.getAPage s.machine .user (n * 4096) = .ok (some (n * 4096), m')) ↔
      n * 4096 ≠ userVaddrStart ∧ 0 < s.machine.room .user ∧
        (present (s.machine.ram s.machine.cr3 (dirIndex (n * 4096))) ∨
          0 < s.machine.room .kernel) := by
  obtain ⟨hspace, hstart, -⟩ := hs.running_space (by simp [hproc])
  have hwanted := hs.wanted_user hspace (by omega) hwalk
  set btmp := setBits (s.machine.vaddrs .user).vaddrBitmap (n - 0x8048) true 1
  have hc : Coherent (s.machine.setVaddrs .user btmp) G := hs.addressed.setVaddrs_coherent btmp
  have hmap := @mapPage_runs_iff _ G .user n hc (by rw [setVaddrs_cr3]; exact hs.cr3_mem)
    (by rwa [setVaddrs_cr3])
  rw [setVaddrs_room, setVaddrs_room, setVaddrs_bare, bare_card] at hmap
  rw [getAPage_user hproc, hstart, page_index hlo hhi, dirIndex_page]
  have hfirst : n - 0x8048 > 0 ↔ n * 4096 ≠ userVaddrStart := by
    unfold userVaddrStart at hlo ⊢
    omega
  have htable : (if present (s.machine.ram s.machine.cr3 (n / 1024)) then 0 else 1) ≤
      s.machine.room .kernel ↔ present (s.machine.ram s.machine.cr3 (n / 1024)) ∨
        0 < s.machine.room .kernel := by
    by_cases hp : present (s.machine.ram s.machine.cr3 (n / 1024)) <;> simp [hp, Nat.pos_iff_ne_zero,
      Nat.one_le_iff_ne_zero]
  rw [← hfirst, ← htable, ← hmap]
  by_cases hpos : n - 0x8048 > 0
  · rw [ensure_of hpos, ok_bind]
    simp only [getAPageWithoutOpvaddrbitmap_ok_iff, true_and, hpos]
    constructor
    · rintro ⟨m', a, pool, hpm, hadd⟩
      exact ⟨a, pool, m', hpm, hadd⟩
    · rintro ⟨a, pool, m', hpm, hadd⟩
      exact ⟨m', a, pool, hpm, hadd⟩
  · rw [ensure_of_not hpos]
    simp [hpos]

theorem setBits_one (btmp : Bitmap) (i : ℕ) (value : Bool) :
    setBits btmp i value 1 = bitmapSet btmp i value := rfl

/-- `get_a_page` of a process sets the bit of the page, and then maps it. -/
theorem Sound.getAPage_step (hs : Sound s G)
    (hproc : (s.machine.tasks s.machine.running).pgdir = some v) (hlo : userVaddrStart ≤ n * 4096)
    (hhi : n * 4096 < 0xc0000000)
    (h : Memory.getAPage s.machine .user (n * 4096) = .ok (r, m')) :
    ∃ m₀, m₀ = s.machine.setVaddrs .user
        (bitmapSet (s.machine.vaddrs .user).vaddrBitmap (n - 0x8048) true) ∧ Coherent m₀ G ∧
      getAPageWithoutOpvaddrbitmap m₀ .user (n * 4096) = .ok (r, m') ∧
      ∃ L', Coherent m' (G.withLedger L') ∧ SameTasks m₀ m' ∧
        Grown s.machine.cr3 G.ledger L' (pages .user s.machine.cr3 n 1) := by
  obtain ⟨hspace, hstart, -⟩ := hs.running_space (by simp [hproc])
  rw [getAPage_user hproc, hstart, page_index hlo hhi, setBits_one] at h
  obtain ⟨-, h⟩ := of_ensure_eq_ok h
  set btmp := bitmapSet (s.machine.vaddrs .user).vaddrBitmap (n - 0x8048) true
  have hc : Coherent (s.machine.setVaddrs .user btmp) G := hs.addressed.setVaddrs_coherent btmp
  obtain ⟨L', hc', hsame, hg, -⟩ := getAPageWithoutOpvaddrbitmap_coherent hc
    (by rwa [setVaddrs_cr3]) (hs.held _) (by omega) h
  rw [setVaddrs_cr3] at hg
  exact ⟨_, rfl, hc, h, L', hc', hsame, hg⟩

/-- What `get_a_page` returns is the address, its page is mapped and its bit set. -/
theorem Sound.getAPage_maps (hs : Sound s G)
    (hproc : (s.machine.tasks s.machine.running).pgdir = some v) (hlo : userVaddrStart ≤ n * 4096)
    (hhi : n * 4096 < 0xc0000000)
    (h : Memory.getAPage s.machine .user (n * 4096) = .ok (r, m')) : r = some (n * 4096) ∧
      (∃ f, walk m'.ram m'.cr3 (n * 4096) = some (f, 0)) ∧ (m'.vaddrs .user).vaddrBitmap =
        bitmapSet (s.machine.vaddrs .user).vaddrBitmap (n - 0x8048) true := by
  obtain ⟨_, rfl, -, hmap, L', hc', hsame, hg⟩ := hs.getAPage_step hproc hlo hhi h
  refine ⟨(getAPageWithoutOpvaddrbitmap_ok_iff.mp hmap).1, ?_, ?_⟩
  · have hcr3 : m'.cr3 = s.machine.cr3 := hsame.cr3.trans (setVaddrs_cr3 ..)
    rw [pages_one] at hg
    obtain ⟨-, f, hf⟩ := hg.new (Owner.user s.machine.cr3 n) rfl
    refine ⟨f, @Coherent.walk_page_start m' (G.withLedger L') .user n f hc' ?_ ?_⟩
    · rw [hcr3]
      exact hs.cr3_mem
    · rwa [hcr3]
  · rw [hsame.vaddrs, setVaddrs_self]

/-- After `get_a_page` the process is the same one. -/
theorem Sound.getAPage_process (hs : Sound s G)
    (hproc : (s.machine.tasks s.machine.running).pgdir = some v) (hlo : userVaddrStart ≤ n * 4096)
    (hhi : n * 4096 < 0xc0000000) (h : Memory.getAPage s.machine .user (n * 4096) = .ok (r, m')) :
    (m'.tasks m'.running).pgdir = some v ∧ m'.cr3 = s.machine.cr3 := by
  obtain ⟨_, rfl, -, -, L', -, hsame, -⟩ := hs.getAPage_step hproc hlo hhi h
  rw [hsame.tasks, hsame.running, hsame.cr3]
  simpa [Machine.setVaddrs, Machine.setTask] using hproc

/-- What a page that `get_a_page` maps takes from the pools and does to the directory. -/
theorem Sound.getAPage_supplied (hs : Sound s G)
    (hproc : (s.machine.tasks s.machine.running).pgdir = some v) (hlo : userVaddrStart ≤ n * 4096)
    (hhi : n * 4096 < 0xc0000000) (hwalk : walk s.machine.ram s.machine.cr3 (n * 4096) = none)
    (h : Memory.getAPage s.machine .user (n * 4096) = .ok (r, m')) :
    Supplied s.machine m' .user n := by
  obtain ⟨hspace, -, -⟩ := hs.running_space (by simp [hproc])
  obtain ⟨_, rfl, hc, hmap, -⟩ := hs.getAPage_step hproc hlo hhi h
  obtain ⟨-, a, pool, hpm, hadd⟩ := getAPageWithoutOpvaddrbitmap_ok_iff.mp hmap
  have hsup := mapPage_supplied hc (by simpa using hs.cr3_mem)
    (by simpa using hs.wanted_user hspace (by omega) hwalk) hpm hadd
  exact {
    pde := by simpa using hsup.pde
    others := by simpa using hsup.others
    room := by simpa [setVaddrs_room] using hsup.room
    kernel := by simpa [setVaddrs_room, setVaddrs_bare] using hsup.kernel
    user := nofun }

/-- A process gets a page where it has none, and keeps its tables. -/
theorem exists_paged (h : memoryCalls.Reachable s)
    (hproc : (s.machine.tasks s.machine.running).pgdir ≠ none) (hlo : 0x8048 < n)
    (hhi : n < 0xc0000) (huser : 0 < s.machine.room .user) (hkernel : 0 < s.machine.room .kernel) :
    ∃ s', memoryCalls.Reachable s' ∧ (s'.machine.tasks s'.machine.running).pgdir ≠ none ∧
      walk s'.machine.ram s'.machine.cr3 (n * 4096) ≠ none ∧
      present (s'.machine.ram s'.machine.cr3 (n / 1024)) ∧
      (∀ e, present (s.machine.ram s.machine.cr3 e) → present (s'.machine.ram s'.machine.cr3 e)) ∧
      ∀ pf, s.machine.room pf ≤ s'.machine.room pf + 1 := by
  obtain ⟨v, hv⟩ := Option.ne_none_iff_exists'.mp hproc
  obtain ⟨G, hs⟩ := memoryCalls_sound h
  cases hwalk : walk s.machine.ram s.machine.cr3 (n * 4096) with
  | some p =>
    have hpde := (walk_eq_some hwalk).1
    rw [dirIndex_page] at hpde
    exact ⟨s, h, hproc, by simp [hwalk], hpde, fun e he => he, fun pf => Nat.le_succ _⟩
  | none =>
    have hlo' : userVaddrStart ≤ n * 4096 := by
      unfold userVaddrStart
      omega
    have hne : n * 4096 ≠ userVaddrStart := by
      unfold userVaddrStart
      omega
    obtain ⟨m', hget⟩ := (hs.getAPage_runs_iff hv hlo' (by omega) hwalk).mpr
      ⟨hne, huser, Or.inr hkernel⟩
    obtain ⟨-, ⟨f, hf⟩, -⟩ := hs.getAPage_maps hv hlo' (by omega) hget
    obtain ⟨hproc', hcr3⟩ := hs.getAPage_process hv hlo' (by omega) hget
    have hsup := hs.getAPage_supplied hv hlo' (by omega) hwalk hget
    have hstep : memoryCalls.step s (.getAPage (n * 4096)) { s with machine := m' } :=
      Step.getAPage (by omega) hlo' (by omega) hget
    refine ⟨_, h.step hstep, by simp [hproc'], by simp [hf], ?_, fun e he => ?_, fun pf => ?_⟩
    · rw [hcr3]
      exact hsup.pde
    · rw [hcr3]
      by_cases heq : e = n / 1024
      · rw [heq]
        exact hsup.pde
      · rwa [hsup.others e heq]
    · cases pf with
      | user => exact hsup.room.ge
      | kernel =>
        have hk := hsup.kernel rfl
        have hone : (s.machine.bare n 1).card ≤ 1 := by
          rw [bare_card]
          split_ifs <;> decide
        dsimp only
        omega

/-- For an address that no process has the bit lies behind the bitmap. -/
theorem Sound.setBit_outside (hs : Sound s G)
    (hproc : (s.machine.tasks s.machine.running).pgdir = some v) (hv : vaddr < 2 ^ 32)
    (hout : vaddr < userVaddrStart ∨ 0xc0000000 ≤ vaddr) :
    ∃ i, .setBit i ∈ (Locked.getAPage s.machine .user vaddr).log ∧
      8 * (s.machine.vaddrs .user).vaddrBitmap.btmpBytesLen ≤ i := by
  obtain ⟨-, hstart, hlen⟩ := hs.running_space (by simp [hproc])
  have hend : 8 * userBitmapLen = 0xb7fb8 := by decide
  have hidx : 0xb7fb8 ≤ sub32 vaddr userVaddrStart / pgSize := by
    unfold sub32 userVaddrStart pgSize at *
    omega
  rw [hlen, hend]
  change (s.machine.tasks s.machine.running).userprocVaddr.vaddrStart = _ at hstart
  refine ⟨_, setBit_mem_log hproc ?_, ?_⟩
  · rw [hstart]
    omega
  · rw [hstart]
    exact hidx

/-- A request is served exactly where it can be. -/
theorem Sound.servesPage_iff (hs : Sound s G)
    (hproc : (s.machine.tasks s.machine.running).pgdir = some v) (hv : vaddr < 2 ^ 32) :
    ServesPage s.machine vaddr ↔ PageServable s.machine vaddr := by
  by_cases hout : vaddr < userVaddrStart ∨ 0xc0000000 ≤ vaddr
  · -- the bit is written before anything can go wrong
    obtain ⟨i, hi, hlen⟩ := hs.setBit_outside hproc hv hout
    constructor
    · rintro ⟨-, hbits⟩
      exact absurd (hbits hout i hi) (by omega)
    · rintro ⟨hlo, hhi, -⟩
      omega
  obtain ⟨hlo, hhi⟩ : userVaddrStart ≤ vaddr ∧ vaddr < 0xc0000000 := by omega
  by_cases halign : vaddr % 4096 = 0
  swap
  · exact ⟨fun _ => ⟨hlo, hhi, fun h => absurd h halign⟩,
      fun _ => ⟨fun h => absurd h halign, fun h => absurd h hout⟩⟩
  obtain ⟨n, rfl⟩ : ∃ n, vaddr = n * 4096 := ⟨vaddr / 4096, by omega⟩
  have hbit : (n * 4096 - userVaddrStart) / 4096 = n - 0x8048 := by
    unfold userVaddrStart
    omega
  constructor
  · rintro ⟨hserve, -⟩
    refine ⟨hlo, hhi, fun _ hwalk => ?_⟩
    obtain ⟨hfree, hnone⟩ := hserve halign hlo hhi hwalk
    rw [← hs.getAPage_runs_iff hproc hlo hhi hwalk]
    obtain hzero | hpos := Nat.eq_zero_or_pos (s.machine.room .user)
    · -- the scan of a full pool stops the kernel
      obtain ⟨m', hget, -⟩ := hnone hzero
      cases (hs.getAPage_maps hproc hlo hhi hget).1
    · obtain ⟨m', f, hget, -⟩ := hfree hpos
      exact ⟨m', hget⟩
  · rintro ⟨-, -, hservable⟩
    refine ⟨fun _ _ _ hwalk => ⟨fun _ => ?_, fun hzero => ?_⟩, fun h => absurd h hout⟩
    · obtain ⟨m', hget⟩ := (hs.getAPage_runs_iff hproc hlo hhi hwalk).mpr (hservable halign hwalk)
      obtain ⟨-, ⟨f, hf⟩, hset⟩ := hs.getAPage_maps hproc hlo hhi hget
      rw [hbit]
      exact ⟨m', f, hget, hf, hset⟩
    · have := (hservable halign hwalk).2.1
      omega

/-- In a reachable state `get_a_page` serves a process exactly where it can. -/
theorem serves_page_iff (h : memoryCalls.Reachable s)
    (hproc : (s.machine.tasks s.machine.running).pgdir ≠ none) (hv : vaddr < 2 ^ 32) :
    ServesPage s.machine vaddr ↔ PageServable s.machine vaddr := by
  obtain ⟨G, hs⟩ := memoryCalls_sound h
  obtain ⟨v, hpgdir⟩ := Option.ne_none_iff_exists'.mp hproc
  exact hs.servesPage_iff hpgdir hv

/-- The first process asks for its second page. -/
theorem serves_page_init : ∃ s, Started [0x69, 0x6e, 0x69, 0x74] 256 s ∧
    (ServesPage s.machine 0x8049000 ↔ PageServable s.machine 0x8049000) := by
  obtain ⟨s, hs⟩ := @exists_started 256 [0x69, 0x6e, 0x69, 0x74] 0x400000 rfl (by decide)
  obtain ⟨pid, v, bits, htask⟩ := hs.task
  exact ⟨s, hs, serves_page_iff hs.reachable (by simp [htask]) (by norm_num)⟩

/-- A request for page 0 writes a bit behind the bitmap. -/
theorem not_serves_page :
    ¬ ∀ s vaddr, memoryCalls.Reachable s → (s.machine.tasks s.machine.running).pgdir ≠ none →
      vaddr < 2 ^ 32 → ServesPage s.machine vaddr := by
  intro hall
  obtain ⟨s, h⟩ := @exists_started 256 [0x69, 0x6e, 0x69, 0x74] 0x400000 rfl (by decide)
  obtain ⟨pid, v, bits, htask⟩ := h.task
  obtain ⟨G, hs⟩ := memoryCalls_sound h.reachable
  have hserves := hall s 0 h.reachable (by simp [htask]) (by norm_num)
  obtain ⟨hlo, -⟩ := (hs.servesPage_iff (v := v) (by simp [htask]) (by norm_num)).mp hserves
  exact absurd hlo (by decide)

end Requests

end X86System.Memory
