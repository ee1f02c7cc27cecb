import X86System.MallocPages
import X86System.SpaceCalls

/-!
# What pages of the kernel heap cost

`get_kernel_pages` succeeds exactly where the scan of the kernel's bitmap finds a run
and the kernel pool has a frame for each page, and takes just these.
-/
namespace X86System.Memory
open Exec Paging

/-- The bitmap of the kernel heap. -/
def Machine.heap (m : Machine) : Bitmap := m.kernelVaddr.vaddrBitmap

/-- `cnt` pages of the kernel heap, from page `i` of the bitmap on, were taken. -/
structure Spent (m m' : Machine) (cnt i : ℕ) : Prop where
  scan : bitmapScan m.heap cnt = .ok (some i)
  heap : m'.heap = setBits m.heap i true cnt
  kernel : m'.room .kernel + cnt = m.room .kernel
  user : m'.room .user = m.room .user

section Heap

variable {s : State} {m m₁ m' : Machine} {G : Layout} {i n v cnt : ℕ}

/-- The pages of a run that the scan found can be mapped. -/
theorem Sound.wanted_heap (hs : Sound s G) (hscan : bitmapScan s.machine.heap cnt = .ok (some i))
    {j : ℕ} (hj : j < cnt) :
    Wanted G s.machine.cr3 .kernel ((s.machine.vaddrs .kernel).base + i + j) := by
  obtain ⟨hend, hclear⟩ := bitmapScan_run hscan
  exact @Addressed.wanted _ _ _ .kernel i cnt hs.addressed trivial (by simp) hclear hend (by simp) j hj

/-- `malloc_page` of kernel pages takes what the scan found. -/
theorem Sound.mallocPage_spent (hs : Sound s G)
    (hmal : Memory.mallocPage s.machine .kernel cnt = .ok (some v, m₁)) :
    ∃ i, Spent s.machine m₁ cnt i := by
  have hcnt : 0 < cnt ∧ cnt < 3840 := by
    unfold Memory.mallocPage at hmal
    exact (of_ensure_eq_ok hmal).1
  rw [@mallocPage_eq s.machine .kernel cnt hcnt hs.kernel.aligned] at hmal
  obtain ⟨r, hscan, hmal⟩ := of_bind_eq_ok hmal
  cases r with
  | none => cases (Prod.mk.inj (Except.ok.inj hmal)).1
  | some i =>
    obtain ⟨-, hmal⟩ := of_ensure_eq_ok hmal
    obtain ⟨⟨done, m₂⟩, hmap, hmal⟩ := of_bind_eq_ok hmal
    obtain ⟨-, rfl⟩ := Prod.mk.inj (Except.ok.inj hmal)
    have hwanted {j : ℕ} (hj : j < cnt) := hs.wanted_heap hscan hj
    have hc := @Addressed.setVaddrs_coherent _ _ _ .kernel hs.addressed
      (setBits s.machine.heap i true cnt)
    obtain ⟨hk, hu⟩ := mapPages_kernel_room hc hs.cr3_mem (hs.held _) (fun j hj => hwanted hj) hmap
    obtain ⟨-, -, -, hsame, -⟩ := mapPages_coherent hc hs.cr3_mem (hs.held _)
      (fun j hj => (hwanted hj).mappable) hmap
    rw [setVaddrs_room] at hk hu
    refine ⟨i, hscan, ?_, hk, hu⟩
    rw [Machine.heap, hsame.kernelVaddr]
    rfl

/-- `get_kernel_pages` takes what the scan found. -/
theorem Sound.getKernelPages_spent (hs : Sound s G)
    (h : Memory.getKernelPages s.machine cnt = .ok (some v, m')) :
    ∃ i, Spent s.machine m' cnt i := by
  have hrun := h
  unfold Memory.getKernelPages at hrun
  obtain ⟨⟨r, m₁⟩, hmal, hrest⟩ := of_bind_eq_ok hrun
  cases r with
  | none => cases (Prod.mk.inj (Except.ok.inj hrest)).1
  | some v' =>
    obtain ⟨n, L', ram, rfl, -, hget, -⟩ := hs.clearRun hmal
    obtain ⟨-, rfl⟩ := Prod.mk.inj (Except.ok.inj (h.symm.trans hget))
    obtain ⟨i, hscan, hheap, hk, hu⟩ := hs.mallocPage_spent hmal
    exact ⟨i, hscan, hheap, hk, hu⟩

/-- `get_kernel_pages` succeeds where there is a run and a frame for each of its pages. -/
theorem Sound.getKernelPages_of_room (hs : Sound s G) (hcnt : 0 < cnt ∧ cnt < 3840)
    (hscan : bitmapScan s.machine.heap cnt = .ok (some i)) (hroom : cnt ≤ s.machine.room .kernel) :
    ∃ n m' L', Memory.getKernelPages s.machine cnt = .ok (some (n * 4096), m') ∧
      Fresh s G m' L' n cnt ∧ Spent s.machine m' cnt i := by
  have hc := @Addressed.setVaddrs_coherent _ _ _ .kernel hs.addressed
    (setBits s.machine.heap i true cnt)
  obtain ⟨⟨done, m₁⟩, hmap⟩ := (mapPages_runs_iff hc hs.cr3_mem (hs.held _)
    (fun j hj => hs.wanted_heap hscan hj)).mpr ⟨hroom, by
      rw [setVaddrs_bare, hs.coherent.bare_kernel hs.cr3_mem fun j hj =>
        (hs.wanted_heap hscan hj).mappable]
      exact Nat.zero_le _⟩
  have hmal := @mallocPage_eq s.machine .kernel cnt hcnt hs.kernel.aligned
  change _ = bitmapScan s.machine.heap cnt >>= _ at hmal
  obtain rfl := mapPages_done hmap
  rw [hscan, ok_bind, Option.elim_some, ensure_of (by simp), ok_bind] at hmal
  change _ = mapPages .kernel cnt (((s.machine.vaddrs .kernel).base + i) * 4096)
    (s.machine.setVaddrs .kernel (setBits s.machine.heap i true cnt)) >>= _ at hmal
  rw [hmap] at hmal
  obtain ⟨n, L', ram, hn, -, hget, hf⟩ := hs.clearRun hmal
  obtain ⟨j, hspent⟩ := hs.getKernelPages_spent hget
  obtain rfl : i = j := by simpa [hscan] using hspent.scan
  exact ⟨n, _, L', by rw [hget, hn], hf, hspent⟩

/-- `create_page_dir` takes one page of the heap. -/
theorem Sound.createPageDir_spent (hs : Sound s G)
    (h : Memory.createPageDir s.machine = .ok (some v, m')) : ∃ i, Spent s.machine m' 1 i := by
  have hrun := h
  unfold Memory.createPageDir at hrun
  obtain ⟨⟨r, m₁⟩, hget, -⟩ := of_bind_eq_ok hrun
  obtain ⟨rfl, -⟩ | ⟨n, L', rfl, -, hf⟩ := hs.getKernelPages hget
  · exact absurd rfl (getKernelPages_ne_none hget)
  obtain ⟨d, ram, hok, -⟩ := hf.newDir hs hget
  obtain ⟨-, rfl⟩ := Prod.mk.inj (Except.ok.inj (h.symm.trans hok))
  obtain ⟨i, hscan, hheap, hk, hu⟩ := hs.getKernelPages_spent hget
  exact ⟨i, hscan, hheap, hk, hu⟩

theorem Sound.createPageDir_of_room (hs : Sound s G)
    (hscan : bitmapScan s.machine.heap 1 = .ok (some i)) (hroom : 1 ≤ s.machine.room .kernel) :
    ∃ n d m' L', Memory.createPageDir s.machine = .ok (some (n * 4096), m') ∧
      NewDir s G m' L' n d ∧ Spent s.machine m' 1 i := by
  obtain ⟨n, m₁, L', hget, hf, hspent⟩ := hs.getKernelPages_of_room (by norm_num) hscan hroom
  obtain ⟨d, ram, hok, hd⟩ := hf.newDir hs hget
  exact ⟨n, d, _, L', hok, hd, hspent.scan, hspent.heap, hspent.kernel, hspent.user⟩

end Heap

end X86System.Memory
