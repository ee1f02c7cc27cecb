import X86System.HeapRuns

/-!
# Sizes that stop `sys_malloc`

The size is compared with the bytes of the pool, and `malloc_page` asserts a bound of its own on
the pages; where frames run out it does not return NULL either. So a size can end the kernel, and
the state before the call decides whether it does.
-/
namespace X86System.Memory
open Exec NodeWords Paging

/-- `sys_malloc` returns NULL or a block of `size` bytes, and the lock is as it was. -/
def MallocSafe (img : KernelImage) (t : HeapState) (size : ℕ) : Prop :=
  ∃ r y, sysMalloc img t.alloc size = .ok (r, y) ∧
    y.holderRepeatNr = t.alloc.holderRepeatNr ∧
    ∀ e, r = some e → ∃ C, HeapSafe (img.descs t.alloc.machine) y.machine (⟨e, size⟩ :: t.live) C

section Sizes

variable {s : State} {m₀ : Machine} {img : KernelImage} {t : HeapState}

/-- `sys_malloc` is safe exactly where the pages that it asks for are served. -/
theorem malloc_safe_iff (hs : memoryCalls.Reachable s) (hctx : HeapContext s m₀)
    (hrun : (heapCalls img m₀).Reachable t) (size : ℕ) :
    MallocSafe img t size ↔ (0 < size →
      size < (t.alloc.machine.pools t.alloc.machine.poolFlags).poolSize →
        ∀ n, Demand t.alloc.machine (img.descs t.alloc.machine) size n →
          Served t.alloc.machine t.alloc.machine.poolFlags n) := by
  obtain ⟨G₀, hg, h⟩ := heapCalls_inv hs hctx hrun
  have hthread := HeapInv.thread h
  rw [hthread.poolFlags, hthread.descs]
  rw [← HeapInv.sysMalloc_returns_iff hg h size]
  unfold MallocSafe
  rw [hthread.descs]
  constructor
  · rintro ⟨r, y, hmal, -⟩
    exact ⟨_, hmal⟩
  · rintro ⟨⟨r, y⟩, hmal⟩
    refine ⟨r, y, hmal, ?_⟩
    obtain ⟨e, m, hrun', hhand⟩ | hrun' | ⟨-, err, -, -, hrun'⟩ := HeapInv.sysMalloc hg h size
    · cases hrun'.symm.trans hmal
      refine ⟨rfl, ?_⟩
      rintro e ⟨⟩
      obtain ⟨G, all, C, mem, hshow, huse⟩ := hhand.inv
      exact ⟨C, hshow.safe hg huse⟩
    · cases hrun'.symm.trans hmal
      exact ⟨rfl, by simp⟩
    · cases hrun'.symm.trans hmal

/-- After power on 16 bytes can be asked for. -/
theorem malloc_safe_iff_boot : ∃ m, blockDescInit boot4M.machine bootImage.kBlockDescs = .ok m ∧
    MallocSafe bootImage ⟨⟨m, fun _ => 0⟩, [], []⟩ 16 := by
  obtain ⟨m, hinit, hstart, hserved, -⟩ := boot4M_start
  refine ⟨m, hinit, (malloc_safe_iff boot4M_reachable .own hstart 16).mpr fun _ _ n hd => ?_⟩
  obtain ⟨ram, rfl⟩ := blockDescInitLoop_setRam hinit
  cases hd with
  | large hlarge => omega
  | small => exact hserved

/-- The machine with 64 MB after power on. -/
def boot64M : State :=
  ⟨memPoolInit (setupPage fun _ _ => 0) (fun _ => 0) 0x4000000, {mainThread}, ∅⟩

theorem boot64M_reachable : memoryCalls.Reachable boot64M :=
  ⟨boot64M, [], ⟨_, _, _, fun _ _ _ _ => rfl, rfl⟩, .nil⟩

/-- With 64 MB a size of 3840 pages with its header is smaller than the pool of the kernel, and
trips the assertion of `malloc_page`. -/
theorem malloc_size_stops : memoryCalls.Reachable boot64M ∧
    ∃ t, (heapCalls bootImage boot64M.machine).Reachable t ∧ ¬ MallocSafe bootImage t 0xeffff4 := by
  refine ⟨boot64M_reachable, ?_⟩
  have hs : Sound boot64M bootLayout := sound_boot fun _ _ _ _ => rfl
  obtain ⟨hg, hhold⟩ := hs.context .own bootImage
  obtain ⟨m, hinit, hinv⟩ := hg.start hhold
  have hstart : (heapCalls bootImage boot64M.machine).Reachable ⟨⟨m, fun _ => 0⟩, [], []⟩ :=
    ⟨_, [], ⟨m, fun _ => 0, hinit, rfl⟩, .nil⟩
  refine ⟨_, hstart, ?_⟩
  obtain ⟨ram, rfl⟩ := blockDescInitLoop_setRam hinit
  have hlt : 0xeffff4 < (boot64M.machine.pools .kernel).poolSize := by decide
  have hdemand : Demand (boot64M.machine.setRam ram) (bootImage.descs boot64M.machine) 0xeffff4 3840 :=
    .large (by norm_num)
  rintro ⟨r, y, hmal, -⟩
  have hserved := (HeapInv.sysMalloc_returns_iff hg hinv 0xeffff4).mp ⟨_, hmal⟩ (by norm_num) hlt _
    hdemand
  exact absurd hserved.1 (by norm_num)

end Sizes

end X86System.Memory
