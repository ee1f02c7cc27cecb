import X86System.FirstProcess
import X86System.Translations

/-!
# The kernel half

The loader points every kernel entry of its directory to a table, so a page of the
kernel is mapped by writing in a table that all directories share. No entry of the
kernel half is ever written again, and every directory keeps the loader's.
-/
namespace X86System.Memory
open Exec Paging

/-- The frames of page directories: the kernel's, and those that processes are kept in. -/
def State.PageDir (s : State) (d : ℕ) : Prop :=
  d = kernelDir ∨ ∃ p ∈ s.threads, ∃ v, (s.machine.tasks p).pgdir = some v ∧
    walk s.machine.ram s.machine.cr3 v = some (d, 0)

/-- A directory with the kernel entries of the kernel's directory. -/
structure SharesKernelHalf (ram : Ram) (d : ℕ) : Prop where
  kernel : ∀ e, 768 ≤ e → e < 1023 → present (ram d e) ∧ ram d e = ram kernelDir e
  selfMapped : SelfMapped ram d
  visible : ∀ v, 0xc0000000 ≤ v → v < 0xffc00000 → walk ram d v = walk ram kernelDir v

/-- The kernel entries of a directory are as before. -/
def KeepsKernelHalf (ram ram' : Ram) (d : ℕ) : Prop :=
  ∀ e, 768 ≤ e → e < 1024 → ram' d e = ram d e

section Entries

variable {m m' : Machine} {ram : Ram} {G : Layout} {d v w cnt : ℕ}

theorem dirIndex_kernel (hv : 0xc0000000 ≤ v) (hv' : v < 0xffc00000) :
    768 ≤ dirIndex v ∧ dirIndex v < 1023 := by
  unfold dirIndex
  omega

/-- Every directory has the kernel half of the layout. -/
theorem Encoded.shares (h : Encoded ram G) (hd : d ∈ G.dirs) : SharesKernelHalf ram d where
  kernel := fun e he he' => by
    rw [h.kernelHalf d hd e he he', h.kernelHalf _ h.kernelDir_mem e he he']
    exact ⟨present_entry _, rfl⟩
  selfMapped := h.selfMapped d hd
  visible := fun v hv hv' => by
    obtain ⟨he, he'⟩ := dirIndex_kernel hv hv'
    unfold walk
    rw [h.kernelHalf d hd _ he he', h.kernelHalf _ h.kernelDir_mem _ he he']

/-- Of a directory that both layouts have, the kernel half is the same. -/
theorem Encoded.keeps {ram' : Ram} {G' : Layout} (h : Encoded ram G) (h' : Encoded ram' G')
    (hd : d ∈ G.dirs) (hd' : d ∈ G'.dirs) : KeepsKernelHalf ram ram' d := by
  intro e he he'
  by_cases hlast : e = 1023
  · rw [hlast, h.selfMapped d hd, h'.selfMapped d hd']
  · rw [h.kernelHalf d hd e he (by omega), h'.kernelHalf d hd' e he (by omega)]

/-- Below the window no entry of a directory points to a directory. -/
theorem Coherent.entry_notMem (h : Coherent m G) (hcr3 : m.cr3 ∈ G.dirs)
    (hspace : m.cr3 = kernelDir ∨ m.cr3 ∈ G.spaces) (hv : v < 0xffc00000)
    (hp : present (m.ram m.cr3 (dirIndex v))) : frame (m.ram m.cr3 (dirIndex v)) ∉ G.dirs := by
  have hidx : dirIndex v < 1023 := by
    unfold dirIndex
    omega
  have hkernel {e : ℕ} (he : 768 ≤ e) (he' : e < 1023) : kernelTable e ∉ G.dirs := fun hmem =>
    h.encoded.dir_ne_kernelTable h.marked hmem he he' rfl
  by_cases hhalf : 768 ≤ dirIndex v
  · rw [h.encoded.kernelHalf _ hcr3 _ hhalf hidx, frame_entry]
    exact hkernel hhalf hidx
  obtain hk | hs := hspace
  · by_cases hzero : dirIndex v = 0
    · rw [hk, hzero, h.encoded.kernelLow, frame_entry]
      exact hkernel le_rfl (by norm_num)
    · rw [hk] at hp
      exact absurd hp (h.encoded.kernelBare _ (by omega) (by omega))
  · cases ht : G.owns (.table m.cr3 (dirIndex v)) with
    | none => exact absurd hp (h.encoded.noTable _ hs _ (by omega) ht)
    | some t =>
      obtain ⟨-, -, hr⟩ := h.encoded.tableEntry _ _ _ ht
      rw [hr, frame_entry]
      exact h.encoded.table_notMem h.marked ht

/-- `page_table_add` writes in a table, or in an entry of the user half. -/
theorem Coherent.pageTableAdd_keeps (h : Coherent m G) (hcr3 : m.cr3 ∈ G.dirs)
    (hspace : m.cr3 = kernelDir ∨ m.cr3 ∈ G.spaces) (hd : d ∈ G.dirs) (hv : v < 0xffc00000)
    (hadd : pageTableAdd m v w = .ok m') : KeepsKernelHalf m.ram m'.ram d := by
  intro e he he'
  obtain ⟨hp, -, rfl⟩ | ⟨hp, i, hi, hclear, t, rfl, rfl⟩ := pageTableAdd_ok
    (h.encoded.selfMapped _ hcr3) hv (h.marked.aligned _)
    (fun i hi hclear => h.free_ne_dir hcr3 hi hclear) hadd
  · have hne : d ≠ frame (m.ram m.cr3 (dirIndex v)) := by
      rintro rfl
      exact h.entry_notMem hcr3 hspace hv hp hd
    rw [setRam_ram, poke_of_frame_ne hne]
  · have hne := (h.free_ne_dir hd hi hclear).symm
    have hlow : e ≠ dirIndex v := by
      rintro rfl
      have hidx : dirIndex v < 1023 := by
        unfold dirIndex
        omega
      rw [h.encoded.kernelHalf _ hcr3 _ he hidx] at hp
      exact hp (present_entry _)
    rw [setRam_ram, poke_of_frame_ne hne, wipe_of_ne hne, poke_of_word_ne hlow]

/-- Removing an entry writes in a table. -/
theorem Coherent.pageTablePteRemove_keeps (h : Coherent m G) {m₀ : Machine}
    (hram : ∀ d ∈ G.dirs, m₀.ram d = m.ram d) (hcr3 : m₀.cr3 = m.cr3) (hmem : m.cr3 ∈ G.dirs)
    (hspace : m.cr3 = kernelDir ∨ m.cr3 ∈ G.spaces) (hv : v < 0xffc00000)
    (hrem : pageTablePteRemove m₀ v = .ok m') :
    (∀ d ∈ G.dirs, m'.ram d = m.ram d) ∧ m'.cr3 = m.cr3 := by
  have hpde : m₀.ram m₀.cr3 = m.ram m.cr3 := by rw [hcr3, hram _ hmem]
  have hself : SelfMapped m₀.ram m₀.cr3 := by
    rw [SelfMapped, hpde, hcr3]
    exact h.encoded.selfMapped _ hmem
  have hv32 : v < 2 ^ 32 := by omega
  unfold pageTablePteRemove at hrem
  obtain ⟨pte, hload, hstore⟩ := of_bind_eq_ok hrem
  have hp : present (m₀.ram m₀.cr3 (dirIndex v)) := by
    by_contra hp
    rw [load_ptePtr_fault hself hv32 hp] at hload
    cases hload
  rw [store_ptePtr hself hv32 hp] at hstore
  obtain rfl := Except.ok.inj hstore
  refine ⟨fun d hd => ?_, hcr3⟩
  have hne : d ≠ frame (m₀.ram m₀.cr3 (dirIndex v)) := by
    rintro rfl
    rw [hpde] at hp hd
    exact h.entry_notMem hmem hspace hv hp hd
  rw [← hram d hd]
  ext i
  exact poke_of_frame_ne hne i

theorem pfree_ram (m : Machine) (a : ℕ) : (pfree m a).ram = m.ram := by
  unfold pfree
  split_ifs
  · rfl
  · rfl

theorem pfree_cr3 (m : Machine) (a : ℕ) : (pfree m a).cr3 = m.cr3 := by
  unfold pfree
  split_ifs
  · rfl
  · rfl

/-- The loop of `mfree_page` writes in no directory. -/
theorem Coherent.freePages_keeps (h : Coherent m G) {inPool : ℕ → Prop} [DecidablePred inPool]
    (hmem : m.cr3 ∈ G.dirs) (hspace : m.cr3 = kernelDir ∨ m.cr3 ∈ G.spaces) :
    ∀ {cnt v : ℕ} {m₀ : Machine}, (∀ d ∈ G.dirs, m₀.ram d = m.ram d) → m₀.cr3 = m.cr3 →
      v + cnt * pgSize ≤ 0xffc00000 → freePages inPool cnt v m₀ = .ok m' →
      ∀ d ∈ G.dirs, m'.ram d = m.ram d := by
  intro cnt
  induction cnt with
  | zero =>
    intro v m₀ hram _ _ hfree
    obtain rfl := Except.ok.inj hfree
    exact hram
  | succ cnt ih =>
    intro v m₀ hram hcr3 hv hfree
    unfold pgSize at hv
    rw [freePages] at hfree
    obtain ⟨a, -, hfree⟩ := of_bind_eq_ok hfree
    obtain ⟨-, hfree⟩ := of_ensure_eq_ok hfree
    obtain ⟨m₁, hrem, hfree⟩ := of_bind_eq_ok hfree
    obtain ⟨hram₁, hcr3₁⟩ := h.pageTablePteRemove_keeps (by rwa [pfree_ram])
      (by rwa [pfree_cr3]) hmem hspace (by omega) hrem
    exact ih hram₁ hcr3₁ (by unfold pgSize; omega) hfree

theorem vaddrRemove_ram (m : Machine) (pf : PoolFlags) (v cnt : ℕ) :
    (vaddrRemove m pf v cnt).ram = m.ram := by
  cases pf
  · rfl
  · rfl

/-- `mfree_page` writes in no directory, whatever it frees below the window. -/
theorem Coherent.mfreePage_keeps (h : Coherent m G) {pf : PoolFlags} (hmem : m.cr3 ∈ G.dirs)
    (hspace : m.cr3 = kernelDir ∨ m.cr3 ∈ G.spaces) (hd : d ∈ G.dirs)
    (hv : v + cnt * pgSize ≤ 0xffc00000) (hfree : mfreePage m pf v cnt = .ok m') :
    m'.ram d = m.ram d := by
  unfold mfreePage at hfree
  obtain ⟨-, hfree⟩ := of_ensure_eq_ok hfree
  obtain ⟨a, -, hfree⟩ := of_bind_eq_ok hfree
  obtain ⟨-, hfree⟩ := of_ensure_eq_ok hfree
  dsimp only at hfree
  split_ifs at hfree
  · obtain ⟨m₁, hloop, hfree⟩ := of_bind_eq_ok hfree
    obtain rfl := Except.ok.inj hfree
    rw [vaddrRemove_ram]
    exact h.freePages_keeps hmem hspace (fun _ _ => rfl) rfl hv hloop d hd
  · obtain ⟨m₁, hloop, hfree⟩ := of_bind_eq_ok hfree
    obtain rfl := Except.ok.inj hfree
    rw [vaddrRemove_ram]
    exact h.freePages_keeps hmem hspace (fun _ _ => rfl) rfl hv hloop d hd

end Entries

section Runs

variable {s : State} {G : Layout} {d : ℕ}

/-- The directories of processes are directories of the layout. -/
theorem Sound.pageDir_mem (hs : Sound s G) (hd : s.PageDir d) : d ∈ G.dirs := by
  obtain rfl | ⟨p, hp, v, hv, hwalk⟩ := hd
  · exact hs.coherent.encoded.kernelDir_mem
  · obtain ⟨d', hmem, hdir⟩ := hs.dir p hp
    rw [hs.walk_pgdir hv hdir] at hwalk
    obtain ⟨rfl, -⟩ := Prod.mk.inj (Option.some.inj hwalk)
    exact hmem

/-- Every process has a directory. -/
theorem Sound.exists_pageDir (hs : Sound s G) {p v : ℕ} (hp : p ∈ s.threads)
    (hv : (s.machine.tasks p).pgdir = some v) :
    ∃ d, walk s.machine.ram s.machine.cr3 v = some (d, 0) ∧ s.PageDir d := by
  obtain ⟨d, -, hdir⟩ := hs.dir p hp
  have hwalk := hs.walk_pgdir hv hdir
  exact ⟨d, hwalk, .inr ⟨p, hp, v, hv, hwalk⟩⟩

/-- In a reachable state every process has a directory, all directories share the kernel half, and
no calls to come, and neither `page_table_add` nor `mfree_page` below the window, change it. -/
theorem kernel_half_shared (h : memoryCalls.Reachable s) :
    (∀ p ∈ s.threads, ∀ v, (s.machine.tasks p).pgdir = some v →
      ∃ d, walk s.machine.ram s.machine.cr3 v = some (d, 0) ∧ s.PageDir d) ∧
    ∀ d, s.PageDir d → SharesKernelHalf s.machine.ram d ∧
      (∀ calls t, memoryCalls.Run s calls t → t.PageDir d →
        KeepsKernelHalf s.machine.ram t.machine.ram d) ∧
      (∀ v < 0xffc00000, ∀ w m', pageTableAdd s.machine v w = .ok m' →
        KeepsKernelHalf s.machine.ram m'.ram d) ∧
      ∀ pf v cnt m', v + cnt * pgSize ≤ 0xffc00000 → mfreePage s.machine pf v cnt = .ok m' →
        KeepsKernelHalf s.machine.ram m'.ram d := by
  obtain ⟨G, hs⟩ := memoryCalls_sound h
  have hc := hs.coherent
  have hspace : s.machine.cr3 = kernelDir ∨ s.machine.cr3 ∈ G.spaces :=
    hs.cr3_cases.imp (fun h => h.2) fun h => h.2
  refine ⟨fun p hp v hv => hs.exists_pageDir hp hv, fun d hd => ?_⟩
  have hmem := hs.pageDir_mem hd
  refine ⟨hc.encoded.shares hmem, fun calls t hrun ht => ?_, fun v hv w m' hadd => ?_,
    fun pf v cnt m' hv hfree => ?_⟩
  · obtain ⟨G', hs'⟩ : ∃ G, Sound t G := by
      apply hrun.keeps _ ⟨G, hs⟩
      intro s call t hsound hstep
      obtain ⟨G, hs⟩ := hsound
      exact hs.step hstep
    exact hc.encoded.keeps hs'.coherent.encoded hmem (hs'.pageDir_mem ht)
  · exact hc.pageTableAdd_keeps hs.cr3_mem hspace hmem hv hadd
  · intro e _ _
    rw [hc.mfreePage_keeps hs.cr3_mem hspace hmem hv hfree]

/-- The directory of the first process has the kernel half that the loader filled in. -/
theorem kernel_half_shared_init : ∃ s, Started [0x69, 0x6e, 0x69, 0x74] 256 s ∧
    ∃ d, s.machine.cr3 = d ∧ d ≠ kernelDir ∧ SharesKernelHalf s.machine.ram d := by
  obtain ⟨s, h⟩ := @exists_started 256 [0x69, 0x6e, 0x69, 0x74] 0x400000 rfl (by decide)
  obtain ⟨G, hs⟩ := memoryCalls_sound h.reachable
  obtain ⟨pid, v, bits, htask⟩ := h.task
  obtain ⟨hall, hshares⟩ := kernel_half_shared h.reachable
  obtain ⟨d, hwalk, hd⟩ := hall _ hs.running_mem v (by rw [htask])
  have hcr3 := hs.walk_pgdir (by rw [htask]) hs.cr3
  obtain ⟨rfl, -⟩ := Prod.mk.inj (Option.some.inj (hcr3.symm.trans hwalk))
  exact ⟨s, h, _, rfl, hs.ne_kernelDir hs.running_mem (by simp [htask]) hs.cr3, (hshares _ hd).1⟩

end Runs

end X86System.Memory
