import X86System.AddressSpaces
import X86System.PageMapping

/-!
# Making and dropping page directories

A new directory copies the kernel half from the directory in use and points its last
entry to itself, so it shows the kernel heap as every other directory does. When a
process ends its user half is given back first and its directory afterwards.
-/
namespace X86System.Memory
open Exec Paging

section Layouts

variable {ram ram' : Ram} {G : Layout} {pools : PoolFlags → Pool} {L : Ledger Owner ℕ} {d : ℕ}

/-- The layout with one more address space. -/
def Layout.addDir (G : Layout) (d : ℕ) : Layout :=
  { G with dirs := insert d G.dirs, spaces := insert d G.spaces }

/-- The layout after the user half of `d` was given back. -/
def Layout.closeSpace (G : Layout) (d : ℕ) : Layout := { G with spaces := G.spaces \ {d} }

/-- The layout without the directory `d`. -/
def Layout.dropDir (G : Layout) (d : ℕ) : Layout := { G with dirs := G.dirs \ {d} }

/-- A frame that is made a directory: an empty user half, the shared kernel half, itself. -/
theorem Encoded.addDir (h : Encoded ram G) (hm : Marked pools G.ledger) {n : ℕ}
    (hn : G.owns (.kernel n) = some d) (hd : d ∉ G.dirs)
    (hother : ∀ g, g ≠ d → ram' g = ram g) (huser : ∀ e < 768, ram' d e = 0)
    (hkernel : ∀ e, 768 ≤ e → e < 1023 → ram' d e = entry (kernelTable e))
    (hself : ram' d 1023 = entry d) : Encoded ram' (G.addDir d) := by
  have hge := hm.kernel_ge hn
  have hnd (d' : ℕ) (hd' : d' ∈ G.dirs) : ram' d' = ram d' := by
    apply hother
    rintro rfl
    exact hd hd'
  have hkt (e : ℕ) (he : 768 ≤ e) (he' : e < 1023) : ram' (kernelTable e) = ram (kernelTable e) := by
    have := kernelTable_bounds he he'
    exact hother _ (by omega)
  have htab (d' e t : ℕ) (ht : G.owns (.table d' e) = some t) : ram' t = ram t := by
    apply hother
    rintro rfl
    cases G.ledger.inj ht hn
  have hspace : d ∉ G.spaces := fun hs => hd (h.spaces_subset hs)
  have htnone (e : ℕ) : G.owns (.table d e) = none := by
    cases ht : G.owns (.table d e) with
    | none => rfl
    | some t => exact absurd (h.tableEntry d e t ht).1 hspace
  exact {
    kernelDir_mem := .inr h.kernelDir_mem
    kernelDir_notMem := by
      rintro (heq | hmem)
      · rw [← heq] at hge
        unfold kernelDir at hge
        omega
      · exact h.kernelDir_notMem hmem
    spaces_subset := Set.insert_subset_insert h.spaces_subset
    dirOwned := by
      rintro d' (rfl | hd')
      · exact .inr ⟨n, hn⟩
      · exact h.dirOwned d' hd'
    kernelHalf := by
      rintro d' (rfl | hd') e h1 h2
      · exact hkernel e h1 h2
      · rw [hnd d' hd', h.kernelHalf d' hd' e h1 h2]
    selfMapped := by
      rintro d' (rfl | hd')
      · exact hself
      · rw [SelfMapped, hnd d' hd', h.selfMapped d' hd']
    kernelLow := by rw [hnd _ h.kernelDir_mem, h.kernelLow]
    kernelBare := fun e h1 h2 => by
      rw [hnd _ h.kernelDir_mem]
      exact h.kernelBare e h1 h2
    lowMapped := fun i hi => by rw [hkt 768 (by norm_num) (by norm_num), h.lowMapped i hi]
    kernelPage := fun n' f hn' => by
      obtain ⟨hp, he⟩ := h.kernelPage n' f hn'
      exact ⟨hp, by rw [hkt _ hp.index.1 hp.index.2, he]⟩
    tableEntry := fun d' e t ht => by
      obtain ⟨hd', he, hr⟩ := h.tableEntry d' e t ht
      exact ⟨.inr hd', he, by rw [hnd d' (h.spaces_subset hd'), hr]⟩
    noTable := by
      rintro d' (rfl | hd') e he hnone
      · rw [huser e he]
        exact not_present_zero
      · rw [hnd d' (h.spaces_subset hd')]
        exact h.noTable d' hd' e he hnone
    userPage := fun d' n' f hn' => by
      obtain ⟨t, ht, hr⟩ := h.userPage d' n' f hn'
      exact ⟨t, ht, by rw [htab _ _ t ht, hr]⟩
    noUserPage := fun d' n' t ht hn' => by
      rw [htab _ _ t ht]
      exact h.noUserPage d' n' t ht hn'
    vacant := fun n' hp hn' => by
      rw [hkt _ hp.index.1 hp.index.2]
      exact h.vacant n' hp hn' }

/-- The user half of `d` owns nothing any more. -/
theorem Encoded.closeSpace (h : Encoded ram G)
    (htable : ∀ e, L.owns (.table d e) = none) (huser : ∀ n, L.owns (.user d n) = none)
    (hkernel : ∀ n, L.owns (.kernel n) = G.owns (.kernel n))
    (htables : ∀ d' e, d' ≠ d → L.owns (.table d' e) = G.owns (.table d' e))
    (husers : ∀ d' n, d' ≠ d → L.owns (.user d' n) = G.owns (.user d' n)) :
    Encoded ram ((G.closeSpace d).withLedger L) := by
  have hne {o : Option ℕ} {f : ℕ} (ho : o = none) (hs : o = some f) : False := by
    rw [ho] at hs
    cases hs
  exact {
    kernelDir_mem := h.kernelDir_mem
    kernelDir_notMem := fun hmem => h.kernelDir_notMem hmem.1
    spaces_subset := fun _ hmem => h.spaces_subset hmem.1
    dirOwned := fun d' hd' => by
      simp only [withLedger_owns, hkernel]
      exact h.dirOwned d' hd'
    kernelHalf := h.kernelHalf
    selfMapped := h.selfMapped
    kernelLow := h.kernelLow
    kernelBare := h.kernelBare
    lowMapped := h.lowMapped
    kernelPage := fun n f hn => by
      rw [withLedger_owns, hkernel] at hn
      exact h.kernelPage n f hn
    tableEntry := fun d' e t ht => by
      rw [withLedger_owns] at ht
      by_cases hd : d' = d
      · subst hd
        exact (hne (htable e) ht).elim
      · rw [htables d' e hd] at ht
        obtain ⟨hs, he, hr⟩ := h.tableEntry d' e t ht
        exact ⟨⟨hs, hd⟩, he, hr⟩
    noTable := fun d' hd' e he hn => by
      rw [withLedger_owns, htables d' e hd'.2] at hn
      exact h.noTable d' hd'.1 e he hn
    userPage := fun d' n f hn => by
      rw [withLedger_owns] at hn
      by_cases hd : d' = d
      · subst hd
        exact (hne (huser n) hn).elim
      · rw [husers d' n hd] at hn
        obtain ⟨t, ht, hr⟩ := h.userPage d' n f hn
        exact ⟨t, by rw [withLedger_owns, htables d' _ hd, ht], hr⟩
    noUserPage := fun d' n t ht hn => by
      rw [withLedger_owns] at ht hn
      by_cases hd : d' = d
      · subst hd
        exact (hne (htable _) ht).elim
      · rw [htables d' _ hd] at ht
        rw [husers d' n hd] at hn
        exact h.noUserPage d' n t ht hn
    vacant := fun n hp hn => by
      rw [withLedger_owns, hkernel] at hn
      exact h.vacant n hp hn }

/-- A directory without user half is forgotten. -/
theorem Encoded.dropDir (h : Encoded ram G) (hd : d ∉ G.spaces) (hne : d ≠ kernelDir) :
    Encoded ram (G.dropDir d) := by
  have hmem (d' : ℕ) (hd' : d' ∈ (G.dropDir d).dirs) : d' ∈ G.dirs := hd'.1
  exact {
    kernelDir_mem := ⟨h.kernelDir_mem, hne.symm⟩
    kernelDir_notMem := h.kernelDir_notMem
    spaces_subset := fun d' hd' => ⟨h.spaces_subset hd', fun heq => hd (heq ▸ hd')⟩
    dirOwned := fun d' hd' => h.dirOwned d' (hmem d' hd')
    kernelHalf := fun d' hd' => h.kernelHalf d' (hmem d' hd')
    selfMapped := fun d' hd' => h.selfMapped d' (hmem d' hd')
    kernelLow := h.kernelLow
    kernelBare := h.kernelBare
    lowMapped := h.lowMapped
    kernelPage := h.kernelPage
    tableEntry := h.tableEntry
    noTable := h.noTable
    userPage := h.userPage
    noUserPage := h.noUserPage
    vacant := h.vacant }

end Layouts

section Words

variable {m m' : Machine} {G : Layout} {pf : PoolFlags} {n f cnt : ℕ}

/-- The words of a mapped page. -/
theorem Coherent.walk_page (h : Coherent m G) (hcr3 : m.cr3 ∈ G.dirs)
    (ho : G.owns (Owner.ofPage pf m.cr3 n) = some f) {j : ℕ} (hj : j < 1024) :
    walk m.ram m.cr3 (n * 4096 + j * 4) = some (f, j) := by
  obtain ⟨hn, hp, hr⟩ := h.pte hcr3 ho
  have hd : dirIndex (n * 4096 + j * 4) = n / 1024 := by
    unfold dirIndex
    omega
  have ht : tableIndex (n * 4096 + j * 4) = n % 1024 := by
    unfold tableIndex
    omega
  have hw : wordIndex (n * 4096 + j * 4) = j := by
    unfold wordIndex
    omega
  rw [walk_of_present (by rwa [hd]) (by rw [hd, ht, hr]; exact present_entry f), hd, ht, hr,
    frame_entry, hw]

theorem Coherent.walk_page_start (h : Coherent m G) (hcr3 : m.cr3 ∈ G.dirs)
    (ho : G.owns (Owner.ofPage pf m.cr3 n) = some f) :
    walk m.ram m.cr3 (n * 4096) = some (f, 0) := by
  have hwalk := h.walk_page hcr3 ho (j := 0) (by norm_num)
  rwa [Nat.zero_mul, Nat.add_zero] at hwalk

/-- Words of frames that hold no entries may be written. -/
theorem Coherent.setRam (h : Coherent m G) {ram : Ram}
    (heq : ∀ g, Structural G g → ∀ i, ram g i = m.ram g i) : Coherent (m.setRam ram) G :=
  ⟨h.marked, h.encoded.congr heq⟩

/-- A page of the heap that is no directory holds no entries. -/
theorem Coherent.not_structural (h : Coherent m G) {o : Owner} (ho : G.owns o = some f)
    (hdir : f ∉ G.dirs) (htable : ∀ d e, o ≠ .table d e) : ¬ Structural G f := by
  apply Memory.not_structural (h.marked.kernel_ge ho) hdir
  intro d e ht
  exact htable d e (G.ledger.inj ho ht)

/-- `memset` of a run of heap pages that hold no directories. -/
theorem Coherent.clearPages (h : Coherent m G) (hcr3 : m.cr3 ∈ G.dirs)
    (hrun : ∀ i < cnt, ∃ f, G.owns (.kernel (n + i)) = some f ∧ f ∉ G.dirs) :
    ∃ ram, m.clearPages (n * 4096) cnt = .ok (m.setRam ram) ∧
      (∀ g, (∀ i < cnt, G.owns (.kernel (n + i)) ≠ some g) → ram g = m.ram g) ∧
      ∀ i < cnt, ∀ f, G.owns (.kernel (n + i)) = some f → ∀ j, ram f j = 0 := by
  induction cnt generalizing n m with
  | zero => exact ⟨m.ram, rfl, fun _ _ => rfl, fun i hi => by omega⟩
  | succ cnt ih =>
    obtain ⟨f, hf, hdir⟩ := hrun 0 (by omega)
    rw [Nat.add_zero] at hf
    have hstruct := h.not_structural hf hdir (by simp)
    have hwalk := @Coherent.walk_page_start m G .kernel n f h hcr3 hf
    have h1 : Coherent (m.setRam (wipe m.ram f)) G := by
      apply h.setRam
      intro g hg i
      apply wipe_of_ne
      rintro rfl
      exact hstruct hg
    have hindex (i : ℕ) : n + 1 + i = n + (i + 1) := by omega
    obtain ⟨ram, hclear, hkept, hzero⟩ := ih h1 hcr3 (n := n + 1) (by
      intro i hi
      rw [hindex]
      exact hrun (i + 1) (by omega))
    have hnext : n * 4096 + pgSize = (n + 1) * 4096 := by
      unfold pgSize
      omega
    refine ⟨ram, ?_, ?_, ?_⟩
    · rw [Machine.clearPages, hwalk]
      dsimp only
      rw [hnext]
      exact hclear
    · intro g hg
      rw [hkept g (fun i hi => by rw [hindex]; exact hg (i + 1) (by omega)), setRam_ram]
      funext j
      apply wipe_of_ne
      rintro rfl
      exact hg 0 (by omega) hf
    · intro i hi g hg j
      cases i with
      | zero =>
        obtain rfl : f = g := by simpa [hf] using hg
        rw [hkept f]
        · exact wipe_self ..
        · intro i hi heq
          rw [hindex] at heq
          have := G.ledger.inj heq hf
          simp at this
      | succ i => exact hzero i (by omega) g (by rw [hindex]; exact hg) j

/-- `memcpy` of words that stay mapped while one frame is written. -/
theorem memcpy_eq {dst src fd fs a b : ℕ} (hne : fs ≠ fd)
    (hdst : ∀ ram, (∀ g, g ≠ fd → ram g = m.ram g) →
      ∀ j < cnt, walk ram m.cr3 (dst + j * 4) = some (fd, a + j))
    (hsrc : ∀ ram, (∀ g, g ≠ fd → ram g = m.ram g) →
      ∀ j < cnt, walk ram m.cr3 (src + j * 4) = some (fs, b + j)) :
    m.memcpy dst src cnt = .ok (m.setRam fun g j =>
      if g = fd ∧ a ≤ j ∧ j < a + cnt then m.ram fs (b + (j - a)) else m.ram g j) := by
  induction cnt generalizing m dst src a b with
  | zero =>
    rw [Machine.memcpy, Except.ok.injEq]
    have hram : (fun g j => if g = fd ∧ a ≤ j ∧ j < a + 0 then m.ram fs (b + (j - a))
        else m.ram g j) = m.ram := by
      funext g j
      rw [if_neg (by omega)]
    rw [hram]
    rfl
  | succ cnt ih =>
    have h1 := hsrc m.ram (fun _ _ => rfl) 0 (by omega)
    have h2 := hdst m.ram (fun _ _ => rfl) 0 (by omega)
    simp only [Nat.zero_mul, Nat.add_zero] at h1 h2
    have hoff (g : ℕ) (hg : g ≠ fd) : poke m.ram fd a (m.ram fs b) g = m.ram g := by
      funext j
      exact poke_of_frame_ne hg j
    have hrest := @ih (m.setRam (poke m.ram fd a (m.ram fs b))) (dst + 4) (src + 4) (a + 1) (b + 1)
      (by
        intro ram hram j hj
        have := hdst ram (fun g hg => (hram g hg).trans (hoff g hg)) (j + 1) (by omega)
        rw [show dst + 4 + j * 4 = dst + (j + 1) * 4 by omega,
          show a + 1 + j = a + (j + 1) by omega]
        exact this)
      (by
        intro ram hram j hj
        have := hsrc ram (fun g hg => (hram g hg).trans (hoff g hg)) (j + 1) (by omega)
        rw [show src + 4 + j * 4 = src + (j + 1) * 4 by omega,
          show b + 1 + j = b + (j + 1) by omega]
        exact this)
    rw [Machine.memcpy, Machine.load, h1]
    dsimp only
    rw [ok_bind, Machine.store, h2]
    dsimp only
    rw [ok_bind]
    refine hrest.trans ?_
    rw [setRam_setRam]
    congr 2
    funext g j
    simp only [setRam_ram]
    by_cases hg : g = fd
    · subst hg
      by_cases hj : j = a
      · subst hj
        rw [if_neg (by omega), poke_self, if_pos (by omega), Nat.sub_self, Nat.add_zero]
      · rw [poke_of_word_ne hj]
        by_cases hin : a + 1 ≤ j ∧ j < a + 1 + cnt
        · rw [if_pos ⟨rfl, hin⟩, if_pos (by omega), poke_of_frame_ne hne,
            show b + 1 + (j - (a + 1)) = b + (j - a) by omega]
        · rw [if_neg (by omega), if_neg (by omega)]
    · rw [if_neg (by simp [hg]), if_neg (by simp [hg]), poke_of_frame_ne hg]

end Words

end X86System.Memory
