import X86System.FirstProcess

/-!
# Cached translations

The processor keeps translations that it has used. `mfree_page` clears the entries of the pages
and invalidates one cached translation for each of them; the operand of its `invlpg` is the local
variable that holds the address of the page, and not that address.
-/
namespace X86System.Memory
open Exec Paging

section Entries

variable {ram ram' : Ram} {dir n cnt k x : ℕ}

/-- The word that holds the entry of a page. -/
def entryWord (ram : Ram) (dir x : ℕ) : ℕ × ℕ := (frame (ram dir (x / 1024)), x % 1024)

/-- The entries of a run of pages were made not present, all other words are as before. -/
structure Cleared (ram ram' : Ram) (dir n cnt : ℕ) : Prop where
  hit : ∀ k < cnt, ∀ g i, entryWord ram dir (n + k) = (g, i) → ram' g i = ram g i &&& 0xfffffffe
  miss : ∀ g i, (∀ k < cnt, entryWord ram dir (n + k) ≠ (g, i)) → ram' g i = ram g i

/-- The tables of the run are not the directory. -/
def Apart (ram : Ram) (dir n cnt : ℕ) : Prop := ∀ k < cnt, frame (ram dir ((n + k) / 1024)) ≠ dir

/-- The directory is as before. -/
theorem Cleared.dir_eq (h : Cleared ram ram' dir n cnt) (ha : Apart ram dir n cnt) :
    ram' dir = ram dir := by
  funext e
  apply h.miss
  intro k hk heq
  exact ha k hk (Prod.mk.inj heq).1

/-- A page whose entry is one of the run is not translated any more. -/
theorem Cleared.walk_hit (h : Cleared ram ram' dir n cnt) (ha : Apart ram dir n cnt) (hk : k < cnt)
    (heq : entryWord ram dir (n + k) = entryWord ram dir x) : walk ram' dir (x * 4096) = none := by
  rw [walk_eq_none, h.dir_eq ha, dirIndex_page, tableIndex_page, h.hit k hk _ _ heq]
  exact fun hp => not_present_and _ hp.2

/-- Every other page is translated as before. -/
theorem Cleared.walk_miss (h : Cleared ram ram' dir n cnt) (ha : Apart ram dir n cnt)
    (hne : ∀ k < cnt, entryWord ram dir (n + k) ≠ entryWord ram dir x) :
    walk ram' dir (x * 4096) = walk ram dir (x * 4096) := by
  apply walk_isSome_congr
  · rw [h.dir_eq ha]
  · rw [dirIndex_page, tableIndex_page]
    exact h.miss _ _ hne

/-- One entry, then the rest of the run. -/
theorem Cleared.cons (ha : frame (ram dir (n / 1024)) ≠ dir)
    (hinj : ∀ k < cnt, entryWord ram dir (n + (k + 1)) ≠ entryWord ram dir n)
    (h : Cleared (poke ram (frame (ram dir (n / 1024))) (n % 1024)
      (ram (frame (ram dir (n / 1024))) (n % 1024) &&& 0xfffffffe)) ram' dir (n + 1) cnt) :
    Cleared ram ram' dir n (cnt + 1) := by
  set ram₁ := poke ram (frame (ram dir (n / 1024))) (n % 1024)
    (ram (frame (ram dir (n / 1024))) (n % 1024) &&& 0xfffffffe) with hram₁
  have hword (x : ℕ) : entryWord ram₁ dir x = entryWord ram dir x := by
    unfold entryWord
    rw [hram₁, poke_of_frame_ne ha.symm]
  have hnext (k : ℕ) : n + 1 + k = n + (k + 1) := by omega
  have hother (g i : ℕ) (hne : entryWord ram dir n ≠ (g, i)) : ram₁ g i = ram g i := by
    rw [hram₁]
    unfold poke
    rw [if_neg]
    rintro ⟨rfl, rfl⟩
    exact hne rfl
  constructor
  · intro k hk g i heq
    cases k with
    | zero =>
      have hself : ram₁ g i = ram g i &&& 0xfffffffe := by
        obtain ⟨rfl, rfl⟩ := Prod.mk.inj heq
        exact poke_self ..
      rw [h.miss g i, hself]
      intro j hj hj'
      rw [hword, hnext] at hj'
      exact hinj j hj (hj'.trans heq.symm)
    | succ k =>
      rw [h.hit k (by omega) g i (by rw [hword, hnext]; exact heq), hother]
      intro hn
      exact hinj k (by omega) (heq.trans hn.symm)
  · intro g i hne
    rw [h.miss g i, hother]
    · exact hne 0 (by omega)
    · intro k hk
      rw [hword, hnext]
      exact hne (k + 1) (by omega)

end Entries

section Loop

variable {m : Machine} {n cnt : ℕ}

/-- The loops of `mfree_page` clear the entries of pages that their pool has. -/
theorem freePages_cleared {inPool : ℕ → Prop} [DecidablePred inPool]
    (hself : SelfMapped m.ram m.cr3) (ha : Apart m.ram m.cr3 n cnt)
    (hinj : ∀ j < cnt, ∀ k < cnt, entryWord m.ram m.cr3 (n + j) = entryWord m.ram m.cr3 (n + k) →
      j = k)
    (hrun : ∀ k < cnt, n + k < 2 ^ 20 ∧ present (m.ram m.cr3 ((n + k) / 1024)) ∧
      ∃ f < 2 ^ 20, m.ram (frame (m.ram m.cr3 ((n + k) / 1024))) ((n + k) % 1024) = entry f ∧
        inPool (f * 4096)) :
    ∃ m', freePages inPool cnt (n * 4096) m = .ok m' ∧ m'.cr3 = m.cr3 ∧
      Cleared m.ram m'.ram m.cr3 n cnt := by
  induction cnt generalizing n m with
  | zero =>
    exact ⟨m, rfl, rfl, fun k hk => absurd hk (Nat.not_lt_zero k), fun _ _ _ => rfl⟩
  | succ cnt ih =>
    obtain ⟨hlt, hp, f, hf, hr, hpool⟩ := hrun 0 (by omega)
    have hne := ha 0 (by omega)
    rw [Nat.add_zero] at hlt hp hr hne
    set m₁ := (pfree m (f * 4096)).setRam (poke m.ram (frame (m.ram m.cr3 (n / 1024))) (n % 1024)
      (m.ram (frame (m.ram m.cr3 (n / 1024))) (n % 1024) &&& 0xfffffffe)) with hm₁
    have hdir : m₁.ram m.cr3 = m.ram m.cr3 := by
      funext e
      exact poke_of_frame_ne hne.symm e
    have hword (x : ℕ) : entryWord m₁.ram m.cr3 x = entryWord m.ram m.cr3 x := by
      unfold entryWord
      rw [hdir]
    have hnext (k : ℕ) : n + 1 + k = n + (k + 1) := by omega
    have hfirst (k : ℕ) (hk : k < cnt) :
        entryWord m.ram m.cr3 (n + (k + 1)) ≠ entryWord m.ram m.cr3 n := by
      intro heq
      have := hinj (k + 1) (by omega) 0 (by omega) heq
      omega
    obtain ⟨m', hfree, hcr3, hcl⟩ := ih (m := m₁) (n := n + 1)
      (by change m₁.ram m.cr3 1023 = _; rw [hdir]; exact hself)
      (fun k hk => by
        change frame (m₁.ram m.cr3 _) ≠ m.cr3
        rw [hdir, hnext]
        exact ha (k + 1) (by omega))
      (fun j hj k hk heq => by
        change entryWord m₁.ram m.cr3 _ = entryWord m₁.ram m.cr3 _ at heq
        rw [hword, hword, hnext, hnext] at heq
        have := hinj (j + 1) (by omega) (k + 1) (by omega) heq
        omega)
      (fun k hk => by
        obtain ⟨hlt', hp', f', hf', hr', hpool'⟩ := hrun (k + 1) (by omega)
        change _ ∧ present (m₁.ram m.cr3 _) ∧ ∃ f < 2 ^ 20, m₁.ram (frame (m₁.ram m.cr3 _)) _ = _ ∧ _
        rw [hdir, hnext]
        refine ⟨hlt', hp', f', hf', ?_, hpool'⟩
        rw [← hr']
        change poke m.ram _ _ _ _ _ = _
        unfold poke
        rw [if_neg]
        rintro ⟨h1, h2⟩
        exact hfirst k hk (Prod.ext h1 h2))
    refine ⟨m', ?_, hcr3, hcl.cons hne hfirst⟩
    have hstep : n * 4096 + pgSize = (n + 1) * 4096 := by
      unfold pgSize
      omega
    unfold freePages
    rw [addrV2p_entry hself hlt hp hf hr, ok_bind, ensure_of ⟨by unfold pgSize; omega, hpool⟩,
      ok_bind, pageTablePteRemove_eq (by exact hself) hlt (by exact hp), ok_bind, hstep]
    exact hfree

end Loop

/-- The pages that `malloc_page` and `get_a_page` hand out: mapped pages of the kernel heap or of
the user half. -/
def Machine.HandedOut (m : Machine) : PoolFlags → ℕ → Prop
  | .kernel, n => HeapPage n ∧ walk m.ram m.cr3 (n * 4096) ≠ none
  | .user, n => (0x8048 ≤ n ∧ n < 0xc0000) ∧ walk m.ram m.cr3 (n * 4096) ≠ none

section Tables

variable {s : State} {m : Machine} {G : Layout} {pf : PoolFlags} {n cnt x y f : ℕ}

theorem Sound.owns_of_handedOut (hs : Sound s G) (h : s.machine.HandedOut pf n) :
    ∃ f, G.owns (Owner.ofPage pf s.machine.cr3 n) = some f := by
  cases pf with
  | kernel => exact hs.owns_of_mapped (fun _ => h.1) (by simp) h.2
  | user => exact hs.owns_of_mapped (by simp) (fun _ => h.1) h.2

/-- A directory is the loader's or in a frame of a pool, and no table. -/
theorem Coherent.dir_cases (hc : Coherent m G) {d : ℕ} (hd : d ∈ G.dirs) :
    d = kernelDir ∨ 0x200 ≤ d ∧ ∀ d' e, G.owns (.table d' e) ≠ some d := by
  obtain rfl | ⟨n, hn⟩ := hc.encoded.dirOwned d hd
  · exact .inl rfl
  · refine .inr ⟨hc.marked.kernel_ge hn, fun d' e ht => ?_⟩
    cases G.ledger.inj ht hn

/-- The table of an owned page: a table of the kernel half, or one of the directory in use. -/
theorem Coherent.table_cases (hc : Coherent m G) (hcr3 : m.cr3 ∈ G.dirs)
    (ho : G.owns (Owner.ofPage pf m.cr3 n) = some f) :
    (768 ≤ n / 1024 ∧ n / 1024 < 1023 ∧ frame (m.ram m.cr3 (n / 1024)) = kernelTable (n / 1024)) ∨
    m.cr3 ∈ G.spaces ∧
      G.owns (.table m.cr3 (n / 1024)) = some (frame (m.ram m.cr3 (n / 1024))) := by
  cases pf with
  | kernel =>
    obtain ⟨hn, -⟩ := hc.encoded.kernelPage n f ho
    exact .inl ⟨hn.index.1, hn.index.2, (hc.kernel_pde hcr3 hn.index.1 hn.index.2).2⟩
  | user =>
    obtain ⟨t, ht, -⟩ := hc.encoded.userPage _ n f ho
    obtain ⟨hspace, -, hr⟩ := hc.encoded.tableEntry _ _ _ ht
    rw [hr, frame_entry]
    exact .inr ⟨hspace, ht⟩

/-- The table of an owned page is not the directory. -/
theorem Coherent.table_ne_dir (hc : Coherent m G) (hcr3 : m.cr3 ∈ G.dirs)
    (ho : G.owns (Owner.ofPage pf m.cr3 n) = some f) : frame (m.ram m.cr3 (n / 1024)) ≠ m.cr3 := by
  have hdir := hc.dir_cases hcr3
  obtain ⟨h1, h2, ht⟩ | ⟨hspace, ht⟩ := hc.table_cases hcr3 ho
  · have := kernelTable_bounds h1 h2
    unfold kernelDir at hdir
    omega
  · intro heq
    rw [heq] at ht
    obtain hk | ⟨-, hne⟩ := hdir
    · rw [hk] at hspace
      exact hc.encoded.kernelDir_notMem hspace
    · exact hne _ _ ht

/-- A page that shares the entry of an owned page is that page, or the kernel's directory is in
use, which shows the first 4 MB of the kernel half at address 0 too. -/
theorem Coherent.entryWord_cases (hc : Coherent m G) (hcr3 : m.cr3 = kernelDir ∨ m.cr3 ∈ G.spaces)
    (ho : G.owns (Owner.ofPage pf m.cr3 y) = some f) (hx : x < 2 ^ 20)
    (hp : present (m.ram m.cr3 (x / 1024)))
    (heq : entryWord m.ram m.cr3 y = entryWord m.ram m.cr3 x) :
    x = y ∨ m.cr3 = kernelDir ∧ y / 1024 = 768 ∧ x + 0xc0000 = y := by
  obtain ⟨htable, hindex⟩ := Prod.mk.inj heq
  have hmem : m.cr3 ∈ G.dirs := by
    obtain hk | hspace := hcr3
    · rw [hk]
      exact hc.encoded.kernelDir_mem
    · exact hc.encoded.spaces_subset hspace
  have hne := hc.table_ne_dir hmem ho
  by_cases hlast : x / 1024 = 1023
  · rw [htable, hlast, hc.encoded.selfMapped _ hmem, frame_entry] at hne
    exact absurd rfl hne
  have htables := hc.table_cases hmem ho
  rw [htable] at htables
  by_cases hlow : x / 1024 < 768
  · obtain hk | hspace := hcr3
    · have hzero : x / 1024 = 0 := by
        by_contra hpos
        rw [hk] at hp
        exact hc.encoded.kernelBare _ (by omega) hlow hp
      obtain ⟨h1, -, ht⟩ | ⟨hspace, -⟩ := htables
      · rw [hzero, hk, hc.encoded.kernelLow, frame_entry] at ht
        have := kernelTable_inj le_rfl h1 ht
        exact .inr ⟨hk, by omega, by omega⟩
      · rw [hk] at hspace
        exact absurd hspace hc.encoded.kernelDir_notMem
    · obtain ⟨t, ht, hframe⟩ := hc.user_pde hspace (by omega) hp
      rw [hframe] at htables
      obtain ⟨h1, h2, hk⟩ | ⟨-, ht'⟩ := htables
      · have hge := hc.marked.kernel_ge ht
        have := kernelTable_bounds h1 h2
        omega
      · have hdir := G.ledger.inj ht ht'
        simp only [Owner.table.injEq, true_and] at hdir
        exact .inl (page_eq hdir hindex.symm)
  · have hframe := (hc.kernel_pde hmem (n := x) (by omega) (by omega)).2
    rw [hframe] at htables
    obtain ⟨h1, -, ht⟩ | ⟨-, ht⟩ := htables
    · exact .inl (page_eq (kernelTable_inj (by omega) h1 ht) hindex.symm)
    · have hge := hc.marked.kernel_ge ht
      have := kernelTable_bounds (e := x / 1024) (by omega) (by omega)
      omega

/-- Under the kernel's directory the first 4 MB are those of the kernel half. -/
theorem Coherent.entryWord_low (hc : Coherent m G) (hk : m.cr3 = kernelDir)
    (hx : x / 1024 = 0) : entryWord m.ram m.cr3 (x + 0xc0000) = entryWord m.ram m.cr3 x := by
  have hdiv : (x + 0xc0000) / 1024 = 768 := by omega
  have hmod : (x + 0xc0000) % 1024 = x % 1024 := by omega
  unfold entryWord
  rw [hk, hx, hdiv, hmod, hc.encoded.kernelLow,
    hc.encoded.kernelHalf _ hc.encoded.kernelDir_mem _ le_rfl (by norm_num)]

end Tables

section Freeing

variable {s : State} {G : Layout} {pf : PoolFlags} {n cnt x : ℕ}

/-- The tables of pages that were handed out are not the directory. -/
theorem Sound.apart (hs : Sound s G) (hrun : ∀ k < cnt, s.machine.HandedOut pf (n + k)) :
    Apart s.machine.ram s.machine.cr3 n cnt := by
  intro k hk
  obtain ⟨f, hf⟩ := hs.owns_of_handedOut (hrun k hk)
  exact hs.coherent.table_ne_dir hs.cr3_mem hf

/-- `mfree_page` returns for pages that were handed out, and clears their entries. -/
theorem Sound.mfreePage_cleared (hs : Sound s G) (hcnt : 0 < cnt)
    (hrun : ∀ k < cnt, s.machine.HandedOut pf (n + k)) :
    ∃ m', Memory.mfreePage s.machine pf (n * 4096) cnt = .ok m' ∧ m'.cr3 = s.machine.cr3 ∧
      Cleared s.machine.ram m'.ram s.machine.cr3 n cnt := by
  have hc := hs.coherent
  have hself := hc.encoded.selfMapped _ hs.cr3_mem
  have howns (k : ℕ) (hk : k < cnt) := hs.owns_of_handedOut (hrun k hk)
  have hcr3 : s.machine.cr3 = kernelDir ∨ s.machine.cr3 ∈ G.spaces :=
    hs.cr3_cases.imp (fun h => h.2) fun h => h.2
  have hinj (j : ℕ) (hj : j < cnt) (k : ℕ) (hk : k < cnt)
      (heq : entryWord s.machine.ram s.machine.cr3 (n + j) =
        entryWord s.machine.ram s.machine.cr3 (n + k)) : j = k := by
    obtain ⟨f, hf⟩ := howns j hj
    obtain ⟨g, hg⟩ := howns k hk
    obtain ⟨hlt, hp, -⟩ := hc.pte hs.cr3_mem hg
    obtain h | ⟨hk', hdiv, heq'⟩ := hc.entryWord_cases hcr3 hf (by omega) hp heq
    · omega
    · have hj' := hrun j hj
      have hk' := hrun k hk
      cases pf with
      | kernel =>
        have := hk'.1.1
        omega
      | user =>
        have := hj'.1.2
        omega
  have hentries (k : ℕ) (hk : k < cnt) : n + k < 2 ^ 20 ∧
      present (s.machine.ram s.machine.cr3 ((n + k) / 1024)) ∧ ∃ f < 2 ^ 20,
      s.machine.ram (frame (s.machine.ram s.machine.cr3 ((n + k) / 1024))) ((n + k) % 1024) =
        entry f ∧ 0x200 ≤ f ∧ (s.machine.pools pf).phyAddrStart ≤ f * 4096 ∧
        ((s.machine.pools .user).phyAddrStart ≤ f * 4096 ↔ pf = .user) := by
    obtain ⟨f, hf⟩ := howns k hk
    obtain ⟨hlt, hp, hr⟩ := hc.pte hs.cr3_mem hf
    have hin := hc.marked.inPool _ _ hf
    have huser := hc.marked.user_le hf
    have halign := hc.marked.aligned pf
    rw [pool_ofPage] at hin huser
    unfold Pool.base at hin
    exact ⟨by omega, hp, f, hc.marked.frame_lt hf, hr, hc.marked.kernel_ge hf, by omega, huser⟩
  obtain ⟨hlt, hp, f, hf, hr, hge, -, huser⟩ := hentries 0 hcnt
  rw [Nat.add_zero] at hlt hp hr
  unfold Memory.mfreePage
  rw [ensure_of ⟨hcnt, by unfold pgSize; omega⟩, ok_bind, addrV2p_entry hself hlt hp hf hr, ok_bind,
    ensure_of ⟨by unfold pgSize; omega, by omega⟩, ok_bind]
  cases pf with
  | kernel =>
    obtain ⟨m₁, hfree, hcr3₁, hcl⟩ := @freePages_cleared s.machine n cnt
      (fun a => a ≥ (s.machine.pools .kernel).phyAddrStart ∧
        a < (s.machine.pools .user).phyAddrStart) _ hself (hs.apart hrun) hinj fun k hk => by
        obtain ⟨hlt, hp, f, hf, hr, -, hk, hu⟩ := hentries k hk
        exact ⟨hlt, hp, f, hf, hr, hk, Nat.lt_of_not_le fun hle => by cases hu.mp hle⟩
    refine ⟨vaddrRemove m₁ .kernel (n * 4096) cnt, ?_, hcr3₁, hcl⟩
    rw [if_neg (fun hle => by cases huser.mp hle), hfree]
    rfl
  | user =>
    obtain ⟨m₁, hfree, hcr3₁, hcl⟩ := @freePages_cleared s.machine n cnt
      (fun a => a ≥ (s.machine.pools .user).phyAddrStart) _ hself (hs.apart hrun) hinj fun k hk => by
        obtain ⟨hlt, hp, f, hf, hr, -, -, hu⟩ := hentries k hk
        exact ⟨hlt, hp, f, hf, hr, hu.mpr rfl⟩
    refine ⟨vaddrRemove m₁ .user (n * 4096) cnt, ?_, hcr3₁, hcl⟩
    rw [if_pos (huser.mpr rfl), hfree]
    rfl

end Freeing

/-- The cached translations: the frame of a page. -/
abbrev Tlb := ℕ → Option ℕ

/-- `invlpg` drops the translation of the page that its operand lies in. -/
def invlpg (tlb : Tlb) (operand : ℕ) : Tlb := Function.update tlb (operand / 4096) none

/-- The frame that a page is translated to: a cached translation goes before the tables. -/
def translate (m : Machine) (tlb : Tlb) (x : ℕ) : Option ℕ :=
  (tlb x).or ((walk m.ram m.cr3 (x * 4096)).map Prod.fst)

namespace Cached

/-- `page_table_pte_remove`; `operand` is the address of its variable `vaddr` on the kernel stack,
which is what `invlpg %0` with an operand in memory names. -/
def pageTablePteRemove (operand : ℕ) (m : Machine) (tlb : Tlb) (vaddr : ℕ) :
    Except Fault (Machine × Tlb) := do
  let m ← Memory.pageTablePteRemove m vaddr
  return (m, invlpg tlb operand)

/-- The two loops of `mfree_page`. -/
def freePages (operand : ℕ) (inPool : ℕ → Prop) [DecidablePred inPool] :
    ℕ → ℕ → Machine → Tlb → Except Fault (Machine × Tlb)
  | 0, _, m, tlb => return (m, tlb)
  | cnt + 1, vaddr, m, tlb => do
    let pgPhyAddr ← addrV2p m vaddr
    ensure .assert (pgPhyAddr % pgSize = 0 ∧ inPool pgPhyAddr)
    let (m, tlb) ← pageTablePteRemove operand (pfree m pgPhyAddr) tlb vaddr
    freePages operand inPool cnt (vaddr + pgSize) m tlb

/-- `mfree_page`. -/
def mfreePage (operand : ℕ) (m : Machine) (tlb : Tlb) (pf : PoolFlags) (vaddr pgCnt : ℕ) :
    Except Fault (Machine × Tlb) := do
  ensure .assert (pgCnt ≥ 1 ∧ vaddr % pgSize = 0)
  let pgPhyAddr ← addrV2p m vaddr
  ensure .assert (pgPhyAddr % pgSize = 0 ∧ pgPhyAddr ≥ 0x102000)
  let userStart := (m.pools .user).phyAddrStart
  let kernelStart := (m.pools .kernel).phyAddrStart
  if pgPhyAddr ≥ userStart then
    let (m, tlb) ← freePages operand (fun a => a ≥ userStart) pgCnt vaddr m tlb
    return (vaddrRemove m pf vaddr pgCnt, tlb)
  else
    let (m, tlb) ← freePages operand (fun a => a ≥ kernelStart ∧ a < userStart) pgCnt vaddr m tlb
    return (vaddrRemove m pf vaddr pgCnt, tlb)

end Cached

section Flush

variable {m : Machine} {tlb : Tlb} {pf : PoolFlags} {operand vaddr cnt : ℕ}

theorem invlpg_idem (tlb : Tlb) (operand : ℕ) :
    invlpg (invlpg tlb operand) operand = invlpg tlb operand := Function.update_idem ..

/-- The first turn of a loop drops the translation. -/
theorem cached_freePages_succ {inPool : ℕ → Prop} [DecidablePred inPool] :
    Cached.freePages operand inPool (cnt + 1) vaddr m tlb =
      addrV2p m vaddr >>= fun a => ensure .assert (a % pgSize = 0 ∧ inPool a) >>= fun _ =>
        pageTablePteRemove (pfree m a) vaddr >>= fun m₁ =>
          Cached.freePages operand inPool cnt (vaddr + pgSize) m₁ (invlpg tlb operand) := by
  rw [Cached.freePages]
  unfold Cached.pageTablePteRemove
  cases addrV2p m vaddr with
  | error e => rfl
  | ok a =>
    by_cases ha : a % pgSize = 0 ∧ inPool a
    · simp only [ok_bind, ensure_of ha]
      cases pageTablePteRemove (pfree m a) vaddr <;> rfl
    · simp only [ok_bind, ensure_of_not ha]
      rfl

/-- The other turns drop nothing more. -/
theorem cached_freePages {inPool : ℕ → Prop} [DecidablePred inPool] :
    Cached.freePages operand inPool cnt vaddr m (invlpg tlb operand) =
      freePages inPool cnt vaddr m >>= fun m' => .ok (m', invlpg tlb operand) := by
  induction cnt generalizing m vaddr with
  | zero => rfl
  | succ cnt ih =>
    rw [cached_freePages_succ, invlpg_idem, freePages]
    cases addrV2p m vaddr with
    | error e => rfl
    | ok a =>
      by_cases ha : a % pgSize = 0 ∧ inPool a
      · simp only [ok_bind, ensure_of ha, ih]
        cases pageTablePteRemove (pfree m a) vaddr <;> rfl
      · simp only [ok_bind, ensure_of_not ha]
        rfl

theorem cached_freePages_pos {inPool : ℕ → Prop} [DecidablePred inPool] (hcnt : cnt ≥ 1) :
    Cached.freePages operand inPool cnt vaddr m tlb =
      freePages inPool cnt vaddr m >>= fun m' => .ok (m', invlpg tlb operand) := by
  obtain ⟨cnt, rfl⟩ := Nat.exists_eq_add_of_le' hcnt
  rw [← cached_freePages, cached_freePages_succ, cached_freePages_succ, invlpg_idem]

/-- With its cached translations `mfree_page` does the same and drops one of them. -/
theorem cached_mfreePage : Cached.mfreePage operand m tlb pf vaddr cnt =
    mfreePage m pf vaddr cnt >>= fun m' => .ok (m', invlpg tlb operand) := by
  unfold Cached.mfreePage mfreePage
  by_cases hcnt : cnt ≥ 1 ∧ vaddr % pgSize = 0
  swap
  · rw [ensure_of_not hcnt]
    rfl
  simp only [ensure_of hcnt, ok_bind, cached_freePages_pos hcnt.1]
  cases addrV2p m vaddr with
  | error e => rfl
  | ok a =>
    by_cases ha : a % pgSize = 0 ∧ a ≥ 0x102000
    swap
    · simp only [ok_bind, ensure_of_not ha]
      rfl
    simp only [ok_bind, ensure_of ha]
    by_cases huser : a ≥ (m.pools .user).phyAddrStart
    · rw [if_pos huser, if_pos huser]
      cases freePages (fun a => a ≥ (m.pools .user).phyAddrStart) cnt vaddr m <;> rfl
    · rw [if_neg huser, if_neg huser]
      cases freePages (fun a => a ≥ (m.pools .kernel).phyAddrStart ∧
        a < (m.pools .user).phyAddrStart) cnt vaddr m <;> rfl

end Flush

/-- After `mfree_page` nothing translates the pages any more, and every other page is translated
as before. -/
def FreesCleanly (operand : ℕ) (m : Machine) (tlb : Tlb) (pf : PoolFlags) (n cnt : ℕ) : Prop :=
  ∃ m' tlb', Cached.mfreePage operand m tlb pf (n * 4096) cnt = .ok (m', tlb') ∧ ∀ x < 2 ^ 20,
    (n ≤ x → x < n + cnt → walk m'.ram m'.cr3 (x * 4096) = none ∧ tlb' x = none) ∧
    (x < n ∨ n + cnt ≤ x → translate m' tlb' x = translate m tlb x)

/-- No page of the run is cached, but for the one that the operand lies in; what is cached for that
one is what the tables say; and where the kernel's directory shows pages of the run at address 0
too, these are cached. -/
structure Uncached (operand : ℕ) (m : Machine) (tlb : Tlb) (n cnt : ℕ) : Prop where
  run : ∀ k < cnt, n + k ≠ operand / 4096 → tlb (n + k) = none
  operand : operand / 4096 < n ∨ n + cnt ≤ operand / 4096 → ∀ f, tlb (operand / 4096) = some f →
    (walk m.ram m.cr3 (operand / 4096 * 4096)).map Prod.fst = some f
  low : m.cr3 = kernelDir → ∀ k < cnt, n + k < 0xc0400 → tlb (n + k - 0xc0000) ≠ none

section Clean

variable {s : State} {m' : Machine} {tlb : Tlb} {G : Layout} {pf : PoolFlags} {n cnt x operand : ℕ}

/-- Pages outside the run keep their entries, but for those that show it at address 0. -/
theorem Sound.walk_kept (hs : Sound s G) (hrun : ∀ k < cnt, s.machine.HandedOut pf (n + k))
    (hcl : Cleared s.machine.ram m'.ram s.machine.cr3 n cnt) (hx : x < 2 ^ 20)
    (hout : x < n ∨ n + cnt ≤ x) :
    walk m'.ram s.machine.cr3 (x * 4096) = walk s.machine.ram s.machine.cr3 (x * 4096) ∨
      s.machine.cr3 = kernelDir ∧ ∃ k < cnt, (n + k) / 1024 = 768 ∧ x + 0xc0000 = n + k := by
  have ha := hs.apart hrun
  by_cases hp : present (s.machine.ram s.machine.cr3 (x / 1024))
  swap
  · have hbefore : walk s.machine.ram s.machine.cr3 (x * 4096) = none := by
      rw [walk_eq_none, dirIndex_page]
      exact fun h => hp h.1
    have hafter : walk m'.ram s.machine.cr3 (x * 4096) = none := by
      rw [walk_eq_none, dirIndex_page, hcl.dir_eq ha]
      exact fun h => hp h.1
    exact .inl (hafter.trans hbefore.symm)
  by_cases hhit : ∃ k < cnt, entryWord s.machine.ram s.machine.cr3 (n + k) =
      entryWord s.machine.ram s.machine.cr3 x
  · obtain ⟨k, hk, heq⟩ := hhit
    obtain ⟨f, hf⟩ := hs.owns_of_handedOut (hrun k hk)
    obtain h | ⟨hcr3, hdiv, hlow⟩ := hs.coherent.entryWord_cases
      (hs.cr3_cases.imp (fun h => h.2) fun h => h.2) hf hx hp heq
    · omega
    · exact .inr ⟨hcr3, k, hk, hdiv, hlow⟩
  · exact .inl (hcl.walk_miss ha fun k hk heq => hhit ⟨k, hk, heq⟩)

/-- The kernel stack of the running task lies in the kernel half. -/
theorem Sound.running_page (hs : Sound s G) :
    0xc0000 ≤ s.machine.running / 4096 ∧ s.machine.running / 4096 < 2 ^ 20 := by
  by_cases hmain : s.machine.running = mainThread
  · rw [hmain]
    decide
  · obtain ⟨f, hf⟩ := hs.owned (.pcb s.machine.running) _ ⟨hs.running_mem, hmain, rfl⟩
    have hheap := (hs.coherent.encoded.kernelPage _ f hf).1
    unfold HeapPage at hheap
    omega

/-- Under the kernel's directory the entry of a page of its first 4 MB is seen at address 0 too. -/
theorem Sound.low_of_run (hs : Sound s G) (hrun : ∀ k < cnt, s.machine.HandedOut pf (n + k))
    (hk : s.machine.cr3 = kernelDir) {k : ℕ} (hlt : k < cnt) (hlow : n + k < 0xc0400) :
    ∃ x, n + k = x + 0xc0000 ∧ x < 0x400 ∧ x < n ∧
      entryWord s.machine.ram s.machine.cr3 (n + k) = entryWord s.machine.ram s.machine.cr3 x ∧
      walk s.machine.ram s.machine.cr3 (x * 4096) ≠ none := by
  have hc := hs.coherent
  obtain ⟨f, hf⟩ := hs.owns_of_handedOut (hrun k hlt)
  obtain ⟨-, hp, hr⟩ := hc.pte hs.cr3_mem hf
  obtain ⟨hge, -, -⟩ | ⟨hspace, -⟩ := hc.table_cases hs.cr3_mem hf
  swap
  · rw [hk] at hspace
    exact absurd hspace hc.encoded.kernelDir_notMem
  obtain ⟨x, hx⟩ : ∃ x, n + k = x + 0xc0000 := ⟨n + k - 0xc0000, by omega⟩
  have hword := hc.entryWord_low hk (x := x) (by omega)
  have hn : x < n := by
    have hfirst := hrun 0 (by omega)
    have hpage := hrun k hlt
    cases pf with
    | kernel =>
      have := hfirst.1.1
      omega
    | user =>
      have := hpage.1.2
      omega
  rw [hx]
  refine ⟨x, rfl, by omega, hn, hword, ?_⟩
  rw [Ne, walk_eq_none, not_not, dirIndex_page, tableIndex_page]
  obtain ⟨htable, hindex⟩ := Prod.mk.inj hword
  constructor
  · rw [show x / 1024 = 0 by omega, hk, hc.encoded.kernelLow]
    exact present_entry _
  · rw [← htable, ← hindex, ← hx, hr]
    exact present_entry _

/-- `mfree_page` leaves no translation behind exactly where none was cached. -/
theorem Sound.freesCleanly_iff (hs : Sound s G) (hcnt : 0 < cnt)
    (hrun : ∀ k < cnt, s.machine.HandedOut pf (n + k))
    (hop : operand / 4096 = s.machine.running / 4096) :
    FreesCleanly operand s.machine tlb pf n cnt ↔ Uncached operand s.machine tlb n cnt := by
  obtain ⟨m', hfree, hcr3, hcl⟩ := hs.mfreePage_cleared hcnt hrun
  have hpage := hs.running_page
  rw [← hop] at hpage
  have hother {x : ℕ} (hx : x ≠ operand / 4096) : invlpg tlb operand x = tlb x :=
    Function.update_of_ne hx ..
  have hself : invlpg tlb operand (operand / 4096) = none := Function.update_self ..
  have hrun_eq : Cached.mfreePage operand s.machine tlb pf (n * 4096) cnt =
      .ok (m', invlpg tlb operand) := by
    rw [cached_mfreePage, hfree, ok_bind]
  -- the page of the operand lies above what is seen at address 0
  have hstack (hout : operand / 4096 < n ∨ n + cnt ≤ operand / 4096) :
      walk m'.ram s.machine.cr3 (operand / 4096 * 4096) =
        walk s.machine.ram s.machine.cr3 (operand / 4096 * 4096) := by
    obtain h | ⟨-, k, hk, hdiv, hlow⟩ := hs.walk_kept hrun hcl hpage.2 hout
    · exact h
    · omega
  constructor
  · rintro ⟨m₁, tlb₁, hok, hclean⟩
    obtain ⟨rfl, rfl⟩ := Prod.mk.inj (Except.ok.inj (hrun_eq.symm.trans hok))
    refine ⟨fun k hk hne => ?_, fun hout f hf => ?_, fun hkdir k hk hlow hnone => ?_⟩
    · have hlt : n + k < 2 ^ 20 := by
        obtain ⟨f, hf⟩ := hs.owns_of_handedOut (hrun k hk)
        have := (hs.coherent.pte hs.cr3_mem hf).1
        omega
      rw [← hother hne]
      exact ((hclean (n + k) hlt).1 (by omega) (by omega)).2
    · have htr := (hclean _ hpage.2).2 hout
      rw [translate, translate, hself, hf, hcr3, hstack hout, Option.none_or, Option.some_or] at htr
      exact htr
    · obtain ⟨x, hx, hlt, hn, hword, hwalk⟩ := hs.low_of_run hrun hkdir hk hlow
      rw [hx, Nat.add_sub_cancel] at hnone
      have htr := (hclean x (by omega)).2 (.inl hn)
      rw [translate, translate, hother (by omega), hnone, hcr3, hcl.walk_hit (hs.apart hrun) hk hword,
        Option.none_or, Option.none_or, Option.map_none, eq_comm, Option.map_eq_none_iff] at htr
      exact hwalk htr
  · intro h
    refine ⟨m', _, hrun_eq, fun x hx => ⟨fun h1 h2 => ?_, fun hout => ?_⟩⟩
    · obtain ⟨k, rfl⟩ := Nat.exists_eq_add_of_le h1
      have hk : k < cnt := by omega
      rw [hcr3]
      refine ⟨hcl.walk_hit (hs.apart hrun) hk rfl, ?_⟩
      by_cases hop' : n + k = operand / 4096
      · rw [hop']
        exact hself
      · rw [hother hop']
        exact h.run k hk hop'
    · rw [translate, translate, hcr3]
      by_cases hop' : x = operand / 4096
      · subst hop'
        rw [hself, hstack hout, Option.none_or]
        cases hf : tlb (operand / 4096) with
        | none => rw [Option.none_or]
        | some f => rw [Option.some_or, h.operand hout f hf]
      · rw [hother hop']
        cases hf : tlb x with
        | some f => rfl
        | none =>
          obtain heq | ⟨hkdir, k, hk, hdiv, hlow⟩ := hs.walk_kept hrun hcl hx hout
          · rw [heq]
          · have hcached := h.low hkdir k hk (by omega)
            rw [← hlow, Nat.add_sub_cancel] at hcached
            exact absurd hf hcached

/-- In a reachable state `mfree_page` leaves no translation behind exactly where none was cached. -/
theorem frees_cleanly_iff (h : memoryCalls.Reachable s) (hcnt : 0 < cnt)
    (hrun : ∀ k < cnt, s.machine.HandedOut pf (n + k))
    (hop : operand / 4096 = s.machine.running / 4096) :
    FreesCleanly operand s.machine tlb pf n cnt ↔ Uncached operand s.machine tlb n cnt := by
  obtain ⟨G, hs⟩ := memoryCalls_sound h
  exact hs.freesCleanly_iff hcnt hrun hop

/-- The first process is kept in the first pages of the kernel heap. -/
theorem Started.handedOut {name : List UInt8} {frames k : ℕ} (h : Started name frames s)
    (hroom : bitmapPgCnt + 2 ≤ frames) (hk : k < bitmapPgCnt + 2) :
    s.machine.HandedOut .kernel (0xc0100 + k) := by
  obtain ⟨G, hs⟩ := memoryCalls_sound h.reachable
  have hlen := h.len
  have hset : bitmapScanTest s.machine.heap k = true := by
    rw [h.heap k (by omega)]
    exact decide_eq_true hk
  obtain ⟨f, hf⟩ := Option.ne_none_iff_exists'.mp (hs.kernel.owned k (by
    change k < 8 * s.machine.heap.btmpBytesLen
    omega) hset)
  rw [hs.kernelBase] at hf
  refine ⟨(hs.coherent.encoded.kernelPage _ f hf).1, ?_⟩
  rw [@Coherent.walk_page_start _ G .kernel _ f hs.coherent hs.cr3_mem hf]
  exact Option.some_ne_none _

/-- The first process frees a page of the kernel heap while nothing is cached. -/
theorem frees_cleanly_init : ∃ s, Started [0x69, 0x6e, 0x69, 0x74] 256 s ∧
    FreesCleanly s.machine.running s.machine (fun _ => none) .kernel 0xc0101 1 := by
  obtain ⟨s, h⟩ := @exists_started 256 [0x69, 0x6e, 0x69, 0x74] 0x400000 rfl (by decide)
  have hrun (k : ℕ) (hk : k < 1) : s.machine.HandedOut .kernel (0xc0101 + k) := by
    obtain rfl : k = 0 := by omega
    exact h.handedOut (k := 1) (by decide) (by decide)
  refine ⟨s, h, (frees_cleanly_iff h.reachable Nat.one_pos hrun rfl).mpr
    ⟨fun _ _ _ => rfl, fun _ _ hf => (by cases hf), fun hk => ?_⟩⟩
  obtain ⟨G, hs⟩ := memoryCalls_sound h.reachable
  obtain ⟨pid, v, bits, htask⟩ := h.task
  obtain ⟨hnone, -⟩ | ⟨-, hspace⟩ := hs.cr3_cases
  · simp [htask] at hnone
  · rw [hk] at hspace
    exact absurd hspace hs.coherent.encoded.kernelDir_notMem

/-- With all translations cached one of two freed pages is translated on. -/
theorem not_frees_cleanly : ¬ ∀ s tlb pf n cnt operand, memoryCalls.Reachable s → 0 < cnt →
    (∀ k < cnt, s.machine.HandedOut pf (n + k)) → operand / 4096 = s.machine.running / 4096 →
    (∀ x f, tlb x = some f → walk s.machine.ram s.machine.cr3 (x * 4096) = some (f, 0)) →
    FreesCleanly operand s.machine tlb pf n cnt := by
  intro hall
  obtain ⟨s, h⟩ := @exists_started 256 [0x69, 0x6e, 0x69, 0x74] 0x400000 rfl (by decide)
  obtain ⟨G, hs⟩ := memoryCalls_sound h.reachable
  have hrun (k : ℕ) (hk : k < 2) : s.machine.HandedOut .kernel (0xc0100 + k) :=
    h.handedOut (by decide) (by rw [bitmapPgCnt_eq]; omega)
  have hword (x : ℕ) : wordIndex (x * 4096) = 0 := by
    unfold wordIndex
    omega
  have hclean := hall s (fun x => (walk s.machine.ram s.machine.cr3 (x * 4096)).map Prod.fst) .kernel
    0xc0100 2 s.machine.running h.reachable two_pos hrun rfl fun x f hf => by
      obtain ⟨⟨g, i⟩, hwalk, rfl⟩ := Option.map_eq_some_iff.mp hf
      obtain ⟨-, -, -, hi⟩ := walk_eq_some hwalk
      rw [hwalk, hi, hword]
  have hnone := ((hs.freesCleanly_iff two_pos hrun rfl).mp hclean).run
  have hcached (k : ℕ) (hk : k < 2) : s.machine.running / 4096 = 0xc0100 + k := by
    by_contra hne
    exact (hrun k hk).2 (Option.map_eq_none_iff.mp (hnone k hk (Ne.symm hne)))
  have h0 := hcached 0 (by norm_num)
  have h1 := hcached 1 (by norm_num)
  omega

end Clean

end X86System.Memory
