import X86System.SpaceProcesses

/-!
# Giving an address space back

A task that exits frees the frames of its user half, table by table, and its bitmap;
its parent frees the directory and the PCB. None of this touches what the other tasks
are kept in or what they have mapped.
-/
namespace X86System.Memory
open Exec Paging

/-- Only marks of the pools were cleared: those of the owners in `olds`. -/
structure Released (m : Machine) (L : Ledger Owner ℕ) (m' : Machine) (L' : Ledger Owner ℕ)
    (olds : Set Owner) : Prop where
  same : SameTasks m m'
  ram : m'.ram = m.ram
  marked : Marked m'.pools L'
  shrunk : Shrunk L L' olds

section Release

variable {m m' : Machine} {L L₁ L' : Ledger Owner ℕ} {olds olds' : Set Owner} {o : Owner} {f : ℕ}

theorem Shrunk.trans (h : Shrunk L L₁ olds) (h' : Shrunk L₁ L' olds') :
    Shrunk L L' (olds ∪ olds') where
  gone := fun o ho => by
    by_cases ho' : o ∈ olds'
    · exact h'.gone o ho'
    · rw [h'.kept o ho']
      exact h.gone o (ho.resolve_right ho')
  kept := fun o ho => by
    rw [h'.kept o fun h2 => ho (.inr h2), h.kept o fun h1 => ho (.inl h1)]

theorem Released.refl (h : Marked m.pools L) : Released m L m L ∅ :=
  ⟨.refl m, rfl, h, fun _ ho => ho.elim, fun _ _ => rfl⟩

theorem Released.trans {m₁ : Machine} (h : Released m L m₁ L₁ olds)
    (h' : Released m₁ L₁ m' L' olds') : Released m L m' L' (olds ∪ olds') :=
  ⟨h.same.trans h'.same, h'.ram.trans h.ram, h'.marked, h.shrunk.trans h'.shrunk⟩

/-- `pfree` of a frame in use. -/
theorem Marked.released (h : Marked m.pools L) (ho : L.owns o = some f) :
    Released m L (pfree m (f * 4096)) (L.drop o) {o} := by
  rw [h.pfree_eq ho]
  refine ⟨sameTasks_mark .., rfl, h.drop ho, ?_, ?_⟩
  · rintro o' rfl
    exact L.drop_owns_self
  · exact fun o' ho' => L.drop_owns_of_ne ho'

variable {d e t left idx : ℕ}

/-- Entry `j` of the table `t` of entry `e` tells whether the page has a frame. -/
def SpelledPage (ram : Ram) (L : Ledger Owner ℕ) (d e t j : ℕ) : Prop :=
  match L.owns (.user d (e * 1024 + j)) with
  | none => ¬ present (ram t j)
  | some f => ram t j = entry f

/-- Entry `e` of the directory tells whether there is a table, and the table what is mapped. -/
def Spelled (ram : Ram) (L : Ledger Owner ℕ) (d e : ℕ) : Prop :=
  match L.owns (.table d e) with
  | none => ¬ present (ram d e)
  | some t => ram d e = entry t ∧ ∀ j < 1024, SpelledPage ram L d e t j

theorem SpelledPage.congr {ram : Ram} {j : ℕ} (h : SpelledPage ram L d e t j)
    (heq : L'.owns (.user d (e * 1024 + j)) = L.owns (.user d (e * 1024 + j))) :
    SpelledPage ram L' d e t j := by
  unfold SpelledPage at h ⊢
  rwa [heq]

theorem Coherent.spelled {G : Layout} (h : Coherent m G) (hd : d ∈ G.spaces) (he : e < 768) :
    Spelled m.ram G.ledger d e := by
  unfold Spelled
  cases ht : G.ledger.owns (.table d e) with
  | none => exact h.encoded.noTable d hd e he ht
  | some t =>
    refine ⟨(h.encoded.tableEntry d e t ht).2.2, fun j hj => ?_⟩
    have hdiv : (e * 1024 + j) / 1024 = e := by omega
    have hmod : (e * 1024 + j) % 1024 = j := by omega
    unfold SpelledPage
    cases hu : G.ledger.owns (.user d (e * 1024 + j)) with
    | none =>
      have hnot := h.encoded.noUserPage d (e * 1024 + j) t (by rw [hdiv]; exact ht) hu
      rwa [hmod] at hnot
    | some f =>
      obtain ⟨t', ht', hr⟩ := h.encoded.userPage d (e * 1024 + j) f hu
      rw [hdiv] at ht'
      obtain rfl := Option.some.inj (ht.symm.trans ht')
      rwa [hmod] at hr

/-- The pages of a table from entry `idx` on. -/
def tablePages (d e idx : ℕ) : Set Owner :=
  {o | ∃ j, idx ≤ j ∧ j < 1024 ∧ o = .user d (e * 1024 + j)}

theorem tablePages_succ (hidx : idx < 1024) :
    tablePages d e idx = {Owner.user d (e * 1024 + idx)} ∪ tablePages d e (idx + 1) := by
  ext o
  constructor
  · rintro ⟨j, hle, hlt, rfl⟩
    by_cases hj : j = idx
    · exact .inl (by rw [hj]; rfl)
    · exact .inr ⟨j, by omega, hlt, rfl⟩
  · rintro (rfl | ⟨j, hle, hlt, rfl⟩)
    · exact ⟨idx, le_rfl, hidx, rfl⟩
    · exact ⟨j, by omega, hlt, rfl⟩

/-- What nobody owns is given back by doing nothing. -/
theorem Released.of_none (h : Released m L m' L' olds) (ho : L.owns o = none) :
    Released m L m' L' ({o} ∪ olds) := by
  refine ⟨h.same, h.ram, h.marked, ?_, ?_⟩
  · rintro o' (rfl | ho')
    · by_cases hmem : o' ∈ olds
      · exact h.shrunk.gone o' hmem
      · rw [h.shrunk.kept o' hmem, ho]
    · exact h.shrunk.gone o' ho'
  · exact fun o' ho' => h.shrunk.kept o' fun h2 => ho' (.inr h2)

/-- The inner loop of `release_proc_resource` frees every page of one table. -/
theorem releasePtes_spec (hself : SelfMapped m.ram m.cr3) (he : e < 768) (hm : Marked m.pools L)
    (htable : m.ram m.cr3 e = entry t)
    (hpages : ∀ j, idx ≤ j → j < 1024 → SpelledPage m.ram L m.cr3 e t j)
    (hend : idx + left = 1024) :
    ∃ m' L', releasePtes (0xffc00000 + e * 4096) left idx m = .ok m' ∧
      Released m L m' L' (tablePages m.cr3 e idx) := by
  induction left generalizing idx m L with
  | zero =>
    have hnil : tablePages m.cr3 e idx = ∅ := by
      apply Set.eq_empty_of_forall_notMem
      rintro o ⟨j, h1, h2, -⟩
      omega
    exact ⟨m, L, rfl, by rw [hnil]; exact .refl hm⟩
  | succ left ih =>
    have hidx : idx < 1024 := by omega
    have hpage := hpages idx le_rfl hidx
    have hwalk := hself.walk_table (e := e) (i := idx) (by omega) hidx
    rw [htable, if_pos (present_entry t), frame_entry] at hwalk
    unfold releasePtes
    rw [Machine.load, hwalk]
    dsimp only
    rw [ok_bind, tablePages_succ hidx]
    unfold SpelledPage at hpage
    cases hu : L.owns (.user m.cr3 (e * 1024 + idx)) with
    | none =>
      rw [hu] at hpage
      rw [if_neg (by rwa [and_one_ne_zero])]
      obtain ⟨m', L', hrun, hrel⟩ := @ih m L (idx + 1) hself hm htable
        (fun j hj hlt => hpages j (by omega) hlt) (by omega)
      exact ⟨m', L', hrun, hrel.of_none hu⟩
    | some f =>
      rw [hu] at hpage
      dsimp only at hpage
      have hrel := hm.released hu
      rw [hpage, if_pos (by rw [and_one_ne_zero]; exact present_entry f),
        entry_and_page (hm.frame_lt hu)]
      have hcr3 := hrel.same.cr3
      obtain ⟨m', L', hrun, hrest⟩ := @ih (pfree m (f * 4096)) _ (idx + 1)
        (by rwa [hrel.ram, hcr3])  hrel.marked (by rwa [hrel.ram, hcr3])
        (fun j hj hlt => by
          rw [hrel.ram, hcr3]
          apply (hpages j (by omega) hlt).congr
          apply hrel.shrunk.kept
          intro heq
          obtain ⟨-, heq⟩ := Owner.user.inj heq
          omega) (by omega)
      rw [hcr3] at hrest
      exact ⟨m', L', hrun, hrel.trans hrest⟩

/-- The user half of a directory from entry `e` on. -/
def userHalf (d e : ℕ) : Set Owner :=
  {o | ∃ e', e ≤ e' ∧ e' < 768 ∧ (o = .table d e' ∨ o ∈ tablePages d e' 0)}

theorem userHalf_succ (he : e < 768) :
    userHalf d e = ({Owner.table d e} ∪ tablePages d e 0) ∪ userHalf d (e + 1) := by
  ext o
  constructor
  · rintro ⟨e', hle, hlt, ho⟩
    by_cases heq : e' = e
    · subst heq
      exact .inl (ho.imp id id)
    · exact .inr ⟨e', by omega, hlt, ho⟩
  · rintro (ho | ⟨e', hle, hlt, ho⟩)
    · exact ⟨e, le_rfl, he, ho.imp id id⟩
    · exact ⟨e', by omega, hlt, ho⟩

/-- Entries are spelled out as before while what they say stays. -/
theorem Spelled.released {e' : ℕ} (h : Spelled m.ram L d e') (hr : Released m L m' L' olds)
    (ht : Owner.table d e' ∉ olds) (hu : ∀ j < 1024, Owner.user d (e' * 1024 + j) ∉ olds) :
    Spelled m'.ram L' d e' := by
  unfold Spelled at h ⊢
  rw [hr.ram, hr.shrunk.kept _ ht]
  cases htab : L.owns (.table d e') with
  | none =>
    rw [htab] at h
    exact h
  | some t =>
    rw [htab] at h
    exact ⟨h.1, fun j hj => (h.2 j hj).congr (hr.shrunk.kept _ (hu j hj))⟩

/-- Without a table no page is mapped. -/
theorem Released.of_bare (h : Released m L m' L' olds) (ht : L.owns (.table d e) = none)
    (hu : ∀ j < 1024, L.owns (.user d (e * 1024 + j)) = none) :
    Released m L m' L' (({Owner.table d e} ∪ tablePages d e 0) ∪ olds) := by
  have hnone : ∀ o ∈ {Owner.table d e} ∪ tablePages d e 0, L.owns o = none := by
    rintro o (rfl | ⟨j, -, hj, rfl⟩)
    · exact ht
    · exact hu j hj
  refine ⟨h.same, h.ram, h.marked, ?_, ?_⟩
  · intro o ho
    by_cases hmem : o ∈ olds
    · exact h.shrunk.gone o hmem
    · rw [h.shrunk.kept o hmem]
      exact hnone o (ho.resolve_right hmem)
  · exact fun o ho => h.shrunk.kept o fun h2 => ho (.inr h2)

/-- The outer loop of `release_proc_resource` frees the user half of the directory in use. -/
theorem releasePdes_spec {pgdir : ℕ} (hself : SelfMapped m.ram m.cr3) (hm : Marked m.pools L)
    (hwalk : ∀ e < 768, walk m.ram m.cr3 (pgdir + e * 4) = some (m.cr3, e))
    (hspelled : ∀ e', e ≤ e' → e' < 768 → Spelled m.ram L m.cr3 e')
    (hbare : ∀ e', e ≤ e' → e' < 768 → L.owns (.table m.cr3 e') = none →
      ∀ j < 1024, L.owns (.user m.cr3 (e' * 1024 + j)) = none)
    (hend : e + left = 768) :
    ∃ m' L', releasePdes pgdir left e m = .ok m' ∧ Released m L m' L' (userHalf m.cr3 e) := by
  induction left generalizing e m L with
  | zero =>
    have hnil : userHalf m.cr3 e = ∅ := by
      apply Set.eq_empty_of_forall_notMem
      rintro o ⟨e', h1, h2, -⟩
      omega
    exact ⟨m, L, rfl, by rw [hnil]; exact .refl hm⟩
  | succ left ih =>
    have he : e < 768 := by omega
    have hspell := hspelled e le_rfl he
    unfold releasePdes
    rw [Machine.load, hwalk e he]
    dsimp only
    rw [ok_bind, userHalf_succ he]
    unfold Spelled at hspell
    cases ht : L.owns (.table m.cr3 e) with
    | none =>
      rw [ht] at hspell
      rw [if_neg (by rwa [and_one_ne_zero])]
      obtain ⟨m', L', hrun, hrel⟩ := @ih m L (e + 1) hself hm hwalk
        (fun e' hle hlt => hspelled e' (by omega) hlt)
        (fun e' hle hlt => hbare e' (by omega) hlt) (by omega)
      exact ⟨m', L', hrun, hrel.of_bare ht (hbare e le_rfl he ht)⟩
    | some t =>
      rw [ht] at hspell
      obtain ⟨hentry, hpages⟩ := hspell
      have hptr : ptePtr (e * 0x400000) = 0xffc00000 + e * 4096 := by
        have hd : dirIndex (e * 0x400000) = e := by
          unfold dirIndex
          omega
        have hi : tableIndex (e * 0x400000) = 0 := by
          unfold tableIndex
          omega
        rw [ptePtr_eq (by omega), hd, hi, Nat.zero_mul, Nat.add_zero]
      obtain ⟨m₁, L₁, hptes, hrel₁⟩ := @releasePtes_spec m L e t 1024 0 hself he hm hentry
        (fun j _ hj => hpages j hj) (by norm_num)
      have ht₁ : L₁.owns (.table m.cr3 e) = some t := by
        rw [hrel₁.shrunk.kept _ (by rintro ⟨j, -, -, heq⟩; cases heq), ht]
      have hrel₂ := hrel₁.trans (hrel₁.marked.released ht₁)
      rw [hentry, if_pos (by rw [and_one_ne_zero]; exact present_entry t), hptr, hptes, ok_bind,
        entry_and_page (hrel₁.marked.frame_lt ht₁)]
      rw [Set.union_comm] at hrel₂
      have hcr3 := hrel₂.same.cr3
      have hram := hrel₂.ram
      have hout (e' : ℕ) (hle : e + 1 ≤ e') (j : ℕ) (hj : j < 1024) :
          Owner.user m.cr3 (e' * 1024 + j) ∉ {Owner.table m.cr3 e} ∪ tablePages m.cr3 e 0 := by
        rintro (heq | ⟨j', -, hj', heq⟩)
        · cases heq
        · obtain ⟨-, heq⟩ := Owner.user.inj heq
          omega
      have hout' (e' : ℕ) (hle : e + 1 ≤ e') :
          Owner.table m.cr3 e' ∉ {Owner.table m.cr3 e} ∪ tablePages m.cr3 e 0 := by
        rintro (heq | ⟨j', -, hj', heq⟩)
        · obtain ⟨-, heq⟩ := Owner.table.inj heq
          omega
        · cases heq
      obtain ⟨m', L', hrun, hrest⟩ := @ih (pfree m₁ (t * 4096)) _ (e + 1)
        (by rwa [hram, hcr3]) hrel₂.marked (by rwa [hram, hcr3])
        (fun e' hle hlt => by
          rw [hcr3]
          exact (hspelled e' (by omega) hlt).released hrel₂ (hout' e' hle) (hout e' hle))
        (fun e' hle hlt hnone j hj => by
          rw [hcr3] at hnone ⊢
          rw [hrel₂.shrunk.kept _ (hout' e' hle)] at hnone
          rw [hrel₂.shrunk.kept _ (hout e' hle j hj)]
          exact hbare e' (by omega) hlt hnone j hj) (by omega)
      rw [hcr3] at hrest
      exact ⟨m', L', hrun, hrel₂.trans hrest⟩

end Release

/-- Tasks end; the ones that go on keep what they are kept in and what they have mapped. -/
structure Leaves (s : State) (G : Layout) (s' : State) (G' : Layout) : Prop where
  addressed : Addressed {.kernel} s'.machine G'
  threads : s'.threads ⊆ s.threads
  live : ∀ q ∈ s'.threads, q ∉ s'.hanging → q ∉ s.hanging
  tasks : ∀ q ∈ s'.threads, s'.machine.tasks q = s.machine.tasks q
  uses : ∀ u n, s'.Uses u n → G'.owns (.kernel n) = G.owns (.kernel n)
  user : ∀ q ∈ s'.threads, q ∉ s'.hanging → ∀ d, DirOf s.machine G q d →
    (∀ n, G'.owns (.user d n) = G.owns (.user d n)) ∧ (d ∈ G.spaces → d ∈ G'.spaces)
  running_mem : s'.machine.running ∈ s'.threads
  running_notMem : s'.machine.running ∉ s'.hanging
  cr3 : DirOf s.machine G s'.machine.running s'.machine.cr3
  hanging_sub : s'.hanging ⊆ s'.threads
  dir : ∀ q ∈ s'.threads, ∀ d ∈ G.dirs, DirOf s.machine G q d → d ∈ G'.dirs
  dirs : ∀ d ∈ G'.dirs, d ≠ kernelDir →
    ∃ q ∈ s'.threads, (s.machine.tasks q).pgdir ≠ none ∧ DirOf s.machine G q d
  closed : ∀ q ∈ s'.hanging, (s.machine.tasks q).pgdir ≠ none →
    ∀ d, DirOf s.machine G q d → d ∉ G'.spaces

section Leaving

variable {s s' : State} {m m' : Machine} {G G' : Layout} {q d n : ℕ} {u : Use}

theorem Leaves.uses_of (h : Leaves s G s' G') (hu : s'.Uses u n) : s.Uses u n := by
  cases u with
  | pcb q => exact ⟨h.threads hu.1, hu.2⟩
  | pgdir q =>
    obtain ⟨hq, v, hv, hn⟩ := hu
    exact ⟨h.threads hq, v, by rwa [← h.tasks q hq], hn⟩
  | bitmap q =>
    obtain ⟨hq, hh, hp, hle, hlt⟩ := hu
    rw [h.tasks q hq] at hp hle hlt
    exact ⟨h.threads hq, h.live q hq hh, hp, hle, hlt⟩

theorem Leaves.dirOf_iff (h : Leaves s G s' G') (hq : q ∈ s'.threads) :
    DirOf s'.machine G' q d ↔ DirOf s.machine G q d := by
  unfold DirOf
  rw [h.tasks q hq]
  cases hv : (s.machine.tasks q).pgdir with
  | none => rfl
  | some v =>
    dsimp only
    rw [h.uses (.pgdir q) _ ⟨hq, v, by rwa [h.tasks q hq], rfl⟩]

/-- The invariant speaks of the tasks that are left. -/
theorem Sound.leave (hs : Sound s G) (h : Leaves s G s' G') : Sound s' G' where
  coherent := h.addressed.coherent
  held := h.addressed.held
  kernel := h.addressed.tracked .kernel rfl
  kernelBase := h.addressed.kernelBase
  kernelPages := h.addressed.kernelPages
  running_mem := h.running_mem
  running_notMem := h.running_notMem
  hanging_sub := h.hanging_sub
  cr3 := (h.dirOf_iff h.running_mem).mpr h.cr3
  dir := fun q hq => by
    obtain ⟨d, hd, hdir⟩ := hs.dir q (h.threads hq)
    exact ⟨d, h.dir q hq d hd hdir, (h.dirOf_iff hq).mpr hdir⟩
  user := fun q hq hh => by
    obtain ⟨d, hd, htrack, hsize⟩ := hs.user q (h.threads hq) (h.live q hq hh)
    obtain ⟨heq, hspace⟩ := h.user q hq hh d hd
    refine ⟨d, (h.dirOf_iff hq).mpr hd, ?_, ?_⟩
    · rw [h.tasks q hq]
      exact (show Tracked _ (Owner.ofPage .user d) _ from htrack).other heq
    · rw [h.tasks q hq]
      exact fun hproc => (hsize hproc).imp_left hspace
  dirs := fun d hd hne => by
    obtain ⟨q, hq, hproc, hdir⟩ := h.dirs d hd hne
    exact ⟨q, hq, by rwa [h.tasks q hq], (h.dirOf_iff hq).mpr hdir⟩
  closed := fun q hq hproc d hd => by
    have hmem := h.hanging_sub hq
    rw [h.tasks q hmem] at hproc
    exact h.closed q hq hproc d ((h.dirOf_iff hmem).mp hd)
  owned := fun u n hu => by
    rw [h.uses u n hu]
    exact hs.owned u n (h.uses_of hu)
  uses_inj := fun u u' n hu hu' => hs.uses_inj u u' n (h.uses_of hu) (h.uses_of hu')
  aligned := fun q hq => by
    obtain ⟨h1, h2⟩ := hs.aligned q (h.threads hq)
    rw [h.tasks q hq]
    exact ⟨h1, fun hh => h2 (h.live q hq hh)⟩
  bare := fun q hq hnone => by
    rw [h.tasks q hq] at hnone ⊢
    exact hs.bare q (h.threads hq) hnone

/-- The user half of a directory is its tables and user pages. -/
theorem notMem_userHalf {o : Owner} (ht : ∀ e, o ≠ .table d e) (hu : ∀ n, o ≠ .user d n) :
    o ∉ userHalf d 0 := by
  rintro ⟨e, -, -, rfl | ⟨j, -, -, rfl⟩⟩
  · exact ht e rfl
  · exact hu _ rfl

/-- After the loops of `release_proc_resource` nothing is left of the user half. -/
theorem Sound.releasePdes (hs : Sound s G) {v : ℕ}
    (hv : (s.machine.tasks s.machine.running).pgdir = some v) :
    ∃ m' L', Memory.releasePdes v 768 0 s.machine = .ok m' ∧
      Released s.machine G.ledger m' L' (userHalf s.machine.cr3 0) ∧
      Coherent m' ((G.closeSpace s.machine.cr3).withLedger L') := by
  have hproc : (s.machine.tasks s.machine.running).pgdir ≠ none := by
    rw [hv]
    exact Option.some_ne_none _
  have hspace := hs.cr3_cases.resolve_left fun h => hproc h.1
  have hc := hs.coherent
  have hdir := hs.cr3
  unfold DirOf at hdir
  rw [hv] at hdir
  obtain ⟨halign, howns⟩ := hdir
  have hpage : v = v / 4096 * 4096 := by omega
  have hbare (e : ℕ) (he : e < 768) (hnone : G.ledger.owns (.table s.machine.cr3 e) = none) (j : ℕ)
      (hj : j < 1024) : G.ledger.owns (.user s.machine.cr3 (e * 1024 + j)) = none := by
    apply hc.user_none_of_table
    rwa [show (e * 1024 + j) / 1024 = e by omega]
  obtain ⟨m', L', hrun, hrel⟩ := @releasePdes_spec s.machine G.ledger 0 768 v
    (hc.encoded.selfMapped _ hs.cr3_mem) hc.marked
    (fun e he => by
      rw [hpage]
      exact @Coherent.walk_page s.machine G .kernel _ _ hc hs.cr3_mem howns e (by omega))
    (fun e _ he => hc.spelled hspace.2 he) (fun e _ he => hbare e he) (by norm_num)
  have hother {o : Owner} (h1 : ∀ e, o ≠ .table s.machine.cr3 e)
      (h2 : ∀ n, o ≠ .user s.machine.cr3 n) : L'.owns o = G.owns o :=
    hrel.shrunk.kept _ (notMem_userHalf h1 h2)
  have htable (e : ℕ) : L'.owns (.table s.machine.cr3 e) = none := by
    by_cases he : e < 768
    · exact hrel.shrunk.gone _ ⟨e, Nat.zero_le _, he, .inl rfl⟩
    · rw [hrel.shrunk.kept]
      · by_contra hne
        obtain ⟨t, ht⟩ := Option.ne_none_iff_exists'.mp hne
        exact he (hc.encoded.tableEntry _ _ _ ht).2.1
      · rintro ⟨e', -, he', heq | ⟨j, -, -, heq⟩⟩
        · obtain ⟨-, rfl⟩ := Owner.table.inj heq
          exact he he'
        · cases heq
  have huser (n : ℕ) : L'.owns (.user s.machine.cr3 n) = none := by
    by_cases hn : n / 1024 < 768
    · apply hrel.shrunk.gone
      exact ⟨n / 1024, Nat.zero_le _, hn, .inr ⟨n % 1024, Nat.zero_le _, by omega,
        congrArg _ (by omega)⟩⟩
    · rw [hrel.shrunk.kept]
      · apply hc.user_none_of_table
        by_contra hne
        obtain ⟨t, ht⟩ := Option.ne_none_iff_exists'.mp hne
        exact hn (hc.encoded.tableEntry _ _ _ ht).2.1
      · rintro ⟨e', -, he', heq | ⟨j, -, hj, heq⟩⟩
        · cases heq
        · obtain ⟨-, rfl⟩ := Owner.user.inj heq
          omega
  refine ⟨m', L', hrun, hrel, hrel.marked, ?_⟩
  rw [hrel.ram]
  apply hc.encoded.closeSpace htable huser
  · exact fun n => hother (by simp) (by simp)
  · exact fun d' e hd => hother (by simpa using fun h => absurd h hd) (by simp)
  · exact fun d' n hd => hother (by simp) (by simpa using fun h => absurd h hd)

/-- The bitmap of the kernel heap is in no PCB. -/
theorem setVaddrs_kernel_tasks (m : Machine) (btmp : Bitmap) :
    (m.setVaddrs .kernel btmp).tasks = m.tasks := rfl

/-- `release_proc_resource` frees 22 pages of the bitmap of a process. -/
theorem userBitmapLen_pages : userBitmapLen / pgSize = 22 := by
  decide

theorem bitmapPgCnt_eq : bitmapPgCnt = 23 := by
  decide

/-- `release_proc_resource` of a process: its user half and 22 pages of the heap are free. -/
theorem Sound.releaseProcResource (hs : Sound s G)
    (hproc : (s.machine.tasks s.machine.running).pgdir ≠ none) :
    ∃ m' L' n, Memory.releaseProcResource s.machine s.machine.running = .ok m' ∧
      n = (s.machine.tasks s.machine.running).userprocVaddr.bits / 4096 ∧
      Addressed {.kernel} m' ((G.closeSpace s.machine.cr3).withLedger L') ∧
      m'.cr3 = s.machine.cr3 ∧ m'.tasks = s.machine.tasks ∧ m'.running = s.machine.running ∧
      Shrunk G.ledger L' (userHalf s.machine.cr3 0 ∪ pages .kernel s.machine.cr3 n 22) := by
  obtain ⟨v, hv⟩ := Option.ne_none_iff_exists'.mp hproc
  obtain ⟨d, hd, -, hsize⟩ := hs.user _ hs.running_mem hs.running_notMem
  obtain ⟨-, -, hlen⟩ := hsize hproc
  obtain ⟨-, hbits⟩ := hs.aligned _ hs.running_mem
  obtain ⟨m₁, L₁, hrun, hrel, hc₁⟩ := hs.releasePdes hv
  set va := (s.machine.tasks s.machine.running).userprocVaddr with hva
  have hpage : va.bits = va.bits / 4096 * 4096 := by
    have := hbits hs.running_notMem
    omega
  have hkernel (n : ℕ) : L₁.owns (.kernel n) = G.owns (.kernel n) :=
    hrel.shrunk.kept _ (notMem_userHalf (by simp) (by simp))
  have hheld (pf : PoolFlags) : L₁.owns (.held pf) = none := by
    rw [hrel.shrunk.kept _ (notMem_userHalf (by simp) (by simp))]
    exact hs.held pf
  have ha₁ : Addressed {.kernel} m₁ ((G.closeSpace s.machine.cr3).withLedger L₁) := by
    refine ⟨hc₁, ?_, hheld, ?_, ?_, ?_, ?_⟩
    · rw [hrel.same.cr3]
      exact hs.cr3_mem
    · rintro pf rfl
      rw [hrel.same.vaddrs]
      exact (show Tracked _ (Owner.ofPage .kernel s.machine.cr3) _ from hs.kernel).other hkernel
    · rw [hrel.same.vaddrs]
      exact hs.kernelBase
    · rw [hrel.same.vaddrs]
      exact hs.kernelPages
    · rw [hrel.same.cr3]
      exact fun h => absurd rfl h.2
  have huses (i : ℕ) (hi : i < 22) : s.Uses (.bitmap s.machine.running) (va.bits / 4096 + i) := by
    refine ⟨hs.running_mem, hs.running_notMem, hproc, Nat.le_add_right .., ?_⟩
    rw [bitmapPgCnt_eq]
    exact Nat.add_lt_add_left (by omega) _
  obtain ⟨m₂, L₂, hfree, ha₂, hsh, hsame, -⟩ :=
    @mfreePage_addressed {.kernel} m₁ _ .kernel (va.bits / 4096) 22 ha₁ rfl (by norm_num) (by
      intro i hi
      obtain ⟨f, hf⟩ := hs.owned _ _ (huses i hi)
      refine ⟨f, (hkernel _).trans hf, fun hmem => ?_⟩
      have hge := hs.coherent.marked.kernel_ge hf
      obtain ⟨q, hq, hprocq, hdirq⟩ := hs.dirs f hmem (by unfold kernelDir; omega)
      obtain ⟨n', hn', ho'⟩ := pgdir_uses hq hprocq hdirq
      obtain rfl : va.bits / 4096 + i = n' := by simpa using G.ledger.inj hf ho'
      cases hs.uses_inj _ _ _ (huses i hi) hn')
  have hcr3 : m₂.cr3 = s.machine.cr3 := by
    rw [hsame.cr3, setVaddrs_cr3, hrel.same.cr3]
  refine ⟨m₂, L₂, va.bits / 4096, ?_, rfl, ha₂, hcr3, ?_, ?_, ?_⟩
  · unfold Memory.releaseProcResource
    simp only [hv, ← hva, hlen, userBitmapLen_pages, hrun, ok_bind]
    rw [hpage]
    exact hfree
  · rw [hsame.tasks, setVaddrs_kernel_tasks, hrel.same.tasks]
  · rw [hsame.running, setVaddrs_running, hrel.same.running]
  · rw [hrel.same.cr3] at hsh
    exact hrel.shrunk.trans hsh

/-- An exit of a process returns: its user half and 22 pages of its bitmap are gone, and another
task runs. -/
theorem Sound.exits (hs : Sound s G) {next : ℕ}
    (hproc : (s.machine.tasks s.machine.running).pgdir ≠ none)
    (hnext : next ∈ s.threads) (hlive : next ∉ s.hanging) (hne : next ≠ s.machine.running) :
    ∃ m m' G', Memory.releaseProcResource s.machine s.machine.running = .ok m ∧
      switchTo m next = .ok m' ∧
      Leaves s G ⟨m', s.threads, insert s.machine.running s.hanging⟩ G' ∧
      ∀ o, o ∉ userHalf s.machine.cr3 0 → (∀ i < 22, o ≠ .kernel
        ((s.machine.tasks s.machine.running).userprocVaddr.bits / 4096 + i)) →
        G'.owns o = G.owns o := by
  obtain ⟨m, L, n, hrel, rfl, ha, hcr3, htasks, hrun, hsh⟩ := hs.releaseProcResource hproc
  obtain ⟨d, hd, hdir⟩ := hs.dir next hnext
  have hkept {o : Owner} (h1 : o ∉ userHalf s.machine.cr3 0) (h2 : ∀ i < 22, o ≠ .kernel
      ((s.machine.tasks s.machine.running).userprocVaddr.bits / 4096 + i)) :
      L.owns o = G.owns o := by
    apply hsh.kept
    rintro (ho | ⟨i, hi, rfl⟩)
    · exact h1 ho
    · exact h2 i hi rfl
  have hkernel {u : Use} {n : ℕ} (hu : s.Uses u n) (hbit : u ≠ .bitmap s.machine.running) :
      L.owns (.kernel n) = G.owns (.kernel n) := by
    refine hkept (notMem_userHalf (by simp) (by simp)) ?_
    · rintro i hi heq
      obtain rfl := Owner.kernel.inj heq
      apply hbit
      apply hs.uses_inj u _ _ hu
      refine ⟨hs.running_mem, hs.running_notMem, hproc, Nat.le_add_right .., ?_⟩
      rw [bitmapPgCnt_eq]
      omega
  have hdirOf : DirOf m ((G.closeSpace s.machine.cr3).withLedger L) next d := by
    unfold DirOf at hdir ⊢
    rw [htasks]
    cases hv : (s.machine.tasks next).pgdir with
    | none =>
      rw [hv] at hdir
      exact hdir
    | some v =>
      rw [hv] at hdir
      refine hdir.imp_right fun ho => ?_
      rw [withLedger_owns, hkernel (u := .pgdir next) ⟨hnext, v, hv, rfl⟩ (by simp), ho]
  have hswitch : switchTo m next = .ok { m with cr3 := d, running := next } := by
    unfold switchTo
    rw [ha.coherent.pageDirActivate ha.cr3_mem hdirOf]
    rfl
  refine ⟨m, _, (G.closeSpace s.machine.cr3).withLedger L, hrel, hswitch, ?_,
    fun o h1 h2 => hkept h1 h2⟩
  have hlives {q : ℕ} (hh : q ∉ insert s.machine.running s.hanging) :
      q ≠ s.machine.running ∧ q ∉ s.hanging := by
    simpa [not_or] using hh
  have hdir_ne {q d : ℕ} (hq : q ∈ s.threads) (hqr : q ≠ s.machine.running)
      (hdq : DirOf s.machine G q d) : d ≠ s.machine.cr3 := by
    rintro rfl
    exact hqr (hs.dir_inj hs.running_mem hq hproc hs.cr3 hdq).symm
  exact {
    addressed := by
      refine ⟨⟨ha.coherent.marked, ha.coherent.encoded⟩, hd, ha.held, ?_, ha.kernelBase,
        ha.kernelPages, ?_⟩
      · rintro pf rfl
        exact ha.tracked .kernel rfl
      · intro hspace
        have hprocn : (s.machine.tasks next).pgdir ≠ none := by
          intro hnone
          unfold DirOf at hdir
          rw [hnone] at hdir
          rw [hdir] at hspace
          exact hs.coherent.encoded.kernelDir_notMem hspace.1
        obtain ⟨d', hd', -, hsize⟩ := hs.user next hnext hlive
        obtain ⟨-, hstart, hlen⟩ := hsize hprocn
        have := userSpace_end
        simp only [Machine.vaddrs, VirtualAddr.base, VirtualAddr.pages, htasks, hstart, hlen]
        omega
    threads := Finset.Subset.refl _
    live := fun q _ hh => (hlives hh).2
    tasks := fun q _ => congrFun htasks q
    uses := fun u n hu => by
      cases u with
      | pcb q => exact hkernel (u := .pcb q) hu (by simp)
      | pgdir q =>
        obtain ⟨hq, v, hv, rfl⟩ := hu
        refine hkernel (u := .pgdir q) ⟨hq, v, ?_, rfl⟩ (by simp)
        rwa [← congrFun htasks q]
      | bitmap q =>
        obtain ⟨hq, hh, hp, hlo, hhi⟩ := hu
        change (m.tasks q).pgdir ≠ none at hp
        change (m.tasks q).userprocVaddr.bits / 4096 ≤ n at hlo
        change n < (m.tasks q).userprocVaddr.bits / 4096 + bitmapPgCnt at hhi
        rw [htasks] at hp hlo hhi
        refine hkernel (u := .bitmap q) ⟨hq, (hlives hh).2, hp, hlo, hhi⟩ ?_
        intro heq
        exact (hlives hh).1 (Use.bitmap.inj heq)
    user := fun q hq hh d hdq => by
      have hned := hdir_ne hq (hlives hh).1 hdq
      refine ⟨fun x => ?_, fun hspace => ⟨hspace, hned⟩⟩
      exact hkept (notMem_userHalf (by simp) (by simp [hned])) (by simp)
    running_mem := hnext
    running_notMem := by simp [hne, hlive]
    cr3 := hdir
    hanging_sub := by
      intro q hq
      obtain rfl | hq := Finset.mem_insert.mp hq
      · exact hs.running_mem
      · exact hs.hanging_sub hq
    dir := fun _ _ _ hd' _ => hd'
    dirs := hs.dirs
    closed := fun q hq hprocq d hdq => by
      obtain rfl | hq := Finset.mem_insert.mp hq
      · obtain rfl := hs.cr3.unique hdq
        exact fun h => h.2 rfl
      · exact fun h => hs.closed q hq hprocq d hdq h.1 }

/-- An exit: the user half of the process is gone, and another task runs. -/
theorem Sound.sysExit (hs : Sound s G) {next : ℕ}
    (hrel : Memory.releaseProcResource s.machine s.machine.running = .ok m)
    (hnext : next ∈ s.threads) (hlive : next ∉ s.hanging) (hne : next ≠ s.machine.running)
    (hswitch : switchTo m next = .ok m') :
    ∃ G', Sound ⟨m', s.threads, insert s.machine.running s.hanging⟩ G' := by
  have hproc : (s.machine.tasks s.machine.running).pgdir ≠ none := by
    intro hnone
    unfold Memory.releaseProcResource at hrel
    simp only [hnone] at hrel
    cases hrel
  obtain ⟨m₁, m₂, G', hrel', hswitch', h, -⟩ := hs.exits hproc hnext hlive hne
  obtain rfl := Except.ok.inj (hrel.symm.trans hrel')
  obtain rfl := Except.ok.inj (hswitch.symm.trans hswitch')
  exact ⟨G', hs.leave h⟩

/-- A page of the heap that holds no directory is given back. -/
theorem Addressed.freeHeapPage (h : Addressed {.kernel} m G) {f : ℕ}
    (hf : G.owns (.kernel n) = some f) (hdir : f ∉ G.dirs) :
    ∃ m' L', Memory.mfreePage m .kernel (n * 4096) 1 = .ok m' ∧
      Addressed {.kernel} m' (G.withLedger L') ∧ m'.cr3 = m.cr3 ∧ m'.tasks = m.tasks ∧
      m'.running = m.running ∧ Shrunk G.ledger L' {Owner.kernel n} := by
  obtain ⟨m', L', hfree, ha, hsh, hsame, -⟩ :=
    @mfreePage_addressed {.kernel} m G .kernel n 1 h rfl (by norm_num) (by
      intro i hi
      obtain rfl : i = 0 := by omega
      exact ⟨f, hf, hdir⟩)
  rw [pages_one] at hsh
  refine ⟨m', L', hfree, ha, ?_, ?_, ?_, hsh⟩
  · rw [hsame.cr3, setVaddrs_cr3]
  · rw [hsame.tasks, setVaddrs_kernel_tasks]
  · rw [hsame.running, setVaddrs_running]

/-- `thread_exit` in its steps: the directory, the PCB, the pid. -/
theorem threadExit_eq (m : Machine) (child : ℕ) : threadExit m child =
    (m.tasks child).pgdir.elim (.ok m) (fun pgdir => mfreePage m .kernel pgdir 1) >>= fun m₁ =>
      (if child ≠ mainThread then mfreePage m₁ .kernel child 1 else .ok m₁) >>= fun m₂ =>
        .ok (releasePid m₂ (m₂.tasks child).pid) := by
  unfold threadExit
  by_cases hmain : child ≠ mainThread
  · simp only [if_pos hmain]
    cases (m.tasks child).pgdir <;> rfl
  · simp only [if_neg hmain]
    cases (m.tasks child).pgdir <;> rfl

/-- A wait frees the directory of the child, if it has one; no task has it as its own. -/
theorem Sound.freeDir (hs : Sound s G) {child : ℕ} (hchild : child ∈ s.threads)
    (hhang : child ∈ s.hanging) :
    ∃ m₁ G₁, (s.machine.tasks child).pgdir.elim (.ok s.machine)
        (fun pgdir => Memory.mfreePage s.machine .kernel pgdir 1) = .ok m₁ ∧
      Addressed {.kernel} m₁ G₁ ∧ m₁.cr3 = s.machine.cr3 ∧ m₁.tasks = s.machine.tasks ∧
      m₁.running = s.machine.running ∧ G₁.spaces = G.spaces ∧
      (∀ d, d ∈ G₁.dirs ↔ d ∈ G.dirs ∧
        ¬ ((s.machine.tasks child).pgdir ≠ none ∧ DirOf s.machine G child d)) ∧
      (∀ o, (∀ n, s.Uses (.pgdir child) n → o ≠ .kernel n) → G₁.owns o = G.owns o) := by
  have ha : Addressed {.kernel} s.machine G :=
    ⟨hs.coherent, hs.cr3_mem, hs.held, fun pf _ => hs.addressed.tracked pf trivial, hs.kernelBase,
      hs.kernelPages, hs.addressed.userPages⟩
  cases hv : (s.machine.tasks child).pgdir with
  | none =>
    exact ⟨_, G, rfl, ha, rfl, rfl, rfl, rfl, fun d => by simp, fun _ _ => rfl⟩
  | some v =>
    have hproc : (s.machine.tasks child).pgdir ≠ none := by
      rw [hv]
      exact Option.some_ne_none _
    obtain ⟨d, hd, hdir⟩ := hs.dir child hchild
    have howns := hdir
    unfold DirOf at howns
    rw [hv] at howns
    obtain ⟨halign, howns⟩ := howns
    have hne := hs.ne_kernelDir hchild hproc hdir
    have hspace := hs.closed child hhang hproc d hdir
    have hcr3 : s.machine.cr3 ≠ d := by
      rintro rfl
      obtain rfl := hs.dir_inj hchild hs.running_mem hproc hdir hs.cr3
      exact hs.running_notMem hhang
    have ha' : Addressed {.kernel} s.machine (G.dropDir d) :=
      ⟨⟨ha.coherent.marked, ha.coherent.encoded.dropDir hspace hne⟩, ⟨ha.cr3_mem, hcr3⟩, ha.held,
        ha.tracked, ha.kernelBase, ha.kernelPages, ha.userPages⟩
    obtain ⟨m', L', hfree, ha₁, h1, h2, h3, hsh⟩ :=
      @Addressed.freeHeapPage s.machine (G.dropDir d) (v / 4096) ha' d howns fun h => h.2 rfl
    rw [show v / 4096 * 4096 = v by omega] at hfree
    refine ⟨_, _, hfree, ha₁, h1, h2, h3, rfl, fun d' => ?_, fun o ho => ?_⟩
    · change d' ∈ G.dirs ∧ d' ∉ {d} ↔ _
      rw [Set.mem_singleton_iff]
      refine and_congr_right fun _ => not_congr ⟨?_, fun hd' => hd'.2.unique hdir⟩
      rintro rfl
      exact ⟨Option.some_ne_none _, hdir⟩
    · exact hsh.kept o (ho _ ⟨hchild, v, hv, rfl⟩)

/-- A wait returns: the child is gone from the lists, and its directory and PCB are free. -/
theorem Sound.waits (hs : Sound s G) {child : ℕ} (hchild : child ∈ s.threads)
    (hhang : child ∈ s.hanging) :
    ∃ m' G', Memory.threadExit s.machine child = .ok m' ∧
      Leaves s G ⟨m', s.threads.erase child, s.hanging.erase child⟩ G' ∧
      ∀ o, (∀ n, s.Uses (.pgdir child) n → o ≠ .kernel n) →
        (∀ n, s.Uses (.pcb child) n → o ≠ .kernel n) → G'.owns o = G.owns o := by
  obtain ⟨m₁, G₁, hdirs, ha₁, hcr3, htasks, hrun, hspaces, hdir₁, hkept₁⟩ := hs.freeDir hchild hhang
  obtain ⟨m₂, G₂, hpcb, ha₂, hcr3₂, htasks₂, hrun₂, hspaces₂, hdirs₂, hkept₂⟩ : ∃ m₂ G₂,
      (if child ≠ mainThread then Memory.mfreePage m₁ .kernel child 1 else .ok m₁) = .ok m₂ ∧
      Addressed {.kernel} m₂ G₂ ∧ m₂.cr3 = m₁.cr3 ∧ m₂.tasks = m₁.tasks ∧
      m₂.running = m₁.running ∧ G₂.spaces = G₁.spaces ∧ G₂.dirs = G₁.dirs ∧
      (∀ o, (∀ n, s.Uses (.pcb child) n → o ≠ .kernel n) → G₂.owns o = G₁.owns o) := by
    by_cases hmain : child ≠ mainThread
    · rw [if_pos hmain]
      have huse : s.Uses (.pcb child) (child / 4096) := ⟨hchild, hmain, rfl⟩
      obtain ⟨f, hf⟩ := hs.owned _ _ huse
      have hf₁ : G₁.owns (.kernel (child / 4096)) = some f := by
        rw [hkept₁, hf]
        intro x hx heq
        obtain rfl := Owner.kernel.inj heq
        cases hs.uses_inj _ _ _ huse hx
      have hnot : f ∉ G₁.dirs := by
        intro hmem
        have hge := hs.coherent.marked.kernel_ge hf
        obtain ⟨q, hq, hprocq, hdirq⟩ := hs.dirs f ((hdir₁ f).mp hmem).1 (by unfold kernelDir; omega)
        obtain ⟨x, hx, ho⟩ := pgdir_uses hq hprocq hdirq
        obtain rfl : child / 4096 = x := by simpa using G.ledger.inj hf ho
        cases hs.uses_inj _ _ _ huse hx
      obtain ⟨m', L', hfree, ha₂, h1, h2, h3, hsh⟩ := ha₁.freeHeapPage hf₁ hnot
      obtain ⟨halign, -⟩ := hs.aligned child hchild
      rw [show child / 4096 * 4096 = child by omega] at hfree
      exact ⟨_, _, hfree, ha₂, h1, h2, h3, rfl, rfl, fun o ho => hsh.kept o (ho _ huse)⟩
    · rw [if_neg hmain]
      exact ⟨m₁, G₁, rfl, ha₁, rfl, rfl, rfl, rfl, rfl, fun _ _ => rfl⟩
  have hwas {d : ℕ} (hd : d ∈ G₂.dirs) : d ∈ G.dirs ∧
      ¬ ((s.machine.tasks child).pgdir ≠ none ∧ DirOf s.machine G child d) := by
    rw [hdirs₂] at hd
    exact (hdir₁ d).mp hd
  have hkept {o : Owner} (h1 : ∀ n, s.Uses (.pgdir child) n → o ≠ .kernel n)
      (h2 : ∀ n, s.Uses (.pcb child) n → o ≠ .kernel n) : G₂.owns o = G.owns o := by
    rw [hkept₂ o h2, hkept₁ o h1]
  have hfar {u : Use} {n : ℕ} (hu : s.Uses u n) (h1 : u ≠ .pgdir child) (h2 : u ≠ .pcb child) :
      G₂.owns (.kernel n) = G.owns (.kernel n) := by
    apply hkept
    · rintro x hx heq
      obtain rfl := Owner.kernel.inj heq
      exact h1 (hs.uses_inj _ _ _ hu hx)
    · rintro x hx heq
      obtain rfl := Owner.kernel.inj heq
      exact h2 (hs.uses_inj _ _ _ hu hx)
  have htask (q : ℕ) : (releasePid m₂ (m₂.tasks child).pid).tasks q = s.machine.tasks q := by
    change m₂.tasks q = _
    rw [htasks₂, htasks]
  have hrunning : m₂.running = s.machine.running := hrun₂.trans hrun
  have hne : s.machine.running ≠ child := by
    rintro rfl
    exact hs.running_notMem hhang
  have hexit : Memory.threadExit s.machine child =
      .ok (releasePid m₂ (m₂.tasks child).pid) := by
    rw [threadExit_eq, hdirs, ok_bind, hpcb, ok_bind]
  refine ⟨_, G₂, hexit, ?_, fun o h1 h2 => hkept h1 h2⟩
  exact {
    addressed := ⟨⟨ha₂.coherent.marked, ha₂.coherent.encoded⟩, ha₂.cr3_mem, ha₂.held, ha₂.tracked,
      ha₂.kernelBase, ha₂.kernelPages, ha₂.userPages⟩
    threads := Finset.erase_subset _ _
    live := fun q hq hh hmem => hh (Finset.mem_erase.mpr ⟨(Finset.mem_erase.mp hq).1, hmem⟩)
    tasks := fun q _ => htask q
    uses := fun u n hu => by
      cases u with
      | pcb q =>
        obtain ⟨hq, hmain, rfl⟩ := hu
        obtain ⟨hqc, hq⟩ := Finset.mem_erase.mp hq
        exact hfar (u := .pcb q) ⟨hq, hmain, rfl⟩ (by simp) (by simpa using hqc)
      | pgdir q =>
        obtain ⟨hq, v, hv, rfl⟩ := hu
        obtain ⟨hqc, hq⟩ := Finset.mem_erase.mp hq
        exact hfar (u := .pgdir q) ⟨hq, v, by rwa [← htask q], rfl⟩ (by simpa using hqc) (by simp)
      | bitmap q =>
        obtain ⟨hq, hh, hp, hlo, hhi⟩ := hu
        obtain ⟨hqc, hq⟩ := Finset.mem_erase.mp hq
        dsimp only at hp hlo hhi
        rw [htask] at hp hlo hhi
        refine hfar (u := .bitmap q) ⟨hq, fun hmem => hh ?_, hp, hlo, hhi⟩ (by simp) (by simp)
        exact Finset.mem_erase.mpr ⟨hqc, hmem⟩
    user := fun q _ _ d _ =>
      ⟨fun x => hkept (by simp) (by simp), fun h => by rwa [hspaces₂, hspaces]⟩
    running_mem := by
      change m₂.running ∈ s.threads.erase child
      rw [hrunning]
      exact Finset.mem_erase.mpr ⟨hne, hs.running_mem⟩
    running_notMem := by
      change m₂.running ∉ s.hanging.erase child
      rw [hrunning]
      exact fun h => hs.running_notMem (Finset.mem_erase.mp h).2
    cr3 := by
      change DirOf s.machine G m₂.running m₂.cr3
      rw [hrunning, hcr3₂, hcr3]
      exact hs.cr3
    hanging_sub := Finset.erase_subset_erase _ hs.hanging_sub
    dir := fun q hq d hd hdq => by
      obtain ⟨hqc, hq⟩ := Finset.mem_erase.mp hq
      rw [hdirs₂, hdir₁]
      exact ⟨hd, fun h => hqc (hs.dir_inj hchild hq h.1 h.2 hdq).symm⟩
    dirs := fun d hd hned => by
      obtain ⟨hd, hnot⟩ := hwas hd
      obtain ⟨q, hq, hproc, hdir⟩ := hs.dirs d hd hned
      refine ⟨q, Finset.mem_erase.mpr ⟨?_, hq⟩, hproc, hdir⟩
      rintro rfl
      exact hnot ⟨hproc, hdir⟩
    closed := fun q hq hproc d hd => by
      rw [hspaces₂, hspaces]
      exact hs.closed q (Finset.mem_erase.mp hq).2 hproc d hd }

/-- A wait: the child is gone from the lists, and its pages are free. -/
theorem Sound.sysWait (hs : Sound s G) {child : ℕ} (hchild : child ∈ s.threads)
    (hhang : child ∈ s.hanging) (h : Memory.threadExit s.machine child = .ok m') :
    ∃ G', Sound ⟨m', s.threads.erase child, s.hanging.erase child⟩ G' := by
  obtain ⟨m₁, G', hexit, hleaves, -⟩ := hs.waits hchild hhang
  obtain rfl := Except.ok.inj (h.symm.trans hexit)
  exact ⟨G', hs.leave hleaves⟩

end Leaving

end X86System.Memory
