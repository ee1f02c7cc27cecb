import X86System.Frames

/-!
# Entries of directories and tables

What writing one entry does to the layout. No two tables share a frame and no table
is a directory, so an entry that is written for one page is read back for that page
alone; in particular the kernel half of every directory stays as the loader made it.
-/
namespace X86System.Memory
open Exec Paging

section Disjoint

variable {ram : Ram} {G : Layout} {pools : PoolFlags → Pool}

theorem Marked.kernel_ge (h : Marked pools G.ledger) {o : Owner} {f : ℕ} (ho : G.owns o = some f) :
    0x200 ≤ f := by
  have hin := h.inPool o f ho
  have hapart := h.apart
  have hbase := h.kernelBase
  cases hp : o.pool <;> rw [hp] at hin <;> omega

/-- A page directory that is not the kernel's is a page of the kernel heap. -/
theorem Encoded.dir_ge (h : Encoded ram G) (hm : Marked pools G.ledger) {d : ℕ}
    (hd : d ∈ G.dirs) : d = kernelDir ∨ 0x200 ≤ d := by
  obtain h1 | ⟨n, hn⟩ := h.dirOwned d hd
  · exact .inl h1
  · exact .inr (hm.kernel_ge hn)

theorem Encoded.dir_ne_kernelTable (h : Encoded ram G) (hm : Marked pools G.ledger) {d e : ℕ}
    (hd : d ∈ G.dirs) (he : 768 ≤ e) (he' : e < 1023) : d ≠ kernelTable e := by
  have hk := kernelTable_bounds he he'
  obtain rfl | h1 := h.dir_ge hm hd
  · unfold kernelDir
    omega
  · omega

theorem Encoded.table_notMem (h : Encoded ram G) (hm : Marked pools G.ledger) {d e t : ℕ}
    (ht : G.owns (.table d e) = some t) : t ∉ G.dirs := by
  intro hd
  obtain rfl | ⟨n, hn⟩ := h.dirOwned t hd
  · have := hm.kernel_ge ht
    unfold kernelDir at this
    omega
  · cases G.ledger.inj ht hn

theorem table_ne_kernelTable (hm : Marked pools G.ledger) {d e t e' : ℕ}
    (ht : G.owns (.table d e) = some t) (he : 768 ≤ e') (he' : e' < 1023) : t ≠ kernelTable e' := by
  have hk := kernelTable_bounds he he'
  have := hm.kernel_ge ht
  omega

/-- A table that nobody owns is no part of the structure. -/
theorem not_structural {f : ℕ}
    (hf : 0x200 ≤ f) (hdir : f ∉ G.dirs) (ht : ∀ d e, G.owns (.table d e) ≠ some f) :
    ¬ Structural G f := by
  rintro (h1 | h1 | ⟨d, e, h1⟩)
  · exact hdir h1
  · omega
  · exact ht d e h1

theorem kernelTable_inj {e e' : ℕ} (he : 768 ≤ e) (he' : 768 ≤ e')
    (h : kernelTable e = kernelTable e') : e = e' := by
  unfold kernelTable at h
  omega

theorem page_eq {n n' : ℕ} (h : n / 1024 = n' / 1024) (h' : n % 1024 = n' % 1024) : n = n' := by
  omega

end Disjoint

section Writes

variable {ram : Ram} {G : Layout} {pools : PoolFlags → Pool} {L : Ledger Owner ℕ}
  {d n e t f w : ℕ}

/-- Writing the entry of a page of the kernel heap. -/
theorem Encoded.writeKernel (h : Encoded ram G) (hm : Marked pools G.ledger) (hn : HeapPage n)
    {r : Option ℕ} (hr : ∀ f, r = some f → w = entry f) (hw : r = none → ¬ present w)
    (hdir : ∀ d ∈ G.dirs, G.owns (.kernel n) ≠ some d)
    (hL : ∀ o, (∀ pf, o ≠ .held pf) → L.owns o = if o = .kernel n then r else G.owns o) :
    Encoded (poke ram (kernelTable (n / 1024)) (n % 1024) w) (G.withLedger L) := by
  have hix := hn.index
  have hself : L.owns (.kernel n) = r := by rw [hL _ (by simp), if_pos rfl]
  have hk (n' : ℕ) (hne : n' ≠ n) : L.owns (.kernel n') = G.owns (.kernel n') := by
    rw [hL _ (by simp), if_neg (by simpa using hne)]
  have ht (d e : ℕ) : L.owns (.table d e) = G.owns (.table d e) := by
    rw [hL _ (by simp), if_neg (by simp)]
  have hu (d n' : ℕ) : L.owns (.user d n') = G.owns (.user d n') := by
    rw [hL _ (by simp), if_neg (by simp)]
  have hdirs (d : ℕ) (hd : d ∈ G.dirs) (i : ℕ) :
      poke ram (kernelTable (n / 1024)) (n % 1024) w d i = ram d i :=
    poke_of_frame_ne (h.dir_ne_kernelTable hm hd hix.1 hix.2) i
  have htab (d e t : ℕ) (htt : G.owns (.table d e) = some t) (i : ℕ) :
      poke ram (kernelTable (n / 1024)) (n % 1024) w t i = ram t i :=
    poke_of_frame_ne (table_ne_kernelTable hm htt hix.1 hix.2) i
  have hother (n' : ℕ) (hn' : HeapPage n') (hne : n' ≠ n) :
      poke ram (kernelTable (n / 1024)) (n % 1024) w (kernelTable (n' / 1024)) (n' % 1024) =
        ram (kernelTable (n' / 1024)) (n' % 1024) := by
    by_cases hq : n' / 1024 = n / 1024
    · apply poke_of_word_ne
      intro hmod
      exact hne (page_eq hq hmod)
    · apply poke_of_frame_ne
      intro heq
      exact hq (kernelTable_inj hn'.index.1 hix.1 heq)
  exact {
    kernelDir_mem := h.kernelDir_mem
    kernelDir_notMem := h.kernelDir_notMem
    spaces_subset := h.spaces_subset
    dirOwned := fun d hd => by
      obtain h1 | ⟨n', hn'⟩ := h.dirOwned d hd
      · exact .inl h1
      · refine .inr ⟨n', ?_⟩
        have hne : n' ≠ n := by
          rintro rfl
          exact hdir d hd hn'
        rw [withLedger_owns, hk n' hne, hn']
    kernelHalf := fun d hd e h1 h2 => by rw [hdirs d hd, h.kernelHalf d hd e h1 h2]
    selfMapped := fun d hd => by rw [SelfMapped, hdirs d hd, h.selfMapped d hd]
    kernelLow := by rw [hdirs _ h.kernelDir_mem, h.kernelLow]
    kernelBare := fun e h1 h2 => by
      rw [hdirs _ h.kernelDir_mem]
      exact h.kernelBare e h1 h2
    lowMapped := fun i hi => by
      rw [← h.lowMapped i hi]
      by_cases hq : n / 1024 = 768
      · apply poke_of_word_ne
        unfold HeapPage at hn
        omega
      · apply poke_of_frame_ne
        intro heq
        exact hq (kernelTable_inj (by norm_num) hix.1 heq).symm
    kernelPage := fun n' f hn' => by
      by_cases hne : n' = n
      · subst hne
        rw [withLedger_owns, hself] at hn'
        exact ⟨hn, by rw [poke_self, hr f hn']⟩
      · rw [withLedger_owns, hk n' hne] at hn'
        obtain ⟨hp, he⟩ := h.kernelPage n' f hn'
        exact ⟨hp, by rw [hother n' hp hne, he]⟩
    tableEntry := fun d e t htt => by
      rw [withLedger_owns, ht] at htt
      obtain ⟨hd, he, hr⟩ := h.tableEntry d e t htt
      exact ⟨hd, he, by rw [hdirs d (h.spaces_subset hd), hr]⟩
    noTable := fun d hd e he hn => by
      rw [withLedger_owns, ht] at hn
      rw [hdirs d (h.spaces_subset hd)]
      exact h.noTable d hd e he hn
    userPage := fun d n' f hn' => by
      rw [withLedger_owns, hu] at hn'
      obtain ⟨t, htt, hr⟩ := h.userPage d n' f hn'
      exact ⟨t, by rw [withLedger_owns, ht, htt], by rw [htab d _ t htt, hr]⟩
    noUserPage := fun d n' t htt hn' => by
      rw [withLedger_owns, ht] at htt
      rw [withLedger_owns, hu] at hn'
      rw [htab d _ t htt]
      exact h.noUserPage d n' t htt hn'
    vacant := fun n' hp hn' => by
      by_cases hne : n' = n
      · subst hne
        rw [withLedger_owns, hself] at hn'
        rw [poke_self]
        exact hw hn'
      · rw [withLedger_owns, hk n' hne] at hn'
        rw [hother n' hp hne]
        exact h.vacant n' hp hn' }

/-- Writing the entry of a user page in a table that is there. -/
theorem Encoded.writeUser (h : Encoded ram G) (hm : Marked pools G.ledger)
    (ht : G.owns (.table d (n / 1024)) = some t) {r : Option ℕ} (hr : ∀ f, r = some f → w = entry f)
    (hw : r = none → ¬ present w)
    (hL : ∀ o, (∀ pf, o ≠ .held pf) → L.owns o = if o = .user d n then r else G.owns o) :
    Encoded (poke ram t (n % 1024) w) (G.withLedger L) := by
  have hself : L.owns (.user d n) = r := by rw [hL _ (by simp), if_pos rfl]
  have hk (n' : ℕ) : L.owns (.kernel n') = G.owns (.kernel n') := by
    rw [hL _ (by simp), if_neg (by simp)]
  have htt (d e : ℕ) : L.owns (.table d e) = G.owns (.table d e) := by
    rw [hL _ (by simp), if_neg (by simp)]
  have hu (d' n' : ℕ) (hne : ¬ (d' = d ∧ n' = n)) : L.owns (.user d' n') = G.owns (.user d' n') := by
    rw [hL _ (by simp), if_neg (by simpa using hne)]
  have hdirs (d : ℕ) (hd : d ∈ G.dirs) (i : ℕ) : poke ram t (n % 1024) w d i = ram d i := by
    apply poke_of_frame_ne
    rintro rfl
    exact h.table_notMem hm ht hd
  have hkt (e : ℕ) (he : 768 ≤ e) (he' : e < 1023) (i : ℕ) :
      poke ram t (n % 1024) w (kernelTable e) i = ram (kernelTable e) i :=
    poke_of_frame_ne (table_ne_kernelTable hm ht he he').symm i
  -- another page of this table, or a page of another table
  have hother (d' n' t' : ℕ) (ht' : G.owns (.table d' (n' / 1024)) = some t')
      (hne : ¬ (d' = d ∧ n' = n)) : poke ram t (n % 1024) w t' (n' % 1024) = ram t' (n' % 1024) := by
    by_cases hq : t' = t
    · subst hq
      obtain ⟨rfl, hdiv⟩ : d' = d ∧ n' / 1024 = n / 1024 := by
        simpa using G.ledger.inj ht' ht
      apply poke_of_word_ne
      intro hmod
      exact hne ⟨rfl, page_eq hdiv hmod⟩
    · exact poke_of_frame_ne hq _
  exact {
    kernelDir_mem := h.kernelDir_mem
    kernelDir_notMem := h.kernelDir_notMem
    spaces_subset := h.spaces_subset
    dirOwned := fun d hd => by
      simp only [withLedger_owns, hk]
      exact h.dirOwned d hd
    kernelHalf := fun d hd e h1 h2 => by rw [hdirs d hd, h.kernelHalf d hd e h1 h2]
    selfMapped := fun d hd => by rw [SelfMapped, hdirs d hd, h.selfMapped d hd]
    kernelLow := by rw [hdirs _ h.kernelDir_mem, h.kernelLow]
    kernelBare := fun e h1 h2 => by
      rw [hdirs _ h.kernelDir_mem]
      exact h.kernelBare e h1 h2
    lowMapped := fun i hi => by rw [hkt 768 (by norm_num) (by norm_num), h.lowMapped i hi]
    kernelPage := fun n' f hn' => by
      rw [withLedger_owns, hk] at hn'
      obtain ⟨hp, he⟩ := h.kernelPage n' f hn'
      exact ⟨hp, by rw [hkt _ hp.index.1 hp.index.2, he]⟩
    tableEntry := fun d e t ht => by
      rw [withLedger_owns, htt] at ht
      obtain ⟨hd, he, hr⟩ := h.tableEntry d e t ht
      exact ⟨hd, he, by rw [hdirs d (h.spaces_subset hd), hr]⟩
    noTable := fun d hd e he hn => by
      rw [withLedger_owns, htt] at hn
      rw [hdirs d (h.spaces_subset hd)]
      exact h.noTable d hd e he hn
    userPage := fun d' n' f hn' => by
      simp only [withLedger_owns, htt]
      by_cases hne : d' = d ∧ n' = n
      · obtain ⟨rfl, rfl⟩ := hne
        rw [withLedger_owns, hself] at hn'
        exact ⟨t, ht, by rw [poke_self, hr f hn']⟩
      · rw [withLedger_owns, hu d' n' hne] at hn'
        obtain ⟨t', ht', hr'⟩ := h.userPage d' n' f hn'
        exact ⟨t', ht', by rw [hother d' n' t' ht' hne, hr']⟩
    noUserPage := fun d' n' t' ht' hn' => by
      rw [withLedger_owns, htt] at ht'
      by_cases hne : d' = d ∧ n' = n
      · obtain ⟨rfl, rfl⟩ := hne
        obtain rfl := Option.some.inj (ht'.symm.trans ht)
        rw [withLedger_owns, hself] at hn'
        rw [poke_self]
        exact hw hn'
      · rw [withLedger_owns, hu d' n' hne] at hn'
        rw [hother d' n' t' ht' hne]
        exact h.noUserPage d' n' t' ht' hn'
    vacant := fun n' hp hn' => by
      rw [withLedger_owns, hk] at hn'
      rw [hkt _ hp.index.1 hp.index.2]
      exact h.vacant n' hp hn' }

/-- Installing an empty table for a user entry. -/
theorem Encoded.installTable (h : Encoded ram G) (hm : Marked pools G.ledger)
    (hd : d ∈ G.spaces) (he : e < 768) (hnone : G.owns (.table d e) = none)
    (hfree : G.ledger.Unowned t) (ht : 0x200 ≤ t)
    (hL : ∀ o, (∀ pf, o ≠ .held pf) → L.owns o = if o = .table d e then some t else G.owns o) :
    Encoded (wipe (poke ram d e (entry t)) t) (G.withLedger L) := by
  have hself : L.owns (.table d e) = some t := by rw [hL _ (by simp), if_pos rfl]
  have hk (n' : ℕ) : L.owns (.kernel n') = G.owns (.kernel n') := by
    rw [hL _ (by simp), if_neg (by simp)]
  have htt (d' e' : ℕ) (hne : ¬ (d' = d ∧ e' = e)) :
      L.owns (.table d' e') = G.owns (.table d' e') := by
    rw [hL _ (by simp), if_neg (by simpa using hne)]
  have hu (d' n' : ℕ) : L.owns (.user d' n') = G.owns (.user d' n') := by
    rw [hL _ (by simp), if_neg (by simp)]
  have htdir : t ∉ G.dirs := by
    intro h1
    obtain rfl | ⟨n, hn⟩ := h.dirOwned t h1
    · unfold kernelDir at ht
      omega
    · exact hfree _ hn
  have hdt (d' : ℕ) (hd' : d' ∈ G.dirs) : d' ≠ t := by
    rintro rfl
    exact htdir hd'
  have hmem := h.spaces_subset hd
  have hdirs (d' : ℕ) (hd' : d' ∈ G.dirs) (i : ℕ) (hne : ¬ (d' = d ∧ i = e)) :
      wipe (poke ram d e (entry t)) t d' i = ram d' i := by
    rw [wipe_of_ne (hdt d' hd')]
    unfold poke
    rw [if_neg hne]
  have hnew : wipe (poke ram d e (entry t)) t d e = entry t := by
    rw [wipe_of_ne (hdt d hmem), poke_self]
  have hkt (e' : ℕ) (he1 : 768 ≤ e') (he2 : e' < 1023) (i : ℕ) :
      wipe (poke ram d e (entry t)) t (kernelTable e') i = ram (kernelTable e') i := by
    have hb := kernelTable_bounds he1 he2
    rw [wipe_of_ne (by omega), poke_of_frame_ne (h.dir_ne_kernelTable hm hmem he1 he2).symm]
  have htab (d' e' t' : ℕ) (ht' : G.owns (.table d' e') = some t') (i : ℕ) :
      wipe (poke ram d e (entry t)) t t' i = ram t' i := by
    rw [wipe_of_ne, poke_of_frame_ne]
    · rintro rfl
      exact h.table_notMem hm ht' hmem
    · rintro rfl
      exact hfree _ ht'
  exact {
    kernelDir_mem := h.kernelDir_mem
    kernelDir_notMem := h.kernelDir_notMem
    spaces_subset := h.spaces_subset
    dirOwned := fun d hd => by
      simp only [withLedger_owns, hk]
      exact h.dirOwned d hd
    kernelHalf := fun d' hd' e' h1 h2 => by
      rw [hdirs d' hd' e' (by omega), h.kernelHalf d' hd' e' h1 h2]
    selfMapped := fun d' hd' => by rw [SelfMapped, hdirs d' hd' _ (by omega), h.selfMapped d' hd']
    kernelLow := by
      rw [hdirs _ h.kernelDir_mem _ (fun h1 => h.kernelDir_notMem (h1.1 ▸ hd)), h.kernelLow]
    kernelBare := fun e' h1 h2 => by
      rw [hdirs _ h.kernelDir_mem _ (fun h1 => h.kernelDir_notMem (h1.1 ▸ hd))]
      exact h.kernelBare e' h1 h2
    lowMapped := fun i hi => by rw [hkt 768 (by norm_num) (by norm_num), h.lowMapped i hi]
    kernelPage := fun n' f hn' => by
      rw [withLedger_owns, hk] at hn'
      obtain ⟨hp, he⟩ := h.kernelPage n' f hn'
      exact ⟨hp, by rw [hkt _ hp.index.1 hp.index.2, he]⟩
    tableEntry := fun d' e' t' ht' => by
      by_cases hne : d' = d ∧ e' = e
      · obtain ⟨rfl, rfl⟩ := hne
        obtain rfl := Option.some.inj (hself.symm.trans ht')
        exact ⟨hd, he, hnew⟩
      · rw [withLedger_owns, htt d' e' hne] at ht'
        obtain ⟨hd', he', hr⟩ := h.tableEntry d' e' t' ht'
        exact ⟨hd', he', by rw [hdirs d' (h.spaces_subset hd') e' hne, hr]⟩
    noTable := fun d' hd' e' he' hn => by
      have hne : ¬ (d' = d ∧ e' = e) := by
        rintro ⟨rfl, rfl⟩
        rw [withLedger_owns, hself] at hn
        cases hn
      rw [withLedger_owns, htt d' e' hne] at hn
      rw [hdirs d' (h.spaces_subset hd') e' hne]
      exact h.noTable d' hd' e' he' hn
    userPage := fun d' n' f hn' => by
      rw [withLedger_owns, hu] at hn'
      obtain ⟨t', ht', hr⟩ := h.userPage d' n' f hn'
      have hne : ¬ (d' = d ∧ n' / 1024 = e) := by
        rintro ⟨rfl, rfl⟩
        rw [hnone] at ht'
        cases ht'
      exact ⟨t', by rw [withLedger_owns, htt _ _ hne, ht'], by rw [htab _ _ t' ht', hr]⟩
    noUserPage := fun d' n' t' ht' hn' => by
      rw [withLedger_owns, hu] at hn'
      by_cases hne : d' = d ∧ n' / 1024 = e
      · obtain ⟨rfl, rfl⟩ := hne
        obtain rfl := Option.some.inj (hself.symm.trans ht')
        rw [wipe_self]
        exact not_present_zero
      · rw [withLedger_owns, htt _ _ hne] at ht'
        rw [htab _ _ t' ht']
        exact h.noUserPage d' n' t' ht' hn'
    vacant := fun n' hp hn' => by
      rw [withLedger_owns, hk] at hn'
      rw [hkt _ hp.index.1 hp.index.2]
      exact h.vacant n' hp hn' }

end Writes

end X86System.Memory
