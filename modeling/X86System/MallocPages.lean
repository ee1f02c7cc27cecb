import X86System.BitmapScan
import X86System.Directories
import X86System.FrameSupply

/-!
# When `malloc_page` is all or nothing

`malloc_page` reserves the first run of virtual pages that the scan sees and maps it
page by page. It fails cleanly only where the scan sees no run at all; where frames or
clear bits run out, where the run sticks out of the bitmap, and where it starts at the
page of the user stack, an assertion ends it or a page is handed out that is none.
-/
namespace X86System.Memory
open Exec Paging

/-- The result of `malloc_page` that a caller may rely on: `pg_cnt` pages that were free and are
now mapped to frames that were free, from the address `v` on. -/
structure Granted (m m' : Machine) (pf : PoolFlags) (cnt v : ℕ) : Prop where
  run : ∃ i, v = ((m.vaddrs pf).base + i) * 4096 ∧ (m.vaddrs pf).vaddrBitmap.Fits cnt i
  unmapped : ∀ j < cnt, walk m.ram m.cr3 (v + j * 4096) = none
  mapped : ∃ frames : ℕ → ℕ, Set.InjOn frames (Set.Iio cnt) ∧
    ∀ j < cnt, frames j ∈ (m.pools pf).poolBitmap.free ∧
      walk m'.ram m'.cr3 (v + j * 4096) = some ((m.pools pf).base + frames j, 0)

/-- The claim on `malloc_page`: it returns pages, or NULL with everything as before. -/
def AllOrNothing (m : Machine) (pf : PoolFlags) (cnt : ℕ) : Prop :=
  ∃ r m', mallocPage m pf cnt = .ok (r, m') ∧ (r = none → m' = m) ∧
    ∀ v, r = some v → Granted m m' pf cnt v

/-- There is a clear bit; and the scan sees no run, or the first run that it sees lies in the
bitmap, below the page of the user stack, and there are frames for its pages and tables. -/
def Provided (m : Machine) (pf : PoolFlags) (cnt : ℕ) : Prop :=
  (m.vaddrs pf).vaddrBitmap.free.Nonempty ∧
    ((m.vaddrs pf).vaddrBitmap.Seen cnt = ∅ ∨
      ∃ i, IsLeast ((m.vaddrs pf).vaddrBitmap.Seen cnt) i ∧ i + cnt ≤ (m.vaddrs pf).pages ∧
        (pf = .user → (m.vaddrs pf).base + i < 0xbffff) ∧ cnt ≤ m.room pf ∧
        (m.bare ((m.vaddrs pf).base + i) cnt).card ≤ m.room .kernel)

section Malloc

variable {F : Set PoolFlags} {m m' : Machine} {G : Layout} {pf : PoolFlags} {i n cnt : ℕ}

/-- The pages of a run of clear bits are wanted. -/
theorem Addressed.wanted (h : Addressed F m G) (hpf : pf ∈ F)
    (hspace : pf = .user → m.cr3 ∈ G.spaces) (hclear : (m.vaddrs pf).vaddrBitmap.ClearRun cnt i)
    (hend : i + cnt ≤ (m.vaddrs pf).pages + 1) (hlow : pf = .user → i + cnt ≤ (m.vaddrs pf).pages)
    {j : ℕ} (hj : j < cnt) : Wanted G m.cr3 pf ((m.vaddrs pf).base + i + j) where
  mappable := h.mappable hspace hend hj
  low := by
    rintro rfl
    have htop := h.userPages (hspace rfl)
    have := hlow rfl
    omega
  free := by
    by_contra hne
    obtain ⟨-, hset⟩ := (h.tracked pf hpf).marks _ hne
    rw [Nat.add_assoc, Nat.add_sub_cancel_left, hclear (i + j) (by omega) (by omega)] at hset
    cases hset

/-- A run of user pages that sticks out of the bitmap is not mapped. -/
theorem Addressed.overhang (h : Addressed F m G) (hspace : m.cr3 ∈ G.spaces)
    (htop : (m.vaddrs .user).base + (m.vaddrs .user).pages = 0xc0000)
    (hend : i + cnt = (m.vaddrs .user).pages + 1) (hcnt : 0 < cnt) {btmp : Bitmap} {r : Bool × Machine} :
    mapPages .user cnt (((m.vaddrs .user).base + i) * 4096) (m.setVaddrs .user btmp) ≠ .ok r := by
  intro hmap
  have hcr3 : (m.setVaddrs .user btmp).cr3 = m.cr3 := setVaddrs_cr3 ..
  obtain ⟨-, L', hc, -, hg, -⟩ := mapPages_coherent (h.setVaddrs_coherent btmp)
    (by rw [hcr3]; exact h.cr3_mem) (h.held .user)
    (fun j hj => by
      rw [hcr3]
      exact h.mappable (fun _ => hspace) (Nat.le_of_eq hend) hj) hmap
  -- the last page would be the first one of the kernel half
  obtain ⟨-, f, hf⟩ := hg.new (.user (m.setVaddrs .user btmp).cr3 0xc0000)
    ⟨cnt - 1, by omega, by congr 1; omega⟩
  obtain ⟨t, ht, -⟩ := hc.encoded.userPage _ _ _ hf
  have := (hc.encoded.tableEntry _ _ _ ht).2.1
  omega

/-- A wanted page is not translated. -/
theorem Coherent.walk_wanted (h : Coherent m G) (hcr3 : m.cr3 ∈ G.dirs)
    (hn : Wanted G m.cr3 pf n) : walk m.ram m.cr3 (n * 4096) = none := by
  rw [walk_eq_none, dirIndex_page, tableIndex_page]
  rintro ⟨hp, ht⟩
  exact h.not_present hcr3 hn hp ht

/-- `malloc_page` in its steps: the scan, the assertion on the stack, the loop. -/
theorem mallocPage_eq (hcnt : 0 < cnt ∧ cnt < 3840) (ha : (m.vaddrs pf).vaddrStart % 4096 = 0) :
    mallocPage m pf cnt = bitmapScan (m.vaddrs pf).vaddrBitmap cnt >>= fun r =>
      r.elim (.ok (none, m)) fun i =>
        ensure .assert (pf = .user → (m.vaddrs pf).base + i < 0xbffff) >>= fun _ =>
          mapPages pf cnt (((m.vaddrs pf).base + i) * 4096)
            (m.setVaddrs pf (setBits (m.vaddrs pf).vaddrBitmap i true cnt)) >>= fun x =>
              .ok (if x.1 then some (((m.vaddrs pf).base + i) * 4096) else none, x.2) := by
  unfold mallocPage
  rw [ensure_of hcnt, ok_bind, vaddrGet_eq]
  cases bitmapScan (m.vaddrs pf).vaddrBitmap cnt with
  | error e => rfl
  | ok r =>
    cases r with
    | none => rfl
    | some i =>
      have hpage : (m.vaddrs pf).vaddrStart + i <<< 12 = ((m.vaddrs pf).base + i) * 4096 := by
        simp only [Nat.shiftLeft_eq, VirtualAddr.base]
        omega
      have hstack : (pf = .user → (m.vaddrs pf).vaddrStart + i <<< 12 < 0xc0000000 - pgSize) ↔
          (pf = .user → (m.vaddrs pf).base + i < 0xbffff) := by
        rw [hpage]
        unfold pgSize
        refine imp_congr_right fun _ => ?_
        omega
      rw [ok_bind, ok_bind]
      dsimp only [Option.elim_some]
      rw [hpage] at hstack ⊢
      by_cases hlow : pf = .user → (m.vaddrs pf).base + i < 0xbffff
      · rw [ensure_of (hstack.mpr hlow), ensure_of hlow]
        rfl
      · rw [ensure_of_not (hstack.not.mpr hlow), ensure_of_not hlow]
        rfl

/-- What the loop maps is granted. -/
theorem Addressed.granted (h : Addressed F m G) (hpf : pf ∈ F)
    (hspace : pf = .user → m.cr3 ∈ G.spaces) (hfits : (m.vaddrs pf).vaddrBitmap.Fits cnt i)
    {btmp : Bitmap} {done : Bool}
    (hmap : mapPages pf cnt (((m.vaddrs pf).base + i) * 4096) (m.setVaddrs pf btmp) =
      .ok (done, m')) :
    done = true ∧ Granted m m' pf cnt (((m.vaddrs pf).base + i) * 4096) := by
  have hcr3 : (m.setVaddrs pf btmp).cr3 = m.cr3 := setVaddrs_cr3 ..
  have hend : i + cnt ≤ (m.vaddrs pf).pages := hfits.1
  have hwanted {j : ℕ} (hj : j < cnt) : Wanted G m.cr3 pf ((m.vaddrs pf).base + i + j) :=
    h.wanted hpf hspace hfits.2 (by omega) (fun _ => hend) hj
  obtain ⟨rfl, L', hc, hsame, hg, -⟩ := mapPages_coherent (h.setVaddrs_coherent btmp)
    (by rw [hcr3]; exact h.cr3_mem) (h.held pf)
    (fun j hj => by rw [hcr3]; exact (hwanted hj).mappable) hmap
  rw [hcr3] at hg
  have hpage (j : ℕ) : ((m.vaddrs pf).base + i) * 4096 + j * 4096 =
      ((m.vaddrs pf).base + i + j) * 4096 := (Nat.add_mul ..).symm
  have hnew (j : ℕ) (hj : j < cnt) : ∃ k, k ∈ (m.pools pf).poolBitmap.free ∧
      L'.owns (Owner.ofPage pf m.cr3 ((m.vaddrs pf).base + i + j)) =
        some ((m.pools pf).base + k) := by
    obtain ⟨hnone, f, hf⟩ := hg.new _ ⟨j, hj, rfl⟩
    have hin := hc.marked.inPool _ f hf
    rw [pool_ofPage, Pool.base, hsame.start, hsame.frames, setVaddrs_pools] at hin
    change (m.pools pf).base ≤ f ∧ f < (m.pools pf).base + (m.pools pf).frames at hin
    refine ⟨f - (m.pools pf).base, ?_, by rw [hf]; congr 1; omega⟩
    have hlt : f - (m.pools pf).base < (m.pools pf).frames := by omega
    rw [Bitmap.mem_free, ← Bool.not_eq_true, h.coherent.marked.marked pf _ hlt]
    refine ⟨hlt, ?_⟩
    rintro ⟨o, -, ho⟩
    rw [Nat.add_sub_cancel' hin.1] at ho
    obtain rfl := L'.inj (hg.owned ho) hf
    rw [hnone] at ho
    cases ho
  choose! frames hfree howns using hnew
  refine ⟨rfl, ⟨i, rfl, hfits⟩, ?_, frames, ?_, ?_⟩
  · intro j hj
    rw [hpage]
    exact h.coherent.walk_wanted h.cr3_mem (hwanted hj)
  · intro j hj j' hj' heq
    have h1 := howns j hj
    rw [heq] at h1
    have := ofPage_inj (L'.inj h1 (howns j' hj'))
    omega
  · intro j hj
    have hcr3' : m'.cr3 = m.cr3 := hsame.cr3.trans hcr3
    refine ⟨hfree j hj, ?_⟩
    rw [hpage]
    refine @Coherent.walk_page_start _ _ pf _ _ hc ?_ ?_
    · rw [hcr3']
      exact h.cr3_mem
    · rw [hcr3']
      exact howns j hj

/-- The scan sees a run or none. -/
theorem exists_least {S : Set ℕ} (h : S.Nonempty) : ∃ i, IsLeast S i :=
  ⟨sInf S, Nat.sInf_mem h, fun _ hi => Nat.sInf_le hi⟩

/-- Replacing a bitmap of virtual pages leaves the frames that can be taken. -/
theorem setVaddrs_room (m : Machine) (pf pf' : PoolFlags) (btmp : Bitmap) :
    (m.setVaddrs pf btmp).room pf' = m.room pf' := by
  unfold Machine.room
  rw [setVaddrs_pools]

theorem setVaddrs_bare (m : Machine) (pf : PoolFlags) (btmp : Bitmap) :
    (m.setVaddrs pf btmp).bare n cnt = m.bare n cnt := by
  unfold Machine.bare
  rw [setVaddrs_ram, setVaddrs_cr3]

/-- A run that lies in the bitmap is mapped if and only if there are frames for it. -/
theorem Addressed.mapPages_iff (h : Addressed F m G) (hpf : pf ∈ F)
    (hspace : pf = .user → m.cr3 ∈ G.spaces) (hclear : (m.vaddrs pf).vaddrBitmap.ClearRun cnt i)
    (hend : i + cnt ≤ (m.vaddrs pf).pages + 1) (hlow : pf = .user → i + cnt ≤ (m.vaddrs pf).pages)
    (btmp : Bitmap) :
    (∃ x, mapPages pf cnt (((m.vaddrs pf).base + i) * 4096) (m.setVaddrs pf btmp) = .ok x) ↔
      cnt ≤ m.room pf ∧ (m.bare ((m.vaddrs pf).base + i) cnt).card ≤ m.room .kernel := by
  have hcr3 : (m.setVaddrs pf btmp).cr3 = m.cr3 := setVaddrs_cr3 ..
  rw [mapPages_runs_iff (h.setVaddrs_coherent btmp) (by rw [hcr3]; exact h.cr3_mem) (h.held pf)
    (fun j hj => by rw [hcr3]; exact h.wanted hpf hspace hclear hend hlow hj), setVaddrs_room,
    setVaddrs_room, setVaddrs_bare]

/-- There are fewer than 3840 pages and a clear bit; and the scan sees no run, or there are frames for
the first run that it sees, which for user pages lies in the bitmap, below the page of the stack. -/
def Served (m : Machine) (pf : PoolFlags) (cnt : ℕ) : Prop :=
  cnt < 3840 ∧ (m.vaddrs pf).vaddrBitmap.free.Nonempty ∧
    ((m.vaddrs pf).vaddrBitmap.Seen cnt = ∅ ∨
      ∃ i, IsLeast ((m.vaddrs pf).vaddrBitmap.Seen cnt) i ∧
        (pf = .user → i + cnt ≤ (m.vaddrs pf).pages ∧ (m.vaddrs pf).base + i < 0xbffff) ∧
        cnt ≤ m.room pf ∧ (m.bare ((m.vaddrs pf).base + i) cnt).card ≤ m.room .kernel)

/-- `malloc_page` returns if and only if it is served. -/
theorem Addressed.mallocPage_returns_iff (h : Addressed F m G) (hpf : pf ∈ F) (hcnt : 0 < cnt)
    (huser : pf = .user → (m.vaddrs .user).vaddrBitmap.free = ∅ ∨
      m.cr3 ∈ G.spaces ∧ (m.vaddrs .user).base + (m.vaddrs .user).pages = 0xc0000) :
    (∃ x, mallocPage m pf cnt = .ok x) ↔ Served m pf cnt := by
  unfold Served
  by_cases hlt : cnt < 3840
  swap
  · unfold mallocPage
    rw [ensure_of_not (by omega)]
    simp [hlt, error_bind]
  rw [mallocPage_eq ⟨hcnt, hlt⟩ (h.tracked pf hpf).aligned, and_iff_right hlt]
  by_cases hfree : (m.vaddrs pf).vaddrBitmap.free = ∅
  · rw [bitmapScan_full hfree, hfree]
    simp
  have hne := Finset.nonempty_iff_ne_empty.mpr hfree
  rw [and_iff_right hne]
  have huser' : pf = .user → m.cr3 ∈ G.spaces ∧
      (m.vaddrs .user).base + (m.vaddrs .user).pages = 0xc0000 := by
    intro hu
    refine (huser hu).resolve_left ?_
    rwa [← hu]
  obtain ⟨r, hscan, hr⟩ := bitmapScan_first hcnt hne
  rw [hscan, ok_bind]
  cases r with
  | none =>
    have hempty : (m.vaddrs pf).vaddrBitmap.Seen cnt = ∅ := by
      by_contra hseen
      obtain ⟨i, hi⟩ := exists_least (Set.nonempty_iff_ne_empty.mpr hseen)
      cases (hr i).mpr hi
    exact iff_of_true ⟨_, rfl⟩ (.inl hempty)
  | some i =>
    have hleast := (hr i).mp rfl
    have hend : i + cnt ≤ (m.vaddrs pf).pages + 1 := hleast.1.2
    have hfirst : ((m.vaddrs pf).vaddrBitmap.Seen cnt = ∅ ∨
        ∃ i, IsLeast ((m.vaddrs pf).vaddrBitmap.Seen cnt) i ∧
          (pf = .user → i + cnt ≤ (m.vaddrs pf).pages ∧ (m.vaddrs pf).base + i < 0xbffff) ∧
          cnt ≤ m.room pf ∧ (m.bare ((m.vaddrs pf).base + i) cnt).card ≤ m.room .kernel) ↔
        (pf = .user → i + cnt ≤ (m.vaddrs pf).pages ∧ (m.vaddrs pf).base + i < 0xbffff) ∧
          cnt ≤ m.room pf ∧ (m.bare ((m.vaddrs pf).base + i) cnt).card ≤ m.room .kernel := by
      constructor
      · rintro (hempty | ⟨i', hi', hrest⟩)
        · have hmem := hleast.1
          rw [hempty] at hmem
          exact hmem.elim
        · rwa [hleast.unique hi']
      · exact fun hrest => .inr ⟨i, hleast, hrest⟩
    rw [hfirst]
    dsimp only [Option.elim_some]
    by_cases hstack : pf = .user → (m.vaddrs pf).base + i < 0xbffff
    swap
    · rw [ensure_of_not hstack]
      refine iff_of_false ?_ fun hrest => hstack fun hu => (hrest.1 hu).2
      rintro ⟨x, hx⟩
      cases hx
    rw [ensure_of hstack, ok_bind]
    constructor
    · rintro ⟨x, hx⟩
      obtain ⟨⟨done, m₁⟩, hmap, -⟩ := of_bind_eq_ok hx
      have hin (hu : pf = .user) : i + cnt ≤ (m.vaddrs pf).pages := by
        by_contra hout
        subst hu
        exact h.overhang (huser' rfl).1 (huser' rfl).2 (by omega) hcnt hmap
      exact ⟨fun hu => ⟨hin hu, hstack hu⟩,
        (h.mapPages_iff hpf (fun hu => (huser' hu).1) hleast.1.1 hend hin _).mp ⟨_, hmap⟩⟩
    · rintro ⟨hin, hroom⟩
      obtain ⟨x, hmap⟩ := (h.mapPages_iff hpf (fun hu => (huser' hu).1) hleast.1.1 hend
        (fun hu => (hin hu).1) _).mpr hroom
      exact ⟨_, by rw [hmap]; rfl⟩

/-- `malloc_page` is all or nothing if and only if it is provided for. -/
theorem Addressed.allOrNothing_iff (h : Addressed F m G) (hpf : pf ∈ F)
    (hcnt : 0 < cnt ∧ cnt < 3840) (huser : pf = .user → (m.vaddrs .user).vaddrBitmap.free = ∅ ∨
      m.cr3 ∈ G.spaces ∧ (m.vaddrs .user).base + (m.vaddrs .user).pages = 0xc0000) :
    AllOrNothing m pf cnt ↔ Provided m pf cnt := by
  have heq := @mallocPage_eq m pf cnt hcnt (h.tracked pf hpf).aligned
  unfold AllOrNothing Provided
  by_cases hfree : (m.vaddrs pf).vaddrBitmap.free = ∅
  · rw [heq, bitmapScan_full hfree, hfree]
    simp
  have hne := Finset.nonempty_iff_ne_empty.mpr hfree
  have huser' : pf = .user → m.cr3 ∈ G.spaces ∧
      (m.vaddrs .user).base + (m.vaddrs .user).pages = 0xc0000 := by
    intro hu
    refine (huser hu).resolve_left ?_
    rwa [← hu]
  have hspace (hu : pf = .user) : m.cr3 ∈ G.spaces := (huser' hu).1
  obtain ⟨r, hscan, hr⟩ := bitmapScan_first hcnt.1 hne
  rw [heq, hscan, ok_bind]
  cases r with
  | none =>
    have hempty : (m.vaddrs pf).vaddrBitmap.Seen cnt = ∅ := by
      by_contra hseen
      obtain ⟨i, hi⟩ := exists_least (Set.nonempty_iff_ne_empty.mpr hseen)
      cases (hr i).mpr hi
    exact ⟨fun _ => ⟨hne, .inl hempty⟩, fun _ => ⟨none, m, rfl, fun _ => rfl, by simp⟩⟩
  | some i =>
    have hleast := (hr i).mp rfl
    have hend : i + cnt ≤ (m.vaddrs pf).pages + 1 := hleast.1.2
    have hprov : (m.vaddrs pf).vaddrBitmap.free.Nonempty ∧
        ((m.vaddrs pf).vaddrBitmap.Seen cnt = ∅ ∨
          ∃ i', IsLeast ((m.vaddrs pf).vaddrBitmap.Seen cnt) i' ∧ i' + cnt ≤ (m.vaddrs pf).pages ∧
            (pf = .user → (m.vaddrs pf).base + i' < 0xbffff) ∧ cnt ≤ m.room pf ∧
            (m.bare ((m.vaddrs pf).base + i') cnt).card ≤ m.room .kernel) ↔
        i + cnt ≤ (m.vaddrs pf).pages ∧ (pf = .user → (m.vaddrs pf).base + i < 0xbffff) ∧
          cnt ≤ m.room pf ∧ (m.bare ((m.vaddrs pf).base + i) cnt).card ≤ m.room .kernel := by
      constructor
      · rintro ⟨-, hempty | ⟨i', hi', hrest⟩⟩
        · have hmem := hleast.1
          rw [hempty] at hmem
          exact hmem.elim
        · rwa [hleast.unique hi']
      · exact fun hrest => ⟨hne, .inr ⟨i, hleast, hrest⟩⟩
    rw [hprov]
    dsimp only [Option.elim_some]
    by_cases hstack : pf = .user → (m.vaddrs pf).base + i < 0xbffff
    swap
    · rw [ensure_of_not hstack]
      constructor
      · rintro ⟨r, m', hok, -⟩
        cases hok
      · exact fun hrest => absurd hrest.2.1 hstack
    rw [ensure_of hstack, ok_bind]
    constructor
    · rintro ⟨r, m', hok, -, hgrant⟩
      obtain ⟨⟨done, m₁⟩, hmap, hok⟩ := of_bind_eq_ok hok
      obtain ⟨rfl, rfl⟩ := Prod.mk.inj (Except.ok.inj hok)
      have hin : i + cnt ≤ (m.vaddrs pf).pages := by
        by_contra hout
        cases pf with
        | user => exact h.overhang (hspace rfl) (huser' rfl).2 (by omega) hcnt.1 hmap
        | kernel =>
          obtain ⟨rfl, -⟩ := mapPages_coherent (h.setVaddrs_coherent _)
            (by rw [setVaddrs_cr3]; exact h.cr3_mem) (h.held _)
            (fun j hj => by rw [setVaddrs_cr3]; exact h.mappable hspace hend hj) hmap
          obtain ⟨i', heq', hfits, -⟩ := (hgrant _ rfl).run
          have : i' + cnt ≤ (m.vaddrs .kernel).pages := hfits
          omega
      have hroom := (h.mapPages_iff hpf hspace hleast.1.1 hend (fun _ => hin) _).mp ⟨_, hmap⟩
      exact ⟨hin, hstack, hroom⟩
    · rintro ⟨hin, -, hroom⟩
      obtain ⟨⟨done, m₁⟩, hmap⟩ :=
        (h.mapPages_iff hpf hspace hleast.1.1 hend (fun _ => hin) _).mpr hroom
      obtain ⟨rfl, hgrant⟩ := h.granted hpf hspace ⟨hin, hleast.1.1⟩ hmap
      rw [hmap, ok_bind]
      refine ⟨_, _, rfl, fun hnone => ?_, ?_⟩
      · cases hnone
      · rintro v ⟨⟩
        exact hgrant

end Malloc

end X86System.Memory
