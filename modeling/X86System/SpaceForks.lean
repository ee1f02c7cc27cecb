import X86System.SpaceProcesses

/-!
# Forking

`fork` copies the user half of the running process. Every page of the parent goes by
way of one page of the kernel heap, which both directories show; in between the
child's directory is in use, and the page of the child gets its frame.
-/
namespace X86System.Memory
open Exec Paging

section Loops

variable {copy : ℕ → Machine → Except Fault Machine} {P : ℕ → Machine → Prop} {btmp : Bitmap}
  {m m' : Machine} {left idxByte idxBit bound : ℕ}

theorem bitmapMask_and_ne_zero (h : idxBit < 8) :
    bitmapMask idxBit &&& btmp.bits idxByte ≠ 0 ↔
      bitmapScanTest btmp (idxByte * 8 + idxBit) = true := by
  rw [bitmapScanTest, decide_eq_true_iff, show (idxByte * 8 + idxBit) / 8 = idxByte by omega,
    show (idxByte * 8 + idxBit) % 8 = idxBit by omega, UInt8.and_comm]

/-- The loop over the bits of one byte copies the pages whose bit is set. -/
theorem copyBits_spec
    (hset : ∀ k m m', k < bound → bitmapScanTest btmp k = true → P k m → copy k m = .ok m' →
      P (k + 1) m')
    (hclear : ∀ k m, k < bound → bitmapScanTest btmp k = false → P k m → P (k + 1) m)
    (hend : idxBit + left = 8) (hbound : idxByte * 8 + 8 ≤ bound) (hm : P (idxByte * 8 + idxBit) m)
    (h : copyBits copy (btmp.bits idxByte) idxByte left idxBit m = .ok m') :
    P (idxByte * 8 + 8) m' := by
  induction left generalizing idxBit m with
  | zero =>
    obtain rfl := Except.ok.inj h
    obtain rfl : idxBit = 8 := hend
    exact hm
  | succ left ih =>
    unfold copyBits at h
    by_cases hb : bitmapMask idxBit &&& btmp.bits idxByte ≠ 0
    · rw [if_pos hb] at h
      obtain ⟨m₁, hcopy, h⟩ := of_bind_eq_ok h
      refine ih (by omega) ?_ h
      exact hset (idxByte * 8 + idxBit) m m₁ (by omega) ((bitmapMask_and_ne_zero (by omega)).mp hb) hm hcopy
    · rw [if_neg hb] at h
      refine ih (by omega) ?_ h
      rw [bitmapMask_and_ne_zero (by omega), Bool.not_eq_true] at hb
      exact hclear (idxByte * 8 + idxBit) m (by omega) hb hm

/-- A byte of zeros has no pages to copy. -/
theorem skipByte (hclear : ∀ k m, k < bound → bitmapScanTest btmp k = false → P k m → P (k + 1) m)
    (hbyte : btmp.bits idxByte = 0) (hbound : idxByte * 8 + 8 ≤ bound) (hbit : idxBit ≤ 8)
    (hm : P (idxByte * 8) m) : P (idxByte * 8 + idxBit) m := by
  induction idxBit with
  | zero => exact hm
  | succ idxBit ih =>
    have hclearBit : bitmapScanTest btmp (idxByte * 8 + idxBit) = false := by
      rw [← Bool.not_eq_true, ← bitmapMask_and_ne_zero (by omega), hbyte]
      simp
    exact hclear (idxByte * 8 + idxBit) m (by omega) hclearBit (ih (by omega))

/-- The loop over the bitmap copies the pages whose bit is set, in order. -/
theorem copyBytes_spec
    (hset : ∀ k m m', k < bound → bitmapScanTest btmp k = true → P k m → copy k m = .ok m' →
      P (k + 1) m')
    (hclear : ∀ k m, k < bound → bitmapScanTest btmp k = false → P k m → P (k + 1) m)
    (hbound : (idxByte + left) * 8 = bound) (hm : P (idxByte * 8) m)
    (h : copyBytes copy btmp.bits left idxByte m = .ok m') : P bound m' := by
  induction left generalizing idxByte m with
  | zero =>
    obtain rfl := Except.ok.inj h
    rwa [← hbound]
  | succ left ih =>
    unfold copyBytes at h
    have hnext : (idxByte + 1) * 8 = idxByte * 8 + 8 := by omega
    by_cases hb : btmp.bits idxByte ≠ 0
    · rw [if_pos hb] at h
      obtain ⟨m₁, hbyte, h⟩ := of_bind_eq_ok h
      refine ih (by omega) ?_ h
      rw [hnext]
      exact copyBits_spec hset hclear (by norm_num) (by omega) hm hbyte
    · rw [if_neg hb] at h
      refine ih (by omega) ?_ h
      rw [hnext]
      exact skipByte hclear (not_not.mp hb) (by omega) (by norm_num) hm

end Loops

section Copying

variable {m m' : Machine} {G : Layout} {pf pf' : PoolFlags} {n n' x f f' d child parent : ℕ}

/-- The directory of a task stays where it is while its page stays owned. -/
theorem DirOf.congr {G' : Layout} {p : ℕ} (h : DirOf m G p d)
    (htask : (m'.tasks p).pgdir = (m.tasks p).pgdir)
    (howns : ∀ y g, G.owns (.kernel y) = some g → G'.owns (.kernel y) = some g) :
    DirOf m' G' p d := by
  unfold DirOf at h ⊢
  rw [htask]
  cases hv : (m.tasks p).pgdir with
  | none =>
    rw [hv] at h
    exact h
  | some v =>
    rw [hv] at h
    exact h.imp_right fun ho => howns _ _ ho

/-- `memcpy` of a page to a page that holds no entries. -/
theorem Coherent.memcpyPage (hc : Coherent m G) (hcr3 : m.cr3 ∈ G.dirs)
    (hdst : G.owns (Owner.ofPage pf m.cr3 n) = some f)
    (hsrc : G.owns (Owner.ofPage pf' m.cr3 n') = some f') (hne : f' ≠ f) (hdir : f ∉ G.dirs) :
    ∃ ram, m.memcpy (n * 4096) (n' * 4096) (pgSize / 4) = .ok (m.setRam ram) ∧
      Coherent (m.setRam ram) G ∧ (∀ j < 1024, ram f j = m.ram f' j) ∧
      ∀ g, g ≠ f → ram g = m.ram g := by
  have hstruct := hc.not_structural hdst hdir (by cases pf <;> simp [Owner.ofPage])
  have hstable (ram : Ram) (hram : ∀ g, g ≠ f → ram g = m.ram g) : Coherent (m.setRam ram) G := by
    apply hc.setRam
    intro g hg i
    rw [hram g]
    rintro rfl
    exact hstruct hg
  have hkept (g : ℕ) (hg : g ≠ f) : (fun j => if g = f ∧ 0 ≤ j ∧ j < 0 + pgSize / 4 then
      m.ram f' (0 + (j - 0)) else m.ram g j) = m.ram g := by
    funext j
    exact if_neg (by simp [hg])
  refine ⟨_, memcpy_eq (a := 0) (b := 0) hne ?_ ?_, hstable _ hkept, ?_, hkept⟩
  · intro ram hram j hj
    rw [Nat.zero_add]
    exact (hstable ram hram).walk_page hcr3 hdst hj
  · intro ram hram j hj
    rw [Nat.zero_add]
    exact (hstable ram hram).walk_page hcr3 hsrc hj
  · intro j hj
    have hword : j < 0 + pgSize / 4 := by
      unfold pgSize
      omega
    rw [if_pos ⟨rfl, Nat.zero_le j, hword⟩, Nat.zero_add, Nat.sub_zero]

/-- Page `x` of the parent can be copied to the directory `d` by way of page `n` of the heap. -/
structure PageReady (m : Machine) (G : Layout) (child parent n x d f f' : ℕ) : Prop where
  coherent : Coherent m G
  cr3_mem : m.cr3 ∈ G.dirs
  parentDir : DirOf m G parent m.cr3
  childDir : DirOf m G child d
  space : d ∈ G.spaces
  held : G.owns (.held .user) = none
  buf : G.owns (.kernel n) = some f
  buf_notMem : f ∉ G.dirs
  top : x < 0xc0000
  page : G.owns (.user m.cr3 x) = some f'
  fresh : G.owns (.user d x) = none

/-- A page is copied to the buffer, and the child's directory is in use. -/
theorem PageReady.start (h : PageReady m G child parent n x d f f') :
    ∃ ram, Coherent { m.setRam ram with cr3 := d } G ∧ (∀ j < 1024, ram f j = m.ram f' j) ∧
      (∀ g, g ≠ f → ram g = m.ram g) ∧
      copyPage child parent (n * 4096) (x * 4096) m =
        getAPageWithoutOpvaddrbitmap { m.setRam ram with cr3 := d } .user (x * 4096) >>= fun y =>
          y.2.memcpy (x * 4096) (n * 4096) (pgSize / 4) >>= fun m => pageDirActivate m parent := by
  have hne : f' ≠ f := by
    rintro rfl
    cases G.ledger.inj h.page h.buf
  obtain ⟨ram, hcopy, hc, hwords, hkept⟩ := @Coherent.memcpyPage m G .kernel .user n x f f'
    h.coherent h.cr3_mem h.buf h.page hne h.buf_notMem
  refine ⟨ram, hc.congr rfl rfl, hwords, hkept, ?_⟩
  unfold copyPage
  rw [hcopy, ok_bind, hc.pageDirActivate h.cr3_mem h.childDir, ok_bind]

/-- Once the page of the child has its frame the buffer is copied to it, and the parent's directory
is in use again. -/
theorem PageReady.finish (h : PageReady m G child parent n x d f f') {m₂ m₃ : Machine} {r : Option ℕ}
    (hc : Coherent m₂ G) (hcr3 : m₂.cr3 = d) (htasks : m₂.tasks = m.tasks)
    (hget : getAPageWithoutOpvaddrbitmap m₂ .user (x * 4096) = .ok (r, m₃)) :
    ∃ ram L' g, (m₃.memcpy (x * 4096) (n * 4096) (pgSize / 4) >>= fun m =>
        pageDirActivate m parent) = .ok { m₃.setRam ram with cr3 := m.cr3 } ∧
      Coherent (m₃.setRam ram) (G.withLedger L') ∧ SameTasks m₂ m₃ ∧
      Grown d G.ledger L' (pages .user d x 1) ∧ L'.owns (.user d x) = some g ∧ Kept G m₂ m₃ ∧
      (∀ j < 1024, ram g j = m₃.ram f j) ∧ ∀ g', g' ≠ g → ram g' = m₃.ram g' := by
  have hmem := h.coherent.encoded.spaces_subset h.space
  obtain ⟨L', hc₃, hsame, hg, hkept⟩ :=
    getAPageWithoutOpvaddrbitmap_coherent hc (by rw [hcr3]; exact h.space) h.held h.top.le hget
  rw [hcr3] at hg
  have hcr3₃ : m₃.cr3 = d := hsame.cr3.trans hcr3
  obtain ⟨-, g, hgx⟩ := hg.new (.user d x) ⟨0, by norm_num, rfl⟩
  have hbuf : L'.owns (.kernel n) = some f := (hg.of_owned h.buf (by simp)).trans h.buf
  have hne : f ≠ g := by
    rintro rfl
    cases L'.inj hbuf hgx
  obtain ⟨ram, hcopy, hc₄, hwords, hkept₄⟩ := @Coherent.memcpyPage m₃ _ .user .kernel x n g f hc₃
    (by rwa [hcr3₃]) (by rwa [hcr3₃]) hbuf hne (hc₃.user_not_dir hgx)
  have hparent : DirOf (m₃.setRam ram) (G.withLedger L') parent m.cr3 :=
    h.parentDir.congr (congrArg Task.pgdir (congrFun (hsame.tasks.trans htasks) parent))
      fun y g hy => (hg.of_owned hy (by simp)).trans hy
  refine ⟨ram, L', g, ?_, hc₄, hsame, hg, hgx, hkept, hwords, hkept₄⟩
  rw [hcopy, ok_bind, hc₄.pageDirActivate (by rwa [setRam_cr3, hcr3₃]) hparent]

/-- One page of the parent is copied: the page of the child gets a frame with the same words. -/
theorem PageReady.copied (h : PageReady m G child parent n x d f f')
    (hcopy : copyPage child parent (n * 4096) (x * 4096) m = .ok m') :
    ∃ L', Coherent m' (G.withLedger L') ∧ SameTasks m m' ∧
      Grown d G.ledger L' (pages .user d x 1) ∧
      (∀ g, L'.owns (.user d x) = some g → ∀ j < 1024, m'.ram g j = m.ram f' j) ∧
      ∀ o g, G.owns o = some g → ¬ Structural G g → g ≠ f → m'.ram g = m.ram g := by
  obtain ⟨ram, hc₂, hwords₁, hkept₁, hstart⟩ := h.start
  rw [hstart] at hcopy
  obtain ⟨⟨r, m₃⟩, hget, hcopy⟩ := of_bind_eq_ok hcopy
  obtain ⟨ram', L', g, hend, hc₄, hsame, hg, hgx, hkept₂, hwords₄, hkept₄⟩ :=
    h.finish hc₂ rfl rfl hget
  change ∀ o g, G.owns o = some g → ¬ Structural G g → m₃.ram g = ram g at hkept₂
  dsimp only at hcopy
  rw [hend] at hcopy
  obtain rfl := Except.ok.inj hcopy
  have hstruct := h.coherent.not_structural h.buf h.buf_notMem (by simp)
  refine ⟨L', hc₄.congr rfl rfl, ⟨rfl, hsame.kernelVaddr, hsame.pidBitmap, hsame.tasks,
    hsame.running, hsame.start, hsame.frames⟩, hg, ?_, ?_⟩
  · intro g' hg' j hj
    obtain rfl := Option.some.inj (hgx.symm.trans hg')
    change ram' g j = m.ram f' j
    rw [hwords₄ j hj, hkept₂ _ f h.buf hstruct, hwords₁ j hj]
  · intro o g' ho hs hgf
    have hgg : g' ≠ g := by
      rintro rfl
      obtain rfl := L'.inj (hg.owned ho) hgx
      cases h.fresh.symm.trans ho
    change ram' g' = m.ram g'
    rw [hkept₄ g' hgg, hkept₂ o g' ho hs, hkept₁ g' hgf]

/-- The pages of the first `k` bits of a bitmap are copied to the directory `d` by way of the
frame `f`. -/
structure Copied (m₀ : Machine) (G : Layout) (va : VirtualAddr) (d f k : ℕ) (m : Machine)
    (L : Ledger Owner ℕ) : Prop where
  coherent : Coherent m (G.withLedger L)
  same : SameTasks m₀ m
  kept : ∀ o, (∀ e, o ≠ .table d e) → (∀ x, o ≠ .user d x) → L.owns o = G.owns o
  pages : ∀ x, L.owns (.user d x) ≠ none ↔
    va.base ≤ x ∧ x < va.base + k ∧ bitmapScanTest va.vaddrBitmap (x - va.base) = true
  words : ∀ x g g', L.owns (.user d x) = some g → G.owns (.user m₀.cr3 x) = some g' →
    ∀ j < 1024, m.ram g j = m₀.ram g' j
  ram : ∀ o g, G.owns o = some g → ¬ Structural G g → g ≠ f → m.ram g = m₀.ram g

/-- What the loops start from: the directory `d` of the child is empty, page `n` of the kernel heap
is at hand, and the bitmap marks the pages of the directory in use. -/
structure CopyReady (m : Machine) (G : Layout) (va : VirtualAddr) (child parent n d f : ℕ) :
    Prop where
  coherent : Coherent m G
  cr3_mem : m.cr3 ∈ G.dirs
  parentDir : DirOf m G parent m.cr3
  childDir : DirOf m G child d
  space : d ∈ G.spaces
  held : G.owns (.held .user) = none
  buf : G.owns (.kernel n) = some f
  buf_notMem : f ∉ G.dirs
  empty : ∀ x, G.owns (.user d x) = none
  bare : ∀ e, G.owns (.table d e) = none
  vaddr : va = (m.tasks parent).userprocVaddr
  tracked : Tracked va (Owner.user m.cr3) G.ledger
  top : va.base + va.pages ≤ 0xc0000

section Body

variable {m₀ : Machine} {va : VirtualAddr} {L : Ledger Owner ℕ} {k : ℕ}

/-- Before the loops nothing is copied. -/
theorem CopyReady.zero (hr : CopyReady m G va child parent n d f) :
    Copied m G va d f 0 m G.ledger where
  coherent := hr.coherent
  same := .refl m
  kept := fun _ _ _ => rfl
  pages := fun x => by
    rw [show G.ledger.owns (.user d x) = none from hr.empty x]
    simp only [ne_eq, not_true_eq_false, false_iff]
    omega
  words := fun x g g' hg => by
    rw [show G.ledger.owns (.user d x) = none from hr.empty x] at hg
    cases hg
  ram := fun _ _ _ _ _ => rfl

/-- What was owned before the copy still is. -/
theorem Copied.owned (h : Copied m₀ G va d f k m L) (hr : CopyReady m₀ G va child parent n d f)
    {o : Owner} {g : ℕ} (ho : G.owns o = some g) : L.owns o = some g := by
  rw [h.kept o, ho]
  · rintro e rfl
    rw [hr.bare] at ho
    cases ho
  · rintro x rfl
    rw [hr.empty] at ho
    cases ho

/-- A frame that held no entries before the copy holds none now. -/
theorem Copied.not_structural (h : Copied m₀ G va d f k m L)
    (hr : CopyReady m₀ G va child parent n d f) {o : Owner} {g : ℕ} (ho : G.owns o = some g)
    (hs : ¬ Structural G g) : ¬ Structural (G.withLedger L) g := by
  rintro (hd | hlow | ⟨d', e, ht⟩)
  · exact hs (.inl hd)
  · exact hs (.inr (.inl hlow))
  · obtain rfl := L.inj (h.owned hr ho) ht
    exact hs (.inr (.inr ⟨d', e, ho⟩))

/-- A page whose bit is clear is not copied. -/
theorem Copied.skip (h : Copied m₀ G va d f k m L) (hk : bitmapScanTest va.vaddrBitmap k = false) :
    Copied m₀ G va d f (k + 1) m L where
  coherent := h.coherent
  same := h.same
  kept := h.kept
  pages := fun x => by
    rw [h.pages x]
    constructor
    · exact fun ⟨h1, h2, h3⟩ => ⟨h1, by omega, h3⟩
    · rintro ⟨h1, h2, h3⟩
      refine ⟨h1, ?_, h3⟩
      have hne : x - va.base ≠ k := by
        rintro rfl
        rw [hk] at h3
        cases h3
      omega
  words := h.words
  ram := h.ram

/-- The page of the next bit that is set can be copied. -/
theorem Copied.pageReady (h : Copied m₀ G va d f k m L)
    (hr : CopyReady m₀ G va child parent n d f) (hk : k < va.pages)
    (hset : bitmapScanTest va.vaddrBitmap k = true) :
    ∃ f', G.owns (.user m₀.cr3 (va.base + k)) = some f' ∧
      PageReady m (G.withLedger L) child parent n (va.base + k) d f f' := by
  have howned {o : Owner} {g : ℕ} (ho : G.owns o = some g) : L.owns o = some g := h.owned hr ho
  have hdirOf {p c : ℕ} (hp : DirOf m₀ G p c) : DirOf m (G.withLedger L) p c :=
    hp.congr (congrArg Task.pgdir (congrFun h.same.tasks p)) fun y g hy => howned hy
  obtain ⟨f', hpage⟩ := Option.ne_none_iff_exists'.mp (hr.tracked.owned k hk hset)
  have htop := hr.top
  have hcr3 := h.same.cr3
  exact ⟨f', hpage, {
    coherent := h.coherent
    cr3_mem := by
      rw [hcr3]
      exact hr.cr3_mem
    parentDir := by
      rw [hcr3]
      exact hdirOf hr.parentDir
    childDir := hdirOf hr.childDir
    space := hr.space
    held := by rw [withLedger_owns, h.kept _ (by simp) (by simp), hr.held]
    buf := howned hr.buf
    buf_notMem := hr.buf_notMem
    top := by omega
    page := by
      rw [hcr3]
      exact howned hpage
    fresh := by
      by_contra hne
      have := (h.pages _).mp hne
      omega }⟩

/-- A page whose bit is set is copied. -/
theorem Copied.copyPage (h : Copied m₀ G va d f k m L)
    (hr : CopyReady m₀ G va child parent n d f) (hk : k < va.pages)
    (hset : bitmapScanTest va.vaddrBitmap k = true)
    (hcopy : copyPage child parent (n * 4096) ((va.base + k) * 4096) m = .ok m') :
    ∃ L', Copied m₀ G va d f (k + 1) m' L' := by
  have howned {o : Owner} {g : ℕ} (ho : G.owns o = some g) : L.owns o = some g := h.owned hr ho
  obtain ⟨f', hpage, hready⟩ := h.pageReady hr hk hset
  obtain ⟨L', hc', hsame, hg, hwords, hkept⟩ := hready.copied hcopy
  have hpages (x : ℕ) : L'.owns (.user d x) ≠ none ↔
      L.owns (.user d x) ≠ none ∨ x = va.base + k := by
    by_cases hxk : x = va.base + k
    · obtain ⟨-, g, hgx⟩ := hg.new (.user d x) ⟨0, by norm_num, by rw [hxk]; rfl⟩
      refine ⟨fun _ => .inr hxk, fun _ => ?_⟩
      rw [hgx]
      simp
    · rw [hg.kept]
      · simp [hxk]
      · rintro ⟨i, hi, heq⟩
        obtain rfl : i = 0 := by omega
        cases heq
        exact hxk rfl
      · simp
  have hold {x g : ℕ} (ho : L.owns (.user d x) = some g) : m'.ram g = m.ram g := by
    refine hkept _ g ho ?_ ?_
    · exact h.coherent.not_structural ho (h.coherent.user_not_dir ho) (by simp)
    · rintro rfl
      cases L.inj ho (howned hr.buf)
  refine ⟨L', hc', h.same.trans hsame, ?_, ?_, ?_, ?_⟩
  · intro o h1 h2
    rw [hg.kept o _ h1, withLedger_ledger, h.kept o h1 h2]
    rintro ⟨i, -, rfl⟩
    exact h2 _ rfl
  · intro x
    rw [hpages, h.pages]
    constructor
    · rintro (⟨h1, h2, h3⟩ | rfl)
      · exact ⟨h1, by omega, h3⟩
      · exact ⟨by omega, by omega, by rwa [Nat.add_sub_cancel_left]⟩
    · rintro ⟨h1, h2, h3⟩
      by_cases hxk : x = va.base + k
      · exact .inr hxk
      · exact .inl ⟨h1, by omega, h3⟩
  · intro x g g' hgx hg' j hj
    by_cases hxk : x = va.base + k
    · subst hxk
      rw [hwords g hgx j hj]
      obtain rfl := Option.some.inj (hpage.symm.trans hg')
      refine congrFun (h.ram _ f' hpage ?_ ?_) j
      · exact fun hs => h.coherent.not_structural (howned hpage)
          (h.coherent.user_not_dir (howned hpage)) (by simp) (hs.imp id (.imp id
            fun ⟨d', e, ht⟩ => ⟨d', e, howned ht⟩))
      · rintro rfl
        cases G.ledger.inj hpage hr.buf
    · have hgx' : L.owns (.user d x) = some g := by
        obtain hin | h2 := (hpages x).mp (by rw [hgx]; simp)
        · obtain ⟨g₁, h1⟩ := Option.ne_none_iff_exists'.mp hin
          rw [h1, ← hgx, hg.owned h1]
        · exact absurd h2 hxk
      rw [hold hgx']
      exact h.words x g g' hgx' hg' j hj
  · intro o g ho hs hgf
    rw [hkept o g (howned ho) (h.not_structural hr ho hs) hgf]
    exact h.ram o g ho hs hgf

/-- The loops of `copy_body_stack3` copy the pages of the parent, and nothing else. -/
theorem CopyReady.copied (hr : CopyReady m G va child parent n d f)
    (h : copyBodyStack3 m child parent (n * 4096) = .ok m') :
    ∃ L, Copied m G va d f va.pages m' L := by
  unfold copyBodyStack3 at h
  rw [← hr.vaddr] at h
  have haddr (k : ℕ) : k * pgSize + va.vaddrStart = (va.base + k) * 4096 := by
    have := hr.tracked.aligned
    unfold VirtualAddr.base pgSize
    omega
  simp only [haddr] at h
  refine copyBytes_spec (P := fun k m₁ => ∃ L, Copied m G va d f k m₁ L)
    ?_ ?_ ?_ ?_ h
  · rintro k m₁ m₂ hk hset ⟨L, hL⟩ hcopy
    exact hL.copyPage hr hk hset hcopy
  · rintro k m₁ - hclear ⟨L, hL⟩
    exact ⟨L, hL.skip hclear⟩
  · unfold VirtualAddr.pages
    omega
  · rw [Nat.zero_mul]
    exact ⟨_, hr.zero⟩

end Body

end Copying

end X86System.Memory
