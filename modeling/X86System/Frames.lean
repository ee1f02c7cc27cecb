import X86System.Memory
import X86System.Library.Ledger

/-!
# Who owns a frame

The abstract view of physical memory: a ledger says which frame stands behind each
page of the kernel heap, each user page of an address space and each user entry of a
page directory. The bitmaps of the pools mark the frames of the ledger, and the
entries of the directories and tables spell it out.
-/
namespace X86System.Memory
open Exec Paging

/-- What a frame is used for. -/
inductive Owner
  /-- Behind a page of the kernel heap. -/
  | kernel (page : ℕ)
  /-- The table of a user entry of a directory. -/
  | table (dir e : ℕ)
  /-- Behind a user page of the address space of a directory. -/
  | user (dir page : ℕ)
  /-- Taken from a pool and not yet mapped. -/
  | held (pf : PoolFlags)
  deriving DecidableEq

/-- The pool an owner's frame comes from. -/
def Owner.pool : Owner → PoolFlags
  | kernel _ | table _ _ => .kernel
  | user _ _ => .user
  | held pf => pf

/-- The owner of the frame behind a page that `malloc_page` hands out. -/
def Owner.ofPage (pf : PoolFlags) (dir page : ℕ) : Owner :=
  match pf with
  | .kernel => .kernel page
  | .user => .user dir page

@[simp] theorem pool_ofPage (pf : PoolFlags) (dir page : ℕ) :
    (Owner.ofPage pf dir page).pool = pf := by
  cases pf <;> rfl

theorem ofPage_inj {pf : PoolFlags} {dir n n' : ℕ}
    (h : Owner.ofPage pf dir n = Owner.ofPage pf dir n') : n = n' := by
  cases pf <;> simpa [Owner.ofPage] using h

/-- The directories and what every frame is used for. -/
structure Layout where
  ledger : Ledger Owner ℕ
  /-- The frames of page directories, the kernel's among them. -/
  dirs : Set ℕ
  /-- The directories whose user half is in use. -/
  spaces : Set ℕ

def Layout.owns (G : Layout) (o : Owner) : Option ℕ := G.ledger.owns o

def Layout.withLedger (G : Layout) (L : Ledger Owner ℕ) : Layout := { G with ledger := L }

section Fields

variable (G : Layout) (L : Ledger Owner ℕ)

@[simp] theorem withLedger_ledger : (G.withLedger L).ledger = L := rfl
@[simp] theorem withLedger_owns : (G.withLedger L).owns = L.owns := rfl
@[simp] theorem withLedger_dirs : (G.withLedger L).dirs = G.dirs := rfl
@[simp] theorem withLedger_spaces : (G.withLedger L).spaces = G.spaces := rfl

end Fields

/-- The first frame of a pool. -/
def Pool.base (p : Pool) : ℕ := p.phyAddrStart / 4096

/-- How many frames the bitmap of a pool covers. -/
def Pool.frames (p : Pool) : ℕ := 8 * p.poolBitmap.btmpBytesLen

/-- Set or clear the bit of frame `i` of a pool. -/
def Pool.mark (p : Pool) (i : ℕ) (value : Bool) : Pool :=
  { p with poolBitmap := bitmapSet p.poolBitmap i value }

section Fields

variable (p : Pool) (i : ℕ) (value : Bool)

@[simp] theorem mark_phyAddrStart : (p.mark i value).phyAddrStart = p.phyAddrStart := rfl
@[simp] theorem mark_base : (p.mark i value).base = p.base := rfl
@[simp] theorem mark_frames : (p.mark i value).frames = p.frames := rfl

@[simp] theorem mark_test (j : ℕ) : bitmapScanTest (p.mark i value).poolBitmap j =
    if i = j then value else bitmapScanTest p.poolBitmap j := bitmapScanTest_set ..

end Fields

/-- The bitmaps of the pools mark the frames that somebody owns. -/
structure Marked (pools : PoolFlags → Pool) (L : Ledger Owner ℕ) : Prop where
  aligned : ∀ pf, (pools pf).phyAddrStart % 4096 = 0
  kernelBase : 0x200 ≤ (pools .kernel).base
  apart : (pools .kernel).base + (pools .kernel).frames ≤ (pools .user).base
  top : (pools .user).base + (pools .user).frames ≤ 2 ^ 20
  marked : ∀ pf i, i < (pools pf).frames →
    (bitmapScanTest (pools pf).poolBitmap i = true ↔
      ∃ o, o.pool = pf ∧ L.owns o = some ((pools pf).base + i))
  inPool : ∀ o f, L.owns o = some f →
    (pools o.pool).base ≤ f ∧ f < (pools o.pool).base + (pools o.pool).frames


/-- The frame of the table that kernel entry `e` of every directory points to. -/
def kernelTable (e : ℕ) : ℕ := 0x101 + (e - 768)

/-- A page of the kernel heap, below the window onto the tables. -/
def HeapPage (page : ℕ) : Prop := 0xc0100 ≤ page ∧ page < 0xffc00

/-- The directories and tables in memory spell out the layout. -/
structure Encoded (ram : Ram) (G : Layout) : Prop where
  kernelDir_mem : kernelDir ∈ G.dirs
  kernelDir_notMem : kernelDir ∉ G.spaces
  spaces_subset : G.spaces ⊆ G.dirs
  dirOwned : ∀ d ∈ G.dirs, d = kernelDir ∨ ∃ n, G.owns (.kernel n) = some d
  kernelHalf : ∀ d ∈ G.dirs, ∀ e, 768 ≤ e → e < 1023 → ram d e = entry (kernelTable e)
  selfMapped : ∀ d ∈ G.dirs, SelfMapped ram d
  kernelLow : ram kernelDir 0 = entry (kernelTable 768)
  kernelBare : ∀ e, 0 < e → e < 768 → ¬ present (ram kernelDir e)
  lowMapped : ∀ i < 256, ram (kernelTable 768) i = entry i
  kernelPage : ∀ n f, G.owns (.kernel n) = some f →
    HeapPage n ∧ ram (kernelTable (n / 1024)) (n % 1024) = entry f
  tableEntry : ∀ d e t, G.owns (.table d e) = some t →
    d ∈ G.spaces ∧ e < 768 ∧ ram d e = entry t
  noTable : ∀ d ∈ G.spaces, ∀ e < 768, G.owns (.table d e) = none → ¬ present (ram d e)
  userPage : ∀ d n f, G.owns (.user d n) = some f →
    ∃ t, G.owns (.table d (n / 1024)) = some t ∧ ram t (n % 1024) = entry f
  noUserPage : ∀ d n t, G.owns (.table d (n / 1024)) = some t → G.owns (.user d n) = none →
    ¬ present (ram t (n % 1024))
  vacant : ∀ n, HeapPage n → G.owns (.kernel n) = none →
    ¬ present (ram (kernelTable (n / 1024)) (n % 1024))

/-- The frames whose words are entries. -/
def Structural (G : Layout) (f : ℕ) : Prop :=
  f ∈ G.dirs ∨ (0x100 ≤ f ∧ f < 0x200) ∨ ∃ d e, G.owns (.table d e) = some f

theorem kernelTable_bounds {e : ℕ} (h : 768 ≤ e) (h' : e < 1023) :
    0x100 < kernelTable e ∧ kernelTable e < 0x200 := by
  unfold kernelTable
  omega

theorem HeapPage.index {n : ℕ} (h : HeapPage n) : 768 ≤ n / 1024 ∧ n / 1024 < 1023 := by
  unfold HeapPage at h
  omega

section Structure

variable {ram ram' : Ram} {G : Layout} {pools : PoolFlags → Pool}

theorem HeapPage.structural {n : ℕ} (h : HeapPage n) : Structural G (kernelTable (n / 1024)) := by
  have hb := kernelTable_bounds h.index.1 h.index.2
  exact .inr (.inl ⟨by omega, hb.2⟩)

/-- The words of other frames say nothing about the layout. -/
theorem Encoded.congr (h : Encoded ram G)
    (heq : ∀ f, Structural G f → ∀ i, ram' f i = ram f i) : Encoded ram' G := by
  have hdir (d : ℕ) (hd : d ∈ G.dirs) (i : ℕ) : ram' d i = ram d i := heq d (.inl hd) i
  have htab (d e t : ℕ) (ht : G.owns (.table d e) = some t) (i : ℕ) : ram' t i = ram t i :=
    heq t (.inr (.inr ⟨d, e, ht⟩)) i
  have hlow (i : ℕ) : ram' (kernelTable 768) i = ram (kernelTable 768) i :=
    heq _ (.inr (.inl (by decide))) i
  exact {
    kernelDir_mem := h.kernelDir_mem
    kernelDir_notMem := h.kernelDir_notMem
    spaces_subset := h.spaces_subset
    dirOwned := h.dirOwned
    kernelHalf := fun d hd e h1 h2 => by rw [hdir d hd, h.kernelHalf d hd e h1 h2]
    selfMapped := fun d hd => by rw [SelfMapped, hdir d hd, h.selfMapped d hd]
    kernelLow := by rw [hdir _ h.kernelDir_mem, h.kernelLow]
    kernelBare := fun e h1 h2 => by
      rw [hdir _ h.kernelDir_mem]
      exact h.kernelBare e h1 h2
    lowMapped := fun i hi => by rw [hlow, h.lowMapped i hi]
    kernelPage := fun n f hn => by
      obtain ⟨hp, he⟩ := h.kernelPage n f hn
      exact ⟨hp, by rw [heq _ hp.structural, he]⟩
    tableEntry := fun d e t ht => by
      obtain ⟨hd, he, hr⟩ := h.tableEntry d e t ht
      exact ⟨hd, he, by rw [hdir d (h.spaces_subset hd), hr]⟩
    noTable := fun d hd e he hn => by
      rw [hdir d (h.spaces_subset hd)]
      exact h.noTable d hd e he hn
    userPage := fun d n f hn => by
      obtain ⟨t, ht, hr⟩ := h.userPage d n f hn
      exact ⟨t, ht, by rw [htab d _ t ht, hr]⟩
    noUserPage := fun d n t ht hn => by
      rw [htab d _ t ht]
      exact h.noUserPage d n t ht hn
    vacant := fun n hp hn => by
      rw [heq _ hp.structural]
      exact h.vacant n hp hn }

/-- Frames that are held but not mapped are nowhere in the tables. -/
theorem Encoded.withLedger {L : Ledger Owner ℕ} (h : Encoded ram G)
    (heq : ∀ o, (∀ pf, o ≠ .held pf) → L.owns o = G.owns o) :
    Encoded ram (G.withLedger L) := by
  have hk (n : ℕ) : L.owns (.kernel n) = G.owns (.kernel n) := heq _ (by simp)
  have ht (d e : ℕ) : L.owns (.table d e) = G.owns (.table d e) := heq _ (by simp)
  have hu (d n : ℕ) : L.owns (.user d n) = G.owns (.user d n) := heq _ (by simp)
  obtain ⟨h1, h2, h3, h4, h5, h6, h7, h8, h9, h10, h11, h12, h13, h14, h15⟩ := h
  refine ⟨h1, h2, h3, ?_, h5, h6, h7, h8, h9, ?_, ?_, ?_, ?_, ?_, ?_⟩ <;>
    simp only [withLedger_owns, withLedger_dirs, withLedger_spaces, hk, ht, hu] <;> assumption

end Structure

section Marks

variable {pools pools' : PoolFlags → Pool} {L L' : Ledger Owner ℕ} {pf : PoolFlags} {o : Owner}
  {f i : ℕ}

/-- The pools do not overlap. -/
theorem Marked.pool_unique (h : Marked pools L) {pf pf' : PoolFlags}
    (h1 : (pools pf).base ≤ f ∧ f < (pools pf).base + (pools pf).frames)
    (h2 : (pools pf').base ≤ f ∧ f < (pools pf').base + (pools pf').frames) : pf = pf' := by
  have hapart := h.apart
  cases pf <;> cases pf' <;> first | rfl | omega

/-- A frame that somebody owns is in the pool of its owner. -/
theorem Marked.pool_of_owns (h : Marked pools L) (ho : L.owns o = some ((pools pf).base + i))
    (hi : i < (pools pf).frames) : o.pool = pf :=
  h.pool_unique (h.inPool o _ ho) ⟨by omega, by omega⟩

theorem Marked.unowned (h : Marked pools L) (hi : i < (pools pf).frames)
    (hclear : bitmapScanTest (pools pf).poolBitmap i = false) :
    L.Unowned ((pools pf).base + i) := by
  intro o ho
  have hset := (h.marked pf i hi).mpr ⟨o, h.pool_of_owns ho hi, ho⟩
  rw [hclear] at hset
  cases hset

/-- The marking is about the sizes, the bits and the owned frames only. -/
theorem Marked.change (h : Marked pools L)
    (hstart : ∀ pf, (pools' pf).phyAddrStart = (pools pf).phyAddrStart)
    (hframes : ∀ pf, (pools' pf).frames = (pools pf).frames)
    (hmarked : ∀ pf i, i < (pools pf).frames →
      (bitmapScanTest (pools' pf).poolBitmap i = true ↔
        ∃ o, o.pool = pf ∧ L'.owns o = some ((pools pf).base + i)))
    (hin : ∀ o f, L'.owns o = some f → (pools o.pool).base ≤ f ∧
      f < (pools o.pool).base + (pools o.pool).frames) : Marked pools' L' := by
  have hbase (pf : PoolFlags) : (pools' pf).base = (pools pf).base := by
    simp only [Pool.base, hstart pf]
  exact {
    aligned := fun pf => by rw [hstart, h.aligned]
    kernelBase := by
      rw [hbase]
      exact h.kernelBase
    apart := by
      rw [hbase, hbase, hframes]
      exact h.apart
    top := by
      rw [hbase, hframes]
      exact h.top
    marked := fun pf i hi => by
      rw [hbase]
      exact hmarked pf i (by rwa [hframes] at hi)
    inPool := fun o f ho => by
      rw [hbase, hframes]
      exact hin o f ho }

/-- Marking a frame moves no pool. -/
theorem update_mark (pools : PoolFlags → Pool) (pf : PoolFlags) (i : ℕ) (value : Bool)
    (pf' : PoolFlags) :
    (Function.update pools pf ((pools pf).mark i value) pf').phyAddrStart =
      (pools pf').phyAddrStart ∧
    (Function.update pools pf ((pools pf).mark i value) pf').frames = (pools pf').frames := by
  by_cases hp : pf' = pf
  · subst hp
    simp
  · simp [hp]

/-- A frame whose bit is clear can be taken. -/
theorem Marked.give (h : Marked pools L) (hi : i < (pools pf).frames)
    (hfree : L.Unowned ((pools pf).base + i)) (hpool : o.pool = pf) (hnone : L.owns o = none) :
    Marked (Function.update pools pf ((pools pf).mark i true)) (L.give o _ hfree) := by
  apply h.change (fun pf' => (update_mark ..).1) (fun pf' => (update_mark ..).2)
  · intro pf' j hj
    by_cases hp : pf' = pf
    · subst hp
      simp only [Function.update_self, mark_test]
      by_cases hij : i = j
      · subst hij
        simp only [if_true, true_iff]
        exact ⟨o, hpool, L.give_owns_self hfree⟩
      · rw [if_neg hij, h.marked pf' j hj]
        constructor
        · rintro ⟨o', hp', ho'⟩
          refine ⟨o', hp', ?_⟩
          rw [L.give_owns_of_ne hfree, ho']
          rintro rfl
          rw [hnone] at ho'
          cases ho'
        · rintro ⟨o', hp', ho'⟩
          rw [L.give_owns] at ho'
          split_ifs at ho' with he
          · have := Option.some.inj ho'
            omega
          · exact ⟨o', hp', ho'⟩
    · rw [Function.update_of_ne hp, h.marked pf' j hj]
      constructor
      · rintro ⟨o', hp', ho'⟩
        refine ⟨o', hp', ?_⟩
        rw [L.give_owns_of_ne hfree, ho']
        rintro rfl
        exact hp (hp'.symm.trans hpool)
      · rintro ⟨o', hp', ho'⟩
        rw [L.give_owns] at ho'
        split_ifs at ho' with he
        · exact absurd (hp'.symm.trans ((congrArg Owner.pool he).trans hpool)) hp
        · exact ⟨o', hp', ho'⟩
  · intro o' f ho'
    rw [L.give_owns] at ho'
    split_ifs at ho' with he
    · obtain rfl := Option.some.inj ho'
      rw [he, hpool]
      omega
    · exact h.inPool o' f ho'

/-- A frame may pass to another owner of its pool. -/
theorem Marked.move {o' : Owner} (h : Marked pools L) (hnone : L.owns o' = none)
    (hpool : o.pool = o'.pool) : Marked pools (L.move o o') := by
  apply h.change (fun _ => rfl) (fun _ => rfl)
  · intro pf i hi
    rw [h.marked pf i hi, L.exists_move_owns hnone (fun c => c.pool = pf) (by rw [hpool])]
  · intro c f hc
    rw [L.move_owns] at hc
    split_ifs at hc with h1
    · rw [h1, ← hpool]
      exact h.inPool o f hc
    · exact h.inPool c f hc

/-- A frame that is given back loses its mark. -/
theorem Marked.drop (h : Marked pools L) (ho : L.owns o = some f) :
    Marked (Function.update pools o.pool
      ((pools o.pool).mark (f - (pools o.pool).base) false)) (L.drop o) := by
  obtain ⟨hle, hlt⟩ := h.inPool o f ho
  apply h.change (fun pf' => (update_mark ..).1) (fun pf' => (update_mark ..).2)
  · intro pf' j hj
    by_cases hp : pf' = o.pool
    · subst hp
      simp only [Function.update_self, mark_test]
      by_cases hij : f - (pools o.pool).base = j
      · rw [if_pos hij]
        simp only [Bool.false_eq_true, false_iff, not_exists, not_and]
        intro c _
        have hf : (pools o.pool).base + j = f := by omega
        rw [hf]
        exact L.drop_unowned ho c
      · rw [if_neg hij, h.marked _ j hj]
        refine exists_congr fun c => and_congr_right fun _ => ?_
        rw [L.drop_owns]
        split_ifs with hc
        · rw [hc, ho]
          simp only [Option.some.injEq, iff_false]
          omega
        · rfl
    · rw [Function.update_of_ne hp, h.marked pf' j hj]
      refine exists_congr fun c => and_congr_right fun hc => ?_
      rw [L.drop_owns_of_ne]
      rintro rfl
      exact hp hc.symm
  · intro c g hc
    rw [L.drop_owns] at hc
    split_ifs at hc
    exact h.inPool c g hc

end Marks

end X86System.Memory
