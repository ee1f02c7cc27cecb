import X86System.AddressSpaces
import X86System.Frames
import Mathlib.Order.Interval.Finset.Nat

/-!
# The pools that `mem_pool_init` makes

The machine's memory from 2 MB on is cut into the kernel's frames and those of the
users. Counts of frames are held in 16 bits, so from 258 MB on most of the memory
belongs to neither.
-/
namespace X86System.Memory

/-- A pool can hand out frame `f`: the sum is the address that `pmalloc` computes. -/
def Pool.Covers (p : Pool) (f : ℕ) : Prop :=
  ∃ i < 8 * p.poolBitmap.btmpBytesLen, i <<< 12 + p.phyAddrStart = f * 4096

instance (p : Pool) (f : ℕ) : Decidable (p.Covers f) :=
  inferInstanceAs (Decidable (∃ i < _, _ = _))

/-- `MEM_BITMAP_BASE`. -/
def memBitmapBase : ℕ := 0xc009a000

/-- Where `mem_pool_init` puts the bytes of its three bitmaps, and how many there are. -/
def Machine.poolBitmaps (m : Machine) : List (ℕ × ℕ) :=
  let kbmLength := (m.pools .kernel).poolBitmap.btmpBytesLen
  [(memBitmapBase, kbmLength),
    (memBitmapBase + kbmLength, (m.pools .user).poolBitmap.btmpBytesLen),
    (m.kernelVaddr.bits, m.kernelVaddr.vaddrBitmap.btmpBytesLen)]

/-- The claim on `mem_pool_init` for a machine with `allMem` bytes of memory. -/
structure Partitioned (m : Machine) (allMem : ℕ) : Prop where
  inside : ∀ pf f, (m.pools pf).Covers f → 0x200 ≤ f ∧ (f + 1) * 4096 ≤ allMem
  kernelBelow : ∀ f, (m.pools .kernel).Covers f → (f + 1) * 4096 ≤ (m.pools .user).phyAddrStart
  userAbove : ∀ f, (m.pools .user).Covers f → (m.pools .user).phyAddrStart ≤ f * 4096
  apart : m.poolBitmaps.Pairwise fun r r' => r.1 + r.2 ≤ r'.1
  belowPcb : ∀ r ∈ m.poolBitmaps, r.1 + r.2 ≤ mainThread
  lost : ((Finset.Ico 0x200 (allMem / 4096)).filter fun f =>
    ¬ (m.pools .kernel).Covers f ∧ ¬ (m.pools .user).Covers f).card < 16

/-- `all_free_pages`, a `uint16_t`. -/
def allFreePages (allMem : ℕ) : ℕ := sub32 allMem 0x200000 >>> 12 % 2 ^ 16

section Init

variable {ram : Paging.Ram} {after : ℕ → UInt8} {allMem n f : ℕ}

theorem Pool.covers_iff {p : Pool} (h : p.phyAddrStart % 4096 = 0) (f : ℕ) :
    p.Covers f ↔ p.base ≤ f ∧ f < p.base + p.frames := by
  unfold Pool.Covers Pool.base Pool.frames
  simp only [Nat.shiftLeft_eq]
  constructor
  · rintro ⟨i, hi, heq⟩
    omega
  · intro hf
    exact ⟨f - p.phyAddrStart / 4096, by omega, by omega⟩

/-- The pools, by the number of free pages. -/
theorem memPoolInit_sizes (hn : allFreePages allMem = n) :
    (((memPoolInit ram after allMem).pools .kernel).phyAddrStart = 0x200000 ∧
      ((memPoolInit ram after allMem).pools .kernel).poolBitmap.btmpBytesLen = n / 2 / 8) ∧
    (((memPoolInit ram after allMem).pools .user).phyAddrStart = 0x200000 + n / 2 * 4096 ∧
      ((memPoolInit ram after allMem).pools .user).poolBitmap.btmpBytesLen = (n - n / 2) / 8) := by
  unfold allFreePages at hn
  simp only [memPoolInit, bitmapInit, pgSize, Nat.shiftLeft_eq, Nat.shiftRight_eq_div_pow] at hn ⊢
  norm_num at hn ⊢
  simp [hn]

/-- The bitmaps lie one behind the other. -/
theorem memPoolInit_bitmaps (hn : allFreePages allMem = n) :
    (memPoolInit ram after allMem).poolBitmaps =
      [(memBitmapBase, n / 2 / 8), (memBitmapBase + n / 2 / 8, (n - n / 2) / 8),
        (memBitmapBase + n / 2 / 8 + (n - n / 2) / 8, n / 2 / 8)] := by
  unfold allFreePages at hn
  simp only [Machine.poolBitmaps, memPoolInit, bitmapInit, pgSize, memBitmapBase, Nat.shiftLeft_eq,
    Nat.shiftRight_eq_div_pow] at hn ⊢
  norm_num at hn ⊢
  simp [hn]

theorem kernel_covers (hn : allFreePages allMem = n) (f : ℕ) :
    ((memPoolInit ram after allMem).pools .kernel).Covers f ↔
      0x200 ≤ f ∧ f < 0x200 + 8 * (n / 2 / 8) := by
  obtain ⟨⟨hstart, hlen⟩, -⟩ := @memPoolInit_sizes ram after allMem n hn
  rw [Pool.covers_iff (by rw [hstart]), Pool.base, Pool.frames, hstart, hlen]

theorem user_covers (hn : allFreePages allMem = n) (f : ℕ) :
    ((memPoolInit ram after allMem).pools .user).Covers f ↔
      0x200 + n / 2 ≤ f ∧ f < 0x200 + n / 2 + 8 * ((n - n / 2) / 8) := by
  obtain ⟨-, hstart, hlen⟩ := @memPoolInit_sizes ram after allMem n hn
  rw [Pool.covers_iff (by rw [hstart]; omega), Pool.base, Pool.frames, hstart, hlen,
    show (0x200000 + n / 2 * 4096) / 4096 = 0x200 + n / 2 by omega]

/-- How many frames the pools leave out of `total` ones. -/
theorem card_lost (hn : allFreePages allMem = n) {total : ℕ} (hle : n ≤ total) :
    ((Finset.Ico 0x200 (0x200 + total)).filter fun f =>
      ¬ ((memPoolInit ram after allMem).pools .kernel).Covers f ∧
      ¬ ((memPoolInit ram after allMem).pools .user).Covers f).card =
      total - 8 * (n / 2 / 8) - 8 * ((n - n / 2) / 8) := by
  set k := Finset.Ico 0x200 (0x200 + 8 * (n / 2 / 8)) with hk
  set u := Finset.Ico (0x200 + n / 2) (0x200 + n / 2 + 8 * ((n - n / 2) / 8)) with hu
  have hdisj : Disjoint k u := by
    rw [Finset.disjoint_left]
    intro f hf hf'
    rw [hk, Finset.mem_Ico] at hf
    rw [hu, Finset.mem_Ico] at hf'
    omega
  have hsub : k ∪ u ⊆ Finset.Ico 0x200 (0x200 + total) := by
    intro f hf
    rw [Finset.mem_union, hk, hu, Finset.mem_Ico, Finset.mem_Ico] at hf
    rw [Finset.mem_Ico]
    omega
  have heq : (Finset.Ico 0x200 (0x200 + total)).filter (fun f =>
      ¬ ((memPoolInit ram after allMem).pools .kernel).Covers f ∧
      ¬ ((memPoolInit ram after allMem).pools .user).Covers f) =
      Finset.Ico 0x200 (0x200 + total) \ (k ∪ u) := by
    ext f
    rw [Finset.mem_filter, Finset.mem_sdiff, Finset.mem_union, not_or, hk, hu, Finset.mem_Ico,
      Finset.mem_Ico, Finset.mem_Ico, kernel_covers hn, user_covers hn]
  rw [heq, Finset.card_sdiff_of_subset hsub, Finset.card_union_of_disjoint hdisj, hk, hu,
    Nat.card_Ico, Nat.card_Ico, Nat.card_Ico]
  omega

/-- Memory is partitioned as long as the number of free pages fits in 16 bits. -/
theorem mem_pool_init_partitions_iff (hlow : 0x300000 ≤ allMem) (hword : allMem < 2 ^ 32) :
    Partitioned (memPoolInit ram after allMem) allMem ↔ allMem < 0x10200000 := by
  have hfree : allFreePages allMem = (allMem / 4096 - 0x200) % 2 ^ 16 := by
    unfold allFreePages sub32
    rw [Nat.shiftRight_eq_div_pow]
    omega
  have htotal : allMem / 4096 = 0x200 + (allMem / 4096 - 0x200) := by omega
  have hlost := @card_lost ram after allMem _ rfl (allMem / 4096 - 0x200) (by
    rw [hfree]
    exact Nat.mod_le ..)
  rw [← htotal] at hlost
  obtain ⟨⟨hks, hkl⟩, hus, hul⟩ := @memPoolInit_sizes ram after allMem _ rfl
  constructor
  · intro h
    have := h.lost
    rw [hlost] at this
    omega
  · intro hlt
    have hn : allFreePages allMem = allMem / 4096 - 0x200 := by
      rw [hfree]
      omega
    have hbits := @memPoolInit_bitmaps ram after allMem _ hn
    refine ⟨fun pf f hf => ?_, fun f hf => ?_, fun f hf => ?_, ?_, fun r hr => ?_, ?_⟩
    · cases pf with
      | kernel =>
        rw [kernel_covers hn] at hf
        omega
      | user =>
        rw [user_covers hn] at hf
        omega
    · rw [kernel_covers hn] at hf
      omega
    · rw [user_covers hn] at hf
      omega
    · rw [hbits]
      simp
    · rw [hbits] at hr
      unfold memBitmapBase at hr
      unfold mainThread
      simp only [List.mem_cons, List.not_mem_nil, or_false] at hr
      obtain rfl | rfl | rfl := hr <;> dsimp only <;> omega
    · rw [hlost]
      omega

/-- The machine of the emulator's configuration. -/
theorem mem_pool_init_partitions_32mb :
    Partitioned (memPoolInit (fun _ _ => 0) (fun _ => 0) 0x2000000) 0x2000000 :=
  (mem_pool_init_partitions_iff (by norm_num) (by norm_num)).mpr (by norm_num)

/-- With 258 MB the number of free pages is 65536, and no frame is handed out. -/
theorem mem_pool_init_loses_all :
    ¬ Partitioned (memPoolInit (fun _ _ => 0) (fun _ => 0) 0x10200000) 0x10200000 := by
  intro h
  have hlost := h.lost
  have hfree : allFreePages 0x10200000 = 0 := by decide
  rw [show 0x10200000 / 4096 = 0x200 + 65536 by norm_num, card_lost hfree (Nat.zero_le _)] at hlost
  omega

end Init

end X86System.Memory
