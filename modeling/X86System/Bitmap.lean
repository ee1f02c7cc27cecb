import Mathlib.Data.Finset.Card
import Mathlib.Data.Nat.Bitwise
import Mathlib.Tactic

/-!
# Bitmaps

The kernel keeps free pages, pids, inodes and blocks in byte bitmaps. A bitmap is
a length in bytes and a pointer, so its bytes are modelled as a total function:
an index at or past the length reads or writes the memory that follows, exactly
as the code does. A run that trips an `ASSERT` or `PANIC` ends in a fault.
-/
namespace X86System

/-- The ways a run of kernel code ends without returning to its caller. -/
inductive Fault
  /-- `ASSERT` failed or `PANIC` was reached. -/
  | assert
  /-- A NULL, dangling or unmapped address was dereferenced. -/
  | page
  /-- An object was accessed outside its bounds. -/
  | overrun
  /-- A value was read that was never written. -/
  | uninit
  /-- A traversal did not come to an end. -/
  | diverge
  deriving DecidableEq, Repr

structure Bitmap where
  btmpBytesLen : ℕ
  bits : ℕ → UInt8

/-- `BITMAP_MASK << bit_odd` as the byte it selects. -/
def bitmapMask (bitOdd : ℕ) : UInt8 := 1 <<< UInt8.ofNat bitOdd

def bitmapScanTest (btmp : Bitmap) (bitIdx : ℕ) : Bool :=
  btmp.bits (bitIdx / 8) &&& bitmapMask (bitIdx % 8) ≠ 0

def bitmapSet (btmp : Bitmap) (bitIdx : ℕ) (value : Bool) : Bitmap :=
  let byteIdx := bitIdx / 8
  let old := btmp.bits byteIdx
  let new := if value then old ||| bitmapMask (bitIdx % 8)
    else old &&& ~~~ bitmapMask (bitIdx % 8)
  { btmp with bits := Function.update btmp.bits byteIdx new }

/-- The bytewise loop: skip full bytes, at most up to the end of the bitmap. -/
def skipFullBytes (btmp : Bitmap) : ℕ → ℕ → ℕ
  | 0, idxByte => idxByte
  | fuel + 1, idxByte =>
    if btmp.bits idxByte = 0xff ∧ idxByte < btmp.btmpBytesLen then
      skipFullBytes btmp fuel (idxByte + 1)
    else idxByte

/-- The bitwise loop inside one byte. -/
def skipSetBits (byte : UInt8) : ℕ → ℕ → ℕ
  | 0, idxBit => idxBit
  | fuel + 1, idxBit =>
    if bitmapMask idxBit &&& byte ≠ 0 then skipSetBits byte fuel (idxBit + 1) else idxBit

/-- The counting loop for runs of more than one bit. -/
def scanRun (btmp : Bitmap) (cnt : ℕ) : ℕ → ℕ → ℕ → Option ℕ
  | 0, _, _ => none
  | bitLeft + 1, nextBit, count =>
    let count := if bitmapScanTest btmp nextBit then 0 else count + 1
    if count = cnt then some (nextBit + 1 - cnt)
    else scanRun btmp cnt bitLeft (nextBit + 1) count

def bitmapScan (btmp : Bitmap) (cnt : ℕ) : Except Fault (Option ℕ) :=
  let idxByte := skipFullBytes btmp btmp.btmpBytesLen 0
  if idxByte < btmp.btmpBytesLen then
    let idxBit := skipSetBits (btmp.bits idxByte) 8 0
    let bitIdxStart := 8 * idxByte + idxBit
    if cnt = 1 then .ok (some bitIdxStart)
    else
      .ok (scanRun btmp cnt (8 * btmp.btmpBytesLen - bitIdxStart) (bitIdxStart + 1) 1)
  else .error .assert

/-- `bitmap_init`. -/
def bitmapInit (btmp : Bitmap) : Bitmap :=
  { btmp with bits := fun i => if i < btmp.btmpBytesLen then 0 else btmp.bits i }

/-- The indices of the clear bits inside the bitmap. -/
def Bitmap.free (btmp : Bitmap) : Finset ℕ :=
  (Finset.range (8 * btmp.btmpBytesLen)).filter (fun i => bitmapScanTest btmp i = false)

@[simp] theorem Bitmap.mem_free (btmp : Bitmap) (i : ℕ) :
    i ∈ btmp.free ↔ i < 8 * btmp.btmpBytesLen ∧ bitmapScanTest btmp i = false := by
  simp [Bitmap.free]

theorem bitmapMask_toNat (k : ℕ) (hk : k < 8) : (bitmapMask k).toNat = 2 ^ k := by
  interval_cases k <;> decide

/-- The mask test reads one bit of the byte. -/
theorem mask_test (x : UInt8) (k : ℕ) (hk : k < 8) :
    x &&& bitmapMask k ≠ 0 ↔ x.toNat.testBit k = true := by
  have hbit (j : ℕ) : (x &&& bitmapMask k).toNat.testBit j =
      (x.toNat.testBit j && decide (k = j)) := by
    rw [UInt8.toNat_and, Nat.testBit_and, bitmapMask_toNat k hk, Nat.testBit_two_pow]
  constructor
  · intro h
    by_contra hx
    apply h
    apply UInt8.toNat_inj.mp
    apply Nat.eq_of_testBit_eq
    intro j
    rw [hbit]
    by_cases hkj : k = j
    · subst hkj
      simpa using hx
    · simp [hkj]
  · intro h h0
    have := hbit k
    rw [h0] at this
    simp [h] at this

theorem mask_or (x : UInt8) (k j : ℕ) (hk : k < 8) :
    (x ||| bitmapMask k).toNat.testBit j = (x.toNat.testBit j || decide (k = j)) := by
  rw [UInt8.toNat_or, Nat.testBit_or, bitmapMask_toNat k hk, Nat.testBit_two_pow]

theorem mask_clear (x : UInt8) (k j : ℕ) (hk : k < 8) (hj : j < 8) :
    (x &&& ~~~ bitmapMask k).toNat.testBit j = (x.toNat.testBit j && !decide (k = j)) := by
  rw [UInt8.toNat_and, Nat.testBit_and]
  congr 1
  interval_cases k <;> interval_cases j <;> decide

theorem bitmapScanTest_eq (btmp : Bitmap) (i : ℕ) :
    bitmapScanTest btmp i = (btmp.bits (i / 8)).toNat.testBit (i % 8) := by
  have h := mask_test (btmp.bits (i / 8)) (i % 8) (Nat.mod_lt _ (by norm_num))
  rw [bitmapScanTest, Bool.eq_iff_iff, decide_eq_true_iff, h]

@[simp] theorem bitmapSet_len (btmp : Bitmap) (i : ℕ) (v : Bool) :
    (bitmapSet btmp i v).btmpBytesLen = btmp.btmpBytesLen := rfl

/-- Setting one bit changes that bit and no other. -/
@[simp] theorem bitmapScanTest_set (btmp : Bitmap) (i j : ℕ) (v : Bool) :
    bitmapScanTest (bitmapSet btmp i v) j = if i = j then v else bitmapScanTest btmp j := by
  have hi : i % 8 < 8 := Nat.mod_lt _ (by norm_num)
  have hj : j % 8 < 8 := Nat.mod_lt _ (by norm_num)
  simp only [bitmapScanTest_eq, bitmapSet, Function.update_apply]
  by_cases hbyte : j / 8 = i / 8
  · have hij : i % 8 = j % 8 ↔ i = j := by omega
    rw [if_pos hbyte, hbyte]
    cases v
    · simp only [Bool.false_eq_true, if_false, mask_clear _ _ _ hi hj, hij]
      by_cases h : i = j <;> simp [h]
    · simp only [if_true, mask_or _ _ _ hi, hij]
      by_cases h : i = j <;> simp [h]
  · have hij : i ≠ j := by rintro rfl; exact hbyte rfl
    rw [if_neg hbyte, if_neg hij]

theorem free_set_true (btmp : Bitmap) (i : ℕ) :
    (bitmapSet btmp i true).free = btmp.free.erase i := by
  ext j
  simp only [Bitmap.mem_free, bitmapSet_len, bitmapScanTest_set, Finset.mem_erase]
  by_cases h : i = j
  · simp [h]
  · simp [h, Ne.symm h]

/-- A bitmap is its length and its bits. -/
theorem Bitmap.eq_of_test {b b' : Bitmap} (hlen : b.btmpBytesLen = b'.btmpBytesLen)
    (h : ∀ i, bitmapScanTest b i = bitmapScanTest b' i) : b = b' := by
  obtain ⟨len, bits⟩ := b
  obtain ⟨len', bits'⟩ := b'
  obtain rfl : len = len' := hlen
  congr
  funext j
  refine UInt8.toNat_inj.mp (Nat.eq_of_testBit_eq fun k => ?_)
  by_cases hk : k < 8
  · have hbit := h (8 * j + k)
    rw [bitmapScanTest_eq, bitmapScanTest_eq, show (8 * j + k) / 8 = j by omega,
      show (8 * j + k) % 8 = k by omega] at hbit
    exact hbit
  · have hpow : 2 ^ 8 ≤ 2 ^ k := Nat.pow_le_pow_right (by norm_num) (by omega)
    rw [Nat.testBit_lt_two_pow ((UInt8.toNat_lt _).trans_le hpow),
      Nat.testBit_lt_two_pow ((UInt8.toNat_lt _).trans_le hpow)]

/-- A bit that was clear is set and cleared again. -/
theorem bitmapSet_undo {b : Bitmap} {i : ℕ} (h : i ∈ b.free) :
    bitmapSet (bitmapSet b i true) i false = b := by
  refine Bitmap.eq_of_test rfl fun j => ?_
  rw [bitmapScanTest_set, bitmapScanTest_set]
  split_ifs with hij
  · rw [← hij, ((Bitmap.mem_free _ _).mp h).2]
  · rfl

/-- Where the bytewise loop stops. -/
theorem skipFullBytes_spec (btmp : Bitmap) (fuel idx : ℕ)
    (hfuel : fuel + idx = btmp.btmpBytesLen) :
    idx ≤ skipFullBytes btmp fuel idx ∧ skipFullBytes btmp fuel idx ≤ btmp.btmpBytesLen ∧
    (∀ i, idx ≤ i → i < skipFullBytes btmp fuel idx → btmp.bits i = 0xff) ∧
    (skipFullBytes btmp fuel idx < btmp.btmpBytesLen →
      btmp.bits (skipFullBytes btmp fuel idx) ≠ 0xff) := by
  induction fuel generalizing idx with
  | zero =>
    simp only [skipFullBytes]
    exact ⟨le_rfl, by omega, fun i h1 h2 => by omega, fun h => by omega⟩
  | succ fuel ih =>
    simp only [skipFullBytes]
    split_ifs with h
    · obtain ⟨h1, h2, h3, h4⟩ := ih (idx + 1) (by omega)
      refine ⟨by omega, h2, ?_, h4⟩
      intro i hi hlt
      by_cases he : i = idx
      · rw [he]; exact h.1
      · exact h3 i (by omega) hlt
    · refine ⟨le_rfl, by omega, fun i h1 h2 => by omega, ?_⟩
      intro hlt hff
      exact h ⟨hff, hlt⟩

/-- Where the bitwise loop stops: at the first clear bit of the byte. -/
theorem skipSetBits_spec (byte : UInt8) (fuel idx : ℕ) (hfuel : fuel + idx = 8)
    (hex : ∃ k, idx ≤ k ∧ k < 8 ∧ byte.toNat.testBit k = false) :
    skipSetBits byte fuel idx < 8 ∧ byte.toNat.testBit (skipSetBits byte fuel idx) = false ∧
    ∀ k, idx ≤ k → k < skipSetBits byte fuel idx → byte.toNat.testBit k = true := by
  induction fuel generalizing idx with
  | zero =>
    obtain ⟨k, h1, h2, _⟩ := hex
    omega
  | succ fuel ih =>
    have hmask : bitmapMask idx &&& byte ≠ 0 ↔ byte.toNat.testBit idx = true := by
      rw [UInt8.and_comm]
      exact mask_test byte idx (by omega)
    simp only [skipSetBits]
    split_ifs with h
    · have hset := hmask.mp h
      obtain ⟨k, h1, h2, hk⟩ := hex
      have hne : k ≠ idx := by rintro rfl; simp [hset] at hk
      obtain ⟨a, b, c⟩ := ih (idx + 1) (by omega) ⟨k, by omega, h2, hk⟩
      refine ⟨a, b, ?_⟩
      intro j hj hlt
      by_cases he : j = idx
      · rw [he]; exact hset
      · exact c j (by omega) hlt
    · have hclear : byte.toNat.testBit idx = false := by
        simpa using fun ht => h (hmask.mpr ht)
      exact ⟨by omega, hclear, fun k h1 h2 => by omega⟩

/-- A byte other than `0xff` has a clear bit. -/
theorem exists_clear (byte : UInt8) (h : byte ≠ 0xff) :
    ∃ k, k < 8 ∧ byte.toNat.testBit k = false := by
  by_contra hcon
  simp only [not_exists, not_and, Bool.not_eq_false] at hcon
  apply h
  apply UInt8.toNat_inj.mp
  apply Nat.eq_of_testBit_eq
  intro j
  by_cases hj : j < 8
  · have h1 : byte.toNat.testBit j = true := hcon j hj
    rw [h1]
    interval_cases j <;> decide
  · have hb : byte.toNat < 2 ^ j :=
      lt_of_lt_of_le byte.toNat_lt (Nat.pow_le_pow_right (by norm_num) (by omega))
    rw [Nat.testBit_lt_two_pow hb, Nat.testBit_lt_two_pow]
    exact lt_of_lt_of_le (by decide : (0xff : UInt8).toNat < 2 ^ 8)
      (Nat.pow_le_pow_right (by norm_num) (by omega))

/-- The first clear bit, the start of every scan. -/
theorem scan_start (btmp : Bitmap)
    (h : skipFullBytes btmp btmp.btmpBytesLen 0 < btmp.btmpBytesLen) :
    let start := 8 * skipFullBytes btmp btmp.btmpBytesLen 0 +
      skipSetBits (btmp.bits (skipFullBytes btmp btmp.btmpBytesLen 0)) 8 0
    start < 8 * btmp.btmpBytesLen ∧ bitmapScanTest btmp start = false ∧
    ∀ j < start, bitmapScanTest btmp j = true := by
  obtain ⟨-, -, hfull, hstop⟩ := skipFullBytes_spec btmp btmp.btmpBytesLen 0 (by omega)
  set b := skipFullBytes btmp btmp.btmpBytesLen 0 with hb
  obtain ⟨k, hk8, hk⟩ := exists_clear _ (hstop h)
  obtain ⟨h8, hclear, hset⟩ := skipSetBits_spec (btmp.bits b) 8 0 (by omega) ⟨k, by omega, hk8, hk⟩
  set t := skipSetBits (btmp.bits b) 8 0 with ht
  have hdiv : (8 * b + t) / 8 = b := by omega
  have hmod : (8 * b + t) % 8 = t := by omega
  refine ⟨by omega, by rw [bitmapScanTest_eq, hdiv, hmod]; exact hclear, ?_⟩
  intro j hj
  rw [bitmapScanTest_eq]
  by_cases hjb : j / 8 < b
  · rw [hfull (j / 8) (by omega) hjb]
    have hlt : j % 8 < 8 := Nat.mod_lt _ (by norm_num)
    interval_cases j % 8 <;> decide
  · have he : j / 8 = b := by omega
    rw [he]
    exact hset (j % 8) (by omega) (by omega)

/-- A scan that does not trip the assertion found a byte with a clear bit. -/
theorem bitmapScan_ok {btmp : Bitmap} {cnt : ℕ} {r : Option ℕ} (h : bitmapScan btmp cnt = .ok r) :
    skipFullBytes btmp btmp.btmpBytesLen 0 < btmp.btmpBytesLen := by
  by_contra hlt
  simp [bitmapScan, hlt] at h

/-- `bitmap_scan(btmp, 1)` returns the least clear bit. -/
theorem bitmapScan_one {btmp : Bitmap} {r : Option ℕ} (h : bitmapScan btmp 1 = .ok r) :
    ∃ i, r = some i ∧ i ∈ btmp.free ∧ ∀ j < i, bitmapScanTest btmp j = true := by
  have hlt := bitmapScan_ok h
  obtain ⟨h1, h2, h3⟩ := scan_start btmp hlt
  simp only [bitmapScan, if_pos hlt, if_true, Except.ok.injEq] at h
  exact ⟨_, h.symm, (Bitmap.mem_free _ _).mpr ⟨h1, h2⟩, h3⟩

/-- The counting loop returns a run of clear bits; the run may end one bit past the bitmap. -/
theorem scanRun_clear {btmp : Bitmap} {cnt bitLeft nextBit count r : ℕ} (hcount : count ≤ nextBit)
    (hclear : ∀ j, nextBit - count ≤ j → j < nextBit → bitmapScanTest btmp j = false)
    (h : scanRun btmp cnt bitLeft nextBit count = some r) :
    r + cnt ≤ nextBit + bitLeft ∧ ∀ j, r ≤ j → j < r + cnt → bitmapScanTest btmp j = false := by
  induction bitLeft generalizing nextBit count with
  | zero => cases h
  | succ bitLeft ih =>
    set count' := if bitmapScanTest btmp nextBit then 0 else count + 1 with hc
    have hle : count' ≤ nextBit + 1 := by
      rw [hc]
      split_ifs <;> omega
    have hclear' : ∀ j, nextBit + 1 - count' ≤ j → j < nextBit + 1 →
        bitmapScanTest btmp j = false := by
      intro j h1 h2
      by_cases ht : bitmapScanTest btmp nextBit
      · simp only [hc, if_pos ht] at h1
        omega
      · simp only [hc, if_neg ht] at h1
        by_cases hj : j = nextBit
        · simpa [hj] using ht
        · exact hclear j (by omega) (by omega)
    unfold scanRun at h
    simp only [← hc] at h
    split_ifs at h with hcnt
    · obtain rfl := Option.some.inj h
      exact ⟨by omega, fun j h1 h2 => hclear' j (by omega) (by omega)⟩
    · obtain ⟨h1, h2⟩ := ih hle hclear' h
      exact ⟨by omega, h2⟩

/-- `bitmap_scan` returns the start of a run of clear bits. -/
theorem bitmapScan_run {btmp : Bitmap} {cnt i : ℕ}
    (h : bitmapScan btmp cnt = .ok (some i)) :
    i + cnt ≤ 8 * btmp.btmpBytesLen + 1 ∧
    ∀ j, i ≤ j → j < i + cnt → bitmapScanTest btmp j = false := by
  have hlt := bitmapScan_ok h
  obtain ⟨h1, h2, -⟩ := scan_start btmp hlt
  simp only [bitmapScan, if_pos hlt] at h
  split_ifs at h with hone
  · obtain rfl := Option.some.inj (Except.ok.inj h)
    refine ⟨by omega, ?_⟩
    intro j hj hj'
    obtain rfl : _ = j := Nat.le_antisymm hj (by omega)
    exact h2
  · obtain ⟨h3, h4⟩ := scanRun_clear (by omega) (fun j hj hj' => by
      obtain rfl : _ = j := Nat.le_antisymm (by simpa using hj) (by omega)
      exact h2) (Except.ok.inj h)
    exact ⟨by omega, h4⟩

/-- As long as a bit is clear the scan finds one. -/
theorem bitmapScan_one_of_free {btmp : Bitmap} (h : btmp.free.Nonempty) :
    ∃ i, bitmapScan btmp 1 = .ok (some i) ∧ i ∈ btmp.free := by
  obtain ⟨k, hk⟩ := h
  obtain ⟨hk8, hkc⟩ := (Bitmap.mem_free _ _).mp hk
  obtain ⟨-, hle, hfull, -⟩ := skipFullBytes_spec btmp btmp.btmpBytesLen 0 (by omega)
  have hlt : skipFullBytes btmp btmp.btmpBytesLen 0 < btmp.btmpBytesLen := by
    by_contra hge
    have hff := hfull (k / 8) (by omega) (by omega)
    rw [bitmapScanTest_eq, hff] at hkc
    have hm : k % 8 < 8 := Nat.mod_lt _ (by norm_num)
    interval_cases k % 8 <;> revert hkc <;> decide
  obtain ⟨h1, h2, -⟩ := scan_start btmp hlt
  exact ⟨_, by simp only [bitmapScan, if_pos hlt, if_true], (Bitmap.mem_free _ _).mpr ⟨h1, h2⟩⟩

/-- With no clear bit left the scan trips its assertion; it never returns -1. -/
theorem bitmapScan_one_of_full {btmp : Bitmap} (h : btmp.free = ∅) :
    bitmapScan btmp 1 = .error .assert := by
  by_cases hlt : skipFullBytes btmp btmp.btmpBytesLen 0 < btmp.btmpBytesLen
  · obtain ⟨h1, h2, -⟩ := scan_start btmp hlt
    have : _ ∈ btmp.free := (Bitmap.mem_free _ _).mpr ⟨h1, h2⟩
    simp [h] at this
  · simp only [bitmapScan, if_neg hlt]

/-- Bit `i` is the one that is taken after `k` others. -/
def Bitmap.nth (btmp : Bitmap) (k i : ℕ) : Prop :=
  i ∈ btmp.free ∧ (btmp.free.filter (· < i)).card = k

theorem bitmapScan_nth {btmp : Bitmap} {r : Option ℕ} (h : bitmapScan btmp 1 = .ok r) :
    ∃ i, r = some i ∧ btmp.nth 0 i := by
  obtain ⟨i, hr, hi, hmin⟩ := bitmapScan_one h
  refine ⟨i, hr, hi, ?_⟩
  rw [Finset.card_eq_zero, Finset.filter_eq_empty_iff]
  intro j hj hlt
  have hclear := ((Bitmap.mem_free _ _).mp hj).2
  rw [hmin j hlt] at hclear
  cases hclear

/-- The bits that are left after the least one was taken. -/
theorem nth_succ_of_take {btmp : Bitmap} {i j k : ℕ} (hi : btmp.nth 0 i)
    (hj : (bitmapSet btmp i true).nth k j) : btmp.nth (k + 1) j := by
  obtain ⟨hmem, hcard⟩ := hj
  rw [free_set_true] at hmem hcard
  have hne : j ≠ i := Finset.ne_of_mem_erase hmem
  have hfree := Finset.mem_of_mem_erase hmem
  have hnone : ∀ m ∈ btmp.free, ¬ m < i := by
    have hempty := Finset.card_eq_zero.mp hi.2
    exact Finset.filter_eq_empty_iff.mp hempty
  have hlt : i < j := by
    have := hnone j hfree
    omega
  refine ⟨hfree, ?_⟩
  rw [Finset.filter_erase] at hcard
  rw [← hcard, Finset.card_erase_of_mem (Finset.mem_filter.mpr ⟨hi.1, hlt⟩)]
  have hpos : 0 < (btmp.free.filter (· < j)).card :=
    Finset.card_pos.mpr ⟨i, Finset.mem_filter.mpr ⟨hi.1, hlt⟩⟩
  omega

end X86System
