import X86System.Bitmap
import X86System.Library.Watched
import Mathlib.Order.Bounds.Defs

/-!
# What `bitmap_scan` finds and reads

The scan with the bytes that it reads on record. It finds the first run that fits as
long as there is one; where there is none it reads the byte behind the bitmap, and
where no bit is clear it does not return.
-/
namespace X86System
open Exec

variable {btmp : Bitmap} {cnt i : ℕ}

/-- The bits `i` to `i + cnt - 1` are clear. -/
def Bitmap.ClearRun (btmp : Bitmap) (cnt i : ℕ) : Prop :=
  ∀ j, i ≤ j → j < i + cnt → bitmapScanTest btmp j = false

/-- A run of clear bits inside the bitmap. -/
def Bitmap.Fits (btmp : Bitmap) (cnt i : ℕ) : Prop :=
  i + cnt ≤ 8 * btmp.btmpBytesLen ∧ btmp.ClearRun cnt i

namespace Reads

/-- The byte at an index, which is an event. -/
def byte (btmp : Bitmap) (idxByte : ℕ) : Watched ℕ Fault UInt8 := do
  record idxByte
  return btmp.bits idxByte

def bitmapScanTest (btmp : Bitmap) (bitIdx : ℕ) : Watched ℕ Fault Bool := do
  return (← byte btmp (bitIdx / 8)) &&& bitmapMask (bitIdx % 8) ≠ 0

def skipFullBytes (btmp : Bitmap) : ℕ → ℕ → Watched ℕ Fault ℕ
  | 0, idxByte => do
    -- the byte is read before the index is compared
    let _ ← byte btmp idxByte
    return idxByte
  | fuel + 1, idxByte => do
    let b ← byte btmp idxByte
    if b = 0xff ∧ idxByte < btmp.btmpBytesLen then skipFullBytes btmp fuel (idxByte + 1)
    else return idxByte

def skipSetBits (btmp : Bitmap) (idxByte : ℕ) : ℕ → ℕ → Watched ℕ Fault ℕ
  | 0, idxBit => return idxBit
  | fuel + 1, idxBit => do
    let b ← byte btmp idxByte
    if bitmapMask idxBit &&& b ≠ 0 then skipSetBits btmp idxByte fuel (idxBit + 1)
    else return idxBit

def scanRun (btmp : Bitmap) (cnt : ℕ) : ℕ → ℕ → ℕ → Watched ℕ Fault (Option ℕ)
  | 0, _, _ => return none
  | bitLeft + 1, nextBit, count => do
    let set ← bitmapScanTest btmp nextBit
    let count := if set then 0 else count + 1
    if count = cnt then return some (nextBit + 1 - cnt)
    else scanRun btmp cnt bitLeft (nextBit + 1) count

def bitmapScan (btmp : Bitmap) (cnt : ℕ) : Watched ℕ Fault (Option ℕ) := do
  let idxByte ← skipFullBytes btmp btmp.btmpBytesLen 0
  ensure Fault.assert (idxByte < btmp.btmpBytesLen)
  let idxBit ← skipSetBits btmp idxByte 8 0
  let bitIdxStart := 8 * idxByte + idxBit
  if cnt = 1 then return some bitIdxStart
  else scanRun btmp cnt (8 * btmp.btmpBytesLen - bitIdxStart) (bitIdxStart + 1) 1

end Reads

section Plain

@[simp] theorem byte_plain (idxByte : ℕ) : plain (Reads.byte btmp idxByte) = .ok (btmp.bits idxByte) :=
  rfl

@[simp] theorem bitmapScanTest_plain (bitIdx : ℕ) :
    plain (Reads.bitmapScanTest btmp bitIdx) = .ok (bitmapScanTest btmp bitIdx) := rfl

@[simp] theorem skipFullBytes_plain (fuel idxByte : ℕ) :
    plain (Reads.skipFullBytes btmp fuel idxByte) = .ok (skipFullBytes btmp fuel idxByte) := by
  induction fuel generalizing idxByte with
  | zero => rfl
  | succ fuel ih =>
    unfold Reads.skipFullBytes skipFullBytes
    rw [plain_bind, byte_plain, ok_bind, plain_ite, ih, plain_pure]
    split_ifs <;> rfl

@[simp] theorem skipSetBits_plain (idxByte fuel idxBit : ℕ) :
    plain (Reads.skipSetBits btmp idxByte fuel idxBit) =
      .ok (skipSetBits (btmp.bits idxByte) fuel idxBit) := by
  induction fuel generalizing idxBit with
  | zero => rfl
  | succ fuel ih =>
    unfold Reads.skipSetBits skipSetBits
    rw [plain_bind, byte_plain, ok_bind, plain_ite, ih, plain_pure]
    split_ifs <;> rfl

@[simp] theorem scanRun_plain (bitLeft nextBit count : ℕ) :
    plain (Reads.scanRun btmp cnt bitLeft nextBit count) =
      .ok (scanRun btmp cnt bitLeft nextBit count) := by
  induction bitLeft generalizing nextBit count with
  | zero => rfl
  | succ bitLeft ih =>
    unfold Reads.scanRun scanRun
    rw [plain_bind, bitmapScanTest_plain, ok_bind]
    dsimp only
    generalize (if bitmapScanTest btmp nextBit = true then 0 else count + 1) = c
    rw [plain_ite, ih, plain_pure]
    split_ifs <;> rfl

/-- Without the record it is the scan. -/
theorem bitmapScan_plain (btmp : Bitmap) (cnt : ℕ) :
    plain (Reads.bitmapScan btmp cnt) = bitmapScan btmp cnt := by
  unfold Reads.bitmapScan bitmapScan
  rw [plain_bind, skipFullBytes_plain, ok_bind, plain_bind, plain_lift]
  by_cases hlt : skipFullBytes btmp btmp.btmpBytesLen 0 < btmp.btmpBytesLen
  · rw [ensure_of hlt, ok_bind, if_pos hlt, plain_bind, skipSetBits_plain, ok_bind, plain_ite,
      scanRun_plain, plain_pure]
  · rw [ensure_of_not hlt, if_neg hlt]
    rfl

end Plain

section Reading

/-- A byte that is read is on record. -/
theorem records_byte {β : Type} {k : ℕ} {f : UInt8 → Watched ℕ Fault β} {R : β → List ℕ → Prop}
    (h : Records (f (btmp.bits k)) fun b w => R b (k :: w)) : Records (Reads.byte btmp k >>= f) R := by
  have hread : Records (Reads.byte btmp k) fun b w => b = btmp.bits k ∧ w = [k] := ⟨rfl, rfl⟩
  apply hread.bind
  rintro _ _ ⟨rfl, rfl⟩
  exact h

theorem records_scanTest {β : Type} {k : ℕ} {f : Bool → Watched ℕ Fault β} {R : β → List ℕ → Prop}
    (h : Records (f (bitmapScanTest btmp k)) fun b w => R b (k / 8 :: w)) :
    Records (Reads.bitmapScanTest btmp k >>= f) R := by
  have hread : Records (Reads.bitmapScanTest btmp k) fun b w =>
      b = bitmapScanTest btmp k ∧ w = [k / 8] := ⟨rfl, rfl⟩
  apply hread.bind
  rintro _ _ ⟨rfl, rfl⟩
  exact h

/-- The bytewise loop reads no byte behind the one it stops at. -/
theorem skipFullBytes_reads (fuel idxByte : ℕ) :
    Records (Reads.skipFullBytes btmp fuel idxByte) fun r w => idxByte ≤ r ∧ ∀ k ∈ w, k ≤ r := by
  induction fuel generalizing idxByte with
  | zero =>
    apply records_byte
    simp
  | succ fuel ih =>
    apply records_byte
    refine records_ite (fun _ => (ih (idxByte + 1)).mono ?_) fun _ => ?_
    · rintro r w ⟨hle, hw⟩
      refine ⟨by omega, fun k hk => ?_⟩
      obtain rfl | hk := List.mem_cons.mp hk
      · omega
      · exact hw k hk
    · simp

/-- The bitwise loop stays in its byte. -/
theorem skipSetBits_reads (idxByte fuel idxBit : ℕ) :
    Records (Reads.skipSetBits btmp idxByte fuel idxBit) fun _ w => ∀ k ∈ w, k = idxByte := by
  induction fuel generalizing idxBit with
  | zero => simp [Reads.skipSetBits]
  | succ fuel ih =>
    apply records_byte
    refine records_ite (fun _ => (ih (idxBit + 1)).mono fun r w hw => ?_) fun _ => ?_
    · simpa using hw
    · simp

/-- The counting loop reads up to the end of the run it finds, or else all that is left. -/
theorem scanRun_reads {bitLeft nextBit count : ℕ} (hcount : count ≤ nextBit) :
    Records (Reads.scanRun btmp cnt bitLeft nextBit count) fun r w =>
      (∀ i, r = some i → nextBit ≤ i + cnt - 1 ∧ (i + cnt - 1) / 8 ∈ w ∧
        ∀ k ∈ w, k ≤ (i + cnt - 1) / 8) ∧
      (r = none → 0 < bitLeft → (nextBit + bitLeft - 1) / 8 ∈ w) := by
  induction bitLeft generalizing nextBit count with
  | zero => simp [Reads.scanRun]
  | succ bitLeft ih =>
    apply records_scanTest
    have hle : (if bitmapScanTest btmp nextBit = true then 0 else count + 1) ≤ nextBit + 1 := by
      split_ifs <;> omega
    generalize (if bitmapScanTest btmp nextBit = true then 0 else count + 1) = c at hle
    refine records_ite (fun hc => ?_) fun _ => (ih hle).mono ?_
    · rw [records_pure]
      refine ⟨fun i hi => ?_, by simp⟩
      obtain rfl := Option.some.inj hi
      rw [show nextBit + 1 - cnt + cnt - 1 = nextBit by omega]
      simp
    · rintro r w ⟨hsome, hnone⟩
      refine ⟨fun i hi => ?_, fun hr _ => ?_⟩
      · obtain ⟨hend, hmem, hw⟩ := hsome i hi
        refine ⟨by omega, List.mem_cons_of_mem _ hmem, fun k hk => ?_⟩
        obtain rfl | hk := List.mem_cons.mp hk
        · omega
        · exact hw k hk
      · cases bitLeft with
        | zero => simp
        | succ bitLeft =>
          have hlast := hnone hr (by omega)
          rw [show nextBit + (bitLeft + 1 + 1) - 1 = nextBit + 1 + (bitLeft + 1) - 1 by omega]
          exact List.mem_cons_of_mem _ hlast

end Reading

section FirstFit

/-- The counting loop finds the least run. `count` clear bits end below `nextBit`, no more, and no
run of `cnt` clear bits ends there yet. -/
theorem scanRun_first {bitLeft nextBit count : ℕ} (hcount : count ≤ nextBit)
    (hclear : ∀ j, nextBit - count ≤ j → j < nextBit → bitmapScanTest btmp j = false)
    (hmax : ∀ i ≤ nextBit, (∀ j, i ≤ j → j < nextBit → bitmapScanTest btmp j = false) →
      nextBit - count ≤ i)
    (hnone : ∀ i, i + cnt ≤ nextBit → ¬ btmp.ClearRun cnt i) :
    (∀ r, scanRun btmp cnt bitLeft nextBit count = some r →
      btmp.ClearRun cnt r ∧ ∀ i, btmp.ClearRun cnt i → r ≤ i) ∧
    (scanRun btmp cnt bitLeft nextBit count = none →
      ∀ i, i + cnt ≤ nextBit + bitLeft → ¬ btmp.ClearRun cnt i) := by
  induction bitLeft generalizing nextBit count with
  | zero => exact ⟨by simp [scanRun], fun _ => hnone⟩
  | succ bitLeft ih =>
    unfold scanRun
    dsimp only
    set c := if bitmapScanTest btmp nextBit = true then 0 else count + 1 with hc
    have hle : c ≤ nextBit + 1 := by
      rw [hc]
      split_ifs <;> omega
    have hclear' (j : ℕ) (h1 : nextBit + 1 - c ≤ j) (h2 : j < nextBit + 1) :
        bitmapScanTest btmp j = false := by
      by_cases ht : bitmapScanTest btmp nextBit = true
      · rw [hc, if_pos ht] at h1
        omega
      · rw [hc, if_neg ht] at h1
        by_cases hj : j = nextBit
        · rwa [hj, ← Bool.not_eq_true]
        · exact hclear j (by omega) (by omega)
    have hmax' (i : ℕ) (hi : i ≤ nextBit + 1)
        (hrun : ∀ j, i ≤ j → j < nextBit + 1 → bitmapScanTest btmp j = false) :
        nextBit + 1 - c ≤ i := by
      by_cases hend : i = nextBit + 1
      · omega
      · have hbit := hrun nextBit (by omega) (by omega)
        have := hmax i (by omega) fun j h1 h2 => hrun j h1 (by omega)
        rw [hc, hbit, if_neg Bool.false_ne_true]
        omega
    by_cases heq : c = cnt
    · rw [if_pos heq]
      refine ⟨fun r hr => ?_, by simp⟩
      obtain rfl := Option.some.inj hr
      refine ⟨fun j h1 h2 => hclear' j (by omega) (by omega), fun i hi => ?_⟩
      by_contra hlt
      by_cases hend : i + cnt ≤ nextBit
      · exact hnone i hend hi
      · have := hmax' i (by omega) fun j h1 h2 => hi j h1 (by omega)
        omega
    · rw [if_neg heq]
      have hnone' (i : ℕ) (hi : i + cnt ≤ nextBit + 1) : ¬ btmp.ClearRun cnt i := by
        intro hrun
        by_cases hend : i + cnt ≤ nextBit
        · exact hnone i hend hrun
        -- the run ends with this bit, and a longer one would have ended before it
        have hge := hmax' i (by omega) fun j h1 h2 => hrun j h1 (by omega)
        exact hnone (i - 1) (by omega) fun j h1 h2 => hclear' j (by omega) (by omega)
      obtain ⟨h1, h2⟩ := ih hle hclear' hmax' hnone'
      refine ⟨h1, fun hn i hi => h2 hn i (by omega)⟩

/-- The runs that the scan can see: the last may end one bit past the bitmap. -/
def Bitmap.Seen (btmp : Bitmap) (cnt : ℕ) : Set ℕ :=
  {i | btmp.ClearRun cnt i ∧ i + cnt ≤ 8 * btmp.btmpBytesLen + 1}

/-- With a clear bit in the bitmap the scan returns the first run that it sees. -/
theorem bitmapScan_first (hcnt : 0 < cnt) (hfree : btmp.free.Nonempty) :
    ∃ r, bitmapScan btmp cnt = .ok r ∧ ∀ i, r = some i ↔ IsLeast (btmp.Seen cnt) i := by
  obtain ⟨i₁, hone, -⟩ := bitmapScan_one_of_free hfree
  have hlt := bitmapScan_ok hone
  obtain ⟨hstart, hclear, hset⟩ := scan_start btmp hlt
  unfold bitmapScan
  rw [if_pos hlt]
  dsimp only
  generalize 8 * skipFullBytes btmp btmp.btmpBytesLen 0 + skipSetBits
    (btmp.bits (skipFullBytes btmp btmp.btmpBytesLen 0)) 8 0 = start at *
  -- no run starts before the first clear bit
  have hfirst (i : ℕ) (hi : btmp.ClearRun cnt i) : start ≤ i := by
    by_contra h
    have hbit := hset i (by omega)
    rw [hi i le_rfl (by omega)] at hbit
    cases hbit
  have hleast {i : ℕ} (hi : IsLeast (btmp.Seen cnt) i) (j : ℕ) :
      some i = some j ↔ IsLeast (btmp.Seen cnt) j := by
    rw [Option.some_inj]
    exact ⟨fun h => h ▸ hi, fun h => hi.unique h⟩
  by_cases h1 : cnt = 1
  · subst h1
    rw [if_pos rfl]
    refine ⟨_, rfl, hleast ⟨⟨fun j hj hj' => ?_, by omega⟩, fun j hj => hfirst j hj.1⟩⟩
    obtain rfl : j = start := by omega
    exact hclear
  rw [if_neg h1]
  refine ⟨_, rfl, ?_⟩
  have hone (j : ℕ) (hj : start + 1 - 1 ≤ j) (hj' : j < start + 1) :
      bitmapScanTest btmp j = false := by
    obtain rfl : j = start := by omega
    exact hclear
  obtain ⟨hsome, hnone⟩ := @scanRun_first btmp cnt (8 * btmp.btmpBytesLen - start) (start + 1) 1
    (by omega) hone
    (fun i hi hrun => by
      by_contra hlt
      have hbit := hset i (by omega)
      rw [hrun i le_rfl (by omega)] at hbit
      cases hbit)
    (fun i hi hrun => by
      have := hfirst i hrun
      omega)
  cases hr : scanRun btmp cnt (8 * btmp.btmpBytesLen - start) (start + 1) 1 with
  | none =>
    intro i
    simp only [reduceCtorEq, false_iff]
    exact fun hi => hnone hr i (by have := hi.1.2; omega) hi.1.1
  | some k =>
    obtain ⟨hrun, hmin⟩ := hsome k hr
    obtain ⟨hend, -⟩ := scanRun_clear (by omega) hone hr
    exact hleast ⟨⟨hrun, by omega⟩, fun j hj => hmin j hj.1⟩

/-- With no clear bit the scan trips its assertion for every length. -/
theorem bitmapScan_full (hfull : btmp.free = ∅) (cnt : ℕ) :
    bitmapScan btmp cnt = .error .assert := by
  by_cases hlt : skipFullBytes btmp btmp.btmpBytesLen 0 < btmp.btmpBytesLen
  · obtain ⟨h1, h2, -⟩ := scan_start btmp hlt
    have hmem : _ ∈ btmp.free := (Bitmap.mem_free _ _).mpr ⟨h1, h2⟩
    rw [hfull] at hmem
    exact absurd hmem (Finset.notMem_empty _)
  · simp only [bitmapScan, if_neg hlt]

/-- The claim on `bitmap_scan`: it returns the start of the first run that fits, or -1 where none
does, and reads bytes of the bitmap only. -/
def ScansFirstFit (btmp : Bitmap) (cnt : ℕ) : Prop :=
  ∃ r w, (Reads.bitmapScan btmp cnt).run = .ok (r, w) ∧ (∀ k ∈ w, k < btmp.btmpBytesLen) ∧
    ∀ i, r = some i ↔ IsLeast {i | btmp.Fits cnt i} i

/-- A scan that returns has found the first run that fits, or else read behind the bitmap. -/
theorem bitmapScan_finds (hcnt : 0 < cnt) : Records (Reads.bitmapScan btmp cnt) fun r w =>
    (∃ i, r = some i ∧ btmp.Fits cnt i ∧ (∀ j, btmp.ClearRun cnt j → i ≤ j) ∧
      ∀ k ∈ w, k < btmp.btmpBytesLen) ∨
    (∀ i, ¬ btmp.Fits cnt i) ∧ btmp.btmpBytesLen ∈ w := by
  have hbyte : Returns (plain (Reads.skipFullBytes btmp btmp.btmpBytesLen 0))
      fun b => b = skipFullBytes btmp btmp.btmpBytesLen 0 := by
    rw [skipFullBytes_plain]
    rfl
  apply ((skipFullBytes_reads btmp.btmpBytesLen 0).and_plain hbyte).bind
  rintro b w ⟨⟨-, hw⟩, rfl⟩
  apply records_lift (returns_of_ensure Fault.assert)
  intro _ hlt
  obtain ⟨hstart, hclear, hset⟩ := scan_start btmp hlt
  have hbit : Returns (plain (Reads.skipSetBits btmp (skipFullBytes btmp btmp.btmpBytesLen 0) 8 0))
      fun t => t = skipSetBits (btmp.bits (skipFullBytes btmp btmp.btmpBytesLen 0)) 8 0 := by
    rw [skipSetBits_plain]
    rfl
  apply ((skipSetBits_reads _ 8 0).and_plain hbit).bind
  rintro t w' ⟨hw', rfl⟩
  have hread (k : ℕ) (hk : k ∈ w ++ w') : k < btmp.btmpBytesLen := by
    obtain hk | hk := List.mem_append.mp hk
    · exact (hw k hk).trans_lt hlt
    · rwa [hw' k hk]
  generalize 8 * skipFullBytes btmp btmp.btmpBytesLen 0 +
    skipSetBits (btmp.bits (skipFullBytes btmp btmp.btmpBytesLen 0)) 8 0 = start at *
  -- no run starts before the first clear bit
  have hfirst (i : ℕ) (hi : btmp.ClearRun cnt i) : start ≤ i := by
    by_contra h
    have hbit := hset i (by omega)
    rw [hi i le_rfl (by omega)] at hbit
    cases hbit
  refine records_ite (fun hone => ?_) fun hone => ?_
  · rw [records_pure]
    subst hone
    refine .inl ⟨start, rfl, ⟨by omega, fun j h1 h2 => ?_⟩, hfirst, ?_⟩
    · obtain rfl : j = start := by omega
      exact hclear
    · simpa using hread
  · obtain ⟨hsome, hnone⟩ := @scanRun_first btmp cnt (8 * btmp.btmpBytesLen - start) (start + 1) 1
      (by omega) (fun j h1 h2 => by
        obtain rfl : j = start := by omega
        exact hclear)
      (fun i hi hrun => by
        by_contra hlt
        have hbit := hset i (by omega)
        rw [hrun i le_rfl (by omega)] at hbit
        cases hbit)
      (fun i hi hrun => by
        have := hfirst i hrun
        omega)
    have hrun : Returns (plain (Reads.scanRun btmp cnt (8 * btmp.btmpBytesLen - start) (start + 1) 1))
        fun r => r = scanRun btmp cnt (8 * btmp.btmpBytesLen - start) (start + 1) 1 := by
      rw [scanRun_plain]
      rfl
    refine ((scanRun_reads (by omega)).and_plain hrun).mono ?_
    rintro r v ⟨⟨hfound, hover⟩, rfl⟩
    cases hr : scanRun btmp cnt (8 * btmp.btmpBytesLen - start) (start + 1) 1 with
    | none =>
      refine .inr ⟨fun i hi => hnone hr i (by have := hi.1; omega) hi.2, ?_⟩
      have hlast := hover hr (by omega)
      rw [show start + 1 + (8 * btmp.btmpBytesLen - start) - 1 = 8 * btmp.btmpBytesLen by omega,
        Nat.mul_div_cancel_left _ (by norm_num)] at hlast
      exact List.mem_append_right _ (List.mem_append_right _ hlast)
    | some i =>
      obtain ⟨hclear', hleast⟩ := hsome i hr
      obtain ⟨-, hmem, hv⟩ := hfound i hr
      obtain ⟨hend, -⟩ := scanRun_clear (by omega) (fun j h1 h2 => by
        obtain rfl : j = start := by omega
        exact hclear) hr
      by_cases hin : i + cnt ≤ 8 * btmp.btmpBytesLen
      · refine .inl ⟨i, rfl, ⟨hin, hclear'⟩, hleast, fun k hk => ?_⟩
        rw [← List.append_assoc] at hk
        obtain hk | hk := List.mem_append.mp hk
        · exact hread k hk
        · have := hv k hk
          omega
      · refine .inr ⟨fun j hj => ?_, ?_⟩
        · have := hleast j hj.2
          have := hj.1
          omega
        · rw [show (i + cnt - 1) / 8 = btmp.btmpBytesLen by omega] at hmem
          exact List.mem_append_right _ (List.mem_append_right _ hmem)

/-- A run that fits has a clear bit, so the scan returns. -/
theorem bitmapScan_returns (hcnt : 0 < cnt) (h : btmp.Fits cnt i) :
    ∃ r, bitmapScan btmp cnt = .ok r := by
  have hfree : i ∈ btmp.free :=
    (Bitmap.mem_free _ _).mpr ⟨by have := h.1; omega, h.2 i le_rfl (by omega)⟩
  obtain ⟨i', hi', -⟩ := bitmapScan_one_of_free ⟨i, hfree⟩
  have hlt := bitmapScan_ok hi'
  unfold bitmapScan
  rw [if_pos hlt]
  split_ifs <;> exact ⟨_, rfl⟩

/-- `bitmap_scan` is first fit within its bitmap if and only if some run fits. -/
theorem bitmap_scan_first_fit_iff (hcnt : 0 < cnt) :
    ScansFirstFit btmp cnt ↔ ∃ i, btmp.Fits cnt i := by
  constructor
  · rintro ⟨r, w, hrun, hin, -⟩
    obtain ⟨i, -, hfits, -⟩ | ⟨-, hout⟩ := (bitmapScan_finds hcnt).of_ok hrun
    · exact ⟨i, hfits⟩
    · exact absurd (hin _ hout) (Nat.lt_irrefl _)
  · rintro ⟨i, hi⟩
    obtain ⟨r, hscan⟩ := bitmapScan_returns hcnt hi
    rw [← bitmapScan_plain] at hscan
    obtain ⟨⟨r, w⟩, hrun, -⟩ := of_bind_eq_ok hscan
    obtain ⟨i', rfl, hfits, hleast, hin⟩ | ⟨hnone, -⟩ := (bitmapScan_finds hcnt).of_ok hrun
    · refine ⟨_, w, hrun, hin, fun j => ?_⟩
      have hmin : IsLeast {i | btmp.Fits cnt i} i' := ⟨hfits, fun k hk => hleast k hk.2⟩
      rw [Option.some_inj]
      exact ⟨fun h => h ▸ hmin, fun h => hmin.unique h⟩
    · exact absurd hi (hnone i)

/-- The pair of clear bits in `0x4f`. -/
theorem bitmap_scan_first_fit_pair : ScansFirstFit ⟨1, fun _ => 0x4f⟩ 2 := by
  apply (bitmap_scan_first_fit_iff (by decide)).mpr
  refine ⟨4, by decide, fun j h1 h2 => ?_⟩
  interval_cases j <;> decide

/-- A full bitmap trips the assertion in front of the return of -1. -/
theorem bitmap_scan_full : ¬ ScansFirstFit ⟨1, fun _ => 0xff⟩ 1 := by
  rintro ⟨r, w, hrun, -⟩
  have hfault : (Reads.bitmapScan ⟨1, fun _ => 0xff⟩ 1).run = .error .assert := rfl
  cases hfault.symm.trans hrun

end FirstFit

end X86System
