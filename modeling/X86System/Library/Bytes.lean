import Mathlib.Tactic

/-!
# Byte images and the words in them

A buffer or a device is a total function from addresses to bytes. Copying a
range overlays one image on another; a 32-bit word lies in an image with its
least significant byte first. An array of records of one size is read and
written through its byte range, which is what makes its entries independent.
-/
namespace X86System.Bytes

/-- Bytes by address. -/
abbrev Image := ℕ → UInt8

/-- The image from address `a` on. -/
def slice (m : Image) (a : ℕ) : Image := fun i => m (a + i)

/-- Copy the first `len` bytes of `src` to address `a` of `m`. -/
def overlay (m : Image) (a len : ℕ) (src : Image) : Image :=
  fun i => if a ≤ i ∧ i < a + len then src (i - a) else m i

/-- The image all of whose bytes are zero. -/
def zeros : Image := fun _ => 0

@[simp] theorem slice_apply (m : Image) (a i : ℕ) : slice m a i = m (a + i) := rfl

@[simp] theorem zeros_apply (i : ℕ) : zeros i = 0 := rfl

@[simp] theorem slice_slice (m : Image) (a b : ℕ) : slice (slice m a) b = slice m (a + b) := by
  ext i
  simp only [slice, Nat.add_assoc]

theorem overlay_inside {m src : Image} {a len i : ℕ} (h : a ≤ i) (h' : i < a + len) :
    overlay m a len src i = src (i - a) := if_pos ⟨h, h'⟩

theorem overlay_at {m src : Image} {a len i : ℕ} (h : i < len) :
    overlay m a len src (a + i) = src i := by
  rw [overlay_inside (by omega) (by omega), Nat.add_sub_cancel_left]

theorem overlay_outside {m src : Image} {a len i : ℕ} (h : i < a ∨ a + len ≤ i) :
    overlay m a len src i = m i := if_neg (by omega)

@[simp] theorem overlay_zero (m src : Image) (a : ℕ) : overlay m a 0 src = m := by
  ext i
  exact congrArg _ (overlay_outside (by omega))

theorem overlay_congr {m src src' : Image} {a len : ℕ} (h : ∀ i < len, src i = src' i) :
    overlay m a len src = overlay m a len src' := by
  funext i
  unfold overlay
  split_ifs with hi
  · exact h _ (by omega)
  · rfl

/-- Copying a range onto itself changes nothing. -/
theorem overlay_self (m : Image) (a len : ℕ) : overlay m a len (slice m a) = m := by
  funext i
  unfold overlay slice
  split_ifs with hi
  · congr 1
    omega
  · rfl

/-- Read a range, change a part of it, write the range back: only that part changes. -/
theorem overlay_overlay_slice {m src : Image} {a len off n : ℕ} (h : off + n ≤ len) :
    overlay m a len (overlay (slice m a) off n src) = overlay m (a + off) n src := by
  funext i
  by_cases hin : a + off ≤ i ∧ i < a + off + n
  · rw [overlay_inside (by omega) (by omega), overlay_inside (by omega) (by omega),
      overlay_inside hin.1 hin.2, Nat.sub_sub]
  have hout : overlay m (a + off) n src i = m i := overlay_outside (by omega)
  rw [hout]
  by_cases hrange : a ≤ i ∧ i < a + len
  · rw [overlay_inside hrange.1 hrange.2, overlay_outside (by omega), slice_apply]
    congr 1
    omega
  · exact overlay_outside (by omega)

/-- The second of two copies to one place wins. -/
theorem overlay_overlay_same {m src src' : Image} {a len : ℕ} :
    overlay (overlay m a len src) a len src' = overlay m a len src' := by
  funext i
  by_cases hi : a ≤ i ∧ i < a + len
  · rw [overlay_inside hi.1 hi.2, overlay_inside hi.1 hi.2]
  · rw [overlay_outside (by omega), overlay_outside (by omega), overlay_outside (by omega)]

/-- Copying a range and then the one behind it copies both. -/
theorem overlay_append (m src : Image) (a n k : ℕ) :
    overlay (overlay m a n src) (a + n) k (slice src n) = overlay m a (n + k) src := by
  funext i
  by_cases hhigh : a + n ≤ i ∧ i < a + n + k
  · rw [overlay_inside hhigh.1 hhigh.2, overlay_inside (by omega) (by omega), slice_apply]
    congr 1
    omega
  rw [overlay_outside (by omega)]
  by_cases hlow : a ≤ i ∧ i < a + n
  · rw [overlay_inside hlow.1 hlow.2, overlay_inside hlow.1 (by omega)]
  · rw [overlay_outside (by omega), overlay_outside (by omega)]

/-- Byte `k` of a word. -/
def wordByte (w : UInt32) (k : ℕ) : UInt8 := UInt8.ofNat (w.toNat / 256 ^ k)

/-- The word at address `a`. -/
def wordAt (m : Image) (a : ℕ) : UInt32 :=
  UInt32.ofNat ((m a).toNat + 256 * (m (a + 1)).toNat + 65536 * (m (a + 2)).toNat +
    16777216 * (m (a + 3)).toNat)

/-- The image of an array of words. -/
def ofWords (ws : ℕ → UInt32) : Image := fun i => wordByte (ws (i / 4)) (i % 4)

theorem wordAt_slice (m : Image) (a b : ℕ) : wordAt (slice m a) b = wordAt m (a + b) := by
  simp only [wordAt, slice_apply, Nat.add_assoc]

theorem wordAt_congr {m m' : Image} {a : ℕ} (h : ∀ i < 4, m (a + i) = m' (a + i)) :
    wordAt m a = wordAt m' a := by
  have h0 := h 0 (by omega)
  have h1 := h 1 (by omega)
  have h2 := h 2 (by omega)
  have h3 := h 3 (by omega)
  simp only [Nat.add_zero] at h0
  rw [wordAt, wordAt, h0, h1, h2, h3]

theorem wordAt_zeros (a : ℕ) : wordAt zeros a = 0 := rfl

theorem wordAt_of_bytes {m : Image} {a : ℕ} {w : UInt32} (h : ∀ k < 4, m (a + k) = wordByte w k) :
    wordAt m a = w := by
  have h0 := h 0 (by omega)
  have h1 := h 1 (by omega)
  have h2 := h 2 (by omega)
  have h3 := h 3 (by omega)
  simp only [Nat.add_zero] at h0
  have hw := w.toNat_lt
  have hsum : ((wordByte w 0).toNat + 256 * (wordByte w 1).toNat +
      65536 * (wordByte w 2).toNat + 16777216 * (wordByte w 3).toNat) = w.toNat := by
    simp only [wordByte, UInt8.toNat_ofNat']
    omega
  rw [wordAt, h0, h1, h2, h3, hsum, UInt32.ofNat_toNat]

theorem wordByte_wordAt {m : Image} {a k : ℕ} (hk : k < 4) :
    wordByte (wordAt m a) k = m (a + k) := by
  have b0 := (m a).toNat_lt
  have b1 := (m (a + 1)).toNat_lt
  have b2 := (m (a + 2)).toNat_lt
  have b3 := (m (a + 3)).toNat_lt
  apply UInt8.toNat_inj.mp
  rw [wordByte, wordAt, UInt8.toNat_ofNat', UInt32.toNat_ofNat']
  obtain rfl | rfl | rfl | rfl : k = 0 ∨ k = 1 ∨ k = 2 ∨ k = 3 := by omega
  all_goals
    norm_num
    omega

@[simp] theorem wordAt_ofWords (ws : ℕ → UInt32) (k : ℕ) : wordAt (ofWords ws) (4 * k) = ws k := by
  apply wordAt_of_bytes
  intro i hi
  rw [ofWords, show (4 * k + i) / 4 = k by omega, show (4 * k + i) % 4 = i by omega]

/-- An image is determined by its words. -/
theorem ofWords_wordAt (m : Image) (i : ℕ) : ofWords (fun k => wordAt m (4 * k)) i = m i := by
  rw [ofWords, wordByte_wordAt (Nat.mod_lt _ (by omega)), Nat.div_add_mod]

/-- Two images agree on `4 * n` bytes as soon as they agree on `n` words. -/
theorem eq_of_words {m m' : Image} {n : ℕ} (h : ∀ k < n, wordAt m (4 * k) = wordAt m' (4 * k)) :
    ∀ i < 4 * n, m i = m' i := by
  intro i hi
  rw [← ofWords_wordAt m, ← ofWords_wordAt m', ofWords, ofWords, h _ (by omega)]

/-- Storing a word changes that word of the array only. -/
theorem wordAt_overlay_word (m : Image) (j k : ℕ) (w : UInt32) :
    wordAt (overlay m (4 * j) 4 (wordByte w)) (4 * k) = if k = j then w else wordAt m (4 * k) := by
  split_ifs with h
  · subst h
    exact wordAt_of_bytes fun i hi => overlay_at hi
  · exact wordAt_congr fun i hi => overlay_outside (by omega)

/-- A word inside a range that was copied. -/
theorem wordAt_overlay_slice {m src : Image} {a len off b : ℕ} (h : b + 4 ≤ len) :
    wordAt (overlay m a len (slice src off)) (a + b) = wordAt src (off + b) := by
  rw [← wordAt_slice, ← wordAt_slice src]
  apply wordAt_congr
  intro i hi
  rw [slice_apply, overlay_at (by omega)]

/-- Entry `n` of the array of `size`-byte records that starts at `base`. -/
def entry (m : Image) (base size n : ℕ) : Image := slice m (base + n * size)

/-- Write one entry of an array of records. -/
def setEntry (m : Image) (base size n : ℕ) (r : Image) : Image :=
  overlay m (base + n * size) size r

theorem entry_setEntry_self {m r : Image} {base size n i : ℕ} (hi : i < size) :
    entry (setEntry m base size n r) base size n i = r i := overlay_at hi

theorem entry_setEntry_ne {m r : Image} {base size n k i : ℕ} (h : k ≠ n) (hi : i < size) :
    entry (setEntry m base size n r) base size k i = entry m base size k i := by
  refine overlay_outside ?_
  obtain hlt | hgt := Nat.lt_or_gt_of_ne h
  · have := Nat.mul_le_mul_right size (Nat.succ_le_of_lt hlt)
    rw [Nat.succ_mul] at this
    omega
  · have := Nat.mul_le_mul_right size (Nat.succ_le_of_lt hgt)
    rw [Nat.succ_mul] at this
    omega

/-- Writing an entry leaves the bytes outside the array alone. -/
theorem setEntry_outside {m r : Image} {base size n cnt a : ℕ} (hn : n < cnt)
    (ha : a < base ∨ base + cnt * size ≤ a) : setEntry m base size n r a = m a := by
  refine overlay_outside ?_
  have := Nat.mul_le_mul_right size (Nat.succ_le_of_lt hn)
  rw [Nat.succ_mul] at this
  omega

end X86System.Bytes
