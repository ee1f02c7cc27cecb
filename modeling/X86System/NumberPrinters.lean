import X86System.FormattedOutput

/-!
# The two number printers

`put_int` fills a buffer of eight characters from its end, one nibble of the number after the
other, skips the zeros at its start and prints what is left; for zero nothing is left. `itoa`
divides and writes the most significant digit first.
-/
namespace X86System.Stdio
open Bytes Exec Numerals

variable {buf : Image} {n : UInt32}

section Source

/-- `'0'`. -/
def zero : UInt8 := 0x30

/-- The character of the nibble in `edx`, as it comes to `dl`. -/
def nibbleChar (edx : UInt32) : UInt8 :=
  if (9 : Int32) < edx.toInt32 then (edx - 10 + 0x41).toUInt8 else (edx + 0x30).toUInt8

/-- `.dword_translate`, for `ecx` rounds: `put_int_buffer` and `edi`. -/
def dwordTranslate : ℕ → UInt32 → UInt32 → Image → Image × UInt32
  | 0, _, edi, buf => (buf, edi)
  | ecx + 1, eax, edi, buf =>
    let edx := eax &&& 0x0000000f
    let buf := Function.update buf edi.toNat (nibbleChar edx)
    dwordTranslate ecx (eax >>> 4) (edi - 1) buf

/-- `.skip_prefix_0`: `edi` and `cl` where printing starts. -/
def skipPrefix0 (buf : Image) : ℕ → UInt32 → Except Fault (UInt32 × UInt8)
  | 0, _ => .error .diverge
  | fuel + 1, edi =>
    if edi = 8 then .ok (edi, zero)
    else
      let cl := buf edi.toNat
      let edi := edi + 1
      if cl = zero then skipPrefix0 buf fuel edi else .ok (edi - 1, cl)

/-- `.put_each_num`: the characters that `put_char` is called with. The byte behind the buffer is
loaded at the end. -/
def putEachNum (buf : Image) : ℕ → UInt32 → UInt8 → Except Fault (List UInt8)
  | 0, _, _ => .error .diverge
  | fuel + 1, edi, cl => do
    let edi := edi + 1
    let next := buf edi.toNat
    let printed ← if edi.toInt32 < 8 then putEachNum buf fuel edi next else .ok []
    .ok (cl :: printed)

/-- `put_int` with what lies at `put_int_buffer`: what it prints, and the buffer. -/
def putInt (buf : Image) (n : UInt32) : Except Fault (List UInt8 × Image) := do
  let (buf, edi) := dwordTranslate 8 n 7 buf
  let (edi, cl) ← skipPrefix0 buf 9 (edi + 1)
  let printed ← putEachNum buf 8 edi cl
  .ok (printed, buf)

end Source

section Buffer

theorem digit_ne_digit_zero {d : ℕ} (hd : 0 < d) (hlt : d < 16) : digit d ≠ digit 0 := by
  have hall : ∀ d < 16, 0 < d → digit d ≠ digit 0 := by decide
  exact hall d hlt hd

theorem nibbleChar_eq {edx : UInt32} (h : edx.toNat < 16) : nibbleChar edx = digit edx.toNat := by
  have hall : ∀ d < 16, nibbleChar (UInt32.ofNat d) = digit d := by decide
  have hchar := hall edx.toNat h
  rwa [UInt32.ofNat_toNat] at hchar

/-- The lowest digit, and the number without it. -/
theorem toNat_nibble (eax : UInt32) : (eax &&& 0x0000000f).toNat = eax.toNat % 16 := by
  rw [UInt32.toNat_and]
  exact Nat.and_two_pow_sub_one_eq_mod eax.toNat 4

theorem toNat_shift (eax : UInt32) : (eax >>> 4).toNat = eax.toNat / 16 := by
  rw [UInt32.toNat_shiftRight]
  exact Nat.shiftRight_eq_div_pow eax.toNat 4

/-- `k` rounds of the loop fill the first `k` places, from the last one down. -/
theorem dwordTranslate_eq : ∀ {k : ℕ} (eax : UInt32) (buf : Image), k ≤ 8 →
    dwordTranslate k eax (UInt32.ofNat k - 1) buf =
      (fun i => if i < k then digit (eax.toNat / 16 ^ (k - 1 - i) % 16) else buf i, 0 - 1) := by
  intro k
  induction k with
  | zero => exact fun eax buf _ => rfl
  | succ k ih =>
    intro eax buf hk
    have hedi : UInt32.ofNat (k + 1) - 1 = UInt32.ofNat k := by
      rw [UInt32.ofNat_add]
      exact UInt32.add_sub_cancel _ _
    have hplace : (UInt32.ofNat k).toNat = k := by
      rw [UInt32.toNat_ofNat']
      omega
    have hchar : nibbleChar (eax &&& 0x0000000f) = digit (eax.toNat % 16) := by
      rw [nibbleChar_eq (by rw [toNat_nibble]; omega), toNat_nibble]
    rw [dwordTranslate, hedi, ih _ _ (by omega), hplace, hchar, toNat_shift]
    congr 1
    ext i : 1
    by_cases hi : i < k
    · have hexp : k + 1 - 1 - i = k - 1 - i + 1 := by omega
      rw [if_pos hi, if_pos (by omega), hexp, Nat.div_div_eq_div_mul, ← pow_succ']
    · rw [if_neg hi]
      by_cases heq : i = k
      · subst heq
        rw [if_pos (Nat.lt_succ_self i), Function.update_self, Nat.add_sub_cancel, Nat.sub_self,
          pow_zero, Nat.div_one]
      · rw [if_neg (by omega), Function.update_of_ne heq]

end Buffer

section Printing

/-- The last `k + 1` places of the buffer are printed from the first of them on. -/
theorem putEachNum_eq (buf : Image) : ∀ {k fuel : ℕ}, k < fuel → k < 8 →
    putEachNum buf fuel (UInt32.ofNat (7 - k)) (buf (7 - k)) =
      .ok ((List.range (k + 1)).map fun i => buf (7 - k + i)) := by
  intro k
  induction k with
  | zero =>
    intro fuel hfuel _
    obtain ⟨fuel, rfl⟩ := Nat.exists_eq_succ_of_ne_zero hfuel.ne'
    rfl
  | succ k ih =>
    intro fuel hfuel hk
    obtain ⟨fuel, rfl⟩ := Nat.exists_eq_succ_of_ne_zero (Nat.ne_zero_of_lt hfuel)
    have hnext : UInt32.ofNat (7 - (k + 1)) + 1 = UInt32.ofNat (7 - k) := by
      rw [show 7 - k = 7 - (k + 1) + 1 by omega, UInt32.ofNat_add]
      rfl
    have hplace : (UInt32.ofNat (7 - k)).toNat = 7 - k := by
      rw [UInt32.toNat_ofNat']
      omega
    have hlt : ∀ m < 8, (UInt32.ofNat m).toInt32 < 8 := by decide
    rw [putEachNum]
    dsimp only
    rw [hnext, hplace, if_pos (hlt (7 - k) (by omega)), ih (by omega) (by omega), ok_bind,
      List.range_succ_eq_map (n := k + 1), List.map_cons, List.map_map]
    congr 2
    refine List.map_congr_left fun i _ => ?_
    rw [Function.comp_apply, show 7 - (k + 1) + (i + 1) = 7 - k + i by omega]

/-- The buffer holds the digits of a number. -/
def Digits (n : ℕ) (buf : Image) : Prop := ∀ i < 8, buf i = digit (n / 16 ^ (7 - i) % 16)

/-- From the place at which the rest of the number starts its numeral is printed. -/
theorem skipPrefix0_eq {n : ℕ} (hbuf : Digits n buf) : ∀ {k fuel : ℕ}, k < fuel → k ≤ 8 →
    n < 16 ^ k → (do
      let (edi, cl) ← skipPrefix0 buf fuel (UInt32.ofNat (8 - k))
      putEachNum buf 8 edi cl) = .ok (numeral digit 16 n) := by
  intro k
  induction k with
  | zero =>
    intro fuel hfuel _ hn
    obtain ⟨fuel, rfl⟩ := Nat.exists_eq_succ_of_ne_zero hfuel.ne'
    obtain rfl : n = 0 := by omega
    rfl
  | succ k ih =>
    intro fuel hfuel hk hn
    obtain ⟨fuel, rfl⟩ := Nat.exists_eq_succ_of_ne_zero (Nat.ne_zero_of_lt hfuel)
    have hplace : (UInt32.ofNat (8 - (k + 1))).toNat = 7 - k := by
      rw [UInt32.toNat_ofNat']
      omega
    have hinside : UInt32.ofNat (8 - (k + 1)) ≠ 8 := by
      intro heq
      rw [heq] at hplace
      exact absurd hplace (by change 8 ≠ 7 - k; omega)
    have hnext : UInt32.ofNat (8 - (k + 1)) + 1 = UInt32.ofNat (8 - k) := by
      rw [show 8 - k = 8 - (k + 1) + 1 by omega, UInt32.ofNat_add]
      rfl
    have hquot : n / 16 ^ k < 16 := by
      rw [Nat.div_lt_iff_lt_mul (Nat.pos_of_ne_zero (by positivity)), ← pow_succ']
      exact hn
    have hchar : buf (7 - k) = digit (n / 16 ^ k) := by
      rw [hbuf (7 - k) (by omega), show 7 - (7 - k) = k by omega, Nat.mod_eq_of_lt hquot]
    rw [skipPrefix0, if_neg hinside]
    dsimp only
    rw [hplace, hnext]
    by_cases hsmall : n < 16 ^ k
    · have hskip : buf (7 - k) = zero := by
        rw [hchar, Nat.div_eq_of_lt hsmall]
        rfl
      rw [if_pos hskip]
      exact ih (by omega) (by omega) hsmall
    · have hle := Nat.le_of_not_lt hsmall
      have hstop : buf (7 - k) ≠ zero := by
        rw [hchar]
        exact digit_ne_digit_zero (Nat.div_pos hle (Nat.pos_of_ne_zero (by positivity))) hquot
      rw [if_neg hstop, ok_bind, ← hnext, UInt32.add_sub_cancel,
        show 8 - (k + 1) = 7 - k by omega]
      dsimp only
      rw [putEachNum_eq buf (by omega) (by omega), numeral_of_width (by omega) hle hn]
      congr 1
      refine List.map_congr_left fun i hi => ?_
      have hi := List.mem_range.mp hi
      rw [hbuf _ (by omega), show 7 - (7 - k + i) = k - i by omega]

/-- `put_int` prints the hexadecimal numeral. -/
theorem putInt_eq (buf : Image) (n : UInt32) :
    ∃ buf', putInt buf n = .ok (numeral digit 16 n.toNat, buf') := by
  have hloop := dwordTranslate_eq n buf (le_refl 8)
  change dwordTranslate 8 n 7 buf = _ at hloop
  generalize hfilled : (fun i => if i < 8 then digit (n.toNat / 16 ^ (8 - 1 - i) % 16)
    else buf i) = filled at hloop
  have hdigits : Digits n.toNat filled := by
    intro i hi
    rw [← hfilled]
    exact if_pos hi
  have hprint := skipPrefix0_eq hdigits (show 8 < 9 by omega) (le_refl 8) n.toNat_lt
  obtain ⟨⟨edi, cl⟩, hskip, hput⟩ := of_bind_eq_ok hprint
  change putEachNum filled 8 edi cl = _ at hput
  change skipPrefix0 filled 9 (0 - 1 + 1) = _ at hskip
  refine ⟨filled, ?_⟩
  rw [putInt, hloop]
  dsimp only
  rw [hskip, ok_bind]
  dsimp only
  rw [hput, ok_bind]

end Printing

section Agreement

/-- The number that a character stands for as a digit. -/
def digitValue (c : UInt8) : ℕ := if c < 0x3a then c.toNat - 0x30 else c.toNat - 0x37

/-- The digits of a number, the most significant first: read back they give the number, and only
the numeral of zero starts with `'0'`. -/
structure Spells (base n : ℕ) (l : List UInt8) : Prop where
  digits : ∀ c ∈ l, ∃ d < base, c = digit d
  reads : readNumeral digitValue base l = n
  leading : n ≠ 0 → l.head? ≠ some zero
  ofZero : n = 0 → l = [zero]

theorem digitValue_digit {d : ℕ} (hd : d < 16) : digitValue (digit d) = d := by
  have hall : ∀ d < 16, digitValue (digit d) = d := by decide
  exact hall d hd

theorem spells_numeral {base : ℕ} (hbase : 1 < base) (hle : base ≤ 16) (n : ℕ) :
    Spells base n (numeral digit base n) where
  digits c hc := exists_of_mem_numeral hbase hc
  reads := readNumeral_numeral hbase (fun d hd => digitValue_digit (hd.trans_le hle)) n
  leading hn hhead := by
    obtain ⟨d, hpos, hlt, hfirst⟩ : ∃ d, 0 < d ∧ d < base ∧
        (numeral digit base n).head? = some (digit d) :=
      head?_numeral hbase (Nat.pos_of_ne_zero hn)
    have heq : digit d = digit 0 := Option.some.inj (hfirst.symm.trans hhead)
    exact digit_ne_digit_zero hpos (hlt.trans_le hle) heq
  ofZero hn := by
    rw [hn, numeral_of_lt (by omega)]
    rfl

/-- `put_int` prints what `itoa` appends in base 16, and `itoa` appends the digits of the number
in base 10 and in base 16. -/
theorem number_printers_agree (n : UInt32) :
    (∀ buf, ∃ printed buf', putInt buf n = .ok (printed, buf') ∧
      ∀ o, itoa n 16 o = .ok (o.puts printed)) ∧
    ∀ base ∈ [(10 : UInt8), 16],
      Spells base.toNat n.toNat (numeral digit base.toNat n.toNat) ∧
        ∀ o, itoa n base o = .ok (o.puts (numeral digit base.toNat n.toNat)) := by
  constructor
  · intro buf
    obtain ⟨buf', hprint⟩ := putInt_eq buf n
    exact ⟨_, buf', hprint, itoa_sixteen n⟩
  · intro base hbase
    rcases List.mem_pair.mp hbase with rfl | rfl
    · exact ⟨spells_numeral (by decide) (by decide) _, itoa_ten n⟩
    · exact ⟨spells_numeral (by decide) (by decide) _, itoa_sixteen n⟩

end Agreement

end X86System.Stdio
