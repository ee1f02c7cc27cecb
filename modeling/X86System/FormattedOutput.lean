import X86System.Bitmap
import X86System.Library.CStrings
import X86System.Library.Numerals

/-!
# Formatted output

`vsprintf` appends to a buffer by single stores, by `strcpy` and by `itoa`. Only `strcpy`
stores a NUL; behind everything else stands what was in the buffer before. The length is
measured at the end, by a walk to the next NUL.
-/
namespace X86System.Stdio
open Bytes Exec CStrings Numerals

variable {c : UInt8} {l text : List UInt8} {m : Image} {size : ℕ}

section Source

/-- `'%'`, `'-'` and the characters of the conversions. -/
def percent : UInt8 := 0x25
def minus : UInt8 := 0x2d
def charS : UInt8 := 0x73
def charC : UInt8 := 0x63
def charD : UInt8 := 0x64
def charX : UInt8 := 0x78

/-- The buffer and `buf_ptr`, as an offset. -/
structure Out where
  str : Image
  bufPtr : ℕ

/-- `*(buf_ptr++) = c`. -/
def Out.put (o : Out) (c : UInt8) : Out := ⟨Function.update o.str o.bufPtr c, o.bufPtr + 1⟩

def strcpy (m : Image) (dst : ℕ) : List UInt8 → Image
  | [] => Function.update m dst 0
  | c :: src => strcpy (Function.update m dst c) (dst + 1) src

/-- The character of a digit. -/
def digitChar (m : UInt32) : UInt8 := if m < 10 then (m + 0x30).toUInt8 else (m - 10 + 0x41).toUInt8

/-- `itoa`, for a number of at most `fuel` digits. -/
def itoaRec : ℕ → UInt32 → UInt8 → Out → Except Fault Out
  | 0, _, _, _ => .error .diverge
  | fuel + 1, value, base, o => do
    let m := value % base.toUInt32
    let i := value / base.toUInt32
    let o ← if i ≠ 0 then itoaRec fuel i base o else .ok o
    .ok (o.put (digitChar m))

def itoa (value : UInt32) (base : UInt8) (o : Out) : Except Fault Out := itoaRec 32 value base o

/-- What stands on the stack for an argument. -/
inductive Arg
  | str (s : List UInt8)
  | chr (c : UInt8)
  | int (n : Int32)

/-- `va_arg` for each type. -/
def vaStr : List Arg → Except Fault (List UInt8 × List Arg)
  | .str s :: ap => .ok (s, ap)
  | _ => .error .uninit

def vaChr : List Arg → Except Fault (UInt8 × List Arg)
  | .chr c :: ap => .ok (c, ap)
  | _ => .error .uninit

def vaInt : List Arg → Except Fault (Int32 × List Arg)
  | .int n :: ap => .ok (n, ap)
  | _ => .error .uninit

/-- `%d`: a sign, and the digits of the number without it. -/
def putDecimal (argInt : Int32) (o : Out) : Except Fault Out :=
  if argInt < 0 then itoa (0 - argInt).toUInt32 10 (o.put minus) else itoa argInt.toUInt32 10 o

/-- The loop of `vsprintf`. An unknown character behind `%` is looked at again. -/
def vsprintfLoop : List UInt8 → List Arg → Out → Except Fault Out
  | [], _, o => .ok o
  | indexChar :: fmt, ap, o =>
    if indexChar ≠ percent then vsprintfLoop fmt ap (o.put indexChar)
    else
      match fmt with
      | [] => .ok o
      | conv :: rest =>
        if conv = charS then do
          let (argStr, ap) ← vaStr ap
          vsprintfLoop rest ap ⟨strcpy o.str o.bufPtr argStr, o.bufPtr + argStr.length⟩
        else if conv = charC then do
          let (c, ap) ← vaChr ap
          vsprintfLoop rest ap (o.put c)
        else if conv = charD then do
          let (argInt, ap) ← vaInt ap
          let o ← putDecimal argInt o
          vsprintfLoop rest ap o
        else if conv = charX then do
          let (argInt, ap) ← vaInt ap
          let o ← itoa argInt.toUInt32 16 o
          vsprintfLoop rest ap o
        else vsprintfLoop (conv :: rest) ap o

/-- `vsprintf` to a buffer of `size` bytes: the buffer, and the length of the string in it. -/
def vsprintf (size : ℕ) (str : Image) (fmt : List UInt8) (ap : List Arg) :
    Except Fault (Image × ℕ) := do
  let o ← vsprintfLoop fmt ap ⟨str, 0⟩
  let len ← scan Fault.overrun (· ≠ 0) size o.str 0
  .ok (o.str, len)

end Source

section Specification

/-- A digit, upper-case from ten on. -/
def digit (d : ℕ) : UInt8 := if d < 10 then UInt8.ofNat (0x30 + d) else UInt8.ofNat (0x37 + d)

def decimal (n : Int32) : List UInt8 :=
  if n.toInt < 0 then minus :: numeral digit 10 n.toInt.natAbs else numeral digit 10 n.toInt.natAbs

def hexadecimal (n : Int32) : List UInt8 := numeral digit 16 n.toUInt32.toNat

/-- A part of a format with its argument. -/
inductive Piece
  | lit (c : UInt8)
  | str (s : List UInt8)
  | dec (n : Int32)
  | hex (n : Int32)

namespace Piece

/-- A literal is no conversion, and a string argument is a string. -/
def Valid : Piece → Prop
  | lit c => c ≠ 0 ∧ c ≠ percent
  | str s => 0 ∉ s
  | dec _ | hex _ => True

def format : Piece → List UInt8
  | lit c => [c]
  | str _ => [percent, charS]
  | dec _ => [percent, charD]
  | hex _ => [percent, charX]

def args : Piece → List Arg
  | lit _ => []
  | str s => [.str s]
  | dec n | hex n => [.int n]

def render : Piece → List UInt8
  | lit c => [c]
  | str s => s
  | dec n => decimal n
  | hex n => hexadecimal n

end Piece

/-- The text is the string in the buffer, and its length is returned. -/
def Formats (r : Except Fault (Image × ℕ)) (text : List UInt8) : Prop :=
  ∃ buf, r = .ok (buf, text.length) ∧ StringAt buf 0 text

end Specification

section Numbers

/-- Append characters. -/
def Out.puts (o : Out) (l : List UInt8) : Out := l.foldl Out.put o

theorem puts_append (o : Out) (l l' : List UInt8) : o.puts (l ++ l') = (o.puts l).puts l' :=
  List.foldl_append

theorem digitChar_eq {m : UInt32} (h : m.toNat < 16) : digitChar m = digit m.toNat := by
  apply UInt8.toNat_inj.mp
  have hten : m < 10 ↔ m.toNat < 10 := UInt32.lt_iff_toNat_lt
  unfold digitChar digit
  by_cases hm : m.toNat < 10
  · rw [if_pos (hten.mpr hm), if_pos hm, UInt32.toNat_toUInt8, UInt32.toNat_add,
      UInt8.toNat_ofNat']
    show (m.toNat + 48) % 4294967296 % 256 = (48 + m.toNat) % 256
    omega
  · have hle : (10 : UInt32) ≤ m := UInt32.le_iff_toNat_le.mpr (Nat.le_of_not_lt hm)
    rw [if_neg (mt hten.mp hm), if_neg hm, UInt32.toNat_toUInt8, UInt32.toNat_add,
      UInt32.toNat_sub_of_le _ _ hle, UInt8.toNat_ofNat']
    show (m.toNat - 10 + 65) % 4294967296 % 256 = (55 + m.toNat) % 256
    omega

/-- `itoa` appends the numeral. -/
theorem itoaRec_eq {base : UInt8} (hbase : 1 < base.toNat) (hle : base.toNat ≤ 16) :
    ∀ {fuel : ℕ} {value : UInt32} (o : Out), 0 < fuel → value.toNat < base.toNat ^ fuel →
      itoaRec fuel value base o = .ok (o.puts (numeral digit base.toNat value.toNat)) := by
  intro fuel
  induction fuel with
  | zero => exact fun o hfuel => absurd hfuel (Nat.lt_irrefl 0)
  | succ fuel ih =>
    intro value o _ hvalue
    have hmod : (value % base.toUInt32).toNat = value.toNat % base.toNat := by
      rw [UInt32.toNat_mod, UInt8.toNat_toUInt32]
    have hdiv : (value / base.toUInt32).toNat = value.toNat / base.toNat := by
      rw [UInt32.toNat_div, UInt8.toNat_toUInt32]
    have hlt : value.toNat % base.toNat < base.toNat := Nat.mod_lt _ (by omega)
    have hchar := digitChar_eq (m := value % base.toUInt32) (by omega)
    rw [hmod] at hchar
    unfold itoaRec
    dsimp only
    rw [hchar]
    by_cases hsmall : value.toNat < base.toNat
    · have hzero : value / base.toUInt32 = 0 := by
        apply UInt32.toNat_inj.mp
        rw [hdiv, Nat.div_eq_of_lt hsmall]
        rfl
      rw [if_neg (not_not.mpr hzero), ok_bind, numeral_of_lt hsmall, Nat.mod_eq_of_lt hsmall]
      rfl
    · have hbig : base.toNat ≤ value.toNat := Nat.le_of_not_lt hsmall
      have hne : value / base.toUInt32 ≠ 0 := by
        intro h0
        rw [h0] at hdiv
        exact (Nat.div_pos hbig (by omega)).ne hdiv
      have hfuel : 0 < fuel := by
        rcases Nat.eq_zero_or_pos fuel with rfl | hpos
        · rw [zero_add, pow_one] at hvalue
          exact absurd hvalue hsmall
        · exact hpos
      have hquot : (value / base.toUInt32).toNat < base.toNat ^ fuel := by
        rw [hdiv]
        exact Nat.div_lt_of_lt_mul (by rwa [mul_comm, ← pow_succ])
      rw [if_pos hne, ih o hfuel hquot, ok_bind, hdiv, numeral_of_le hbase hbig, puts_append]
      rfl

theorem itoa_ten (value : UInt32) (o : Out) :
    itoa value 10 o = .ok (o.puts (numeral digit 10 value.toNat)) :=
  itoaRec_eq (by decide) (by decide) o (by decide)
    (lt_of_lt_of_le value.toNat_lt (by decide))

theorem itoa_sixteen (value : UInt32) (o : Out) :
    itoa value 16 o = .ok (o.puts (numeral digit 16 value.toNat)) :=
  itoaRec_eq (by decide) (by decide) o (by decide)
    (lt_of_lt_of_le value.toNat_lt (by decide))

theorem toInt_eq (n : Int32) :
    n.toInt = if 2 * n.toUInt32.toNat < 4294967296 then (n.toUInt32.toNat : ℤ)
      else (n.toUInt32.toNat : ℤ) - 4294967296 :=
  BitVec.toInt_eq_toNat_cond n.toBitVec

/-- `%d` appends the decimal numeral, with a sign in front. -/
theorem putDecimal_eq (n : Int32) (o : Out) : putDecimal n o = .ok (o.puts (decimal n)) := by
  have hint := toInt_eq n
  have hbound := n.toUInt32.toNat_lt
  have hlt : n < 0 ↔ n.toInt < 0 := Int32.lt_iff_toInt_lt
  unfold putDecimal decimal
  by_cases hneg : n.toInt < 0
  · have hhigh : ¬ 2 * n.toUInt32.toNat < 4294967296 := by
      intro hlow
      rw [if_pos hlow] at hint
      omega
    rw [if_neg hhigh] at hint
    have habs : (0 - n).toUInt32.toNat = n.toInt.natAbs := by
      rw [Int32.toUInt32_sub, UInt32.toNat_sub]
      show (4294967296 - n.toUInt32.toNat + 0) % 4294967296 = _
      omega
    rw [if_pos (hlt.mpr hneg), if_pos hneg, itoa_ten, habs]
    rfl
  · have hlow : 2 * n.toUInt32.toNat < 4294967296 := by
      by_contra hhigh
      rw [if_neg hhigh] at hint
      omega
    rw [if_pos hlow] at hint
    have habs : n.toUInt32.toNat = n.toInt.natAbs := by omega
    rw [if_neg (mt hlt.mp hneg), if_neg hneg, itoa_ten, habs]

end Numbers

section Appending

variable {o : Out} {init : Image} {ended : Bool} {s : List UInt8}

/-- The text stands in the buffer up to `buf_ptr`. Behind it is what was there before, but for
a NUL at its end if `strcpy` stored last. -/
structure Written (init : Image) (o : Out) (text : List UInt8) (ended : Bool) : Prop where
  ptr : o.bufPtr = text.length
  chars : ∀ i c, text[i]? = some c → o.str i = c
  noNul : 0 ∉ text
  final : o.str text.length = if ended then 0 else init text.length
  behind : ∀ i, text.length < i → o.str i = init i

theorem written_nil (init : Image) : Written init ⟨init, 0⟩ [] false :=
  ⟨rfl, fun i c hc => by simp at hc, by simp, rfl, fun _ _ => rfl⟩

theorem Written.put (h : Written init o text ended) (hc : c ≠ 0) :
    Written init (o.put c) (text ++ [c]) false := by
  have hlen : (text ++ [c]).length = text.length + 1 := by
    rw [List.length_append, List.length_singleton]
  refine ⟨?_, fun i d hd => ?_, fun hmem => ?_, ?_, fun i hi => ?_⟩
  · rw [hlen, ← h.ptr]
    rfl
  · show Function.update o.str o.bufPtr c i = d
    rw [h.ptr]
    by_cases hi : i < text.length
    · rw [List.getElem?_append_left hi] at hd
      rw [Function.update_of_ne hi.ne, h.chars i d hd]
    · rw [List.getElem?_append_right (Nat.le_of_not_lt hi), List.getElem?_singleton] at hd
      split_ifs at hd with hzero
      obtain rfl : i = text.length := by omega
      rw [Function.update_self]
      exact Option.some.inj hd
  · rcases List.mem_append.mp hmem with hmem | hmem
    · exact h.noNul hmem
    · exact hc (List.mem_singleton.mp hmem).symm
  · show Function.update o.str o.bufPtr c _ = _
    rw [h.ptr, hlen, Function.update_of_ne (by omega), h.behind _ (Nat.lt_succ_self _)]
    rfl
  · show Function.update o.str o.bufPtr c i = _
    rw [hlen] at hi
    rw [h.ptr, Function.update_of_ne (by omega), h.behind i (by omega)]

/-- Characters that are stored leave no NUL behind them. -/
theorem Written.puts (h : Written init o text ended) (hl : 0 ∉ l) (hne : l ≠ []) :
    Written init (o.puts l) (text ++ l) false := by
  induction l generalizing o text ended with
  | nil => exact absurd rfl hne
  | cons c l ih =>
    have hput := h.put fun h0 => hl (h0 ▸ List.mem_cons_self)
    rcases eq_or_ne l [] with rfl | hrest
    · exact hput
    · have hputs := ih hput (fun hmem => hl (List.mem_cons_of_mem c hmem)) hrest
      rw [List.append_assoc] at hputs
      exact hputs

/-- `strcpy` leaves a NUL. -/
theorem Written.strcpy (h : Written init o text ended) (hs : 0 ∉ s) :
    Written init ⟨Stdio.strcpy o.str o.bufPtr s, o.bufPtr + s.length⟩ (text ++ s) true := by
  induction s generalizing o text ended with
  | nil =>
    rw [List.append_nil]
    refine ⟨h.ptr, fun i c hc => ?_, h.noNul, ?_, fun i hi => ?_⟩
    · have hi := (List.getElem?_eq_some_iff.mp hc).1
      show Function.update o.str o.bufPtr 0 i = c
      rw [h.ptr, Function.update_of_ne hi.ne, h.chars i c hc]
    · show Function.update o.str o.bufPtr 0 text.length = 0
      rw [h.ptr, Function.update_self]
    · show Function.update o.str o.bufPtr 0 i = init i
      rw [h.ptr, Function.update_of_ne hi.ne', h.behind i hi]
  | cons c s ih =>
    have hput := h.put fun h0 => hs (h0 ▸ List.mem_cons_self)
    have hcopy := ih hput fun hmem => hs (List.mem_cons_of_mem c hmem)
    rw [List.append_assoc] at hcopy
    rw [List.length_cons, Nat.add_comm s.length, ← Nat.add_assoc]
    exact hcopy

end Appending

section Formats

variable {init : Image} {o : Out} {ended : Bool} {p : Piece} {ps : List Piece}

/-- Whether the last piece is a `%s`. -/
def Piece.isStr : Piece → Bool
  | .str _ => true
  | _ => false

theorem digit_ne_zero {d : ℕ} (h : d < 16) : digit d ≠ 0 := by
  interval_cases d <;> decide

theorem numeral_noNul {base n : ℕ} (hbase : 1 < base) (hle : base ≤ 16) :
    0 ∉ numeral digit base n := by
  intro hmem
  obtain ⟨d, hd, hzero⟩ := exists_of_mem_numeral hbase hmem
  exact digit_ne_zero (hd.trans_le hle) hzero.symm

theorem decimal_noNul (n : Int32) : 0 ∉ decimal n := by
  have hdigits := numeral_noNul (n := n.toInt.natAbs) (show 1 < 10 by decide) (by decide)
  unfold decimal
  split_ifs
  · intro hmem
    rcases List.mem_cons.mp hmem with hzero | hmem
    · exact absurd hzero (by decide)
    · exact hdigits hmem
  · exact hdigits

theorem decimal_ne_nil (n : Int32) : decimal n ≠ [] := by
  unfold decimal
  split_ifs
  · exact List.cons_ne_nil _ _
  · exact numeral_ne_nil _ _ _

/-- One piece of the format is worked off. -/
theorem vsprintfLoop_piece (fmt : List UInt8) (ap : List Arg) (hp : p.Valid) (h : Written init o text ended) : ∃ o',
    vsprintfLoop (p.format ++ fmt) (p.args ++ ap) o = vsprintfLoop fmt ap o' ∧
      Written init o' (text ++ p.render) p.isStr := by
  cases p with
  | lit c =>
    refine ⟨o.put c, ?_, h.put hp.1⟩
    show vsprintfLoop (c :: fmt) ap o = _
    rw [vsprintfLoop.eq_def]
    exact if_pos hp.2
  | str s => exact ⟨_, rfl, h.strcpy hp⟩
  | dec n =>
    refine ⟨o.puts (decimal n), ?_, h.puts (decimal_noNul n) (decimal_ne_nil n)⟩
    show (putDecimal n o >>= vsprintfLoop fmt ap) = _
    rw [putDecimal_eq, ok_bind]
  | hex n =>
    refine ⟨o.puts (hexadecimal n), ?_, h.puts ?_ ?_⟩
    · show (itoa n.toUInt32 16 o >>= vsprintfLoop fmt ap) = _
      rw [itoa_sixteen, ok_bind]
      rfl
    · exact numeral_noNul (by decide) (by decide)
    · exact numeral_ne_nil _ _ _

/-- The whole format. -/
theorem vsprintfLoop_pieces (hps : ∀ p ∈ ps, p.Valid) (h : Written init o text ended) :
    ∃ o', vsprintfLoop (ps.flatMap Piece.format) (ps.flatMap Piece.args) o = .ok o' ∧
      Written init o' (text ++ ps.flatMap Piece.render)
        ((ps.getLast?.map Piece.isStr).getD ended) := by
  induction ps generalizing o text ended with
  | nil =>
    refine ⟨o, rfl, ?_⟩
    rw [List.flatMap_nil, List.append_nil]
    exact h
  | cons p ps ih =>
    obtain ⟨o₁, hturn, hpiece⟩ := vsprintfLoop_piece (ps.flatMap Piece.format)
      (ps.flatMap Piece.args) (hps p List.mem_cons_self) h
    obtain ⟨o', hrest, hwritten⟩ := ih (fun q hq => hps q (List.mem_cons_of_mem p hq)) hpiece
    refine ⟨o', ?_, ?_⟩
    · rw [List.flatMap_cons, List.flatMap_cons, hturn, hrest]
    · rw [List.append_assoc] at hwritten
      rw [List.flatMap_cons, List.getLast?_cons]
      cases hlast : ps.getLast? with
      | none =>
        rw [hlast] at hwritten
        exact hwritten
      | some q =>
        rw [hlast] at hwritten
        exact hwritten

end Formats

/-- `vsprintf` leaves the formatted text as a string and returns its length if and only if the
format ends with `%s` or there was a NUL in the buffer where the text ends. -/
theorem vsprintf_formats (ps : List Piece) (hps : ∀ p ∈ ps, p.Valid) (buf : Image) (size : ℕ)
    (hsize : (ps.flatMap Piece.render).length < size) :
    Formats (vsprintf size buf (ps.flatMap Piece.format) (ps.flatMap Piece.args))
        (ps.flatMap Piece.render) ↔
      (∃ s, ps.getLast? = some (.str s)) ∨ buf (ps.flatMap Piece.render).length = 0 := by
  obtain ⟨o, hrun, hwritten⟩ := vsprintfLoop_pieces hps (written_nil buf)
  rw [List.nil_append] at hwritten
  have hfinal := hwritten.final
  have hlast : (ps.getLast?.map Piece.isStr).getD false = true ↔
      ∃ s, ps.getLast? = some (.str s) := by
    cases ps.getLast? with
    | none => simp
    | some p => cases p <;> simp [Piece.isStr]
  have hnul : o.str (ps.flatMap Piece.render).length = 0 ↔
      (∃ s, ps.getLast? = some (.str s)) ∨ buf (ps.flatMap Piece.render).length = 0 := by
    rw [hfinal, ← hlast]
    split_ifs with h <;> simp [h]
  rw [← hnul]
  unfold vsprintf
  rw [hrun, ok_bind]
  constructor
  · rintro ⟨buf', hres, hstring⟩
    obtain ⟨len, -, hpair⟩ := of_bind_eq_ok hres
    obtain rfl := (Prod.mk.inj (Except.ok.inj hpair)).1
    have hend := hstring.nul
    rwa [Nat.zero_add] at hend
  · intro hend
    have hstring : StringAt o.str 0 (ps.flatMap Piece.render) := by
      refine ⟨fun i c hc => ?_, hwritten.noNul, by rwa [Nat.zero_add]⟩
      rw [Nat.zero_add]
      exact hwritten.chars i c hc
    have hscan := scan_append (e := Fault.overrun) (p := fun c => decide (c ≠ 0))
      (show StringAt o.str 0 (ps.flatMap Piece.render ++ []) by rwa [List.append_nil])
      (fun c hc => decide_eq_true fun h0 => hwritten.noNul (h0 ▸ hc))
      (by rw [hstring.nul]; rfl) hsize
    rw [Nat.zero_add] at hscan
    rw [hscan]
    exact ⟨o.str, rfl, hstring⟩

/-- `-%x: %s` in a buffer of other bytes. -/
theorem vsprintf_formats_sample : Formats
    (vsprintf 64 (fun _ => 0xcc) [minus, percent, charX, 0x3a, percent, charS]
      [.int 255, .str [0x73, 0x64]]) [minus, 0x46, 0x46, 0x3a, 0x73, 0x64] :=
  (vsprintf_formats [.lit minus, .hex 255, .lit 0x3a, .str [0x73, 0x64]]
    (by simp [Piece.Valid, minus, percent]) (fun _ => 0xcc) 64 (by decide)).mpr
    (Or.inl ⟨_, rfl⟩)

/-- The message of `ide_read`, `%s read sector %d failed!!!` and a line feed. -/
def readSectorFailed (name : List UInt8) (lba : Int32) : List Piece :=
  [.str name] ++
    ([0x20, 0x72, 0x65, 0x61, 0x64, 0x20, 0x73, 0x65, 0x63, 0x74, 0x6f, 0x72, 0x20].map .lit) ++
    [.dec lba] ++ ([0x20, 0x66, 0x61, 0x69, 0x6c, 0x65, 0x64, 0x21, 0x21, 0x21, 0x0a].map .lit)

/-- Sector 7 of `sda` in a buffer that was never written. -/
theorem vsprintf_unterminated : ¬ ∀ (ps : List Piece) (buf : Image) (size : ℕ),
    (∀ p ∈ ps, p.Valid) → (ps.flatMap Piece.render).length < size →
    Formats (vsprintf size buf (ps.flatMap Piece.format) (ps.flatMap Piece.args))
      (ps.flatMap Piece.render) := by
  intro hall
  have hvalid : ∀ p ∈ readSectorFailed [0x73, 0x64, 0x61] 7, p.Valid := by
    simp [readSectorFailed, Piece.Valid, percent]
  obtain ⟨buf, hres, -⟩ := hall (readSectorFailed [0x73, 0x64, 0x61] 7) (fun _ => 0xcc) 64 hvalid
    (by decide)
  have herror : ∃ e, vsprintf 64 (fun _ => 0xcc)
      ((readSectorFailed [0x73, 0x64, 0x61] 7).flatMap Piece.format)
      ((readSectorFailed [0x73, 0x64, 0x61] 7).flatMap Piece.args) = .error e ∧ True := by
    decide
  obtain ⟨e, he, -⟩ := herror
  rw [he] at hres
  cases hres

end X86System.Stdio
