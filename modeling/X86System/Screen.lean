import X86System.FileLimits
import X86System.Descriptors

/-!
# What is written to the screen

`sys_write` to a standard output that is not a pipe copies its bytes into a buffer of
1024 bytes on the kernel stack and prints that buffer as a string. A full buffer has no
NUL of its own: what is behind it on the stack is printed as well, up to the first NUL
there. `buildin_cat` reads a file in pieces of 1024 bytes and writes each of them.
-/
namespace X86System.FileSystem
open Bytes Exec

variable {s : State} {g k : ℕ} {fd : File} {a : InodePtr} {x : Inode}

section Strings

variable {m out rest l behind : List UInt8} {src : Image} {count : UInt32}

/-- `put_str`: what lies at its argument up to the first NUL, as far as memory is mapped. -/
def putStr : List UInt8 → Except Fault (List UInt8)
  | [] => .error .page
  | b :: m =>
    if b = 0 then .ok []
    else do
      let out ← putStr m
      .ok (b :: out)

/-- `sys_write` to a standard output that is no pipe: what it prints and what it returns.
`behind` is the memory behind `tmp_buf`, as far as it is mapped. -/
def writeConsole (behind : List UInt8) (src : Image) (count : UInt32) :
    Except Fault (List UInt8 × UInt32) := do
  let tmpBuf ← Buffer.copy { size := 1024, bytes := zeros } 0 count.toNat src
  let out ← putStr (bytesAt tmpBuf.bytes tmpBuf.size ++ behind)
  .ok (out, count)

/-- A string is what it prints, a NUL and something behind it. -/
theorem putStr_eq_ok : ∀ {m out : List UInt8},
    putStr m = .ok out ↔ 0 ∉ out ∧ ∃ rest, m = out ++ 0 :: rest := by
  intro m
  induction m with
  | nil =>
    intro out
    exact iff_of_false (by simp [putStr]) (by simp)
  | cons b m ih =>
    intro out
    unfold putStr
    split_ifs with hb
    · subst hb
      constructor
      · intro h
        obtain rfl := Except.ok.inj h
        exact ⟨List.not_mem_nil, m, rfl⟩
      · rintro ⟨hout, rest, heq⟩
        cases out with
        | nil => rfl
        | cons c out => exact absurd (List.cons.inj heq).1 fun h => hout (h ▸ List.mem_cons_self)
    · constructor
      · intro h
        obtain ⟨out', hrun, h⟩ := of_bind_eq_ok h
        obtain rfl := Except.ok.inj h
        obtain ⟨hout, rest, rfl⟩ := ih.mp hrun
        exact ⟨fun h => (List.mem_cons.mp h).elim (fun h0 => hb h0.symm) hout, rest, rfl⟩
      · rintro ⟨hout, rest, heq⟩
        cases out with
        | nil => exact absurd (List.cons.inj heq).1 hb
        | cons c out =>
          obtain ⟨rfl, hm⟩ := List.cons.inj heq
          rw [ih.mpr ⟨fun h => hout (List.mem_cons_of_mem b h), rest, hm⟩, ok_bind]

/-- The bytes in the buffer and the zeros behind them. -/
theorem bytesAt_overlay_zeros {n : ℕ} (hn : n ≤ 1024) :
    bytesAt (overlay zeros 0 n src) 1024 = bytesAt src n ++ List.replicate (1024 - n) 0 := by
  obtain ⟨r, hr⟩ := Nat.exists_eq_add_of_le hn
  rw [hr, ← bytesAt_append, Nat.add_sub_cancel_left]
  congr 1
  · refine List.map_congr_left fun i hi => ?_
    have hin : overlay zeros 0 n src (0 + i) = src i := overlay_at (List.mem_range.mp hi)
    rwa [Nat.zero_add] at hin
  · refine List.eq_replicate_iff.mpr ⟨length_bytesAt _ _, fun b hb => ?_⟩
    obtain ⟨i, -, rfl⟩ := List.mem_map.mp hb
    exact overlay_outside (by simp)

/-- A write prints a string: its bytes, the rest of the buffer and what is behind it. -/
theorem writeConsole_eq_ok {w : UInt32} : writeConsole behind src count = .ok (out, w) ↔
    count.toNat ≤ 1024 ∧ w = count ∧ 0 ∉ out ∧ ∃ rest,
      bytesAt src count.toNat ++ (List.replicate (1024 - count.toNat) 0 ++ behind) =
        out ++ 0 :: rest := by
  unfold writeConsole
  by_cases hcount : count.toNat ≤ 1024
  · have hbytes : bytesAt ((⟨1024, zeros⟩ : Buffer).put 0 count.toNat src).bytes 1024 ++ behind =
        bytesAt src count.toNat ++ (List.replicate (1024 - count.toNat) 0 ++ behind) := by
      rw [Buffer.put_bytes, bytesAt_overlay_zeros hcount, List.append_assoc]
    rw [Buffer.copy_of_le (by simpa using hcount), ok_bind, Buffer.put_size, hbytes]
    constructor
    · intro h
      obtain ⟨out', hrun, h⟩ := of_bind_eq_ok h
      obtain ⟨rfl, rfl⟩ := Prod.mk.inj (Except.ok.inj h)
      exact ⟨hcount, rfl, putStr_eq_ok.mp hrun⟩
    · rintro ⟨-, rfl, hout⟩
      rw [putStr_eq_ok.mpr hout, ok_bind]
  · refine iff_of_false (fun h => ?_) fun h => hcount h.1
    obtain ⟨c, hcopy, -⟩ := of_bind_eq_ok h
    obtain ⟨hle, -⟩ := of_ensure_eq_ok hcopy
    exact hcount (by simpa using hle)

/-- The call prints exactly its bytes and returns their number. -/
def Delivers (behind : List UInt8) (src : Image) (count : UInt32) : Prop :=
  writeConsole behind src count = .ok (bytesAt src count.toNat, count)

instance (behind : List UInt8) (src : Image) (count : UInt32) :
    Decidable (Delivers behind src count) := inferInstanceAs (Decidable (_ = _))

theorem delivers_iff : Delivers behind src count ↔ 0 ∉ bytesAt src count.toNat ∧
    (count.toNat < 1024 ∨ count.toNat = 1024 ∧ behind.head? = some 0) := by
  unfold Delivers
  rw [writeConsole_eq_ok]
  simp only [List.append_cancel_left_eq, true_and]
  constructor
  · rintro ⟨hle, hnul, rest, hrest⟩
    refine ⟨hnul, ?_⟩
    by_cases hfull : count.toNat = 1024
    · rw [hfull, Nat.sub_self, List.replicate_zero, List.nil_append] at hrest
      exact Or.inr ⟨hfull, by rw [hrest, List.head?_cons]⟩
    · exact Or.inl (by omega)
  · rintro ⟨hnul, hlt | ⟨hfull, hhead⟩⟩
    · refine ⟨hlt.le, hnul, List.replicate (1023 - count.toNat) 0 ++ behind, ?_⟩
      rw [show 1024 - count.toNat = 1023 - count.toNat + 1 by omega, List.replicate_succ,
        List.cons_append]
    · obtain ⟨rest, hrest⟩ := List.head?_eq_some_iff.mp hhead
      refine ⟨hfull.le, hnul, rest, ?_⟩
      rw [hfull, Nat.sub_self, List.replicate_zero, List.nil_append, hrest]

/-- A string that is not longer than some bytes without a NUL ends where they end. -/
theorem head?_of_string {c : List UInt8} (hnul : 0 ∉ c) (hout : out.length ≤ c.length)
    (heq : c ++ l = out ++ 0 :: rest) : l.head? = some 0 := by
  obtain ⟨w, rfl, hl⟩ | ⟨w, rfl, hrest⟩ := List.append_eq_append_iff.mp heq
  · rw [List.length_append] at hout
    obtain rfl : w = [] := List.length_eq_zero_iff.mp (by omega)
    rw [hl, List.nil_append, List.head?_cons]
  · cases w with
    | nil => rw [← List.nil_append l, ← hrest, List.head?_cons]
    | cons b w =>
      obtain ⟨rfl, -⟩ := List.cons.inj hrest
      exact absurd (List.mem_append_right out List.mem_cons_self) hnul

/-- Bytes without a NUL are all printed; in a buffer that is not full, or if no more is printed
than the buffer holds, nothing else is. -/
theorem delivers_of_short (hnul : 0 ∉ bytesAt src count.toNat) {w : UInt32}
    (h : writeConsole behind src count = .ok (out, w)) (hout : out.length ≤ 1024) :
    Delivers behind src count := by
  obtain ⟨hle, -, hnul', rest, heq⟩ := writeConsole_eq_ok.mp h
  rw [delivers_iff]
  refine ⟨hnul, ?_⟩
  by_cases hfull : count.toNat = 1024
  · refine Or.inr ⟨hfull, ?_⟩
    rw [hfull, Nat.sub_self, List.replicate_zero, List.nil_append] at heq
    rw [hfull] at hnul
    exact head?_of_string hnul (by rwa [length_bytesAt]) heq
  · exact Or.inl (by omega)

end Strings

section Cat

variable {behind : ℕ → List UInt8}

/-- The loop of `buildin_cat` for the file in slot `g`, from its write number `k` on: what each
write prints. `behind k` is what lies behind the buffer of that write. -/
def catLoop (g : ℕ) (behind : ℕ → List UInt8) :
    ℕ → ℕ → Image → State → Except Fault (List (List UInt8))
  | 0, _, _, _ => .error .diverge
  | fuel + 1, k, dst, s => do
    match ← fileRead s g dst 1024 with
    | (none, _, _) => .ok []
    | (some n, dst, s) =>
      let (out, _) ← writeConsole (behind k) dst n
      let rest ← catLoop g behind fuel (k + 1) dst s
      .ok (out :: rest)

theorem toNat_piece : (1024 : UInt32).toNat = 1024 := rfl

/-- The bytes `l` are printed, by writes that print no more than fits into their buffers. -/
def Shows (s : State) (g : ℕ) (behind : ℕ → List UInt8) (k : ℕ) (dst : Image) (l : List UInt8) :
    Prop :=
  ∃ fuel prints, catLoop g behind fuel k dst s = .ok prints ∧ prints.flatten = l ∧
    ∀ out ∈ prints, out.length ≤ 1024

/-- What printing the bytes `l` at the end of a file with the inode `x` takes: no NUL in them, no
block behind the last that `file_read` allows, buffers for reading them, and a NUL behind each
write that fills its buffer. -/
structure CanShow (s : State) (x : Inode) (behind : ℕ → List UInt8) (k : ℕ) (l : List UInt8) :
    Prop where
  nul : 0 ∉ l
  size : l ≠ [] → x.iSize.toNat < 139 * 512
  heap : ∀ j < 2 * ((l.length + 1023) / 1024), s.heap j = true
  behind : ∀ j < l.length / 1024, (behind (k + j)).head? = some 0

theorem catLoop_nul (fuel : ℕ) : ∀ {k : ℕ} {dst : Image} {s : State} {prints : List (List UInt8)},
    catLoop g behind fuel k dst s = .ok prints → 0 ∉ prints.flatten := by
  induction fuel with
  | zero =>
    intro k dst s prints h
    cases h
  | succ fuel ih =>
    intro k dst s prints h
    rw [catLoop] at h
    obtain ⟨⟨n, dst', t⟩, -, h⟩ := of_bind_eq_ok h
    cases n with
    | none =>
      obtain rfl := Except.ok.inj h
      exact List.not_mem_nil
    | some n =>
      obtain ⟨⟨out, w⟩, hout, h⟩ := of_bind_eq_ok h
      obtain ⟨rest, hrest, h⟩ := of_bind_eq_ok h
      obtain rfl := Except.ok.inj h
      obtain ⟨-, -, hnul, -⟩ := writeConsole_eq_ok.mp hout
      rw [List.flatten_cons, List.mem_append]
      exact fun hzero => hzero.elim hnul (ih hrest)

/-- At the end of the file there is nothing left to print. -/
theorem RegularFile.shows_end (h : RegularFile s g fd a x) (hpos : fd.fdPos = x.iSize)
    (k : ℕ) (dst : Image) : Shows s g behind k dst [] := by
  have hsize : x.iSize.toNat ≤ 140 * 512 := h.size_le
  have hend : x.iSize < fd.fdPos + 1024 ∧ readSize fd x 1024 = 0 := by
    have hlt : x.iSize < fd.fdPos + 1024 := by
      have hsum := UInt32.toNat_add x.iSize 1024
      rw [toNat_piece, Nat.mod_eq_of_lt (by omega)] at hsum
      rw [hpos, UInt32.lt_iff_toNat_lt, hsum]
      exact Nat.lt_add_of_pos_right (by decide)
    refine ⟨hlt, ?_⟩
    unfold readSize
    rw [if_pos hlt, hpos, UInt32.sub_self]
  refine ⟨1, [], ?_, rfl, fun out hout => absurd hout List.not_mem_nil⟩
  rw [catLoop]
  unfold fileRead
  rw [file_of_slot h.slot, ok_bind, h.fileInode, ok_bind, h.inode, deref_some, ok_bind,
    if_pos hend, ok_bind]

/-- The next piece of a file that is read in pieces of 1024 bytes. -/
theorem RegularFile.fileRead_piece (h : RegularFile s g fd a x) (hm : Mounted s)
    (hheap : s.heap 0 = true ∧ s.heap 1 = true) (hlt : fd.fdPos.toNat < x.iSize.toNat)
    (hlast : fd.fdPos.toNat + min 1024 (x.iSize.toNat - fd.fdPos.toNat) < 139 * 512)
    (dst : Image) : ∃ (n q : UInt32) (dst' : Image),
      n.toNat = min 1024 (x.iSize.toNat - fd.fdPos.toNat) ∧ q.toNat = fd.fdPos.toNat + n.toNat ∧
      bytesAt dst' n.toNat = ((s.contents x).drop fd.fdPos.toNat).take 1024 ∧
      fileRead s g dst 1024 =
        .ok (some n, dst', s.popHeap.popHeap.setFile g { fd with fdPos := q }) := by
  have hfits : ReadFits fd x 1024 := ⟨by rw [toNat_piece]; omega, Or.inr (by rwa [toNat_piece])⟩
  have hread : ReadsAs s g fd dst 1024 _ :=
    h.reads_of_fits hm hheap.1 hheap.2 hlt.le dst (by decide) hfits
  rw [toNat_piece] at hread
  obtain ⟨out, hout⟩ := readBytes_of_lt (s.contents x)
    (show fd.fdPos.toNat < _ by rw [length_contents]; exact hlt) (show 0 < 1024 by decide)
  rw [hout] at hread
  have hlen := length_read _ hout
  rw [length_contents] at hlen
  obtain ⟨dst', hdst, -, hrun⟩ := hread
  have hsize := x.iSize.toNat_lt
  have hn : (UInt32.ofNat out.length).toNat = out.length := by
    rw [UInt32.toNat_ofNat']
    omega
  refine ⟨_, _, dst', by rw [hn, hlen], ?_, ?_, hrun⟩
  · rw [UInt32.toNat_add, hn]
    omega
  · rw [hn, hdst]
    unfold readBytes at hout
    split_ifs at hout
    exact (Option.some.inj hout).symm

variable {t : State} {l : List UInt8} {n : UInt32} {dst dst' : Image}

/-- One round of the loop prints its piece, and the others print what is behind it. -/
theorem shows_of_read (hrun : fileRead s g dst 1024 = .ok (some n, dst', t))
    (hpiece : bytesAt dst' n.toNat = l.take 1024) : Shows s g behind k dst l ↔
      Delivers (behind k) dst' n ∧ Shows t g behind (k + 1) dst' (l.drop 1024) := by
  constructor
  · rintro ⟨fuel, prints, h, hflat, hshort⟩
    have hnul : 0 ∉ bytesAt dst' n.toNat := by
      have hzero := catLoop_nul fuel h
      rw [hflat] at hzero
      rw [hpiece]
      exact fun hmem => hzero (List.mem_of_mem_take hmem)
    cases fuel with
    | zero => cases h
    | succ fuel =>
      rw [catLoop, hrun, ok_bind] at h
      obtain ⟨⟨out, w⟩, hout, h⟩ := of_bind_eq_ok h
      obtain ⟨rest, hrest, h⟩ := of_bind_eq_ok h
      obtain rfl := Except.ok.inj h
      have hdelivers := delivers_of_short hnul hout (hshort out List.mem_cons_self)
      have heq : out = l.take 1024 := by
        rw [← hpiece]
        exact (Prod.mk.inj (Except.ok.inj (hout.symm.trans hdelivers))).1
      rw [List.flatten_cons, ← List.take_append_drop 1024 l, heq] at hflat
      exact ⟨hdelivers, fuel, rest, hrest, List.append_cancel_left hflat,
        fun o ho => hshort o (List.mem_cons_of_mem out ho)⟩
  · rintro ⟨hdelivers, fuel, rest, hrest, hflat, hshort⟩
    refine ⟨fuel + 1, bytesAt dst' n.toNat :: rest, ?_, ?_, fun o ho => ?_⟩
    · rw [catLoop, hrun, ok_bind]
      dsimp only
      rw [hdelivers, ok_bind]
      dsimp only
      rw [hrest, ok_bind]
    · rw [List.flatten_cons, hflat, hpiece, List.take_append_drop]
    · obtain rfl | ho := List.mem_cons.mp ho
      · rw [hpiece, List.length_take]
        exact Nat.min_le_left _ _
      · exact hshort o ho

theorem canShow_nil (s : State) (x : Inode) (behind : ℕ → List UInt8) (k : ℕ) :
    CanShow s x behind k [] :=
  ⟨List.not_mem_nil, fun h => absurd rfl h, fun j hj => absurd hj (Nat.not_lt_zero j),
    fun j hj => absurd hj (Nat.not_lt_zero j)⟩

/-- What one round takes, and what the others take. -/
theorem canShow_of_ne (hl : l ≠ []) (hheap : ∀ j, t.heap j = s.heap (j + 2)) :
    CanShow s x behind k l ↔ (0 ∉ l.take 1024 ∧ (1024 ≤ l.length → (behind k).head? = some 0)) ∧
      (l.drop 1024 = [] → x.iSize.toNat < 139 * 512) ∧ (s.heap 0 = true ∧ s.heap 1 = true) ∧
      CanShow t x behind (k + 1) (l.drop 1024) := by
  have hpos := List.length_pos_iff.mpr hl
  have hlen := List.length_drop (i := 1024) (l := l)
  constructor
  · intro h
    refine ⟨⟨fun hmem => h.nul (List.mem_of_mem_take hmem), fun hfull => ?_⟩, fun _ => h.size hl,
      ⟨h.heap 0 (by omega), h.heap 1 (by omega)⟩, fun hmem => h.nul (List.mem_of_mem_drop hmem),
      fun _ => h.size hl, fun j hj => ?_, fun j hj => ?_⟩
    · exact h.behind 0 (by omega)
    · rw [hheap]
      exact h.heap (j + 2) (by omega)
    · rw [Nat.add_right_comm, Nat.add_assoc]
      exact h.behind (j + 1) (by omega)
  · rintro ⟨⟨hnul, hbehind⟩, hsize, ⟨h0, h1⟩, h⟩
    refine ⟨fun hmem => ?_, fun _ => ?_, fun j hj => ?_, fun j hj => ?_⟩
    · rw [← List.take_append_drop 1024 l, List.mem_append] at hmem
      exact hmem.elim hnul h.nul
    · by_cases hrest : l.drop 1024 = []
      · exact hsize hrest
      · exact h.size hrest
    · obtain _ | _ | j := j
      · exact h0
      · exact h1
      · rw [← hheap]
        exact h.heap j (by omega)
    · cases j with
      | zero => exact hbehind (by omega)
      | succ j =>
        rw [← Nat.add_assoc, Nat.add_right_comm]
        exact h.behind j (by omega)

/-- A write of one piece. -/
theorem delivers_piece {m : List UInt8} (hpiece : bytesAt dst' n.toNat = l.take 1024) :
    Delivers m dst' n ↔ 0 ∉ l.take 1024 ∧ (1024 ≤ l.length → m.head? = some 0) := by
  have hlen := congrArg List.length hpiece
  rw [length_bytesAt, List.length_take] at hlen
  rw [delivers_iff, hpiece, hlen]
  refine and_congr_right fun _ => ⟨fun h hfull => ?_, fun h => ?_⟩
  · exact (h.resolve_left (by omega)).2
  · by_cases hfull : 1024 ≤ l.length
    · exact Or.inr ⟨by omega, h hfull⟩
    · exact Or.inl (by omega)

/-- The loop prints what is left of the file if and only if nothing is in its way; by induction
on how much that is. -/
theorem RegularFile.shows_iff (left : ℕ) : ∀ {s : State} {fd : File} (k : ℕ) (dst : Image),
    RegularFile s g fd a x → Mounted s → fd.fdPos.toNat + left = x.iSize.toNat →
    (Shows s g behind k dst ((s.contents x).drop fd.fdPos.toNat) ↔
      CanShow s x behind k ((s.contents x).drop fd.fdPos.toNat)) := by
  induction left using Nat.strong_induction_on with
  | _ left ih =>
    intro s fd k dst h hm hleft
    have hlen := length_contents s x
    by_cases hend : left = 0
    · have hnil : (s.contents x).drop fd.fdPos.toNat = [] := List.drop_eq_nil_of_le (by omega)
      rw [hnil]
      exact iff_of_true (h.shows_end (UInt32.toNat_inj.mp (by omega)) k dst) (canShow_nil s x _ k)
    have hlt : fd.fdPos.toNat < x.iSize.toNat := by omega
    have hne : (s.contents x).drop fd.fdPos.toNat ≠ [] := by
      rw [Ne, List.drop_eq_nil_iff]
      omega
    by_cases hheap : s.heap 0 = true ∧ s.heap 1 = true
    · by_cases hlast : fd.fdPos.toNat + min 1024 (x.iSize.toNat - fd.fdPos.toNat) < 139 * 512
      · obtain ⟨n, q, dst', hn, hq, hpiece, hrun⟩ := h.fileRead_piece hm hheap hlt hlast dst
        have hnext := ih (left - n.toNat) (by omega) (k + 1) dst'
          (h.moved s.popHeap.popHeap.heap q) ⟨hm.blockLen, hm.inodeLen, hm.free_le⟩
          (show q.toNat + _ = _ by omega)
        have hdrop : ((s.contents x).drop fd.fdPos.toNat).drop 1024 =
            (s.contents x).drop q.toNat := by
          rw [List.drop_drop]
          by_cases hfull : n.toNat = 1024
          · rw [hq, hfull]
          · rw [List.drop_eq_nil_of_le (by omega), List.drop_eq_nil_of_le (by omega)]
        have hrest : ((s.contents x).drop fd.fdPos.toNat).drop 1024 = [] →
            x.iSize.toNat < 139 * 512 := by
          rw [List.drop_drop, List.drop_eq_nil_iff]
          omega
        rw [shows_of_read hrun hpiece, delivers_piece hpiece,
          canShow_of_ne hne (t := s.popHeap.popHeap.setFile g { fd with fdPos := q }) fun _ => rfl,
          hdrop]
        rw [hdrop] at hrest
        constructor
        · rintro ⟨hdelivers, hshows⟩
          exact ⟨hdelivers, hrest, hheap, hnext.mp hshows⟩
        · rintro ⟨hdelivers, -, -, hcan⟩
          exact ⟨hdelivers, hnext.mpr hcan⟩
      · refine iff_of_false ?_ fun hcan => ?_
        · rintro ⟨fuel, prints, hrun, -⟩
          cases fuel with
          | zero => cases hrun
          | succ fuel =>
            rw [catLoop] at hrun
            obtain ⟨r, hread, -⟩ := of_bind_eq_ok hrun
            have hassert := ((h.fileRead_asserts hheap.1 hheap.2 dst 1024
              (readSize_more hlt)).of_ok hread).2
            have hsize := h.size_le
            have hcount : (readSize fd x 1024).toNat = _ :=
              toNat_readSize hlt.le (by rw [toNat_piece]; omega)
            rw [UInt32.toNat_add, hcount, toNat_piece] at hassert
            omega
        · have hsize := hcan.size hne
          omega
    · refine iff_of_false ?_ fun hcan => ?_
      · rintro ⟨fuel, prints, hrun, hflat, -⟩
        obtain ⟨t, hread⟩ := h.fileRead_none hlt hheap dst 1024
        cases fuel with
        | zero => cases hrun
        | succ fuel =>
          rw [catLoop, hread, ok_bind] at hrun
          obtain rfl := Except.ok.inj hrun
          exact hne hflat.symm
      · have hlength := List.length_pos_iff.mpr hne
        exact hheap ⟨hcan.heap 0 (by omega), hcan.heap 1 (by omega)⟩

/-- A write to the screen prints exactly its bytes and returns their number if and only if they
do not fill its buffer, or a NUL happens to follow the full buffer. A file is printed if and only
if it has no NUL, it ends below block 139, no buffer for reading it is missing and a NUL follows
the buffer at each of its full pieces. -/
theorem screen_shows_iff (h : RegularFile s g fd a x) (hm : Mounted s) (hpos : fd.fdPos = 0)
    (behind : ℕ → List UInt8) (dst : Image) :
    (∀ (m : List UInt8) (src : Image) (count : UInt32), 0 ∉ bytesAt src count.toNat →
      (writeConsole m src count = .ok (bytesAt src count.toNat, count) ↔
        count.toNat < 1024 ∨ count.toNat = 1024 ∧ m.head? = some 0)) ∧
      (Shows s g behind 0 dst (s.contents x) ↔ CanShow s x behind 0 (s.contents x)) := by
  constructor
  · intro m src count hnul
    exact delivers_iff.trans (and_iff_right hnul)
  · have hzero : fd.fdPos.toNat = 0 := by
      rw [hpos]
      rfl
    have hshows : Shows s g behind 0 dst _ ↔ _ := h.shows_iff x.iSize.toNat 0 dst hm (by omega)
    rwa [hzero, List.drop_zero] at hshows

/-- A file with the bytes `AA`. -/
def twoLetters : State := { twoBytes with disk := fun _ => 65 }.setFile 3 ⟨0, 1, some 0⟩

theorem twoLetters_regular : RegularFile twoLetters 3 ⟨0, 1, some 0⟩ 0 twoBytesInode where
  slot := rfl
  pointer := rfl
  inode := rfl
  size_le := twoBytes_regular.size_le
  empty := twoBytes_regular.empty
  blocks := by
    obtain ⟨f, own, hlayout, hown⟩ := twoBytes_regular.blocks
    exact ⟨f, own, hlayout.transfer rfl (fun _ => rfl) fun h => absurd h (by decide), hown⟩

theorem screen_shows_two : writeConsole [] (fun _ => 65) 2 = .ok ([65, 65], 2) ∧
    Shows twoLetters 3 (fun _ => []) 0 zeros (twoLetters.contents twoBytesInode) := by
  have hboth := screen_shows_iff twoLetters_regular
    ⟨twoBytes_mounted.blockLen, twoBytes_mounted.inodeLen, twoBytes_mounted.free_le⟩ rfl
    (fun _ => []) zeros
  have hcontents : twoLetters.contents twoBytesInode = [65, 65] := rfl
  constructor
  · exact (hboth.1 [] (fun _ => 65) 2 (by decide)).mpr (by decide)
  · refine hboth.2.mpr ?_
    rw [hcontents]
    exact ⟨by decide, fun _ => by decide, fun j _ => rfl, fun j hj => absurd hj (Nat.not_lt_zero j)⟩

/-- A full buffer with a `B` behind it prints 1025 bytes; one byte more is written outside. -/
theorem screen_shows_more : 0 ∉ bytesAt (fun _ => 65) 1024 ∧
    writeConsole [66, 0] (fun _ => 65) 1024 ≠ .ok (bytesAt (fun _ => 65) 1024, 1024) ∧
    writeConsole [66, 0] (fun _ => 65) 1025 = .error .overrun := by
  refine ⟨fun h => ?_, fun h => ?_, rfl⟩
  · obtain ⟨i, -, hi⟩ := List.mem_map.mp h
    exact absurd hi (by decide)
  · obtain ⟨-, hlt | ⟨-, hhead⟩⟩ := delivers_iff.mp h
    · exact absurd hlt (by decide)
    · exact absurd hhead (by decide)

end Cat

end X86System.FileSystem
