import X86System.Library.Bytes
import X86System.Library.Exec

/-!
# Strings in memory

A string lies at an address with a NUL behind it. A loop that walks over characters is a
scan, with the number of steps it may take.
-/
namespace X86System.CStrings
open Bytes Exec

variable {m m' : Image} {a b : ℕ} {c : UInt8} {l l' : List UInt8} {p : UInt8 → Bool}

/-- The string `l` at address `a`. -/
structure StringAt (m : Image) (a : ℕ) (l : List UInt8) : Prop where
  chars : ∀ i c, l[i]? = some c → m (a + i) = c
  noNul : 0 ∉ l
  nul : m (a + l.length) = 0

theorem stringAt_nil : StringAt m a [] ↔ m a = 0 :=
  ⟨fun h => h.nul, fun h => ⟨fun i c hc => by simp at hc, by simp, h⟩⟩

theorem stringAt_cons : StringAt m a (c :: l) ↔ m a = c ∧ c ≠ 0 ∧ StringAt m (a + 1) l := by
  constructor
  · intro h
    refine ⟨h.chars 0 c rfl, fun hc => h.noNul (hc ▸ List.mem_cons_self),
      ⟨fun i d hd => ?_, fun h0 => h.noNul (List.mem_cons_of_mem c h0), ?_⟩⟩
    · rw [Nat.add_assoc, Nat.add_comm 1]
      exact h.chars (i + 1) d hd
    · have hnul := h.nul
      rwa [List.length_cons, ← Nat.add_assoc, Nat.add_right_comm] at hnul
  · rintro ⟨hhead, hc, h⟩
    refine ⟨fun i d hd => ?_, fun h0 => ?_, ?_⟩
    · cases i with
      | zero => exact hhead.trans (Option.some.inj hd)
      | succ i =>
        rw [← Nat.add_assoc, Nat.add_right_comm]
        exact h.chars i d hd
    · rcases List.mem_cons.mp h0 with h0 | h0
      · exact hc h0.symm
      · exact h.noNul h0
    · rw [List.length_cons, ← Nat.add_assoc, Nat.add_right_comm]
      exact h.nul

/-- The first byte is a NUL if and only if the string is empty. -/
theorem StringAt.eq_nil_iff (h : StringAt m a l) : m a = 0 ↔ l = [] := by
  cases l with
  | nil => exact iff_of_true (stringAt_nil.mp h) rfl
  | cons c l =>
    obtain ⟨hhead, hc, -⟩ := stringAt_cons.mp h
    exact iff_of_false (hhead ▸ hc) (List.cons_ne_nil c l)

theorem StringAt.unique (h : StringAt m a l) (h' : StringAt m a l') : l = l' := by
  induction l generalizing a l' with
  | nil => exact (h'.eq_nil_iff.mp (stringAt_nil.mp h)).symm
  | cons c l ih =>
    obtain ⟨hhead, hc, hl⟩ := stringAt_cons.mp h
    cases l' with
    | nil => exact absurd (hhead.symm.trans (stringAt_nil.mp h')) hc
    | cons c' l' =>
      obtain ⟨hhead', -, hl'⟩ := stringAt_cons.mp h'
      rw [ih hl hl', ← hhead, ← hhead']

/-- A string depends on its own bytes only. -/
theorem StringAt.of_agree (h : StringAt m a l)
    (hsame : ∀ i, a ≤ i → i ≤ a + l.length → m' i = m i) : StringAt m' a l := by
  refine ⟨fun i c hc => ?_, h.noNul, ?_⟩
  · have hi := (List.getElem?_eq_some_iff.mp hc).1
    rw [hsame _ (by omega) (by omega), h.chars i c hc]
  · rw [hsame _ (by omega) le_rfl, h.nul]

/-- The end of a string is a string. -/
theorem StringAt.of_append (h : StringAt m a (l ++ l')) : StringAt m (a + l.length) l' := by
  induction l generalizing a with
  | nil => exact h
  | cons c l ih =>
    have hl := ih (stringAt_cons.mp h).2.2
    rwa [List.length_cons, ← Nat.add_assoc, Nat.add_right_comm]

/-- A NUL over a character ends the string there; the rest is a string behind it. -/
theorem StringAt.cut (h : StringAt m a (l ++ c :: l')) :
    StringAt (Function.update m (a + l.length) 0) a l ∧
      StringAt (Function.update m (a + l.length) 0) (a + l.length + 1) l' := by
  constructor
  · refine ⟨fun i d hd => ?_, fun h0 => h.noNul (List.mem_append_left _ h0),
      Function.update_self ..⟩
    have hi := (List.getElem?_eq_some_iff.mp hd).1
    rw [Function.update_of_ne (by omega), h.chars i d (by rw [List.getElem?_append_left hi, hd])]
  · refine (stringAt_cons.mp h.of_append).2.2.of_agree fun i hi _ => ?_
    exact Function.update_of_ne (by omega) _ _

section Scans

variable {ε : Type} {e : ε} {fuel : ℕ}

/-- Walk on while the character satisfies `p`. -/
def scan (e : ε) (p : UInt8 → Bool) : ℕ → Image → ℕ → Except ε ℕ
  | 0, _, _ => .error e
  | fuel + 1, m, a => if p (m a) then scan e p fuel m (a + 1) else .ok a

/-- A walk over characters that satisfy `p` ends at the first one that does not. -/
theorem scan_append (h : StringAt m a (l ++ l')) (hl : ∀ c ∈ l, p c = true)
    (hstop : p (m (a + l.length)) = false) (hfuel : l.length < fuel) :
    scan e p fuel m a = .ok (a + l.length) := by
  induction l generalizing a fuel with
  | nil =>
    obtain ⟨fuel, rfl⟩ := Nat.exists_eq_succ_of_ne_zero (Nat.ne_zero_of_lt hfuel)
    rw [List.length_nil, Nat.add_zero] at hstop
    rw [scan, hstop]
    rfl
  | cons c l ih =>
    obtain ⟨fuel, rfl⟩ := Nat.exists_eq_succ_of_ne_zero (Nat.ne_zero_of_lt hfuel)
    obtain ⟨hhead, -, htail⟩ := stringAt_cons.mp h
    have hlen : a + 1 + l.length = a + (c :: l).length := by
      rw [List.length_cons]
      omega
    rw [scan, hhead, if_pos (hl c List.mem_cons_self), ← hlen]
    exact ih htail (fun d hd => hl d (List.mem_cons_of_mem c hd)) (hlen ▸ hstop)
      (Nat.lt_of_succ_lt_succ hfuel)

/-- `strchr`. -/
def strchr (e : ε) (ch : UInt8) : ℕ → Image → ℕ → Except ε (Option ℕ)
  | 0, _, _ => .error e
  | fuel + 1, m, str =>
    if m str = 0 then .ok none
    else if m str = ch then .ok (some str)
    else strchr e ch fuel m (str + 1)

theorem strchr_none {ch : UInt8} (h : StringAt m a l) (hnot : ch ∉ l) (hfuel : l.length < fuel) :
    strchr e ch fuel m a = .ok none := by
  induction l generalizing a fuel with
  | nil =>
    obtain ⟨fuel, rfl⟩ := Nat.exists_eq_succ_of_ne_zero (Nat.ne_zero_of_lt hfuel)
    rw [strchr, if_pos (stringAt_nil.mp h)]
  | cons c l ih =>
    obtain ⟨fuel, rfl⟩ := Nat.exists_eq_succ_of_ne_zero (Nat.ne_zero_of_lt hfuel)
    obtain ⟨rfl, hc, hl⟩ := stringAt_cons.mp h
    have hne : m a ≠ ch := fun heq => hnot (heq ▸ List.mem_cons_self)
    rw [strchr, if_neg hc, if_neg hne]
    exact ih hl (fun hmem => hnot (List.mem_cons_of_mem _ hmem)) (Nat.lt_of_succ_lt_succ hfuel)

/-- `strchr` finds the first place of the character. -/
theorem strchr_some {ch : UInt8} (h : StringAt m a (l ++ ch :: l')) (hnot : ch ∉ l)
    (hfuel : l.length < fuel) : strchr e ch fuel m a = .ok (some (a + l.length)) := by
  induction l generalizing a fuel with
  | nil =>
    obtain ⟨fuel, rfl⟩ := Nat.exists_eq_succ_of_ne_zero (Nat.ne_zero_of_lt hfuel)
    obtain ⟨hhead, hc, -⟩ := stringAt_cons.mp h
    rw [strchr, if_neg (hhead ▸ hc), if_pos hhead]
    rfl
  | cons c l ih =>
    obtain ⟨fuel, rfl⟩ := Nat.exists_eq_succ_of_ne_zero (Nat.ne_zero_of_lt hfuel)
    obtain ⟨rfl, hc, hl⟩ := stringAt_cons.mp h
    have hne : m a ≠ ch := fun heq => hnot (heq ▸ List.mem_cons_self)
    rw [strchr, if_neg hc, if_neg hne,
      ih hl (fun hmem => hnot (List.mem_cons_of_mem _ hmem)) (Nat.lt_of_succ_lt_succ hfuel),
      List.length_cons, Nat.add_assoc, Nat.add_comm 1]

end Scans

end X86System.CStrings
