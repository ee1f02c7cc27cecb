import X86System.FileSystem
import X86System.Library.Logged

/-!
# Reading a line

`readline` stores each key at the cursor before it looks at it, and tests the bound
behind the store. A backspace stays in the buffer behind the cursor; at the start of the
line it is the first byte of the buffer, which is how it is told from others. Stores are
recorded with their place in the buffer. What is echoed to the screen is left out.
-/
namespace X86System.Shell
open Bytes Exec Logged

abbrev Editing : Type → Type := Logged ℕ Fault

variable {buf buf' : Image} {pos count : ℕ} {key : UInt8} {text keys : List UInt8}

section Source

/-- `'\n'`, `'\r'` and `'\b'`. -/
def lf : UInt8 := 0x0a
def cr : UInt8 := 0x0d
def bs : UInt8 := 0x08

/-- `'l' - 'a'` and `'u' - 'a'`, which the keyboard makes of these keys with ctrl. -/
def ctrlL : UInt8 := 0x6c - 0x61
def ctrlU : UInt8 := 0x75 - 0x61

def store (i : ℕ) (c : UInt8) (buf : Image) : Editing Image := do
  event i
  pure (Function.update buf i c)

/-- `while (buf != pos) *(pos--) = 0`. -/
def clearBack : ℕ → Image → Editing Image
  | 0, buf => pure buf
  | pos + 1, buf => do
    let buf ← store (pos + 1) 0 buf
    clearBack pos buf

/-- The loop of `readline`. After the last key it waits for another one; else it returns. -/
def readLoop (count : ℕ) : List UInt8 → Image → ℕ → Editing (Option Image)
  | [], _, _ => pure none
  | key :: keys, buf, pos => do
    let buf ← store pos key buf
    if pos < count then
      if key = lf ∨ key = cr then do
        let buf ← store pos 0 buf
        pure (some buf)
      else if key = bs then
        if buf 0 ≠ bs then do
          liftM (ensure Fault.overrun (0 < pos))
          readLoop count keys buf (pos - 1)
        else readLoop count keys buf pos
      else if key = ctrlL then do
        let buf ← store pos 0 buf
        readLoop count keys buf pos
      else if key = ctrlU then do
        let buf ← clearBack pos buf
        readLoop count keys buf 0
      else readLoop count keys buf (pos + 1)
    else pure (some buf)

/-- `readline` to a buffer of zeros. -/
def readline (count : ℕ) (keys : List UInt8) : Editing (Option Image) := do
  liftM (ensure Fault.assert (0 < count))
  readLoop count keys zeros 0

end Source

section Lines

def IsEnter (key : UInt8) : Prop := key = lf ∨ key = cr

instance (key : UInt8) : Decidable (IsEnter key) :=
  inferInstanceAs (Decidable (key = lf ∨ key = cr))

/-- What a key other than Enter does to a line. -/
def edit (text : List UInt8) (key : UInt8) : List UInt8 :=
  if key = bs then text.dropLast
  else if key = ctrlL then text
  else if key = ctrlU then []
  else text ++ [key]

/-- The string at the start of the buffer. -/
structure HoldsString (buf : Image) (text : List UInt8) : Prop where
  chars : ∀ i c, text[i]? = some c → buf i = c
  noNul : 0 ∉ text
  nul : buf text.length = 0

/-- The line of the keys before Enter is read, within a buffer of `count` bytes. -/
structure ReadsLine (count : ℕ) (text keys : List UInt8) (r : Editing (Option Image)) : Prop where
  runs : ∃ o, r.result = .ok o
  within : ∀ i ∈ r.log, i < count
  nul : ∀ buf, r.result = .ok (some buf) → ∃ i < count, buf i = 0
  enter : ∀ pre k suf, keys = pre ++ k :: suf → (∀ e ∈ pre, ¬ IsEnter e) → IsEnter k →
    (pre.foldl edit text).length < count →
    ∃ buf, r.result = .ok (some buf) ∧ HoldsString buf (pre.foldl edit text)

/-- No key comes when the line has `count` characters, up to Enter. -/
def LeavesRoom (count : ℕ) : List UInt8 → List UInt8 → Prop
  | _, [] => True
  | text, key :: keys => text.length < count ∧ (IsEnter key ∨ LeavesRoom count (edit text key) keys)

end Lines

section Invariant

/-- The line stands in the buffer before the cursor. -/
structure Edited (buf : Image) (pos : ℕ) (text : List UInt8) : Prop where
  length : text.length = pos
  chars : ∀ i c, text[i]? = some c → buf i = c
  plain : ∀ c ∈ text, c ≠ 0 ∧ ¬ IsEnter c ∧ c ≠ bs ∧ c ≠ ctrlL ∧ c ≠ ctrlU

theorem edited_nil (buf : Image) : Edited buf 0 [] := ⟨rfl, fun i c h => by simp at h, by simp⟩

/-- Stores at or behind the cursor leave the line. -/
theorem Edited.of_agree (h : Edited buf pos text) (hsame : ∀ i < pos, buf' i = buf i) :
    Edited buf' pos text := by
  refine ⟨h.length, fun i c hc => ?_, h.plain⟩
  have hi : i < pos := h.length ▸ (List.getElem?_eq_some_iff.mp hc).1
  rw [hsame i hi, h.chars i c hc]

theorem Edited.update (h : Edited buf pos text) (key : UInt8) :
    Edited (Function.update buf pos key) pos text :=
  h.of_agree fun _ hi => Function.update_of_ne hi.ne _ _

/-- Append a key. -/
theorem Edited.append (h : Edited buf pos text)
    (hkey : key ≠ 0 ∧ ¬ IsEnter key ∧ key ≠ bs ∧ key ≠ ctrlL ∧ key ≠ ctrlU) :
    Edited (Function.update buf pos key) (pos + 1) (text ++ [key]) := by
  have hsame := h.update key
  refine ⟨by rw [List.length_append, h.length, List.length_singleton], fun i c hc => ?_, ?_⟩
  · by_cases hi : i < text.length
    · rw [List.getElem?_append_left hi] at hc
      exact hsame.chars i c hc
    · rw [List.getElem?_append_right (Nat.le_of_not_lt hi)] at hc
      rw [List.getElem?_singleton] at hc
      split_ifs at hc with hzero
      obtain rfl := Option.some.inj hc
      obtain rfl : i = pos := by
        have hlen := h.length
        omega
      exact Function.update_self ..
  · intro c hc
    rcases List.mem_append.mp hc with hc | hc
    · exact h.plain c hc
    · exact List.mem_singleton.mp hc ▸ hkey

/-- Delete the last key. -/
theorem Edited.dropLast (h : Edited buf pos text) : Edited buf (pos - 1) text.dropLast := by
  refine ⟨by rw [List.length_dropLast, h.length], fun i c hc => h.chars i c ?_, fun c hc =>
    h.plain c (List.dropLast_subset _ hc)⟩
  rw [List.getElem?_dropLast] at hc
  split_ifs at hc with hi
  · exact hc

/-- A byte other than a backspace is the first one if and only if the line has one. -/
theorem Edited.first (h : Edited buf pos text) :
    Function.update buf pos bs 0 ≠ bs ↔ 0 < pos := by
  rcases Nat.eq_zero_or_pos pos with rfl | hpos
  · rw [Function.update_self]
    exact iff_of_false (fun hne => hne rfl) (Nat.lt_irrefl 0)
  · refine iff_of_true ?_ hpos
    obtain ⟨c, l, rfl⟩ := List.exists_cons_of_length_pos (h.length.symm ▸ hpos)
    rw [Function.update_of_ne hpos.ne, h.chars 0 c rfl]
    exact (h.plain c List.mem_cons_self).2.2.1

/-- Enter makes the line the string in the buffer. -/
theorem Edited.holds (h : Edited buf pos text) :
    HoldsString (Function.update buf pos 0) text := by
  refine ⟨(h.update 0).chars, fun hzero => (h.plain 0 hzero).1 rfl, ?_⟩
  rw [h.length, Function.update_self]

end Invariant

section Runs

variable {w : List ℕ}

theorem store_bind {α : Type} (f : Image → Editing α) : (store pos key buf >>= f) =
    ⟨(f (Function.update buf pos key)).result, pos :: (f (Function.update buf pos key)).log⟩ := rfl

theorem clearBack_spec (pos : ℕ) : ∀ buf : Image, ∃ buf', (clearBack pos buf).result = .ok buf' ∧
    ∀ i ∈ (clearBack pos buf).log, i ≤ pos := by
  induction pos with
  | zero => exact fun buf => ⟨buf, rfl, fun i hi => absurd hi List.not_mem_nil⟩
  | succ pos ih =>
    intro buf
    obtain ⟨buf', hres, hlog⟩ := ih (Function.update buf (pos + 1) 0)
    refine ⟨buf', hres, fun i hi => ?_⟩
    rcases List.mem_cons.mp hi with rfl | hi
    · exact le_rfl
    · exact (hlog i hi).trans (Nat.le_succ pos)

/-- After a key other than Enter the rest is read on the edited line. -/
theorem readsLine_cons (hkey : ¬ IsEnter key) (hw : ∀ i ∈ w, i < count)
    (r : Editing (Option Image)) : ReadsLine count text (key :: keys) ⟨r.result, w ++ r.log⟩ ↔
      ReadsLine count (edit text key) keys r := by
  constructor
  · intro h
    refine ⟨h.runs, fun i hi => h.within i (List.mem_append_right w hi), h.nul,
      fun pre k suf hkeys hpre hk hlen => ?_⟩
    exact h.enter (key :: pre) k suf (by rw [hkeys, List.cons_append])
      (List.forall_mem_cons.mpr ⟨hkey, hpre⟩) hk hlen
  · intro h
    refine ⟨h.runs, fun i hi => ?_, h.nul, fun pre k suf hkeys hpre hk hlen => ?_⟩
    · rcases List.mem_append.mp hi with hi | hi
      · exact hw i hi
      · exact h.within i hi
    · cases pre with
      | nil =>
        obtain rfl := (List.cons.inj hkeys).1
        exact absurd hk hkey
      | cons e pre =>
        rw [List.cons_append] at hkeys
        obtain ⟨rfl, htail⟩ := List.cons.inj hkeys
        exact h.enter pre k suf htail (fun e he => hpre e (List.mem_cons_of_mem _ he)) hk hlen

/-- Enter ends the line. -/
theorem readsLine_enter (h : Edited buf pos text) (hkey : IsEnter key) (hpos : pos < count) :
    ReadsLine count text (key :: keys)
      ⟨.ok (some (Function.update (Function.update buf pos key) pos 0)), [pos, pos]⟩ := by
  have hholds := (h.update key).holds
  refine ⟨⟨_, rfl⟩, fun i hi => ?_, fun buf hbuf => ?_, fun pre k suf hkeys hpre hk hlen => ?_⟩
  · obtain rfl : i = pos := by simpa using hi
    exact hpos
  · obtain rfl := Option.some.inj (Except.ok.inj hbuf)
    exact ⟨pos, hpos, Function.update_self ..⟩
  · cases pre with
    | nil => exact ⟨_, rfl, hholds⟩
    | cons e pre =>
      rw [List.cons_append] at hkeys
      obtain ⟨rfl, -⟩ := List.cons.inj hkeys
      exact absurd hkey (hpre key List.mem_cons_self)

theorem readLoop_iff (keys : List UInt8) : ∀ {buf : Image} {pos : ℕ} {text : List UInt8},
    Edited buf pos text → 0 ∉ keys →
    (ReadsLine count text keys (readLoop count keys buf pos) ↔ LeavesRoom count text keys) := by
  induction keys with
  | nil =>
    intro buf pos text _ _
    refine iff_of_true ⟨⟨none, rfl⟩, fun i hi => absurd hi List.not_mem_nil, fun buf hbuf => ?_,
      fun pre k suf hkeys => ?_⟩ trivial
    · cases hbuf
    · exact absurd hkeys (by simp)
  | cons key keys ih =>
    intro buf pos text h hzero
    have hrest : 0 ∉ keys := fun hmem => hzero (List.mem_cons_of_mem key hmem)
    have hne : key ≠ 0 := fun h0 => hzero (h0 ▸ List.mem_cons_self)
    unfold LeavesRoom
    rw [h.length]
    by_cases hpos : pos < count
    swap
    · refine iff_of_false (fun hreads => hpos (hreads.within pos ?_)) fun hroom => hpos hroom.1
      exact List.mem_cons_self
    by_cases hkey : IsEnter key
    · refine iff_of_true ?_ ⟨hpos, Or.inl hkey⟩
      have hrun : readLoop count (key :: keys) buf pos =
          ⟨.ok (some (Function.update (Function.update buf pos key) pos 0)), [pos, pos]⟩ := by
        unfold readLoop
        rw [store_bind, if_pos hpos, if_pos (show key = lf ∨ key = cr from hkey)]
        rfl
      rw [hrun]
      exact readsLine_enter h hkey hpos
    · rw [and_iff_right hpos, or_iff_right hkey]
      unfold readLoop
      rw [store_bind, if_pos hpos, if_neg (show ¬ (key = lf ∨ key = cr) from hkey)]
      have hstored := h.update key
      have hsingle : ∀ i ∈ [pos], i < count := by simpa using hpos
      by_cases hback : key = bs
      · subst hback
        have hedit : edit text bs = text.dropLast := if_pos rfl
        rw [if_pos rfl]
        by_cases hfirst : 0 < pos
        · rw [if_pos (h.first.mpr hfirst), ensure_of hfirst]
          refine (readsLine_cons hkey hsingle _).trans ?_
          rw [hedit]
          exact ih hstored.dropLast hrest
        · have hempty : text = [] := List.eq_nil_of_length_eq_zero (by have := h.length; omega)
          subst hempty
          rw [if_neg (mt h.first.mp hfirst)]
          refine (readsLine_cons hkey hsingle _).trans ?_
          rw [hedit]
          exact ih hstored hrest
      · rw [if_neg hback]
        by_cases hclear : key = ctrlL
        · have hedit : edit text key = text := by rw [edit, if_neg hback, if_pos hclear]
          have hstores : ∀ i ∈ [pos, pos], i < count := by simpa using hpos
          rw [if_pos hclear, store_bind]
          dsimp only
          refine (readsLine_cons hkey hstores _).trans ?_
          rw [hedit]
          exact ih (hstored.update 0) hrest
        · rw [if_neg hclear]
          by_cases hline : key = ctrlU
          · have hedit : edit text key = [] := by
              rw [edit, if_neg hback, if_neg hclear, if_pos hline]
            obtain ⟨buf', hres, hlog⟩ := clearBack_spec pos (Function.update buf pos key)
            have hstores : ∀ i ∈ pos :: (clearBack pos (Function.update buf pos key)).log,
                i < count := by
              intro i hi
              rcases List.mem_cons.mp hi with rfl | hi
              · exact hpos
              · exact (hlog i hi).trans_lt hpos
            rw [if_pos hline, result_bind, hres, ok_bind, log_bind hres]
            refine (readsLine_cons hkey hstores _).trans ?_
            rw [hedit]
            exact ih (edited_nil buf') hrest
          · have hedit : edit text key = text ++ [key] := by
              rw [edit, if_neg hback, if_neg hclear, if_neg hline]
            rw [if_neg hline]
            refine (readsLine_cons hkey hsingle _).trans ?_
            rw [hedit]
            exact ih (h.append ⟨hne, hkey, hback, hclear, hline⟩) hrest

end Runs

/-- `readline` reads every line in bounds and faithfully if and only if no key comes when the line
has `count` characters. -/
theorem readline_faithful (count : ℕ) (hcount : 0 < count) (keys : List UInt8) (hzero : 0 ∉ keys) :
    ReadsLine count [] keys (readline count keys) ↔ LeavesRoom count [] keys := by
  unfold readline
  rw [lift_bind (ensure_of hcount)]
  exact readLoop_iff keys (edited_nil zeros) hzero

/-- `ab`, a backspace, `c` and Enter in a buffer of three bytes. -/
theorem readline_faithful_sample : ReadsLine 3 [] [97, 98, bs, 99, cr] (readline 3 [97, 98, bs, 99, cr]) :=
  (readline_faithful 3 (by decide) [97, 98, bs, 99, cr] (by decide)).mpr (by
    refine ⟨by decide, Or.inr ⟨by decide, Or.inr ⟨by decide, Or.inr ⟨by decide, Or.inr ⟨by decide,
      Or.inl (by decide)⟩⟩⟩⟩⟩)

/-- 128 characters and Enter: one byte is stored behind the buffer. -/
theorem readline_overruns : ¬ ∀ (count : ℕ) (keys : List UInt8), 0 < count → 0 ∉ keys →
    ReadsLine count [] keys (readline count keys) := by
  intro hall
  have hreads := hall 128 (List.replicate 128 97 ++ [cr]) (by decide) (by decide)
  have hstored : 128 ∈ (readline 128 (List.replicate 128 97 ++ [cr])).log := by decide
  exact absurd (hreads.within 128 hstored) (Nat.lt_irrefl 128)

end X86System.Shell
