import X86System.FileSystem
import X86System.Library.Logged

/-!
# Printing a character

`put_char` works on the 16-bit cursor position of the display controller and on the text
buffer, which has two bytes for each of 25 times 80 places. Comparisons are signed. The
segment of the text buffer ends at `0x7fff`; a store behind it is a fault. Each store is
recorded with its offset in the buffer, also one that faults.
-/
namespace X86System.Console
open Bytes Exec Logged

/-- A store of `len` bytes from offset `off` of the text buffer on. -/
structure Store where
  off : ℕ
  len : ℕ
  deriving DecidableEq, Repr

abbrev Printing : Type → Type := Logged Store Fault

/-- The display: the cursor of the controller and the text buffer. -/
structure Display where
  cursor : UInt16
  text : Image

section Source

/-- A store through `gs`. -/
def storeGs (off len : ℕ) (src text : Image) : Printing Image := do
  event ⟨off, len⟩
  liftM (ensure Fault.page (off + len ≤ 0x8000))
  pure (overlay text off len src)

/-- `rep movsd` of `ecx` double words; the offsets are those of `esi` and `edi` in the buffer. -/
def repMovsd : ℕ → ℕ → ℕ → Image → Printing Image
  | 0, _, _, text => pure text
  | ecx + 1, esi, edi, text => do
    event ⟨edi, 4⟩
    repMovsd ecx (esi + 4) (edi + 4) (overlay text edi 4 (slice text esi))

/-- The bytes of the word `0x0720`: a blank in white on black. -/
def blankWord : Image := fun i => if i = 0 then 0x20 else 0x07

/-- `.cls`. -/
def clsLoop : ℕ → ℕ → Image → Printing Image
  | 0, _, text => pure text
  | ecx + 1, ebx, text => do
    let text ← storeGs ebx 2 blankWord text
    clsLoop ecx (ebx + 2) text

/-- `.roll_screen`. -/
def rollScreen (text : Image) : Printing Display := do
  let text ← repMovsd 960 160 0 text
  let text ← clsLoop 80 3840 text
  pure ⟨1920, text⟩

/-- `cmp bx, n` and `jl`. -/
def Below (bx : UInt16) (n : ℤ) : Prop := bx.toBitVec.toInt < n

instance (bx : UInt16) (n : ℤ) : Decidable (Below bx n) :=
  inferInstanceAs (Decidable (bx.toBitVec.toInt < n))

/-- `.is_line_feed` and `.is_carriage_return`. -/
def lineFeed (bx : UInt16) (text : Image) : Printing Display :=
  let dx := bx % 80
  let bx := bx - dx
  let bx := bx + 80
  if Below bx 2000 then pure ⟨bx, text⟩ else rollScreen text

/-- `.is_backspace`. -/
def backspace (bx : UInt16) (text : Image) : Printing Display := do
  let bx := bx - 1
  let bx := bx <<< 1
  let text ← storeGs bx.toNat 1 (fun _ => 0x20) text
  let bx := bx >>> 1
  pure ⟨bx, text⟩

/-- `.put_other`, which goes on with a line feed behind the last place. -/
def putOther (cl : UInt8) (bx : UInt16) (text : Image) : Printing Display := do
  let bx := bx <<< 1
  let text ← storeGs bx.toNat 1 (fun _ => cl) text
  let bx := bx + 1
  let text ← storeGs bx.toNat 1 (fun _ => 0x07) text
  let bx := bx >>> 1
  let bx := bx + 1
  if Below bx 2000 then pure ⟨bx, text⟩ else lineFeed bx text

/-- `put_char`. -/
def putChar (d : Display) (cl : UInt8) : Printing Display :=
  if cl = 0x0d ∨ cl = 0x0a then lineFeed d.cursor d.text
  else if cl = 0x08 then backspace d.cursor d.text
  else putOther cl d.cursor d.text

/-- One call of `put_char` after the other. -/
def putChars : Display → List UInt8 → Printing Display
  | d, [] => pure d
  | d, cl :: cls => do
    let d ← putChar d cl
    putChars d cls

end Source

section Screen

/-- The cursor after a byte other than a backspace at the start. -/
def cursorAfter (pos : ℕ) (cl : UInt8) : ℕ :=
  if cl = 0x0d ∨ cl = 0x0a then min (pos - pos % 80 + 80) 1920
  else if cl = 0x08 then pos - 1
  else if pos + 1 < 2000 then pos + 1 else 1920

/-- The bytes that a byte leaves where it is printed. -/
def written (pos : ℕ) (cl : UInt8) (text : Image) : Image :=
  if cl = 0x0d ∨ cl = 0x0a then text
  else if cl = 0x08 then overlay text (2 * (pos - 1)) 1 fun _ => 0x20
  else overlay (overlay text (2 * pos) 1 fun _ => cl) (2 * pos + 1) 1 fun _ => 0x07

/-- Whether a byte leads behind the last line. -/
def Scrolls (pos : ℕ) (cl : UInt8) : Prop :=
  cl ≠ 0x08 ∧ if cl = 0x0d ∨ cl = 0x0a then 1920 ≤ pos else pos = 1999

instance (pos : ℕ) (cl : UInt8) : Decidable (Scrolls pos cl) :=
  inferInstanceAs (Decidable (cl ≠ 0x08 ∧ if cl = 0x0d ∨ cl = 0x0a then 1920 ≤ pos else pos = 1999))

/-- The lines one up, and a blank last line. -/
def scrolled (text : Image) : Image :=
  fun i => if i < 3840 then text (i + 160) else if i < 4000 then blankWord (i % 2) else text i

/-- The text buffer after a byte. -/
def textAfter (pos : ℕ) (cl : UInt8) (text : Image) : Image :=
  if Scrolls pos cl then scrolled (written pos cl text) else written pos cl text

/-- All stores are in the text buffer. -/
def Within (e : Store) : Prop := e.off + e.len ≤ 4000

end Screen

section Rolling

variable {text : Image} {off len : ℕ} {src : Image}

/-- A call returns `a` and stays within the text buffer. -/
structure Prints {α : Type} (x : Printing α) (a : α) : Prop where
  result : x.result = .ok a
  within : Keeps Within x

theorem Prints.pure {α : Type} (a : α) : Prints (pure a : Printing α) a := ⟨rfl, Keeps.pure a⟩

theorem Prints.bind {α β : Type} {x : Printing α} {a : α} {f : α → Printing β} {b : β}
    (hx : Prints x a) (hf : Prints (f a) b) : Prints (x >>= f) b := by
  refine ⟨?_, hx.within.bind fun v hv => ?_⟩
  · rw [result_bind, hx.result, ok_bind, hf.result]
  · obtain rfl := Except.ok.inj (hx.result.symm.trans hv)
    exact hf.within

theorem storeGs_prints (h : off + len ≤ 4000) :
    Prints (storeGs off len src text) (overlay text off len src) := by
  have hlimit : off + len ≤ 0x8000 := h.trans (by norm_num)
  unfold storeGs
  rw [ensure_of hlimit]
  refine ⟨rfl, fun e he => ?_⟩
  obtain rfl : e = ⟨off, len⟩ := List.mem_singleton.mp he
  exact h

/-- The copy runs upwards and reads 160 bytes ahead, where nothing was stored yet. -/
theorem repMovsd_prints (n : ℕ) : ∀ (k : ℕ) (text : Image), k + 4 * n ≤ 4000 →
    Prints (repMovsd n (k + 160) k text)
      (fun i => if k ≤ i ∧ i < k + 4 * n then text (i + 160) else text i) := by
  induction n with
  | zero =>
    intro k text _
    have hsame : (fun i => if k ≤ i ∧ i < k + 4 * 0 then text (i + 160) else text i) = text :=
      funext fun i => if_neg (by omega)
    rw [hsame]
    exact Prints.pure text
  | succ n ih =>
    intro k text hk
    have hrest := ih (k + 4) (overlay text k 4 (slice text (k + 160))) (by omega)
    have hall : (fun i => if k + 4 ≤ i ∧ i < k + 4 + 4 * n then
        overlay text k 4 (slice text (k + 160)) (i + 160)
          else overlay text k 4 (slice text (k + 160)) i) =
        fun i => if k ≤ i ∧ i < k + 4 * (n + 1) then text (i + 160) else text i := by
      funext i
      by_cases hrow : k + 4 ≤ i ∧ i < k + 4 + 4 * n
      · rw [if_pos hrow, if_pos (by omega), overlay_outside (by omega)]
      · rw [if_neg hrow]
        by_cases hin : k ≤ i ∧ i < k + 4
        · rw [if_pos (by omega), overlay_inside hin.1 hin.2, slice_apply]
          exact congrArg text (by omega)
        · rw [if_neg (by omega), overlay_outside (by omega)]
    rw [hall] at hrest
    refine ⟨hrest.result, fun e he => ?_⟩
    rcases List.mem_cons.mp he with rfl | he
    · show k + 4 ≤ 4000
      omega
    · exact hrest.within e he

theorem clsLoop_prints (n : ℕ) : ∀ (k : ℕ) (text : Image), k + 2 * n ≤ 4000 →
    Prints (clsLoop n k text)
      (fun i => if k ≤ i ∧ i < k + 2 * n then blankWord ((i - k) % 2) else text i) := by
  induction n with
  | zero =>
    intro k text _
    have hsame : (fun i => if k ≤ i ∧ i < k + 2 * 0 then blankWord ((i - k) % 2) else text i) = text :=
      funext fun i => if_neg (by omega)
    rw [hsame]
    exact Prints.pure text
  | succ n ih =>
    intro k text hk
    have hrest := ih (k + 2) (overlay text k 2 blankWord) (by omega)
    have hall : (fun i => if k + 2 ≤ i ∧ i < k + 2 + 2 * n then blankWord ((i - (k + 2)) % 2)
        else overlay text k 2 blankWord i) =
        fun i => if k ≤ i ∧ i < k + 2 * (n + 1) then blankWord ((i - k) % 2) else text i := by
      funext i
      by_cases hin : k ≤ i ∧ i < k + 2
      · rw [if_neg (by omega), if_pos (by omega), overlay_inside hin.1 hin.2,
          Nat.mod_eq_of_lt (by omega)]
      · rw [overlay_outside (by omega)]
        by_cases hrow : k + 2 ≤ i ∧ i < k + 2 + 2 * n
        · rw [if_pos hrow, if_pos (by omega)]
          exact congrArg blankWord (by omega)
        · rw [if_neg hrow, if_neg (by omega)]
    rw [hall] at hrest
    exact (storeGs_prints (by omega)).bind hrest

theorem rollScreen_prints (text : Image) : Prints (rollScreen text) ⟨1920, scrolled text⟩ := by
  refine (repMovsd_prints 960 0 text (by norm_num)).bind
    ((clsLoop_prints 80 3840 _ (by norm_num)).bind ?_)
  have hall : (fun i => if 3840 ≤ i ∧ i < 3840 + 2 * 80 then blankWord ((i - 3840) % 2)
      else if 0 ≤ i ∧ i < 0 + 4 * 960 then text (i + 160) else text i) = scrolled text := by
    funext i
    unfold scrolled
    by_cases hup : i < 3840
    · rw [if_neg (by omega), if_pos (by omega), if_pos hup]
    · by_cases hlast : i < 4000
      · rw [if_pos (by omega), if_neg hup, if_pos hlast]
        exact congrArg blankWord (by omega)
      · rw [if_neg (by omega), if_neg (by omega), if_neg hup, if_neg hlast]
  rw [hall]
  exact Prints.pure _

end Rolling

section Steps

variable {d : Display} {cl : UInt8} {bx : UInt16} {text : Image}

theorem below_iff (bx : UInt16) (h : bx.toNat < 2 ^ 15) : Below bx 2000 ↔ bx.toNat < 2000 := by
  have hint : bx.toBitVec.toInt = bx.toNat := BitVec.toInt_eq_toNat_of_lt (by
    show 2 * bx.toNat < 2 ^ 16
    omega)
  unfold Below
  rw [hint]
  omega

theorem eq_ofNat {n : ℕ} (h : bx.toNat = n) : bx = UInt16.ofNat n := by
  rw [← h, UInt16.ofNat_toNat]

/-- A line feed goes to the start of the next line, and rolls the screen in the last one. -/
theorem lineFeed_prints (bx : UInt16) (text : Image) (h : bx.toNat ≤ 2000) : Prints (lineFeed bx text)
    (if bx.toNat < 1920 then ⟨UInt16.ofNat (bx.toNat - bx.toNat % 80 + 80), text⟩
      else ⟨1920, scrolled text⟩) := by
  have hstart : (bx - bx % 80 + 80).toNat = bx.toNat - bx.toNat % 80 + 80 := by
    have hmod : (bx % 80).toNat = bx.toNat % 80 := by rw [UInt16.toNat_mod]; rfl
    have hle : (bx % 80).toNat ≤ bx.toNat := hmod ▸ Nat.mod_le _ _
    rw [UInt16.toNat_add, UInt16.toNat_sub_of_le _ _ (UInt16.le_iff_toNat_le.mpr hle), hmod]
    show (bx.toNat - bx.toNat % 80 + 80) % 65536 = _
    omega
  have hbelow := below_iff (bx - bx % 80 + 80) (by omega)
  unfold lineFeed
  dsimp only
  by_cases hlast : bx.toNat < 1920
  · rw [if_pos (hbelow.mpr (by omega)), if_pos hlast, eq_ofNat hstart]
    exact Prints.pure _
  · rw [if_neg (fun hb => absurd (hbelow.mp hb) (by omega)), if_neg hlast]
    exact rollScreen_prints text

theorem toNat_shl (bx : UInt16) (h : bx.toNat < 2000) : (bx <<< 1).toNat = 2 * bx.toNat := by
  rw [UInt16.toNat_shiftLeft]
  show bx.toNat <<< 1 % 65536 = _
  rw [Nat.shiftLeft_eq]
  omega

/-- A backspace behind the first place blanks the place before. -/
theorem backspace_prints (h : bx.toNat < 2000) (hpos : 0 < bx.toNat) : Prints (backspace bx text)
    ⟨UInt16.ofNat (bx.toNat - 1), overlay text (2 * (bx.toNat - 1)) 1 fun _ => 0x20⟩ := by
  have hdec : (bx - 1).toNat = bx.toNat - 1 :=
    UInt16.toNat_sub_of_le _ _ (UInt16.le_iff_toNat_le.mpr hpos)
  have hshl := toNat_shl (bx - 1) (by omega)
  have hshr : ((bx - 1) <<< 1 >>> 1).toNat = bx.toNat - 1 := by
    rw [UInt16.toNat_shiftRight, hshl, hdec]
    show (2 * (bx.toNat - 1)) >>> 1 = _
    rw [Nat.shiftRight_eq_div_pow]
    omega
  unfold backspace
  dsimp only
  rw [hshl, hdec, eq_ofNat hshr]
  exact (storeGs_prints (by omega)).bind (Prints.pure _)

/-- Another character is stored with its attribute. -/
theorem putOther_prints (cl : UInt8) (text : Image) (h : bx.toNat < 2000) : Prints (putOther cl bx text)
    (if bx.toNat < 1999 then ⟨UInt16.ofNat (bx.toNat + 1), overlay (overlay text (2 * bx.toNat) 1
        fun _ => cl) (2 * bx.toNat + 1) 1 fun _ => 0x07⟩
      else ⟨1920, scrolled (overlay (overlay text (2 * bx.toNat) 1 fun _ => cl)
        (2 * bx.toNat + 1) 1 fun _ => 0x07)⟩) := by
  have hshl := toNat_shl bx h
  have hinc : (bx <<< 1 + 1).toNat = 2 * bx.toNat + 1 := by
    rw [UInt16.toNat_add, hshl]
    show (2 * bx.toNat + 1) % 65536 = _
    omega
  have hnext : ((bx <<< 1 + 1) >>> 1 + 1).toNat = bx.toNat + 1 := by
    rw [UInt16.toNat_add, UInt16.toNat_shiftRight, hinc]
    show ((2 * bx.toNat + 1) >>> 1 + 1) % 65536 = _
    rw [Nat.shiftRight_eq_div_pow]
    omega
  have hbelow := below_iff ((bx <<< 1 + 1) >>> 1 + 1) (by omega)
  unfold putOther
  dsimp only
  refine (storeGs_prints (by omega)).bind ((storeGs_prints (by omega)).bind ?_)
  rw [hshl, hinc]
  by_cases hlast : bx.toNat < 1999
  · rw [if_pos (hbelow.mpr (by omega)), if_pos hlast, eq_ofNat hnext]
    exact Prints.pure _
  · have hline := lineFeed_prints ((bx <<< 1 + 1) >>> 1 + 1)
      (overlay (overlay text (2 * bx.toNat) 1 fun _ => cl) (2 * bx.toNat + 1) 1 fun _ => 0x07)
      (by omega)
    rw [if_neg (by omega)] at hline
    rw [if_neg (fun hb => absurd (hbelow.mp hb) (by omega)), if_neg hlast]
    exact hline

theorem cursorAfter_lt {pos : ℕ} (h : pos < 2000) : cursorAfter pos cl < 2000 := by
  unfold cursorAfter
  split_ifs
  · exact (Nat.min_le_right _ _).trans_lt (by norm_num)
  all_goals omega

/-- What a byte does to the display, other than a backspace at the start. -/
theorem putChar_prints (h : d.cursor.toNat < 2000) (hclear : ¬ (cl = 0x08 ∧ d.cursor.toNat = 0)) :
    Prints (putChar d cl) ⟨UInt16.ofNat (cursorAfter d.cursor.toNat cl),
      textAfter d.cursor.toNat cl d.text⟩ := by
  unfold putChar cursorAfter textAfter Scrolls written
  by_cases hfeed : cl = 0x0d ∨ cl = 0x0a
  · have hback : cl ≠ 0x08 := by
      rcases hfeed with rfl | rfl <;> decide
    have hline := lineFeed_prints d.cursor d.text h.le
    simp only [if_pos hfeed]
    by_cases hlast : d.cursor.toNat < 1920
    · rw [if_pos hlast] at hline
      rw [if_neg (fun hs => absurd hs.2 (by omega)), Nat.min_eq_left (by omega)]
      exact hline
    · rw [if_neg hlast] at hline
      rw [if_pos ⟨hback, by omega⟩, Nat.min_eq_right (by omega)]
      exact hline
  · simp only [if_neg hfeed]
    by_cases hback : cl = 0x08
    · rw [if_pos hback, if_pos hback, if_pos hback, if_neg fun hs => hs.1 hback]
      exact backspace_prints h (Nat.pos_of_ne_zero fun h0 => hclear ⟨hback, h0⟩)
    · have hother := putOther_prints cl d.text h
      rw [if_neg hback, if_neg hback, if_neg hback]
      by_cases hlast : d.cursor.toNat < 1999
      · rw [if_pos hlast] at hother
        rw [if_pos (by omega), if_neg (fun hs => absurd hs.2 (by omega))]
        exact hother
      · rw [if_neg hlast] at hother
        rw [if_neg (by omega), if_pos ⟨hback, by omega⟩]
        exact hother

/-- A backspace at the start stores behind the segment of the text buffer. -/
theorem putChar_fault (h : d.cursor.toNat = 0) : (putChar d 0x08).result = .error .page ∧
    (putChar d 0x08).log = [⟨65534, 1⟩] := by
  have hzero : d.cursor = 0 := UInt16.toNat_inj.mp h
  unfold putChar backspace
  rw [hzero]
  exact ⟨rfl, rfl⟩

end Steps

section Runs

variable {d : Display} {cs : List UInt8} {pos : ℕ}

/-- Each call up to any point returns with the cursor on the screen, and all stores were in the
text buffer. -/
def StaysOnScreen (d : Display) (cs : List UInt8) : Prop :=
  ∀ pre, pre <+: cs → ∃ d', (putChars d pre).result = .ok d' ∧ d'.cursor.toNat < 2000 ∧
    ∀ e ∈ (putChars d pre).log, Within e

/-- No backspace is printed while the cursor is at the start. -/
def ClearOfStart : ℕ → List UInt8 → Prop
  | _, [] => True
  | pos, cl :: cls => ¬ (cl = 0x08 ∧ pos = 0) ∧ ClearOfStart (cursorAfter pos cl) cls

theorem toNat_cursor (cl : UInt8) (h : pos < 2000) :
    (UInt16.ofNat (cursorAfter pos cl)).toNat = cursorAfter pos cl :=
  UInt16.toNat_ofNat_of_lt ((cursorAfter_lt h).trans (by decide))

/-- The run is as long as it is clear of the start. -/
theorem staysOnScreen_iff (h : d.cursor.toNat < 2000) :
    StaysOnScreen d cs ↔ ClearOfStart d.cursor.toNat cs := by
  induction cs generalizing d with
  | nil =>
    refine iff_of_true (fun pre hpre => ?_) trivial
    obtain rfl := List.prefix_nil.mp hpre
    exact ⟨d, rfl, h, fun e he => absurd he List.not_mem_nil⟩
  | cons cl cls ih =>
    unfold ClearOfStart
    by_cases hback : cl = 0x08 ∧ d.cursor.toNat = 0
    · refine iff_of_false (fun hstays => ?_) fun hclear => hclear.1 hback
      obtain ⟨rfl, hstart⟩ := hback
      obtain ⟨d', hok, -⟩ := hstays [0x08] ⟨cls, rfl⟩
      unfold putChars at hok
      rw [result_bind, (putChar_fault hstart).1] at hok
      cases hok
    · have hstep := putChar_prints h hback
      have hrest := ih (d := ⟨UInt16.ofNat (cursorAfter d.cursor.toNat cl),
        textAfter d.cursor.toNat cl d.text⟩) (by rw [toNat_cursor _ h]; exact cursorAfter_lt h)
      rw [toNat_cursor _ h] at hrest
      rw [← hrest]
      have hrun : ∀ pre, putChars d (cl :: pre) = putChar d cl >>= fun d => putChars d pre :=
        fun _ => rfl
      refine ⟨fun hstays => ⟨hback, fun pre hpre => ?_⟩, fun hclear pre hpre => ?_⟩
      · obtain ⟨d', hok, hlt, hlog⟩ := hstays (cl :: pre) (List.cons_prefix_cons.mpr ⟨rfl, hpre⟩)
        rw [hrun, result_bind, hstep.result, ok_bind] at hok
        rw [hrun, log_bind hstep.result] at hlog
        exact ⟨d', hok, hlt, fun e he => hlog e (List.mem_append_right _ he)⟩
      · cases pre with
        | nil => exact ⟨d, rfl, h, fun e he => absurd he List.not_mem_nil⟩
        | cons b pre =>
          obtain ⟨rfl, hpre'⟩ := List.cons_prefix_cons.mp hpre
          obtain ⟨d', hok, hlt, hlog⟩ := hclear.2 pre hpre'
          rw [hrun, result_bind, hstep.result, ok_bind, log_bind hstep.result]
          refine ⟨d', hok, hlt, fun e he => ?_⟩
          rcases List.mem_append.mp he with he | he
          · exact hstep.within e he
          · exact hlog e he

/-- What a byte leaves that leads behind the last line. -/
theorem scrolled_spec (text : Image) : (∀ i < 3840, scrolled text i = text (i + 160)) ∧
    ∀ k < 80, scrolled text (3840 + 2 * k) = 0x20 ∧ scrolled text (3840 + 2 * k + 1) = 0x07 := by
  refine ⟨fun i hi => if_pos hi, fun k hk => ?_⟩
  unfold scrolled
  rw [if_neg (by omega), if_pos (by omega), if_neg (by omega), if_pos (by omega)]
  refine ⟨?_, ?_⟩
  · rw [show (3840 + 2 * k) % 2 = 0 by omega]
    rfl
  · rw [show (3840 + 2 * k + 1) % 2 = 1 by omega]
    rfl

/-- Characters lead to the last place one by one. -/
theorem iterate_char {cl : UInt8} (hcl : cl ≠ 0x0d ∧ cl ≠ 0x0a ∧ cl ≠ 0x08) (n : ℕ) :
    pos + n < 2000 → (cursorAfter · cl)^[n] pos = pos + n := by
  induction n with
  | zero => exact fun _ => rfl
  | succ n ih =>
    intro hlt
    rw [Function.iterate_succ_apply', ih (by omega), cursorAfter,
      if_neg (not_or.mpr ⟨hcl.1, hcl.2.1⟩), if_neg hcl.2.2, if_pos (by omega), Nat.add_assoc]

/-- Line feeds lead to the last line one by one. -/
theorem iterate_feed {cl : UInt8} (hfeed : cl = 0x0d ∨ cl = 0x0a) (n : ℕ) :
    pos / 80 + n < 25 → 1 ≤ n → (cursorAfter · cl)^[n] pos = (pos / 80 + n) * 80 := by
  induction n with
  | zero => exact fun _ h => absurd h (by norm_num)
  | succ n ih =>
    intro hlt _
    rw [Function.iterate_succ_apply', cursorAfter, if_pos hfeed]
    rcases Nat.eq_zero_or_pos n with rfl | hn
    · rw [Function.iterate_zero_apply]
      omega
    · rw [ih (by omega) hn]
      omega

/-- The cursor after a byte other than a backspace was printed `n` times. -/
theorem putChars_replicate {cl : UInt8} (hcl : cl ≠ 0x08) (n : ℕ) : ∀ {d : Display},
    d.cursor.toNat < 2000 → ∃ d', (putChars d (List.replicate n cl)).result = .ok d' ∧
      d'.cursor.toNat = (cursorAfter · cl)^[n] d.cursor.toNat := by
  induction n with
  | zero => exact fun _ => ⟨_, rfl, rfl⟩
  | succ n ih =>
    intro d h
    have hstep := putChar_prints h fun hback => hcl hback.1
    have hcursor := toNat_cursor cl h
    obtain ⟨d', hok, hcount⟩ := ih (d := ⟨UInt16.ofNat (cursorAfter d.cursor.toNat cl),
      textAfter d.cursor.toNat cl d.text⟩) (hcursor.trans_lt (cursorAfter_lt h))
    rw [hcursor] at hcount
    refine ⟨d', ?_, hcount⟩
    show ((putChar d cl).result >>= fun d => (putChars d (List.replicate n cl)).result) = _
    rw [hstep.result, ok_bind, hok]

/-- A byte other than a backspace scrolls when it is printed often enough. -/
theorem scrolls_soon (h : pos < 2000) {cl : UInt8} (hcl : cl ≠ 0x08) :
    ∃ n, Scrolls ((cursorAfter · cl)^[n] pos) cl := by
  by_cases hfeed : cl = 0x0d ∨ cl = 0x0a
  · by_cases hlast : 1920 ≤ pos
    · refine ⟨0, hcl, ?_⟩
      rw [if_pos hfeed]
      exact hlast
    · refine ⟨24 - pos / 80, hcl, ?_⟩
      rw [if_pos hfeed, iterate_feed hfeed _ (by omega) (by omega)]
      omega
  · obtain ⟨hcr, hlf⟩ := not_or.mp hfeed
    refine ⟨1999 - pos, hcl, ?_⟩
    rw [if_neg hfeed, iterate_char ⟨hcr, hlf, hcl⟩ _ (by omega)]
    omega

theorem cursorAfter_scrolls {cl : UInt8} (h : pos < 2000) (hscroll : Scrolls pos cl) :
    cursorAfter pos cl = 1920 := by
  obtain ⟨hback, hline⟩ := hscroll
  unfold cursorAfter
  split_ifs at hline ⊢ with hfeed
  all_goals omega

end Runs

/-- From a cursor on the screen, printing stays on it if and only if no backspace is printed at the
start. A byte that leads behind the last line moves the lines up by one and blanks the last, and
every byte but the backspace does so when it is printed often enough. -/
theorem put_char_stays (d : Display) (h : d.cursor.toNat < 2000) (cs : List UInt8) :
    (StaysOnScreen d cs ↔ ClearOfStart d.cursor.toNat cs) ∧
    (∀ cl, Scrolls d.cursor.toNat cl → ∃ d', (putChar d cl).result = .ok d' ∧ d'.cursor = 1920 ∧
      (∀ i < 3840, d'.text i = written d.cursor.toNat cl d.text (i + 160)) ∧
      ∀ k < 80, d'.text (3840 + 2 * k) = 0x20 ∧ d'.text (3840 + 2 * k + 1) = 0x07) ∧
    ∀ cl, cl ≠ 0x08 → ∃ n d', (putChars d (List.replicate n cl)).result = .ok d' ∧
      Scrolls d'.cursor.toNat cl := by
  refine ⟨staysOnScreen_iff h, fun cl hscroll => ?_, fun cl hcl => ?_⟩
  swap
  · obtain ⟨n, hn⟩ := scrolls_soon h hcl
    obtain ⟨d', hok, hcount⟩ := putChars_replicate hcl n h
    exact ⟨n, d', hok, hcount ▸ hn⟩
  have hstep := putChar_prints h fun hback : cl = 0x08 ∧ d.cursor.toNat = 0 => hscroll.1 hback.1
  rw [cursorAfter_scrolls h hscroll, textAfter, if_pos hscroll] at hstep
  exact ⟨_, hstep.result, rfl, (scrolled_spec _).1, (scrolled_spec _).2⟩

/-- `a` on the last place. -/
theorem put_char_stays_sample : ∃ d', (putChar ⟨1999, zeros⟩ 97).result = .ok d' ∧
    d'.cursor = 1920 ∧ d'.text 3838 = 97 := by
  obtain ⟨d', hok, hcursor, hmoved, -⟩ := (put_char_stays ⟨1999, zeros⟩ (by decide) []).2.1 97
    (by decide)
  exact ⟨d', hok, hcursor, (hmoved 3838 (by norm_num)).trans (by decide)⟩

/-- One backspace on an empty screen. -/
theorem put_char_leaves : ¬ ∀ d : Display, d.cursor.toNat < 2000 → ∀ cs, StaysOnScreen d cs := by
  intro hall
  obtain ⟨d', hok, -⟩ := hall ⟨0, zeros⟩ (by decide) [0x08] [0x08] (List.prefix_refl _)
  unfold putChars at hok
  rw [result_bind, (putChar_fault rfl).1] at hok
  cases hok

end X86System.Console
