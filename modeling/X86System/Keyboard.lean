import X86System.Library.Transition
import Mathlib.Data.UInt
import Mathlib.Tactic.Common

/-!
# The keyboard

The handler gets one byte an interrupt. A make code says that a key went down or is
still down, the break code says that it went up and is the make code with bit 7 set;
`0xe0` in front of a code says that it belongs to the second block of keys. The handler
keeps one flag for each kind of modifier, though there are two keys of each kind.
-/
namespace X86System.Keyboard
open Transition

/-- The static variables of the handler, which only ever hold zero or one. -/
structure Status where
  ctrlStatus : Bool := false
  shiftStatus : Bool := false
  altStatus : Bool := false
  capsLockStatus : Bool := false
  extScancode : Bool := false
  deriving DecidableEq, Repr

/-- What an interrupt does apart from the status. -/
inductive Output
  | nothing
  /-- A character for `kbd_buf`, which `Thread.IoqAction.key` puts there. -/
  | key (curChar : UInt8)
  | putStr (text : String)
  deriving DecidableEq, Repr

def shiftLMake : UInt16 := 0x2a
def shiftRMake : UInt16 := 0x36
def altLMake : UInt16 := 0x38
def altRMake : UInt16 := 0xe038
def ctrlLMake : UInt16 := 0x1d
def ctrlRMake : UInt16 := 0xe01d
def capsLockMake : UInt16 := 0x3a

/-- `keymap`, without and with shift. -/
def keymap : List (Char × Char) :=
  [('\x00', '\x00'), ('\x1b', '\x1b'), ('1', '!'), ('2', '@'), ('3', '#'), ('4', '$'),
   ('5', '%'), ('6', '^'), ('7', '&'), ('8', '*'), ('9', '\x28'), ('0', '\x29'), ('-', '_'),
   ('=', '+'), ('\x08', '\x08'), ('\t', '\t'),
   ('q', 'Q'), ('w', 'W'), ('e', 'E'), ('r', 'R'), ('t', 'T'), ('y', 'Y'), ('u', 'U'),
   ('i', 'I'), ('o', 'O'), ('p', 'P'), ('\x5b', '\x7b'), ('\x5d', '\x7d'), ('\r', '\r'),
   ('\x00', '\x00'), ('a', 'A'), ('s', 'S'), ('d', 'D'), ('f', 'F'), ('g', 'G'), ('h', 'H'),
   ('j', 'J'), ('k', 'K'), ('l', 'L'), (';', ':'), ('\x27', '\x22'), ('\x60', '~'),
   ('\x00', '\x00'), ('\x5c', '|'), ('z', 'Z'), ('x', 'X'), ('c', 'C'), ('v', 'V'), ('b', 'B'),
   ('n', 'N'), ('m', 'M'), (',', '<'), ('.', '>'), ('/', '?'), ('\x00', '\x00'), ('*', '*'),
   ('\x00', '\x00'), (' ', ' '), ('\x00', '\x00')]

/-- `keymap[index][shift]`. -/
def keymapChar (index : UInt16) (shift : Bool) : UInt8 :=
  let entry := keymap.getD index.toNat ('\x00', '\x00')
  if shift then entry.2.toUInt8 else entry.1.toUInt8

/-- The keys of `keymap` whose second character does not depend on Caps Lock. -/
def isSymbol (scancode : UInt16) : Bool :=
  scancode < 0x0e || scancode == 0x29 || scancode == 0x1a || scancode == 0x1b ||
  scancode == 0x2b || scancode == 0x27 || scancode == 0x28 || scancode == 0x33 ||
  scancode == 0x34 || scancode == 0x35

/-- The scan code of a byte: behind `0xe0` it is merged with it. -/
def merge (extScancode : Bool) (byte : UInt8) : UInt16 :=
  if extScancode then 0xe000 ||| byte.toUInt16 else byte.toUInt16

/-- `intr_keyboard_handler`, where `byte` is what the port delivers. -/
def intrKeyboardHandler (s : Status) (byte : UInt8) : Status × Output :=
  let ctrlDownLast := s.ctrlStatus
  let shiftDownLast := s.shiftStatus
  let capsLockLast := s.capsLockStatus
  if byte.toUInt16 = 0xe0 then ({ s with extScancode := true }, .nothing)
  else
    let scancode := merge s.extScancode byte
    let s := { s with extScancode := false }
    if scancode &&& 0x0080 ≠ 0 then
      let makeCode := scancode &&& 0xff7f
      if makeCode = ctrlLMake ∨ makeCode = ctrlRMake then
        ({ s with ctrlStatus := false }, .nothing)
      else if makeCode = shiftLMake ∨ makeCode = shiftRMake then
        ({ s with shiftStatus := false }, .nothing)
      else if makeCode = altLMake ∨ makeCode = altRMake then
        ({ s with altStatus := false }, .nothing)
      else (s, .nothing)
    else if (scancode > 0x00 ∧ scancode < 0x3b) ∨ scancode = altRMake ∨ scancode = ctrlRMake then
      let shift := if isSymbol scancode then shiftDownLast else shiftDownLast ^^ capsLockLast
      let scancode := scancode &&& 0x00ff
      let curChar := keymapChar scancode shift
      if curChar ≠ 0 then
        if ctrlDownLast ∧ (curChar = 'l'.toUInt8 ∨ curChar = 'u'.toUInt8) then
          (s, .key (curChar - 'a'.toUInt8))
        else (s, .key curChar)
      -- the prefix is gone from the code, so only the left keys' codes can be met here
      else if scancode = ctrlLMake ∨ scancode = ctrlRMake then
        ({ s with ctrlStatus := true }, .nothing)
      else if scancode = shiftLMake ∨ scancode = shiftRMake then
        ({ s with shiftStatus := true }, .nothing)
      else if scancode = altLMake ∨ scancode = altRMake then
        ({ s with altStatus := true }, .nothing)
      else if scancode = capsLockMake then
        ({ s with capsLockStatus := !s.capsLockStatus }, .nothing)
      else (s, .nothing)
    else (s, .putStr "unknown key\n")

/-- The status behind the interrupts for some bytes. -/
def feed (s : Status) (bytes : List UInt8) : Status :=
  bytes.foldl (fun s byte => (intrKeyboardHandler s byte).1) s

@[simp] theorem feed_cons (s : Status) (byte : UInt8) (bytes : List UInt8) :
    feed s (byte :: bytes) = feed (intrKeyboardHandler s byte).1 bytes := rfl

@[simp] theorem feed_nil (s : Status) : feed s [] = s := rfl

section Keys

/-- A key by its make code. No key has `0x60`, whose break code would be `0xe0`. -/
structure Key where
  ext : Bool
  code : Fin 0x80
  inside : code ≠ 0x60
  deriving DecidableEq

inductive Kind
  | ctrl
  | shift
  | alt
  deriving DecidableEq, Repr

def Key.front (k : Key) : List UInt8 := if k.ext then [0xe0] else []

def Key.makeByte (k : Key) : UInt8 := UInt8.ofNat k.code.val

def Key.breakByte (k : Key) : UInt8 := k.makeByte ||| 0x80

def Key.makeCode (k : Key) : List UInt8 := k.front ++ [k.makeByte]

def Key.breakCode (k : Key) : List UInt8 := k.front ++ [k.breakByte]

/-- The make code in one number, as the handler puts it together. -/
def Key.scancode (k : Key) : UInt16 := merge k.ext k.makeByte

def Key.kind (k : Key) : Option Kind :=
  if k.scancode = ctrlLMake ∨ k.scancode = ctrlRMake then some .ctrl
  else if k.scancode = shiftLMake ∨ k.scancode = shiftRMake then some .shift
  else if k.scancode = altLMake ∨ k.scancode = altRMake then some .alt
  else none

def Key.isCapsLock (k : Key) : Prop := k.scancode = capsLockMake

instance (k : Key) : Decidable k.isCapsLock := inferInstanceAs (Decidable (_ = _))

def ctrlL : Key := ⟨false, 0x1d, by decide⟩
def ctrlR : Key := ⟨true, 0x1d, by decide⟩
def shiftL : Key := ⟨false, 0x2a, by decide⟩
def shiftR : Key := ⟨false, 0x36, by decide⟩

end Keys

section Codes

/-- What the handler finds in the bits of the bytes of a key. -/
theorem byte_bits : ∀ (ext : Bool) (code : Fin 0x80),
    let make := UInt8.ofNat code.val
    make.toUInt16 ≠ 0xe0 ∧ (code ≠ 0x60 → (make ||| 0x80).toUInt16 ≠ 0xe0) ∧
      merge ext make &&& 0x0080 = 0 ∧ merge ext (make ||| 0x80) &&& 0x0080 ≠ 0 ∧
      merge ext (make ||| 0x80) &&& 0xff7f = merge ext make := by
  decide

theorem plain_bits : ∀ code : Fin 0x80,
    let scancode := merge false (UInt8.ofNat code.val)
    scancode &&& 0x00ff = scancode ∧ scancode ≠ ctrlRMake ∧ scancode ≠ altRMake := by
  decide

theorem ext_bits : ∀ code : Fin 0x80,
    let scancode := merge true (UInt8.ofNat code.val)
    ¬ scancode < 0x3b ∧ scancode ≠ ctrlLMake ∧ scancode ≠ shiftLMake ∧
      scancode ≠ shiftRMake ∧ scancode ≠ altLMake ∧ scancode ≠ capsLockMake := by
  decide

/-- The keys of the table that have no character. -/
theorem keymapChar_eq_zero : ∀ (code : Fin 0x80) (shift : Bool),
    let scancode := merge false (UInt8.ofNat code.val)
    scancode > 0x00 → scancode < 0x3b →
      (keymapChar scancode shift = 0 ↔ scancode = ctrlLMake ∨ scancode = shiftLMake ∨
        scancode = shiftRMake ∨ scancode = altLMake ∨ scancode = capsLockMake) := by
  decide

/-- The flag of one kind. -/
def Status.flag (s : Status) : Kind → Bool
  | .ctrl => s.ctrlStatus
  | .shift => s.shiftStatus
  | .alt => s.altStatus

/-- The status with the flag of a key's kind set to `b`. -/
def Status.setFlag (s : Status) (b : Bool) : Option Kind → Status
  | some .ctrl => { s with ctrlStatus := b }
  | some .shift => { s with shiftStatus := b }
  | some .alt => { s with altStatus := b }
  | none => s

theorem Status.flag_setFlag (s : Status) (b : Bool) (kind : Option Kind) (other : Kind) :
    (s.setFlag b kind).flag other = if kind = some other then b else s.flag other := by
  rcases kind with - | (- | - | -) <;> cases other <;> rfl

@[simp] theorem Status.setFlag_caps (s : Status) (b : Bool) (kind : Option Kind) :
    (s.setFlag b kind).capsLockStatus = s.capsLockStatus := by
  rcases kind with - | (- | - | -) <;> rfl

@[simp] theorem Status.setFlag_ext (s : Status) (b : Bool) (kind : Option Kind) :
    (s.setFlag b kind).extScancode = s.extScancode := by
  rcases kind with - | (- | - | -) <;> rfl

/-- What a make code does to the status. -/
def Status.press (s : Status) (k : Key) : Status :=
  if k.isCapsLock then { s with capsLockStatus := !s.capsLockStatus }
  else s.setFlag true k.kind

theorem handler_prefix (s : Status) :
    (intrKeyboardHandler s 0xe0).1 = { s with extScancode := true } := by
  rfl

theorem handler_break (s : Status) (k : Key) (hs : s.extScancode = k.ext) :
    (intrKeyboardHandler s k.breakByte).1 =
      { s with extScancode := false }.setFlag false k.kind := by
  obtain ⟨-, hne, -, hbreak, hmake⟩ := byte_bits k.ext k.code
  have hne : k.breakByte.toUInt16 ≠ 0xe0 := hne k.inside
  have hbreak : merge k.ext k.breakByte &&& 0x0080 ≠ 0 := hbreak
  have hmake : merge k.ext k.breakByte &&& 0xff7f = k.scancode := hmake
  unfold intrKeyboardHandler Key.kind
  simp only [hs, hne, hbreak, hmake, if_false, if_true, not_false_iff, ne_eq]
  split_ifs <;> rfl

/-- The flag a key without a character sets, or its turn of Caps Lock. -/
theorem handler_make (s : Status) (k : Key) (hs : s.extScancode = k.ext) :
    (intrKeyboardHandler s k.makeByte).1 = { s with extScancode := false }.press k := by
  obtain ⟨hne, -, hmake, -, -⟩ := byte_bits k.ext k.code
  have hne : k.makeByte.toUInt16 ≠ 0xe0 := hne
  have hmake : k.scancode &&& 0x0080 = 0 := hmake
  have hmerge : merge s.extScancode k.makeByte = k.scancode := by rw [hs]; rfl
  have hcaps : capsLockMake ≠ ctrlLMake ∧ capsLockMake ≠ shiftLMake ∧
    capsLockMake ≠ shiftRMake ∧ capsLockMake ≠ altLMake := by decide
  unfold intrKeyboardHandler Status.press Key.isCapsLock Key.kind
  simp only [hne, hmerge, hmake, if_false, ne_eq, not_true_eq_false]
  cases hext : k.ext with
  | false =>
    have hcode : k.scancode = merge false (UInt8.ofNat k.code.val) := by
      unfold Key.scancode
      rw [hext]
      rfl
    obtain ⟨hlow, hctrl, halt⟩ := plain_bits k.code
    have hchar := keymapChar_eq_zero k.code
    rw [← hcode] at hlow hctrl halt hchar
    simp only [hlow, hctrl, halt, or_false]
    generalize k.scancode = scancode at hchar
    by_cases hin : scancode > 0x00 ∧ scancode < 0x3b
    · have hchar := fun shift => hchar shift hin.1 hin.2
      rw [if_pos hin]
      generalize (if isSymbol scancode = true then s.shiftStatus
        else s.shiftStatus ^^ s.capsLockStatus) = shift
      have hchar := hchar shift
      by_cases hzero : keymapChar scancode shift = 0
      · rw [if_neg (not_not_intro hzero)]
        by_cases hcaps : scancode = capsLockMake
        · subst hcaps
          rfl
        · rw [if_neg hcaps, if_neg hcaps]
          split_ifs <;> rfl
      · have hnone := mt hchar.mpr hzero
        simp only [not_or] at hnone
        rw [if_pos hzero]
        simp only [hnone, or_self, if_false]
        split_ifs <;> rfl
    · have hnone : ∀ code : UInt16, code > 0x00 → code < 0x3b → scancode ≠ code := by
        rintro code hpos hlt rfl
        exact hin ⟨hpos, hlt⟩
      simp only [if_neg hin, hnone ctrlLMake (by decide) (by decide),
        hnone shiftLMake (by decide) (by decide), hnone shiftRMake (by decide) (by decide),
        hnone altLMake (by decide) (by decide), hnone capsLockMake (by decide) (by decide),
        or_self, if_false]
      rfl
  | true =>
    have hcode : k.scancode = merge true (UInt8.ofNat k.code.val) := by
      unfold Key.scancode
      rw [hext]
      rfl
    obtain ⟨hrange, hctrl, hshiftL, hshiftR, halt, hcaps⟩ := ext_bits k.code
    rw [← hcode] at hrange hctrl hshiftL hshiftR halt hcaps
    simp only [hrange, hctrl, hshiftL, hshiftR, halt, hcaps, and_false, false_or, if_false,
      or_self]
    by_cases hR : k.scancode = ctrlRMake
    · rw [hR]
      obtain ⟨ctrl, shift, alt, caps, ext⟩ := s
      cases shift <;> cases caps <;> rfl
    · by_cases hA : k.scancode = altRMake
      · rw [hA]
        obtain ⟨ctrl, shift, alt, caps, ext⟩ := s
        cases shift <;> cases caps <;> rfl
      · simp only [hR, hA, or_self, if_false]
        rfl

theorem feed_makeCode (s : Status) (k : Key) (hs : s.extScancode = false) :
    feed s k.makeCode = s.press k := by
  obtain ⟨ctrl, shift, alt, caps, ext⟩ := s
  obtain rfl : ext = false := hs
  unfold Key.makeCode Key.front
  cases hext : k.ext with
  | false => exact handler_make _ k hext.symm
  | true => exact handler_make _ k hext.symm

theorem feed_breakCode (s : Status) (k : Key) (hs : s.extScancode = false) :
    feed s k.breakCode = s.setFlag false k.kind := by
  obtain ⟨ctrl, shift, alt, caps, ext⟩ := s
  obtain rfl : ext = false := hs
  unfold Key.breakCode Key.front
  cases hext : k.ext with
  | false => exact handler_break _ k hext.symm
  | true => exact handler_break _ k hext.symm

@[simp] theorem Status.press_ext (s : Status) (k : Key) :
    (s.press k).extScancode = s.extScancode := by
  unfold Status.press
  split_ifs
  · rfl
  · rw [setFlag_ext]

theorem Key.kind_of_isCapsLock {k : Key} (h : k.isCapsLock) : k.kind = none := by
  unfold Key.kind
  rw [show k.scancode = capsLockMake from h]
  rfl

theorem Status.flag_press (s : Status) (k : Key) (kind : Kind) :
    (s.press k).flag kind = if k.kind = some kind then true else s.flag kind := by
  unfold Status.press
  split_ifs with hcaps hkind hkind
  · rw [Key.kind_of_isCapsLock hcaps] at hkind
    cases hkind
  · cases kind <;> rfl
  · rw [flag_setFlag, if_pos hkind]
  · rw [flag_setFlag, if_neg hkind]

theorem Status.caps_press (s : Status) (k : Key) :
    (s.press k).capsLockStatus = (s.capsLockStatus ^^ decide k.isCapsLock) := by
  unfold Status.press
  split_ifs with hcaps
  · simp [hcaps]
  · simp [hcaps]

end Codes

/-- The keys that are down, the presses of Caps Lock, and what the handler made of them. -/
structure Desk where
  status : Status := {}
  held : Key → Bool := fun _ => false
  capsLockPresses : ℕ := 0

inductive Event
  | press (k : Key)
  /-- The keyboard repeats the make code of a key that stays down. -/
  | typematic (k : Key)
  | release (k : Key)
  /-- Pause has a code of six bytes and no break code; with Ctrl it is another key. -/
  | pause
  deriving DecidableEq

def Desk.kindHeld (d : Desk) (kind : Kind) : Prop := ∃ k : Key, k.kind = some kind ∧ d.held k = true

/-- The bytes that reach the port. -/
def Desk.codes (d : Desk) : Event → List UInt8
  | .press k => k.makeCode
  | .typematic k => k.makeCode
  | .release k => k.breakCode
  | .pause =>
    if d.held ctrlL || d.held ctrlR then [0xe0, 0x46, 0xe0, 0xc6]
    else [0xe1, 0x1d, 0x45, 0xe1, 0x9d, 0xc5]

def Event.Possible (d : Desk) : Event → Prop
  | .press k => d.held k = false
  | .typematic k => d.held k = true
  | .release k => d.held k = true
  | .pause => True

instance (d : Desk) (e : Event) : Decidable (e.Possible d) :=
  match e with
  | .press _ | .typematic _ | .release _ => inferInstanceAs (Decidable (_ = _))
  | .pause => inferInstanceAs (Decidable True)

def Desk.perform (d : Desk) (e : Event) : Desk :=
  let d' := { d with status := feed d.status (d.codes e) }
  match e with
  | .press k =>
    { d' with
      held := Function.update d.held k true
      capsLockPresses := d.capsLockPresses + if k.isCapsLock then 1 else 0 }
  | .typematic _ => d'
  | .release k => { d' with held := Function.update d.held k false }
  | .pause => d'

/-- Keys go down and up from the boot on, each event with its complete code. -/
def typing : System Desk Event where
  start d := d = {}
  step d e d' := e.Possible d ∧ d' = d.perform e

/-- The flags say which kinds of keys are down, and Caps Lock is on after every other
press. -/
structure Desk.Follows (d : Desk) : Prop where
  flags : ∀ kind, d.status.flag kind = true ↔ d.kindHeld kind
  caps : d.status.capsLockStatus = true ↔ Odd d.capsLockPresses

/-- No key of the same kind stays down behind a release, and Caps Lock is not held so
long that its code is repeated. -/
def Event.Alone (d : Desk) : Event → Prop
  | .release k => ∀ j : Key, j ≠ k → d.held j = true → j.kind ≠ none → j.kind ≠ k.kind
  | .typematic k => ¬ k.isCapsLock
  | _ => True

theorem Key.eq_ctrl {k : Key} (h : k.kind = some .ctrl) : k = ctrlL ∨ k = ctrlR := by
  have hcodes : ∀ (ext : Bool) (code : Fin 0x80) (inside : code ≠ 0x60),
      Key.kind ⟨ext, code, inside⟩ = some .ctrl → code = 0x1d := by
    decide
  obtain ⟨ext, code, inside⟩ := k
  obtain rfl := hcodes ext code inside h
  cases ext
  · exact .inl rfl
  · exact .inr rfl

section Steps

variable {d d' : Desk} {e : Event} {k : Key} {kind : Kind}

theorem handler_ext (s : Status) (byte : UInt8) (h : byte ≠ 0xe0) :
    (intrKeyboardHandler s byte).1.extScancode = false := by
  have hne : byte.toUInt16 ≠ 0xe0 := by
    intro h'
    apply h
    rw [← UInt8.toNat_inj]
    simpa using congrArg UInt16.toNat h'
  unfold intrKeyboardHandler
  simp only [hne, if_false]
  split_ifs <;> rfl

/-- A code ends with a byte that is not `0xe0`. -/
theorem Desk.perform_ext (h : d.status.extScancode = false) :
    (d.perform e).status.extScancode = false := by
  cases e with
  | press k =>
    change (feed d.status k.makeCode).extScancode = false
    rw [feed_makeCode _ _ h, Status.press_ext, h]
  | typematic k =>
    change (feed d.status k.makeCode).extScancode = false
    rw [feed_makeCode _ _ h, Status.press_ext, h]
  | release k =>
    change (feed d.status k.breakCode).extScancode = false
    rw [feed_breakCode _ _ h, Status.setFlag_ext, h]
  | pause =>
    change (feed d.status (if _ then _ else _)).extScancode = false
    split_ifs
    · exact handler_ext _ _ (by decide)
    · exact handler_ext _ _ (by decide)

theorem kindHeld_press : (d.perform (.press k)).kindHeld kind ↔
    k.kind = some kind ∨ d.kindHeld kind := by
  constructor
  · rintro ⟨j, hj, hheld⟩
    by_cases hjk : j = k
    · exact .inl (hjk ▸ hj)
    · exact .inr ⟨j, hj, (Function.update_of_ne hjk _ _).symm.trans hheld⟩
  · rintro (hk | ⟨j, hj, hheld⟩)
    · exact ⟨k, hk, Function.update_self _ _ _⟩
    · refine ⟨j, hj, ?_⟩
      change Function.update d.held k true j = true
      by_cases hjk : j = k
      · rw [hjk, Function.update_self]
      · rw [Function.update_of_ne hjk, hheld]

theorem kindHeld_release : (d.perform (.release k)).kindHeld kind ↔
    ∃ j : Key, j ≠ k ∧ j.kind = some kind ∧ d.held j = true := by
  constructor
  · rintro ⟨j, hj, hheld⟩
    have hjk : j ≠ k := by
      rintro rfl
      exact absurd ((Function.update_self _ _ _).symm.trans hheld) Bool.false_ne_true
    exact ⟨j, hjk, hj, (Function.update_of_ne hjk _ _).symm.trans hheld⟩
  · rintro ⟨j, hjk, hj, hheld⟩
    exact ⟨j, hj, (Function.update_of_ne hjk _ _).trans hheld⟩

theorem Desk.Follows.press (hf : d.Follows) (hext : d.status.extScancode = false) :
    (d.perform (.press k)).Follows := by
  have hst : (d.perform (.press k)).status = d.status.press k := feed_makeCode _ _ hext
  constructor
  · intro kind
    rw [hst, Status.flag_press, kindHeld_press, ← hf.flags kind]
    by_cases hk : k.kind = some kind
    · simp [hk]
    · simp [hk]
  · rw [hst, Status.caps_press]
    change _ ↔ Odd (d.capsLockPresses + if k.isCapsLock then 1 else 0)
    by_cases hcaps : k.isCapsLock
    · simp [hcaps, Nat.odd_add_one, ← hf.caps]
    · simp [hcaps, hf.caps]

/-- The release of a key clears the flag, though the other key may still be down. -/
theorem Desk.Follows.release_iff (hf : d.Follows) (hext : d.status.extScancode = false) :
    (d.perform (.release k)).Follows ↔ Event.Alone d (.release k) := by
  have hst : (d.perform (.release k)).status = d.status.setFlag false k.kind :=
    feed_breakCode _ _ hext
  constructor
  · rintro hf' j hjk hheld hj hkind
    obtain ⟨kind, hj⟩ := Option.ne_none_iff_exists'.mp hj
    have hflag := (hf'.flags kind).mpr (kindHeld_release.mpr ⟨j, hjk, hj, hheld⟩)
    rw [hst, Status.flag_setFlag, if_pos (hkind.symm.trans hj)] at hflag
    exact absurd hflag Bool.false_ne_true
  · intro halone
    constructor
    · intro kind
      rw [hst, Status.flag_setFlag, kindHeld_release]
      by_cases hk : k.kind = some kind
      · rw [if_pos hk]
        refine ⟨fun h => absurd h Bool.false_ne_true, ?_⟩
        rintro ⟨j, hjk, hj, hheld⟩
        exact absurd (hj.trans hk.symm) (halone j hjk hheld (by simp [hj]))
      · rw [if_neg hk, hf.flags kind]
        constructor
        · rintro ⟨j, hj, hheld⟩
          exact ⟨j, fun h => hk (h ▸ hj), hj, hheld⟩
        · rintro ⟨j, -, hj, hheld⟩
          exact ⟨j, hj, hheld⟩
    · rw [hst, Status.setFlag_caps]
      exact hf.caps

/-- A repeated make code sets a flag that is set, but turns Caps Lock. -/
theorem Desk.Follows.typematic_iff (hf : d.Follows) (hext : d.status.extScancode = false)
    (hheld : d.held k = true) :
    (d.perform (.typematic k)).Follows ↔ Event.Alone d (.typematic k) := by
  have hst : (d.perform (.typematic k)).status = d.status.press k := feed_makeCode _ _ hext
  constructor
  · intro hf' hcaps
    have hpar : (d.status.capsLockStatus ^^ true) = true ↔ d.status.capsLockStatus = true := by
      have h := hf'.caps
      rw [hst, Status.caps_press, decide_eq_true hcaps] at h
      exact h.trans hf.caps.symm
    cases hc : d.status.capsLockStatus <;> simp [hc] at hpar
  · intro hcaps
    have hcaps : ¬ k.isCapsLock := hcaps
    constructor
    · intro kind
      rw [hst, Status.flag_press]
      split_ifs with hk
      · exact ⟨fun _ => ⟨k, hk, hheld⟩, fun _ => rfl⟩
      · exact hf.flags kind
    · rw [hst, Status.caps_press, decide_eq_false hcaps, Bool.xor_false]
      exact hf.caps

theorem feed_pause : ∀ ctrl shift alt caps : Bool,
    feed ⟨ctrl, shift, alt, caps, false⟩ [0xe0, 0x46, 0xe0, 0xc6] =
        ⟨ctrl, shift, alt, caps, false⟩ ∧
      feed ⟨ctrl, shift, alt, caps, false⟩ [0xe1, 0x1d, 0x45, 0xe1, 0x9d, 0xc5] =
        ⟨false, shift, alt, caps, false⟩ := by
  decide

/-- The code of Pause sets the flag of Ctrl in between and clears it again. -/
theorem Desk.Follows.pause (hf : d.Follows) (hext : d.status.extScancode = false) :
    (d.perform .pause).Follows := by
  have hst : (d.perform .pause).status = d.status := by
    change feed d.status (if d.held ctrlL || d.held ctrlR then _ else _) = _
    have hctrl := hf.flags .ctrl
    generalize d.status = s at hext hctrl
    obtain ⟨ctrl, shift, alt, caps, ext⟩ := s
    obtain rfl : ext = false := hext
    obtain ⟨hbreak, hpause⟩ := feed_pause ctrl shift alt caps
    split_ifs with hheld
    · exact hbreak
    · have hup : ctrl ≠ true := by
        intro h
        obtain ⟨k, hk, hdown⟩ := hctrl.mp h
        rcases Key.eq_ctrl hk with rfl | rfl
        · simp [hdown] at hheld
        · simp [hdown] at hheld
      rw [hpause, Bool.eq_false_iff.mpr hup]
  exact ⟨fun kind => hst ▸ hf.flags kind, hst ▸ hf.caps⟩

/-- From a state in which the flags are right they stay right in just these steps. -/
theorem Desk.Follows.step_iff (hf : d.Follows) (hext : d.status.extScancode = false)
    (hstep : typing.step d e d') : d'.Follows ↔ e.Alone d := by
  obtain ⟨hpossible, rfl⟩ := hstep
  cases e with
  | press k => exact iff_of_true (hf.press hext) trivial
  | typematic k => exact hf.typematic_iff hext hpossible
  | release k => exact hf.release_iff hext
  | pause => exact iff_of_true (hf.pause hext) trivial

end Steps

theorem start_follows : Desk.Follows {} where
  flags kind := by
    refine ⟨fun h => ?_, ?_⟩
    · cases kind <;> exact absurd h Bool.false_ne_true
    · rintro ⟨k, -, h⟩
      exact absurd h Bool.false_ne_true
  caps := ⟨fun h => absurd h Bool.false_ne_true, fun h => absurd h (by decide)⟩

theorem run_ext {events : List Event} {d : Desk} (hrun : typing.Run {} events d) :
    d.status.extScancode = false := by
  refine hrun.keeps (I := fun d => d.status.extScancode = false) ?_ rfl
  rintro d e _ hext ⟨-, rfl⟩
  exact Desk.perform_ext hext

/-- In a run the flags are right behind every complete code if and only if no key is
released while another key of its kind stays down and Caps Lock is not repeated. -/
theorem modifiers_follow_iff {events : List Event} {d : Desk} (hrun : typing.Run {} events d) :
    (∀ before d', before <+: events → typing.Run {} before d' → d'.Follows) ↔
      typing.RunWhere (fun d e => e.Alone d) {} events d := by
  apply hrun.along_iff (I := Desk.Follows)
  · rintro d e d₁ d₂ ⟨-, rfl⟩ ⟨-, rfl⟩
    rfl
  · intro before d e d' hrun hf hstep
    exact hf.step_iff (run_ext hrun) hstep
  · exact start_follows

theorem run_shiftL : typing.Run {} [.press shiftL, .release shiftL]
    (Desk.perform (Desk.perform {} (.press shiftL)) (.release shiftL)) :=
  .snoc (l := [_]) (.snoc .nil ⟨rfl, rfl⟩) ⟨rfl, rfl⟩

/-- The flags after a press and a release of the left Shift key. -/
theorem modifiers_follow_shiftL :
    (∀ before d', before <+: [Event.press shiftL, .release shiftL] →
        typing.Run {} before d' → d'.Follows) ↔
      typing.RunWhere (fun d e => e.Alone d) {} [Event.press shiftL, .release shiftL]
        (Desk.perform (Desk.perform {} (.press shiftL)) (.release shiftL)) :=
  modifiers_follow_iff run_shiftL

/-- With both Shift keys down the release of one clears the flag. -/
theorem modifiers_not_followed :
    ¬ ∀ events d, typing.Run {} events d → d.Follows := by
  intro h
  have hrun : typing.Run {} [.press shiftL, .press shiftR, .release shiftL]
      (Desk.perform (Desk.perform (Desk.perform {} (.press shiftL)) (.press shiftR))
        (.release shiftL)) :=
    .snoc (l := [_, _]) (.snoc (l := [_]) (.snoc .nil ⟨rfl, rfl⟩) ⟨by decide, rfl⟩)
      ⟨by decide, rfl⟩
  have hflag := ((h _ _ hrun).flags .shift).mpr ⟨shiftR, by decide, by decide⟩
  revert hflag
  decide

end X86System.Keyboard
