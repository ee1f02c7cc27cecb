import X86System.Sessions

/-!
# Calls with a descriptor

What `sys_close`, `sys_read`, `sys_write` and `sys_lseek` return. Each looks the
descriptor up in the table of the process, which is not checked against the table's
length and asserts that the descriptor is open. Only some numbers are turned away before
that.
-/
namespace X86System.FileSystem
open Bytes Exec Transition

/-- What a call returns: a number, where `none` is -1, or what a ring, the console or the
keyboard makes of it, which are no part of the state. -/
inductive Answer
  | value (v : Option UInt32)
  | stream
  deriving DecidableEq

/-- `sys_write` with its result. -/
def writeAnswer (s : State) (fd : ℤ) (src : Image) (count : UInt32) :
    Except Fault (Answer × State) := do
  if fd < 0 then .ok (.value none, s)
  else
    let pipe ← isPipe s fd.toNat
    if pipe ∨ fd = 1 then .ok (.stream, s)
    else
      let g ← fdLocal2Global s fd.toNat
      let f ← s.file g
      if forWriting f.fdFlag then
        let (written, s) ← fileWrite s g src count
        .ok (.value written, s)
      else .ok (.value none, s)

/-- `sys_read` with its result, where `buf` is the memory to read to, or NULL. -/
def readAnswer (s : State) (fd : ℤ) (buf : Option Image) (count : UInt32) :
    Except Fault (Answer × State) := do
  ensure Fault.assert (buf.isSome = true)
  if fd < 0 ∨ fd = 1 ∨ fd = 2 then .ok (.value none, s)
  else
    let pipe ← isPipe s fd.toNat
    if pipe ∨ fd = 0 then .ok (.stream, s)
    else
      let dst ← deref buf
      let g ← fdLocal2Global s fd.toNat
      let (read, _, s) ← fileRead s g dst count
      .ok (.value read, s)

/-- The position that `sys_lseek` computes, in 32-bit arithmetic. `whence` is `SEEK_SET`,
`SEEK_CUR` or else `SEEK_END`. -/
def seekPos (f : File) (x : Inode) (offset : Int32) (whence : UInt8) : Int32 :=
  if whence = 1 then offset
  else if whence = 2 then f.fdPos.toInt32 + offset
  else x.iSize.toInt32 + offset

/-- `sys_lseek`. -/
def sysLseek (s : State) (fd : ℤ) (offset : Int32) (whence : UInt8) :
    Except Fault (Answer × State) := do
  if fd < 0 then .ok (.value none, s)
  else
    ensure Fault.assert (0 < whence ∧ whence < 4)
    let g ← fdLocal2Global s fd.toNat
    let f ← s.file g
    let a ← deref f.fdInode
    let x ← deref (s.inodes a)
    let pos := seekPos f x offset whence
    if pos < 0 ∨ pos > x.iSize.toInt32 - 1 then .ok (.value none, s)
    else .ok (.value (some pos.toUInt32), s.setFile g { f with fdPos := pos.toUInt32 })

/-- `sys_close` with its result as a number. -/
def closeAnswer (s : Session) (fd : ℤ) : Except Fault (Answer × State) := do
  let (done, t) ← sysClose s fd
  .ok (.value (if done then some 0 else none), t.fs)

section Results

variable {s : State} {fd : ℤ} {src : Image} {count : UInt32}

/-- The session is that of the call without its result. -/
theorem sysWrite_eq : sysWrite s fd src count = (do
    let (_, s) ← writeAnswer s fd src count
    .ok s) := by
  unfold sysWrite writeAnswer
  by_cases hneg : fd < 0
  · rw [if_pos hneg, if_pos hneg, ok_bind]
  rw [if_neg hneg, if_neg hneg]
  rcases isPipe s fd.toNat with e | pipe
  · rfl
  by_cases hstream : pipe ∨ fd = 1
  · simp only [ok_bind, if_pos hstream]
  simp only [ok_bind, if_neg hstream]
  rcases fdLocal2Global s fd.toNat with e | g
  · rfl
  rw [ok_bind, ok_bind]
  rcases s.file g with e | f
  · rfl
  rw [ok_bind, ok_bind]
  by_cases hflag : forWriting f.fdFlag
  · rw [if_pos hflag, if_pos hflag]
    rcases fileWrite s g src count with e | r <;> rfl
  · rw [if_neg hflag, if_neg hflag, ok_bind]

theorem sysRead_eq : sysRead s fd count = (do
    let (_, s) ← readAnswer s fd (some zeros) count
    .ok s) := by
  unfold sysRead readAnswer
  rw [ensure_of (show (some zeros : Option Image).isSome = true from rfl), ok_bind]
  by_cases hneg : fd < 0 ∨ fd = 1 ∨ fd = 2
  · rw [if_pos hneg, if_pos hneg, ok_bind]
  rw [if_neg hneg, if_neg hneg]
  rcases isPipe s fd.toNat with e | pipe
  · rfl
  by_cases hstream : pipe ∨ fd = 0
  · simp only [ok_bind, if_pos hstream]
  simp only [ok_bind, if_neg hstream, deref_some]
  rcases fdLocal2Global s fd.toNat with e | g
  · rfl
  rw [ok_bind, ok_bind]
  rcases fileRead s g zeros count with e | r <;> rfl

end Results

section Closed

/-- `fd` is an open descriptor of the running process. -/
def State.openFd (s : State) (fd : ℤ) : Prop :=
  0 ≤ fd ∧ ∃ task v, s.tasks s.cur = some task ∧ task.fd fd.toNat = some v ∧ v ≠ -1

/-- The call returns -1 and leaves the descriptors, the files and the inodes as they are. -/
def Refused (s : State) (r : Except Fault (Answer × State)) : Prop :=
  ∃ t, r = .ok (.value none, t) ∧ t.tasks = s.tasks ∧ t.fileTable = s.fileTable ∧
    t.inodes = s.inodes

variable {s : State} {fd : ℤ}

theorem refused_self : Refused s (.ok (.value none, s)) := ⟨s, rfl, rfl, rfl, rfl⟩

theorem not_refused_error {e : Fault} : ¬ Refused s (.error e) := by
  rintro ⟨t, h, -⟩
  cases h

/-- A number that is not negative is looked up, and what is not open does not pass. -/
theorem fdLocal2Global_closed (h : ¬ s.openFd fd) (hfd : 0 ≤ fd) :
    ∃ e, fdLocal2Global s fd.toNat = .error e := by
  unfold fdLocal2Global localFd
  cases htask : s.tasks s.cur with
  | none => exact ⟨_, rfl⟩
  | some task =>
    rw [deref_some, ok_bind]
    cases hv : task.fd fd.toNat with
    | none => exact ⟨_, rfl⟩
    | some v =>
      have hclosed : v = -1 := by
        by_contra hne
        exact h ⟨hfd, task, v, htask, hv, hne⟩
      subst hclosed
      exact ⟨_, rfl⟩

theorem isPipe_closed (h : ¬ s.openFd fd) (hfd : 0 ≤ fd) : ∃ e, isPipe s fd.toNat = .error e := by
  obtain ⟨e, he⟩ := fdLocal2Global_closed h hfd
  exact ⟨e, by rw [isPipe, he, error_bind]⟩

theorem refused_close {x : Session} (h : ¬ x.fs.openFd fd) :
    Refused x.fs (closeAnswer x fd) ↔ fd ≤ 2 := by
  unfold closeAnswer sysClose
  by_cases hfd : 2 < fd
  · obtain ⟨e, he⟩ := fdLocal2Global_closed h (by omega)
    rw [if_pos hfd, he, error_bind, error_bind]
    exact iff_of_false not_refused_error (by omega)
  · rw [if_neg hfd, ok_bind]
    exact iff_of_true refused_self (by omega)

theorem refused_read (h : ¬ s.openFd fd) (buf : Option Image) (count : UInt32) :
    Refused s (readAnswer s fd buf count) ↔ buf.isSome = true ∧ (fd < 0 ∨ fd = 1 ∨ fd = 2) := by
  unfold readAnswer
  by_cases hbuf : buf.isSome = true
  · rw [ensure_of hbuf, ok_bind]
    by_cases hlow : fd < 0 ∨ fd = 1 ∨ fd = 2
    · rw [if_pos hlow]
      exact iff_of_true refused_self ⟨hbuf, hlow⟩
    · obtain ⟨e, he⟩ := isPipe_closed h (by omega)
      rw [if_neg hlow, he, error_bind]
      exact iff_of_false not_refused_error fun hc => hlow hc.2
  · rw [ensure_of_not hbuf, error_bind]
    exact iff_of_false not_refused_error fun hc => hbuf hc.1

theorem refused_write (h : ¬ s.openFd fd) (src : Image) (count : UInt32) :
    Refused s (writeAnswer s fd src count) ↔ fd < 0 := by
  unfold writeAnswer
  by_cases hneg : fd < 0
  · rw [if_pos hneg]
    exact iff_of_true refused_self hneg
  · obtain ⟨e, he⟩ := isPipe_closed h (by omega)
    rw [if_neg hneg, he, error_bind]
    exact iff_of_false not_refused_error hneg

theorem refused_lseek (h : ¬ s.openFd fd) (offset : Int32) (whence : UInt8) :
    Refused s (sysLseek s fd offset whence) ↔ fd < 0 := by
  unfold sysLseek
  by_cases hneg : fd < 0
  · rw [if_pos hneg]
    exact iff_of_true refused_self hneg
  · obtain ⟨e, he⟩ := fdLocal2Global_closed h (by omega)
    rw [if_neg hneg, he, error_bind]
    refine iff_of_false ?_ hneg
    by_cases hwhence : 0 < whence ∧ whence < 4
    · rw [ensure_of hwhence, ok_bind]
      exact not_refused_error
    · rw [ensure_of_not hwhence, error_bind]
      exact not_refused_error

/-- With a number that is no open descriptor, each call is refused for the numbers that it
turns away itself, and for no other. -/
theorem closed_descriptor_refused (x : Session) (fd : ℤ) (h : ¬ x.fs.openFd fd) :
    (Refused x.fs (closeAnswer x fd) ↔ fd ≤ 2) ∧
    (∀ buf count, Refused x.fs (readAnswer x.fs fd buf count) ↔
      buf.isSome = true ∧ (fd < 0 ∨ fd = 1 ∨ fd = 2)) ∧
    (∀ src count, Refused x.fs (writeAnswer x.fs fd src count) ↔ fd < 0) ∧
    ∀ offset whence, Refused x.fs (sysLseek x.fs fd offset whence) ↔ fd < 0 :=
  ⟨refused_close h, refused_read h, refused_write h, refused_lseek h⟩

theorem sampleSession_closed : ¬ sampleSession.fs.openFd 5 := by
  rintro ⟨-, task, v, htask, hv, hne⟩
  obtain rfl : stdTask = task := Option.some.inj htask
  exact hne (Option.some.inj hv).symm

theorem closed_descriptor_refused_negative :
    Refused sampleSession.fs (sysLseek sampleSession.fs (-1) 0 1) ∧
      Refused sampleSession.fs (writeAnswer sampleSession.fs (-1) zeros 1) := by
  have h := closed_descriptor_refused sampleSession (-1) fun h => absurd h.1 (by decide)
  exact ⟨(h.2.2.2 0 1).mpr (by decide), (h.2.2.1 zeros 1).mpr (by decide)⟩

/-- Descriptor 5 of a process that opened nothing: all four calls stop at an assertion. -/
theorem closed_descriptor_asserts : ∃ x, sessions.Reachable x ∧ ¬ x.fs.openFd 5 ∧
    closeAnswer x 5 = .error .assert ∧ readAnswer x.fs 5 (some zeros) 1 = .error .assert ∧
    writeAnswer x.fs 5 zeros 1 = .error .assert ∧ sysLseek x.fs 5 0 1 = .error .assert :=
  ⟨sampleSession, ⟨_, [], sampleSession_start, .nil⟩, sampleSession_closed, rfl, rfl, rfl, rfl⟩

end Closed

end X86System.FileSystem
