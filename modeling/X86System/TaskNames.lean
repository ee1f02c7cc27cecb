import X86System.AddressSpaces
import X86System.Library.Bytes

/-!
# The names of the processes

A PCB has sixteen bytes for a name. `sys_fork` appends `_fork` to the name it copies, which
has to be shorter than eleven characters for that; `sys_execv` copies sixteen bytes from the
path and ends them. So a name grows along a line of descent until a process takes a new one.
-/
namespace X86System.Memory
open Exec Bytes

/-- `name` of `struct task_struct`. -/
abbrev TaskName := Vector UInt8 taskNameLen

/-- The characters in front of the first NUL. -/
def TaskName.cString (name : TaskName) : List UInt8 := name.toList.takeWhile (· ≠ 0)

def TaskName.Terminated (name : TaskName) : Prop := 0 ∈ name.toList

instance (name : TaskName) : Decidable name.Terminated := inferInstanceAs (Decidable (_ ∈ _))

/-- `strlen`, which leaves the array where there is no NUL in it. -/
def strlen (name : TaskName) : Except Fault ℕ := do
  ensure Fault.overrun name.Terminated
  return name.cString.length

/-- The loop of `strcat`, which writes characters from place `k` on. -/
def writeChars : TaskName → ℕ → List UInt8 → Except Fault TaskName
  | dst, _, [] => .ok dst
  | dst, k, c :: src => do
    ensure Fault.overrun (k < taskNameLen)
    writeChars (dst.setIfInBounds k c) (k + 1) src

/-- `strcat` of characters and the NUL behind them. -/
def strcat (dst : TaskName) (src : List UInt8) : Except Fault TaskName := do
  let n ← strlen dst
  writeChars dst n (src ++ [0])

/-- The name `init` gets from `process_execute`. -/
def initName : TaskName := #v[0x69, 0x6e, 0x69, 0x74, 0, 0, 0, 0, 0, 0, 0, 0, 0, 0, 0, 0]

/-- What `copy_pcb_vaddrbitmap_stack0` makes of the name it has copied. -/
def forkName (name : TaskName) : Except Fault TaskName := do
  let len ← strlen name
  ensure Fault.assert (len < 11)
  strcat name forkSuffix

/-- What `sys_execv` makes of the name; `path` is the memory at the path. -/
def execvName (path : Image) : TaskName :=
  (Vector.ofFn fun i : Fin taskNameLen => path i.val).set (taskNameLen - 1) 0 (by decide)

/-- What happens along a line of descent. -/
inductive Descent
  /-- The process forks, and its child is looked at from here on. -/
  | fork
  /-- The process replaces its program. The path is what stands there behind `load`. -/
  | execv (path : Image)
  /-- `load` fails and nothing is renamed. -/
  | execvFails

def rename (name : TaskName) : Descent → Except Fault TaskName
  | .fork => forkName name
  | .execv path => .ok (execvName path)
  | .execvFails => .ok name

/-- The name at the end of a line of descent that starts with `init`. -/
def descend (steps : List Descent) : Except Fault TaskName := steps.foldlM rename initName

/-- The length of a name behind a step, from that in front of it. -/
def Descent.nameLength (n : ℕ) : Descent → ℕ
  | .fork => n + 5
  | .execv path => (((List.range 15).map path).takeWhile (· ≠ 0)).length
  | .execvFails => n

/-- How long the name is at the end of a line of descent, as far as the kernel gets. -/
def nameLength (steps : List Descent) : ℕ := steps.foldl Descent.nameLength 4

section Names

variable {name name' : TaskName} {path : Image} {steps : List Descent}

theorem takeWhile_split {l pre rest : List UInt8} (h : l = pre ++ 0 :: rest) (hpre : 0 ∉ pre) :
    l.takeWhile (· ≠ 0) = pre := by
  rw [h, List.takeWhile_append_of_pos fun x hx => by
    simp only [ne_eq, decide_eq_true_eq]
    rintro rfl
    exact hpre hx]
  simp

/-- Where a name ends there is a NUL behind its characters. -/
theorem TaskName.Terminated.split (h : name.Terminated) :
    ∃ rest, name.toList = name.cString ++ 0 :: rest ∧ 0 ∉ name.cString := by
  obtain ⟨pre, rest, hlist, hpre⟩ := List.eq_append_cons_of_mem h
  have hname : name.cString = pre := takeWhile_split hlist hpre
  exact ⟨rest, by rw [hname, hlist], hname ▸ hpre⟩

theorem TaskName.Terminated.length_lt (h : name.Terminated) :
    name.cString.length < taskNameLen := by
  obtain ⟨rest, hlist, -⟩ := h.split
  have hlen := congrArg List.length hlist
  rw [Vector.length_toList, List.length_append, List.length_cons] at hlen
  omega

theorem strlen_of_terminated (h : name.Terminated) : strlen name = .ok name.cString.length := by
  rw [strlen, ensure_of h, ok_bind]
  rfl

theorem writeChars_toList (src : List UInt8) {pre rest : List UInt8} (hlist : name.toList = pre ++ rest)
    (hroom : src.length ≤ rest.length) :
    ∃ t : TaskName, writeChars name pre.length src = .ok t ∧
      t.toList = pre ++ src ++ rest.drop src.length := by
  induction src generalizing name pre rest with
  | nil => exact ⟨name, rfl, by simpa using hlist⟩
  | cons c src ih =>
    cases rest with
    | nil => simp at hroom
    | cons d rest =>
      have hlen := congrArg List.length hlist
      rw [Vector.length_toList, List.length_append, List.length_cons] at hlen
      have hset : (name.setIfInBounds pre.length c).toList = (pre ++ [c]) ++ rest := by
        rw [Vector.toList_setIfInBounds, hlist]
        simp
      obtain ⟨t, ht, htl⟩ := ih hset (by simpa using hroom)
      refine ⟨t, ?_, by simpa using htl⟩
      rw [writeChars, ensure_of (by omega), ok_bind]
      simpa using ht

/-- Appending to a name. -/
theorem strcat_of_room (src : List UInt8) (h : name.Terminated) (hsrc : 0 ∉ src)
    (hroom : name.cString.length + src.length < taskNameLen) :
    ∃ t, strcat name src = .ok t ∧ t.Terminated ∧ t.cString = name.cString ++ src := by
  obtain ⟨rest, hlist, hnot⟩ := h.split
  have hlen := congrArg List.length hlist
  rw [Vector.length_toList, List.length_append, List.length_cons] at hlen
  obtain ⟨t, ht, htl⟩ := writeChars_toList (src ++ [0]) hlist (by simp; omega)
  have hsplit : t.toList = (name.cString ++ src) ++ 0 :: (0 :: rest).drop (src ++ [0]).length := by
    rw [htl]
    simp
  have hnot' : 0 ∉ name.cString ++ src := fun hmem =>
    (List.mem_append.mp hmem).elim hnot hsrc
  refine ⟨t, ?_, ?_, takeWhile_split hsplit hnot'⟩
  · rw [strcat, strlen_of_terminated h, ok_bind, ht]
  · change (0 : UInt8) ∈ t.toList
    rw [hsplit]
    simp

theorem forkName_iff (h : name.Terminated) :
    (∃ t, forkName name = .ok t) ↔ name.cString.length < 11 := by
  rw [forkName, strlen_of_terminated h, ok_bind]
  constructor
  · rintro ⟨t, ht⟩
    exact (of_ensure_eq_ok ht).1
  · intro hlt
    obtain ⟨t, ht, -⟩ := strcat_of_room forkSuffix h (by decide)
      (by change _ + 5 < 16; omega)
    exact ⟨t, by rw [ensure_of hlt, ok_bind, ht]⟩

/-- The child's name is that of the parent with `_fork` behind it. -/
theorem forkName_cString (h : name.Terminated) (hfork : forkName name = .ok name') :
    name'.Terminated ∧ name'.cString = name.cString ++ forkSuffix := by
  have hlt := (forkName_iff h).mp ⟨name', hfork⟩
  obtain ⟨t, ht, hterm, hstr⟩ := strcat_of_room forkSuffix h (by decide)
    (by change _ + 5 < 16; omega)
  rw [forkName, strlen_of_terminated h, ok_bind, ensure_of hlt, ok_bind, ht] at hfork
  obtain rfl := Except.ok.inj hfork
  exact ⟨hterm, hstr⟩

/-- The new name is the path, or its first fifteen characters. -/
theorem execvName_cString (path : Image) : (execvName path).Terminated ∧
    (execvName path).cString = ((List.range 15).map path).takeWhile (· ≠ 0) := by
  have hlist : (execvName path).toList = (List.range 15).map path ++ [0] := by
    rfl
  constructor
  · change (0 : UInt8) ∈ (execvName path).toList
    rw [hlist]
    simp
  · rw [TaskName.cString, hlist, List.takeWhile_append]
    split_ifs with h
    · rw [(List.takeWhile_prefix _).eq_of_length h]
      exact List.append_nil _
    · rfl

theorem nameLength_snoc (step : Descent) :
    nameLength (steps ++ [step]) = step.nameLength (nameLength steps) := by
  simp [nameLength]

theorem descend_snoc (step : Descent) :
    descend (steps ++ [step]) = descend steps >>= fun name => rename name step := by
  unfold descend
  rw [List.foldlM_append]
  congr 1
  funext name
  rw [List.foldlM_cons]
  cases rename name step with
  | ok t => rfl
  | error e => rfl

/-- Along a line of descent every name ends in its array, and its length is known. -/
theorem descend_name (h : descend steps = .ok name) :
    name.Terminated ∧ name.cString.length = nameLength steps := by
  induction steps using List.reverseRecOn generalizing name with
  | nil =>
    obtain rfl := Except.ok.inj h
    exact ⟨by decide, by decide⟩
  | append_singleton steps step ih =>
    rw [descend_snoc] at h
    obtain ⟨before, hbefore, h⟩ := of_bind_eq_ok h
    obtain ⟨hterm, hlen⟩ := ih hbefore
    rw [nameLength_snoc, ← hlen]
    cases step with
    | fork =>
      obtain ⟨hterm', hstr⟩ := forkName_cString hterm h
      exact ⟨hterm', by rw [hstr, List.length_append]; rfl⟩
    | execv path =>
      obtain rfl := Except.ok.inj h
      obtain ⟨hterm', hstr⟩ := execvName_cString path
      exact ⟨hterm', by rw [hstr]; rfl⟩
    | execvFails =>
      obtain rfl := Except.ok.inj h
      exact ⟨hterm, rfl⟩

theorem descend_snoc_iff (steps : List Descent) (step : Descent) :
    (∃ name, descend (steps ++ [step]) = .ok name) ↔
      (∃ name, descend steps = .ok name) ∧ (step = .fork → nameLength steps < 11) := by
  rw [descend_snoc]
  constructor
  · rintro ⟨name, h⟩
    obtain ⟨before, hbefore, h⟩ := of_bind_eq_ok h
    obtain ⟨hterm, hlen⟩ := descend_name hbefore
    refine ⟨⟨before, hbefore⟩, ?_⟩
    rintro rfl
    rw [← hlen]
    exact (forkName_iff hterm).mp ⟨name, h⟩
  · rintro ⟨⟨before, hbefore⟩, hlt⟩
    obtain ⟨hterm, hlen⟩ := descend_name hbefore
    rw [hbefore, ok_bind]
    cases step with
    | fork => exact (forkName_iff hterm).mpr (hlen ▸ hlt rfl)
    | execv path => exact ⟨_, rfl⟩
    | execvFails => exact ⟨_, rfl⟩

end Names

/-- All along a line of descent the kernel goes on and every name ends in its array. -/
def NamesHold (steps : List Descent) : Prop :=
  ∀ before, before <+: steps → ∃ name, descend before = .ok name ∧ name.Terminated

/-- The kernel gets along a line of descent if and only if each fork finds a name shorter than
eleven characters: the path of the last exec, or `init`, with five more for each fork since. -/
theorem names_hold_iff (steps : List Descent) :
    NamesHold steps ↔ ∀ before, before ++ [.fork] <+: steps → nameLength before < 11 := by
  induction steps using List.reverseRecOn with
  | nil =>
    refine iff_of_true ?_ ?_
    · intro before hbefore
      obtain rfl := List.prefix_nil.mp hbefore
      exact ⟨initName, rfl, by decide⟩
    · intro before hbefore
      exact absurd (List.prefix_nil.mp hbefore) (by simp)
  | append_singleton steps step ih =>
    constructor
    · intro hall before hbefore
      obtain ⟨name, h, -⟩ := hall _ hbefore
      exact ((descend_snoc_iff before .fork).mp ⟨name, h⟩).2 rfl
    · intro hall
      have hsteps := ih.mpr fun before hbefore =>
        hall before (hbefore.trans (List.prefix_append steps [step]))
      intro before hbefore
      rcases List.prefix_concat_iff.mp hbefore with rfl | hbefore
      · obtain ⟨name, h, -⟩ := hsteps steps List.prefix_rfl
        obtain ⟨name', h'⟩ := (descend_snoc_iff steps step).mpr ⟨⟨name, h⟩, fun hstep =>
          hall steps (by rw [hstep])⟩
        exact ⟨name', h', (descend_name h').1⟩
      · exact hsteps before hbefore

/-- The child of the child of `init` cannot fork. -/
theorem names_not_hold : ¬ ∀ steps, NamesHold steps := by
  intro hall
  obtain ⟨name, h, -⟩ := hall [.fork, .fork, .fork] _ List.prefix_rfl
  have hlt := ((descend_snoc_iff [.fork, .fork] .fork).mp ⟨name, h⟩).2 rfl
  exact absurd hlt (by decide)

end X86System.Memory
