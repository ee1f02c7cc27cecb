import X86System.InodeRecords
import X86System.Sessions

/-!
# Inodes that several processes open

`inode_open` looks through `open_inodes`, and where the number is not there it reads the
record and puts the new inode on the list. The process sleeps over the read, so others
run between the search and the entry. Nothing else blocks in the middle of an access to
the list: closing an inode is one step, and so is the end of `file_create`, which enters
the inode of a new file. Whatever else a call does leaves the list and its numbers alone.
-/
namespace X86System.FileSystem
open Bytes Exec Transition

/-- The numbers of the inodes on `open_inodes`. -/
def State.openNumbers (s : State) : List UInt32 :=
  s.openInodes.filterMap fun a => (s.inodes a).map Inode.iNo

/-- `inode_open` from the end of its search to the read: the new inode and the buffer. -/
def inodeBegin (s : State) (inodeNo : UInt32) :
    Except Fault ((Option InodePtr × Option Buffer) × State) := do
  let pos ← inodeLocate s inodeNo
  let (inodeFound, s) := mallocInode s
  let (inodeBuf, s) := sysMalloc s (512 * if pos.twoSec then 2 else 1)
  .ok ((inodeFound, inodeBuf), s)

/-- `inode_open` from its read to its end. -/
def inodeFinish (s : State) (inodeNo : UInt32) (inodeFound : Option InodePtr)
    (inodeBuf : Option Buffer) : Except Fault (InodePtr × State) := do
  let pos ← inodeLocate s inodeNo
  let buf ← deref inodeBuf
  let buf ← ideRead s pos.secLba buf 0 (if pos.twoSec then 2 else 1)
  let a ← deref inodeFound
  let x := Inode.ofBytes (slice buf.bytes pos.offSize)
  .ok (a, { s.setInode a { x with iOpenCnts := 1 } with openInodes := a :: s.openInodes })

/-- Without another process in between, the two parts are the code of `inode_open`. -/
theorem inodeLoad_eq (s : State) (n : UInt32) : inodeLoad s n = (do
    let (l, t) ← inodeBegin s n
    inodeFinish t n l.1 l.2) := by
  have hlocate : ∀ t : State, t.part = s.part → inodeLocate t n = inodeLocate s n := by
    intro t ht
    unfold inodeLocate
    rw [ht]
  have hpart : ∀ k, (sysMalloc (mallocInode s).2 k).2.part = s.part := by
    intro k
    unfold mallocInode sysMalloc
    split_ifs <;> rfl
  unfold inodeLoad inodeBegin inodeFinish
  cases hpos : inodeLocate s n with
  | error e => rfl
  | ok pos =>
    simp only [ok_bind]
    rw [hlocate _ (hpart _), hpos]
    rfl

/-- An `inode_open` that sleeps over its read. -/
structure Load where
  number : UInt32
  object : Option InodePtr
  buffer : Option Buffer

/-- The file system and the process that sleep in `inode_open`. -/
structure Loads where
  fs : State
  load : ℕ → Option Load

/-- What leaves `open_inodes` and the numbers of its inodes alone. -/
structure Quiet (s t : State) : Prop where
  openInodes : t.openInodes = s.openInodes
  numbers : ∀ a ∈ s.openInodes, (t.inodes a).map Inode.iNo = (s.inodes a).map Inode.iNo
  nextInode : s.nextInode ≤ t.nextInode

inductive OpenStep
  /-- `inode_open` up to its end, or to its read. -/
  | search (inodeNo : UInt32)
  /-- `inode_open` from its read on. -/
  | push
  /-- `inode_close`. -/
  | close (a : InodePtr)
  /-- The end of `file_create`. -/
  | create (a : InodePtr)
  | other

/-- The inode of a new file is counted and entered. -/
def State.enter (s : State) (a : InodePtr) (y : Inode) : State :=
  { s.setInode a { y with iOpenCnts := 1 } with openInodes := a :: s.openInodes }

/-- Process `p` calls `inode_open` and gets an inode of the list or goes to sleep. -/
def Loads.search (s : Loads) (p : ℕ) (inodeNo : UInt32) : Except Fault Loads := do
  match ← findOpen s.fs inodeNo s.fs.openInodes with
  | some a =>
    let x ← deref (s.fs.inodes a)
    .ok { s with fs := s.fs.setInode a { x with iOpenCnts := x.iOpenCnts + 1 } }
  | none =>
    let (l, t) ← inodeBegin s.fs inodeNo
    .ok ⟨t, Function.update s.load p (some ⟨inodeNo, l.1, l.2⟩)⟩

/-- Process `p` wakes up and enters what it has read. -/
def Loads.push (s : Loads) (p : ℕ) : Except Fault Loads := do
  let l ← deref (s.load p)
  let (_, t) ← inodeFinish s.fs l.number l.object l.buffer
  .ok ⟨t, Function.update s.load p none⟩

/-- A step of process `p`. What `sys_malloc` gave `file_create` is nobody else's. -/
def Loads.step (s : Loads) (p : ℕ) : OpenStep → Loads → Prop
  | .search n, t => s.load p = none ∧ s.search p n = .ok t
  | .push, t => s.push p = .ok t
  | .close a, t => ∃ u, inodeClose s.fs a = .ok u ∧ t = { s with fs := u }
  | .create a, t => a ∉ s.fs.openInodes ∧ a < s.fs.nextInode ∧
      (∀ q l, s.load q = some l → l.object ≠ some a) ∧
      ∃ y, s.fs.inodes a = some y ∧ t = { s with fs := s.fs.enter a y }
  | .other, t => Quiet s.fs t.fs ∧ t.load = s.load

/-- Steps of any processes in any order, from a mounted file system with its root open. -/
def loads : System Loads (ℕ × OpenStep) where
  start s := (∃ x, SessionStart x ∧ s.fs = x.fs) ∧ ∀ p, s.load p = none
  step s a t := s.step a.1 a.2 t

section Numbers

variable {s t : State} {a b : InodePtr} {x y : Inode} {n : UInt32}

theorem mem_openNumbers : n ∈ s.openNumbers ↔ ∃ a ∈ s.openInodes, ∃ x, s.inodes a = some x ∧
    x.iNo = n := by
  simp [State.openNumbers]

theorem openNumbers_congr (hopen : t.openInodes = s.openInodes)
    (h : ∀ a ∈ s.openInodes, (t.inodes a).map Inode.iNo = (s.inodes a).map Inode.iNo) :
    t.openNumbers = s.openNumbers := by
  unfold State.openNumbers
  rw [hopen]
  exact List.filterMap_congr h

/-- An inode that is not on the list does not show in the numbers. -/
theorem openNumbers_setInode (ha : a ∉ s.openInodes) : (s.setInode a x).openNumbers = s.openNumbers :=
  openNumbers_congr rfl fun b hb => by
    rw [setInode_inodes_of_ne _ _ _ (ne_of_mem_of_not_mem hb ha)]

/-- Nor does a change that keeps the number. -/
theorem openNumbers_store (hx : s.inodes a = some x) (hno : y.iNo = x.iNo) :
    (s.setInode a y).openNumbers = s.openNumbers := by
  refine openNumbers_congr rfl fun b _ => ?_
  by_cases hb : b = a
  · subst hb
    rw [setInode_inodes_self, hx, Option.map_some, Option.map_some, hno]
  · rw [setInode_inodes_of_ne _ _ _ hb]

/-- A new inode at the head of the list. -/
theorem openNumbers_enter (ha : a ∉ s.openInodes) :
    (s.enter a y).openNumbers = y.iNo :: s.openNumbers := by
  have hrest := openNumbers_setInode (x := { y with iOpenCnts := 1 }) ha
  unfold State.openNumbers at hrest ⊢
  have hself : (s.enter a y).inodes a = some { y with iOpenCnts := 1 } := setInode_inodes_self ..
  change (a :: s.openInodes).filterMap _ = _
  rw [List.filterMap_cons, hself, Option.map_some]
  exact congrArg _ hrest

/-- A search that finds nothing has seen all numbers. -/
theorem notMem_of_findOpen (h : findOpen s n s.openInodes = .ok none) : n ∉ s.openNumbers := by
  have hall : ∀ l : List InodePtr, findOpen s n l = .ok none →
      ∀ a ∈ l, ∀ x, s.inodes a = some x → x.iNo ≠ n := by
    intro l
    induction l with
    | nil => exact fun _ a ha => absurd ha List.not_mem_nil
    | cons b l ih =>
      intro hfind a ha x hx hno
      unfold findOpen at hfind
      cases hb : s.inodes b with
      | none =>
        rw [hb] at hfind
        cases hfind
      | some y =>
        rw [hb, deref_some, ok_bind] at hfind
        split_ifs at hfind with hy
        · cases hfind
        · rcases List.mem_cons.mp ha with rfl | ha
          · obtain rfl := Option.some.inj (hb.symm.trans hx)
            exact hy hno
          · exact ih hfind a ha x hx hno
  rw [mem_openNumbers]
  rintro ⟨a, ha, x, hx, hno⟩
  exact hall _ h a ha x hx hno

/-- Where fewer elements pass, fewer results remain. -/
theorem filterMap_sublist {f g : InodePtr → Option UInt32} (h : ∀ b, g b = none ∨ g b = f b)
    (l : List InodePtr) : (l.filterMap g).Sublist (l.filterMap f) := by
  induction l with
  | nil => exact List.Sublist.refl _
  | cons b l ih =>
    rw [List.filterMap_cons, List.filterMap_cons]
    obtain hnone | hsame := h b
    · rw [hnone]
      cases f b with
      | none => exact ih
      | some v => exact ih.cons v
    · rw [hsame]
      cases f b with
      | none => exact ih
      | some v => exact ih.cons_cons v

/-- Closing removes a number or keeps them all. -/
theorem inodeClose_numbers (h : inodeClose s a = .ok t) : t.openNumbers.Sublist s.openNumbers ∧
    t.openInodes ⊆ s.openInodes ∧ t.nextInode = s.nextInode := by
  unfold inodeClose at h
  cases hx : s.inodes a with
  | none =>
    rw [hx] at h
    cases h
  | some x =>
    rw [hx, deref_some, ok_bind] at h
    split_ifs at h with hone
    · obtain rfl := Except.ok.inj h
      refine ⟨?_, List.erase_subset, rfl⟩
      refine (filterMap_sublist (fun b => ?_) _).trans (List.erase_sublist.filterMap _)
      by_cases hb : b = a
      · subst hb
        exact Or.inl (by simp)
      · exact Or.inr (by simp [hb])
    · obtain rfl := Except.ok.inj h
      have hsame := openNumbers_store hx (y := { x with iOpenCnts := 2 ^ 32 - 1 }) rfl
      exact ⟨hsame ▸ List.Sublist.refl _, List.Subset.refl _, rfl⟩
    · obtain rfl := Except.ok.inj h
      have hsame := openNumbers_store hx (y := { x with iOpenCnts := x.iOpenCnts - 1 }) rfl
      exact ⟨hsame ▸ List.Sublist.refl _, List.Subset.refl _, rfl⟩

end Numbers

section Loading

variable {s t : State} {n : UInt32}

/-- The number in record `n` of the disk. -/
def recordNumber (s : State) (n : UInt32) : UInt32 := (Inode.ofBytes (diskRecord s n.toNat)).iNo

theorem inodeBegin_spec (hbound : ∀ a ∈ s.openInodes, a < s.nextInode) :
    Returns (inodeBegin s n) fun r => r.2.openInodes = s.openInodes ∧
      r.2.openNumbers = s.openNumbers ∧ s.nextInode ≤ r.2.nextInode ∧
      ∀ a, r.1.1 = some a → a = s.nextInode ∧ a < r.2.nextInode := by
  refine returns_skip fun pos => ?_
  unfold mallocInode
  by_cases hheap : s.heap 0 = true
  · rw [if_pos hheap]
    refine ⟨rfl, ?_, Nat.le_succ _, fun a ha => ?_⟩
    · refine openNumbers_congr rfl fun b hb => ?_
      have hne : b ≠ s.nextInode := (hbound b hb).ne
      simp [hne]
    · obtain rfl : s.nextInode = a := Option.some.inj ha
      exact ⟨rfl, Nat.lt_succ_self _⟩
  · rw [if_neg hheap]
    exact ⟨rfl, rfl, le_rfl, fun a ha => absurd ha (by simp)⟩

theorem ideRead_ok {lba off k : ℕ} {b b' : Buffer} (h : ideRead s lba b off k = .ok b') :
    b' = b.put off (512 * k) (slice s.disk (512 * lba)) := by
  have hspec : Returns (ideRead s lba b off k) fun b' =>
      b' = b.put off (512 * k) (slice s.disk (512 * lba)) :=
    returns_ensure fun _ => returns_ensure fun _ => returns_ensure fun _ => rfl
  exact hspec.of_ok h

/-- What is entered is an inode with the number in the record. -/
theorem inodeFinish_spec (o : Option InodePtr) (b : Option Buffer) :
    Returns (inodeFinish s n o b) fun r => o = some r.1 ∧ ∃ y, y.iNo = recordNumber s n ∧
      r.2 = s.enter r.1 y := by
  unfold inodeFinish
  by_cases hn : n.toNat < 4096
  · rw [inodeLocate_eq s hn, ok_bind]
    refine returns_skip fun buf => returns_bind fun buf' hread => returns_bind fun a ha => ?_
    refine ⟨deref_ok ha, _, ?_, rfl⟩
    rw [ideRead_ok hread]
    dsimp only [Buffer.put_bytes]
    unfold recordNumber
    by_cases htwo : 512 - n.toNat * inodeSize % 512 < inodeSize
    · rw [if_pos (decide_eq_true htwo), record_read s _ (by unfold inodeSize; omega)]
    · rw [if_neg (by simpa using htwo), record_read s _ (by omega)]
  · unfold inodeLocate
    rw [ensure_of_not hn]
    trivial

end Loading

section Runs

variable {s t s₀ : Loads} {p q : ℕ} {l m : Load} {a : InodePtr} {as : List (ℕ × OpenStep)}

/-- Nobody begins to load a number that another process is loading, a record holds the
number it is read for, and the number of a new file is neither open nor being loaded. -/
def NumbersApart (s : Loads) (c : ℕ × OpenStep) : Prop :=
  match c.2 with
  | .search n => ∀ q l, s.load q = some l → l.number ≠ n
  | .push => ∀ l, s.load c.1 = some l → recordNumber s.fs l.number = l.number
  | .create a => ∀ y, s.fs.inodes a = some y → y.iNo ∉ s.fs.openNumbers ∧
      ∀ q l, s.load q = some l → l.number ≠ y.iNo
  | _ => True

/-- The list has no number twice, and what is being loaded is not on it. -/
structure LoadsOk (s : Loads) : Prop where
  nodup : s.fs.openNumbers.Nodup
  bound : ∀ a ∈ s.fs.openInodes, a < s.fs.nextInode
  missing : ∀ p l, s.load p = some l → l.number ∉ s.fs.openNumbers
  single : ∀ p q l m, s.load p = some l → s.load q = some m → l.number = m.number → p = q
  object : ∀ p l a, s.load p = some l → l.object = some a →
    a ∉ s.fs.openInodes ∧ a < s.fs.nextInode
  own : ∀ p q l m a, s.load p = some l → s.load q = some m → l.object = some a →
    m.object = some a → p = q

/-- The loads stay as they are, the list shrinks or stays, and objects may be made. -/
theorem LoadsOk.shrink {u : State} (h : LoadsOk s) (hnum : u.openNumbers.Sublist s.fs.openNumbers)
    (hopen : u.openInodes ⊆ s.fs.openInodes) (hnext : s.fs.nextInode ≤ u.nextInode) :
    LoadsOk { s with fs := u } where
  nodup := h.nodup.sublist hnum
  bound a ha := (h.bound a (hopen ha)).trans_le hnext
  missing p l hl hmem := h.missing p l hl (hnum.subset hmem)
  single := h.single
  object p l a hl ha := by
    obtain ⟨hnew, hlt⟩ := h.object p l a hl ha
    exact ⟨fun hmem => hnew (hopen hmem), hlt.trans_le hnext⟩
  own := h.own

/-- A process goes to sleep over a record that nobody else reads. -/
theorem LoadsOk.sleep {u : State} {n : UInt32} {o : Option InodePtr} {b : Option Buffer}
    (h : LoadsOk s) (hfree : s.load p = none) (hnone : n ∉ s.fs.openNumbers)
    (hothers : ∀ q l, s.load q = some l → l.number ≠ n) (hopen : u.openInodes = s.fs.openInodes)
    (hnum : u.openNumbers = s.fs.openNumbers) (hnext : s.fs.nextInode ≤ u.nextInode)
    (hobject : ∀ a, o = some a → a = s.fs.nextInode ∧ a < u.nextInode) :
    LoadsOk ⟨u, Function.update s.load p (some ⟨n, o, b⟩)⟩ := by
  have hcases : ∀ q l, Function.update s.load p (some ⟨n, o, b⟩) q = some l →
      q = p ∧ l = ⟨n, o, b⟩ ∨ q ≠ p ∧ s.load q = some l := by
    intro q l hl
    by_cases hq : q = p
    · subst hq
      rw [Function.update_self] at hl
      exact Or.inl ⟨rfl, (Option.some.inj hl).symm⟩
    · rw [Function.update_of_ne hq] at hl
      exact Or.inr ⟨hq, hl⟩
  have hnew : ∀ a, o = some a → ∀ q l, s.load q = some l → l.object ≠ some a := by
    intro a ha q l hl hla
    have hlt := (h.object q l a hl hla).2
    rw [(hobject a ha).1] at hlt
    exact lt_irrefl _ hlt
  refine ⟨hnum ▸ h.nodup, fun a ha => ?_, fun q l hl => ?_, fun q r l m hl hm hno => ?_,
    fun q l a hl ha => ?_, fun q r l m a hl hm hla hma => ?_⟩
  · exact (h.bound a (hopen ▸ ha)).trans_le hnext
  · change l.number ∉ u.openNumbers
    rw [hnum]
    obtain ⟨rfl, rfl⟩ | ⟨-, hl⟩ := hcases q l hl
    · exact hnone
    · exact h.missing q l hl
  · obtain ⟨rfl, rfl⟩ | ⟨-, hl'⟩ := hcases q l hl
    · obtain ⟨rfl, -⟩ | ⟨-, hm'⟩ := hcases r m hm
      · rfl
      · exact absurd hno.symm (hothers r m hm')
    · obtain ⟨rfl, rfl⟩ | ⟨-, hm'⟩ := hcases r m hm
      · exact absurd hno (hothers q l hl')
      · exact h.single q r l m hl' hm' hno
  · change a ∉ u.openInodes ∧ a < u.nextInode
    rw [hopen]
    obtain ⟨rfl, rfl⟩ | ⟨-, hl⟩ := hcases q l hl
    · obtain ⟨hnextA, hlt⟩ := hobject a ha
      exact ⟨fun hmem => (h.bound a hmem).ne hnextA, hlt⟩
    · obtain ⟨hout, hlt⟩ := h.object q l a hl ha
      exact ⟨hout, hlt.trans_le hnext⟩
  · obtain ⟨rfl, rfl⟩ | ⟨-, hl'⟩ := hcases q l hl
    · obtain ⟨rfl, -⟩ | ⟨-, hm'⟩ := hcases r m hm
      · rfl
      · exact absurd hma (hnew a hla r m hm')
    · obtain ⟨rfl, rfl⟩ | ⟨-, hm'⟩ := hcases r m hm
      · exact absurd hla (hnew a hma q l hl')
      · exact h.own q r l m a hl' hm' hla hma

/-- An inode with a number that is neither open nor being loaded is entered. -/
theorem LoadsOk.enter {y : Inode} {f : ℕ → Option Load} (h : LoadsOk s)
    (hload : ∀ q l, f q = some l → s.load q = some l ∧ l.number ≠ y.iNo ∧ l.object ≠ some a)
    (ha : a ∉ s.fs.openInodes) (hlt : a < s.fs.nextInode) (hy : y.iNo ∉ s.fs.openNumbers) :
    LoadsOk ⟨s.fs.enter a y, f⟩ := by
  have hnum := openNumbers_enter (y := y) ha
  refine ⟨?_, fun b hb => ?_, fun q l hl => ?_, fun q r l m hl hm => ?_, fun q l b hl hb => ?_,
    fun q r l m b hl hm => ?_⟩
  · change (s.fs.enter a y).openNumbers.Nodup
    rw [hnum]
    exact List.nodup_cons.mpr ⟨hy, h.nodup⟩
  · rcases List.mem_cons.mp hb with rfl | hb
    · exact hlt
    · exact h.bound b hb
  · change l.number ∉ (s.fs.enter a y).openNumbers
    obtain ⟨hold, hne, -⟩ := hload q l hl
    rw [hnum, List.mem_cons, not_or]
    exact ⟨hne, h.missing q l hold⟩
  · exact h.single q r l m (hload q l hl).1 (hload r m hm).1
  · obtain ⟨hold, -, hobject⟩ := hload q l hl
    obtain ⟨hout, hb'⟩ := h.object q l b hold hb
    refine ⟨fun hmem => ?_, hb'⟩
    rcases List.mem_cons.mp hmem with rfl | hmem
    · exact hobject hb
    · exact hout hmem
  · exact h.own q r l m b (hload q l hl).1 (hload r m hm).1

theorem loadsOk_step {c : ℕ × OpenStep} (h : LoadsOk s) (hapart : NumbersApart s c)
    (hstep : loads.step s c t) : LoadsOk t := by
  obtain ⟨p, c⟩ := c
  cases c with
  | search n =>
    obtain ⟨hfree, hsearch⟩ := hstep
    have hspec : Returns (s.search p n) LoadsOk := by
      refine returns_bind fun o hfind => ?_
      cases o with
      | some a =>
        refine returns_bind fun x hx => ?_
        have hsame := openNumbers_store (deref_ok hx) (y := { x with
          iOpenCnts := x.iOpenCnts + 1 }) rfl
        exact h.shrink (hsame ▸ List.Sublist.refl _) (List.Subset.refl _) le_rfl
      | none =>
        refine Returns.bind (inodeBegin_spec h.bound) fun ⟨l, u⟩ hl => ?_
        obtain ⟨hopen, hnum, hnext, hobject⟩ := hl
        exact h.sleep hfree (notMem_of_findOpen hfind) hapart hopen hnum hnext hobject
    exact hspec.of_ok hsearch
  | push =>
    have hspec : Returns (s.push p) LoadsOk := by
      refine returns_bind fun l hl => ?_
      have hl : s.load p = some l := deref_ok hl
      refine Returns.bind (inodeFinish_spec _ _) fun ⟨a, u⟩ ha => ?_
      obtain ⟨hobject, y, hno, hu⟩ := ha
      obtain rfl : u = s.fs.enter a y := hu
      have hno : y.iNo = l.number := hno.trans (hapart l hl)
      obtain ⟨hout, hlt⟩ := h.object p l a hl hobject
      refine h.enter (fun q m hm => ?_) hout hlt (hno ▸ h.missing p l hl)
      have hq : q ≠ p := by
        rintro rfl
        rw [Function.update_self] at hm
        cases hm
      rw [Function.update_of_ne hq] at hm
      refine ⟨hm, fun heq => hq ?_, fun heq => hq (h.own q p m l a hm hl heq hobject)⟩
      exact h.single q p m l hm hl (heq.trans hno)
    exact hspec.of_ok hstep
  | close a =>
    obtain ⟨u, hclose, rfl⟩ := hstep
    obtain ⟨hnum, hopen, hnext⟩ := inodeClose_numbers hclose
    exact h.shrink hnum hopen hnext.ge
  | create a =>
    obtain ⟨hout, hlt, hown, y, hy, rfl⟩ := hstep
    obtain ⟨hnone, hothers⟩ := hapart y hy
    exact h.enter (fun q l hl => ⟨hl, hothers q l hl, hown q l hl⟩) hout hlt hnone
  | other =>
    obtain ⟨hquiet, hload⟩ := hstep
    have hnum := openNumbers_congr hquiet.openInodes hquiet.numbers
    have ht : t = { s with fs := t.fs } := by rw [← hload]
    rw [ht]
    exact h.shrink (hnum ▸ List.Sublist.refl _) (hquiet.openInodes ▸ List.Subset.refl _)
      hquiet.nextInode

theorem loadsOk_start (h : loads.start s) : LoadsOk s := by
  obtain ⟨⟨x, hx, hfs⟩, hnone⟩ := h
  have hload : ∀ p l, s.load p ≠ some l := fun p l hl => by
    rw [hnone p] at hl
    cases hl
  obtain ⟨y, hy, -⟩ := hx.rootOpen
  refine ⟨?_, fun a ha => ?_, fun p l hl => absurd hl (hload p l), fun p q l m hl => absurd hl (hload p l),
    fun p l a hl => absurd hl (hload p l), fun p q l m a hl => absurd hl (hload p l)⟩
  · unfold State.openNumbers
    rw [hfs, hx.openInodes, List.filterMap_cons, hy]
    exact List.nodup_singleton _
  · rw [hfs, hx.openInodes] at ha
    obtain rfl := List.mem_singleton.mp ha
    rw [hfs]
    exact hx.used _ y hy

/-- In a run in which numbers are kept apart, `open_inodes` has no number twice. -/
theorem open_inodes_unique (h₀ : loads.start s₀) (hrun : loads.RunWhere NumbersApart s₀ as s) :
    s.fs.openNumbers.Nodup :=
  (hrun.keeps (fun _ _ _ hs hg hst => loadsOk_step hs hg hst) (loadsOk_start h₀)).nodup

/-- Main opens the root directory, which is open already. -/
theorem open_inodes_unique_root : ∃ s, loads.Reachable s ∧ s.fs.openNumbers = [0] ∧
    s.fs.openNumbers.Nodup := by
  obtain ⟨t, ht, hroot⟩ : ∃ t, (⟨sampleSession.fs, fun _ => none⟩ : Loads).search 1 0 = .ok t ∧
      t.fs.openNumbers = [0] := by decide
  have h₀ : loads.start ⟨sampleSession.fs, fun _ => none⟩ :=
    ⟨⟨_, sampleSession_start, rfl⟩, fun _ => rfl⟩
  have hrun : loads.RunWhere NumbersApart ⟨sampleSession.fs, fun _ => none⟩
      [(1, .search 0)] t :=
    .snoc (l := []) .nil (fun q l hl => absurd hl (by simp)) ⟨rfl, ht⟩
  exact ⟨t, ⟨_, _, h₀, hrun.run⟩, hroot, open_inodes_unique h₀ hrun⟩

/-- Two processes look for inode 2 before either has read it. Without any other process, a
directory is removed while it is open and its number given to a new file. -/
theorem open_inodes_twice :
    (∃ s, loads.Reachable s ∧ ¬ s.fs.openNumbers.Nodup) ∧
    ∃ x, sessions.Reachable x ∧ ¬ x.fs.openNumbers.Nodup := by
  constructor
  · obtain ⟨s, hs, t, ht, u, hu, v, hv, hfree, htwice⟩ :
        ∃ s, (⟨sampleSession.fs, fun _ => none⟩ : Loads).search 1 2 = .ok s ∧
          ∃ t, s.search 2 2 = .ok t ∧ ∃ u, t.push 2 = .ok u ∧ ∃ v, u.push 1 = .ok v ∧
            (s.load 2).isNone = true ∧ ¬ v.fs.openNumbers.Nodup := by decide
    have h₀ : loads.Reachable ⟨sampleSession.fs, fun _ => none⟩ :=
      ⟨_, [], ⟨⟨_, sampleSession_start, rfl⟩, fun _ => rfl⟩, .nil⟩
    have h₁ := h₀.step (a := (1, OpenStep.search 2)) ⟨rfl, hs⟩
    have h₂ := h₁.step (a := (2, OpenStep.search 2)) ⟨Option.isNone_iff_eq_none.mp hfree, ht⟩
    have h₃ := h₂.step (a := (2, OpenStep.push)) hu
    exact ⟨v, h₃.step (a := (1, OpenStep.push)) hv, htwice⟩
  · obtain ⟨x, hx, htwice⟩ : ∃ x, sampleSession.exec [(1, .opendir pathD), (1, .rmdir pathD),
        (1, .open [slash, 0x67] 6)] = .ok x ∧ ¬ x.fs.openNumbers.Nodup := by decide +kernel
    exact ⟨x, ⟨_, _, sampleSession_start, exec_run hx⟩, htwice⟩

end Runs

end X86System.FileSystem
