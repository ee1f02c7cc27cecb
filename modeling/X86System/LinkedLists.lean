import X86System.Bitmap
import X86System.Library.Exec
import X86System.Library.Links

/-!
# Linked lists

A `struct list` has its first and its last element in it; what is on the list is linked in
between the two. The functions change and follow links, with no notion of which list an
element is on. That interrupts are off meanwhile is left out, as is what else a structure has
that an element is embedded in.
-/
namespace X86System.LinkedList
open Exec Links

abbrev Addr := UInt32

variable {σ ρ : Type}

section Source

def null : Addr := 0

/-- The members of each `struct list_elem`, by its address. -/
structure Heap where
  prev : Addr → Addr
  next : Addr → Addr

/-- `&plist->head` and `&plist->tail`. -/
def headOf (plist : Addr) : Addr := plist
def tailOf (plist : Addr) : Addr := plist + 8

namespace Heap

def loadPrev (h : Heap) (elem : Addr) : Except Fault Addr := do
  ensure Fault.page (elem ≠ null)
  .ok (h.prev elem)

def loadNext (h : Heap) (elem : Addr) : Except Fault Addr := do
  ensure Fault.page (elem ≠ null)
  .ok (h.next elem)

def storePrev (h : Heap) (elem p : Addr) : Except Fault Heap := do
  ensure Fault.page (elem ≠ null)
  .ok { h with prev := Function.update h.prev elem p }

def storeNext (h : Heap) (elem p : Addr) : Except Fault Heap := do
  ensure Fault.page (elem ≠ null)
  .ok { h with next := Function.update h.next elem p }

end Heap

def listInit (h : Heap) (plist : Addr) : Except Fault Heap := do
  let h ← h.storePrev (headOf plist) null
  let h ← h.storeNext (headOf plist) (tailOf plist)
  let h ← h.storePrev (tailOf plist) (headOf plist)
  h.storeNext (tailOf plist) null

def listInsertBefore (h : Heap) (before elem : Addr) : Except Fault Heap := do
  let p ← h.loadPrev before
  let h ← h.storeNext p elem
  let p ← h.loadPrev before
  let h ← h.storePrev elem p
  let h ← h.storeNext elem before
  h.storePrev before elem

def listPush (h : Heap) (plist elem : Addr) : Except Fault Heap := do
  let first ← h.loadNext (headOf plist)
  listInsertBefore h first elem

def listAppend (h : Heap) (plist elem : Addr) : Except Fault Heap :=
  listInsertBefore h (tailOf plist) elem

def listRemove (h : Heap) (pelem : Addr) : Except Fault Heap := do
  let p ← h.loadPrev pelem
  let n ← h.loadNext pelem
  let h ← h.storeNext p n
  let n ← h.loadNext pelem
  let p ← h.loadPrev pelem
  h.storePrev n p

def listPop (h : Heap) (plist : Addr) : Except Fault (Addr × Heap) := do
  let elem ← h.loadNext (headOf plist)
  let h ← listRemove h elem
  .ok (elem, h)

def listEmpty (h : Heap) (plist : Addr) : Except Fault Int32 := do
  let first ← h.loadNext (headOf plist)
  .ok (if first = tailOf plist then 1 else 0)

/-- `while (elem != &plist->tail) { body; elem = elem->next; }` for at most `fuel` tests. The body
goes on with a state or returns. -/
def whileElem (h : Heap) (plist : Addr) (body : σ → Addr → Except ρ σ) :
    ℕ → Addr → σ → Except Fault (Except ρ σ)
  | 0, _, _ => .error .diverge
  | fuel + 1, elem, s =>
    if elem ≠ tailOf plist then
      match body s elem with
      | .error r => .ok (.error r)
      | .ok s => do
        let n ← h.loadNext elem
        whileElem h plist body fuel n s
    else .ok (.ok s)

/-- The bodies of the loops of `list_len`, which never returns from it, of `list_traversal` and of
`elem_find`. -/
def lenBody (length : UInt32) (_ : Addr) : Except UInt32 UInt32 := .ok (length + 1)

def traversalBody (func : Addr → Int32 → σ → Int32 × σ) (arg : Int32) (s : σ) (elem : Addr) :
    Except (Addr × σ) σ :=
  if (func elem arg s).1 ≠ 0 then .error (elem, (func elem arg s).2) else .ok (func elem arg s).2

def findBody (objElem : Addr) (_ : Unit) (elem : Addr) : Except Int32 Unit :=
  if elem = objElem then .error 1 else .ok ()

def listLen (fuel : ℕ) (h : Heap) (plist : Addr) : Except Fault UInt32 := do
  let elem ← h.loadNext (headOf plist)
  match ← whileElem h plist lenBody fuel elem 0 with
  | .error r => .ok r
  | .ok length => .ok length

/-- `list_traversal` with a function that may change what `σ` stands for, but no links. -/
def listTraversal (fuel : ℕ) (h : Heap) (plist : Addr) (func : Addr → Int32 → σ → Int32 × σ)
    (arg : Int32) (s : σ) : Except Fault (Addr × σ) := do
  let elem ← h.loadNext (headOf plist)
  let empty ← listEmpty h plist
  if empty ≠ 0 then .ok (null, s)
  else
    match ← whileElem h plist (traversalBody func arg) fuel elem s with
    | .error r => .ok r
    | .ok s => .ok (null, s)

def elemFind (fuel : ℕ) (h : Heap) (plist objElem : Addr) : Except Fault Int32 := do
  let elem ← h.loadNext (headOf plist)
  match ← whileElem h plist (findBody objElem) fuel elem () with
  | .error r => .ok r
  | .ok _ => .ok 0

end Source

section Specification

variable {ι : Type}

/-- What is linked: the list's head, its elements and its tail. -/
def chain (plist : Addr) (xs : List Addr) : List Addr := headOf plist :: (xs ++ [tailOf plist])

/-- The list at `plist` represents `xs`. -/
structure Represents (h : Heap) (plist : Addr) (xs : List Addr) : Prop where
  linked : Linked h.next h.prev (chain plist xs)
  nodup : (chain plist xs).Nodup
  nonnull : null ∉ chain plist xs
  ends : h.prev (headOf plist) = null ∧ h.next (tailOf plist) = null

/-- Lists that represent sequences without a common element. -/
structure Lists (h : Heap) (plists : ι → Addr) (xs : ι → List Addr) : Prop where
  each : ∀ i, Represents h (plists i) (xs i)
  apart : ∀ i j, i ≠ j → List.Disjoint (chain (plists i) (xs i)) (chain (plists j) (xs j))

/-- An element on no list. -/
def Fresh (plists : ι → Addr) (xs : ι → List Addr) (elem : Addr) : Prop :=
  elem ≠ null ∧ ∀ i, elem ∉ chain (plists i) (xs i)

variable [DecidableEq ι]

/-- Afterwards list `i` represents `new`, and the other lists are what they were. -/
def Relinks (h : Heap) (plists : ι → Addr) (xs : ι → List Addr) (i : ι) (new : List Addr)
    (r : Except Fault Heap) : Prop :=
  ∃ h', r = .ok h' ∧ Lists h' plists (Function.update xs i new) ∧
    ∀ j, j ≠ i → ∀ a ∈ chain (plists j) (xs j), h'.next a = h.next a ∧ h'.prev a = h.prev a

/-- The first element of a sequence that `func` returns non-zero on, and what `func` did. -/
def firstMatch (func : Addr → Int32 → σ → Int32 × σ) (arg : Int32) : List Addr → σ → Addr × σ
  | [], s => (null, s)
  | elem :: xs, s =>
    if (func elem arg s).1 ≠ 0 then (elem, (func elem arg s).2)
    else firstMatch func arg xs (func elem arg s).2

end Specification

section Accesses

variable {h : Heap} {elem p : Addr}

theorem loadPrev_eq (hne : elem ≠ null) : h.loadPrev elem = .ok (h.prev elem) := by
  unfold Heap.loadPrev
  rw [ensure_of hne, ok_bind]

theorem loadNext_eq (hne : elem ≠ null) : h.loadNext elem = .ok (h.next elem) := by
  unfold Heap.loadNext
  rw [ensure_of hne, ok_bind]

theorem storePrev_eq (hne : elem ≠ null) :
    h.storePrev elem p = .ok { h with prev := Function.update h.prev elem p } := by
  unfold Heap.storePrev
  rw [ensure_of hne, ok_bind]

theorem storeNext_eq (hne : elem ≠ null) :
    h.storeNext elem p = .ok { h with next := Function.update h.next elem p } := by
  unfold Heap.storeNext
  rw [ensure_of hne, ok_bind]

/-- The stores of an insertion between `a` and `b`. -/
theorem listInsertBefore_eq {a b e : Addr} (ha : a ≠ null) (hb : b ≠ null) (he : e ≠ null)
    (hprev : h.prev b = a) : listInsertBefore h b e = .ok
      ⟨Function.update (Function.update h.prev e a) b e,
        Function.update (Function.update h.next a e) e b⟩ := by
  unfold listInsertBefore
  rw [loadPrev_eq hb, ok_bind, hprev, storeNext_eq ha, ok_bind, loadPrev_eq hb, ok_bind]
  dsimp only
  rw [hprev, storePrev_eq he, ok_bind, storeNext_eq he, ok_bind, storePrev_eq hb]

/-- The stores of a removal from between `a` and `b`. -/
theorem listRemove_eq {a b e : Addr} (ha : a ≠ null) (hb : b ≠ null) (he : e ≠ null)
    (hprev : h.prev e = a) (hnext : h.next e = b) (hea : e ≠ a) : listRemove h e = .ok
      ⟨Function.update h.prev b a, Function.update h.next a b⟩ := by
  unfold listRemove
  rw [loadPrev_eq he, ok_bind, loadNext_eq he, ok_bind, hprev, hnext, storeNext_eq ha, ok_bind,
    loadNext_eq he, ok_bind, loadPrev_eq he, ok_bind]
  dsimp only
  rw [Function.update_of_ne hea, hnext, hprev, storePrev_eq hb]

end Accesses

section Representation

variable {h h' : Heap} {plist elem : Addr} {xs ys zs : List Addr}

theorem mem_chain {a : Addr} : a ∈ chain plist xs ↔ a = headOf plist ∨ a ∈ xs ∨ a = tailOf plist := by
  simp [chain]

theorem headOf_ne_tailOf (plist : Addr) : headOf plist ≠ tailOf plist := by
  intro h
  have heq : plist.toNat = (plist + 8).toNat := congrArg UInt32.toNat h
  rw [UInt32.toNat_add] at heq
  have hlt := plist.toNat_lt
  change plist.toNat = (plist.toNat + 8) % 4294967296 at heq
  omega

theorem tail_notMem (hrep : Represents h plist xs) : tailOf plist ∉ xs := by
  intro hmem
  have hnodup := hrep.nodup.tail
  exact (List.nodup_append.mp hnodup).2.2 _ hmem _ List.mem_cons_self rfl

theorem head_ne_null (hrep : Represents h plist xs) : headOf plist ≠ null :=
  fun heq => hrep.nonnull (heq ▸ List.mem_cons_self)

/-- A place in the list: the neighbours `a` and `b`. -/
theorem chain_split (plist : Addr) (ys zs : List Addr) : ∃ l₁ a l₂,
    headOf plist :: ys = l₁ ++ [a] ∧ zs ++ [tailOf plist] = zs.headD (tailOf plist) :: l₂ ∧
      chain plist (ys ++ zs) = l₁ ++ a :: zs.headD (tailOf plist) :: l₂ ∧
      ∀ e, chain plist (ys ++ e :: zs) = l₁ ++ a :: e :: zs.headD (tailOf plist) :: l₂ := by
  obtain ⟨l₁, a, hleft⟩ : ∃ l₁ a, headOf plist :: ys = l₁ ++ [a] := by
    rcases List.eq_nil_or_concat (headOf plist :: ys) with hnil | ⟨l₁, a, hcat⟩
    · exact absurd hnil (List.cons_ne_nil _ _)
    · exact ⟨l₁, a, hcat.trans (List.concat_eq_append ..)⟩
  obtain ⟨l₂, hright⟩ : ∃ l₂, zs ++ [tailOf plist] = zs.headD (tailOf plist) :: l₂ := by
    cases zs with
    | nil => exact ⟨[], rfl⟩
    | cons b zs => exact ⟨zs ++ [tailOf plist], rfl⟩
  refine ⟨l₁, a, l₂, hleft, hright, ?_, fun e => ?_⟩
  · show headOf plist :: (ys ++ zs ++ [tailOf plist]) = _
    rw [List.append_assoc, hright, ← List.cons_append, hleft, List.append_assoc]
    rfl
  · show headOf plist :: (ys ++ e :: zs ++ [tailOf plist]) = _
    rw [List.append_assoc, List.cons_append, hright, ← List.cons_append, hleft, List.append_assoc]
    rfl

/-- What stands before a place is not what stands behind it. -/
theorem ne_of_split (hrep : Represents h plist (ys ++ zs)) {a b : Addr}
    (ha : a ∈ headOf plist :: ys) (hb : b ∈ zs ++ [tailOf plist]) : a ≠ b := by
  have hnodup := hrep.nodup
  unfold chain at hnodup
  rw [List.append_assoc, ← List.cons_append] at hnodup
  exact (List.nodup_append.mp hnodup).2.2 a ha b hb

/-- An insertion before the place between `ys` and `zs`. -/
theorem Represents.insert (hrep : Represents h plist (ys ++ zs)) (he : elem ≠ null)
    (hfresh : elem ∉ chain plist (ys ++ zs)) : ∃ h',
    listInsertBefore h (zs.headD (tailOf plist)) elem = .ok h' ∧
      Represents h' plist (ys ++ elem :: zs) ∧ ∀ c ∉ chain plist (ys ++ zs), c ≠ elem →
        h'.next c = h.next c ∧ h'.prev c = h.prev c := by
  obtain ⟨l₁, a, l₂, hleft, hright, hchain, hnew⟩ := chain_split plist ys zs
  have ha : a ∈ headOf plist :: ys := hleft ▸ List.mem_append_right l₁ List.mem_cons_self
  have hb : zs.headD (tailOf plist) ∈ zs ++ [tailOf plist] := hright ▸ List.mem_cons_self
  have hne := ne_of_split hrep ha hb
  have hheadb := ne_of_split hrep List.mem_cons_self hb
  have htaila := ne_of_split hrep ha (List.mem_append_right zs List.mem_cons_self)
  have hlinked := hrep.linked
  have hnodup := hrep.nodup
  have hnonnull := hrep.nonnull
  have hheade : headOf plist ≠ elem := fun h => hfresh (mem_chain.mpr (Or.inl h.symm))
  have htaile : tailOf plist ≠ elem := fun h => hfresh (mem_chain.mpr (Or.inr (Or.inr h.symm)))
  rw [hchain] at hlinked hnodup hnonnull hfresh ⊢
  have hanull : a ≠ null := fun h => hnonnull (h ▸ by simp)
  have hbnull : zs.headD (tailOf plist) ≠ null := fun h => hnonnull (h ▸ by simp)
  have hprev := (linked_split.mp hlinked).2.1.2
  refine ⟨_, listInsertBefore_eq hanull hbnull he hprev, ⟨?_, ?_, ?_, ?_, ?_⟩, fun c hc hce => ?_⟩
  · rw [hnew]
    exact hlinked.insert hnodup hfresh
  · rw [hnew, List.append_cons, List.perm_middle.nodup_iff, List.append_assoc, List.nodup_cons]
    exact ⟨hfresh, hnodup⟩
  · rw [hnew, List.append_cons, List.perm_middle.mem_iff, List.append_assoc, List.mem_cons, not_or]
    exact ⟨he.symm, hnonnull⟩
  · show Function.update (Function.update h.prev elem a) _ elem (headOf plist) = null
    rw [Function.update_of_ne hheadb, Function.update_of_ne hheade, hrep.ends.1]
  · show Function.update (Function.update h.next a elem) elem _ (tailOf plist) = null
    rw [Function.update_of_ne htaile, Function.update_of_ne htaila.symm, hrep.ends.2]
  · have hca : c ≠ a := fun h => hc (h ▸ by simp)
    have hcb : c ≠ zs.headD (tailOf plist) := fun h => hc (h ▸ by simp)
    constructor
    · show Function.update (Function.update h.next a elem) elem _ c = h.next c
      rw [Function.update_of_ne hce, Function.update_of_ne hca]
    · show Function.update (Function.update h.prev elem a) _ elem c = h.prev c
      rw [Function.update_of_ne hcb, Function.update_of_ne hce]

/-- A removal of an element. -/
theorem Represents.remove (hrep : Represents h plist (ys ++ elem :: zs)) : ∃ h',
    listRemove h elem = .ok h' ∧ Represents h' plist (ys ++ zs) ∧
      ∀ c ∉ chain plist (ys ++ elem :: zs), h'.next c = h.next c ∧ h'.prev c = h.prev c := by
  obtain ⟨l₁, a, l₂, hleft, hright, hnew, hchain⟩ := chain_split plist ys zs
  have hlinked := hrep.linked
  have hnodup := hrep.nodup
  have hnonnull := hrep.nonnull
  have ha : a ∈ headOf plist :: ys := hleft ▸ List.mem_append_right l₁ List.mem_cons_self
  have hb : zs.headD (tailOf plist) ∈ zs ++ [tailOf plist] := hright ▸ List.mem_cons_self
  have hbelem : zs.headD (tailOf plist) ∈ elem :: zs ++ [tailOf plist] :=
    List.mem_cons_of_mem elem hb
  have hne := ne_of_split hrep ha List.mem_cons_self
  have hheadb := ne_of_split hrep List.mem_cons_self hbelem
  have htaila := ne_of_split hrep ha (List.mem_append_right (elem :: zs) List.mem_cons_self)
  rw [hchain elem] at hlinked hnodup hnonnull ⊢
  have hanull : a ≠ null := fun h => hnonnull (h ▸ by simp)
  have henull : elem ≠ null := fun h => hnonnull (h ▸ by simp)
  have hbnull : zs.headD (tailOf plist) ≠ null := fun h => hnonnull (h ▸ by simp)
  obtain ⟨-, ⟨-, hprev⟩, hrest⟩ := linked_split.mp hlinked
  have hnext := (linked_cons_cons.mp hrest).1.1
  have hsub : List.Sublist (l₁ ++ a :: zs.headD (tailOf plist) :: l₂)
      (l₁ ++ a :: elem :: zs.headD (tailOf plist) :: l₂) :=
    List.Sublist.append_left (List.Sublist.cons_cons a (List.sublist_cons_self _ _)) l₁
  refine ⟨_, listRemove_eq hanull hbnull henull hprev hnext hne.symm, ⟨?_, ?_, ?_, ?_, ?_⟩,
    fun c hc => ?_⟩
  · rw [hnew]
    exact hlinked.remove hnodup
  · rw [hnew]
    exact hnodup.sublist hsub
  · rw [hnew]
    exact fun hmem => hnonnull (hsub.subset hmem)
  · show Function.update h.prev _ a (headOf plist) = null
    rw [Function.update_of_ne hheadb, hrep.ends.1]
  · show Function.update h.next a _ (tailOf plist) = null
    rw [Function.update_of_ne htaila.symm, hrep.ends.2]
  · have hca : c ≠ a := fun h => hc (h ▸ by simp)
    have hcb : c ≠ zs.headD (tailOf plist) := fun h => hc (h ▸ by simp)
    exact ⟨Function.update_of_ne hca _ _, Function.update_of_ne hcb _ _⟩

/-- `list_init` makes an empty list, and changes nothing but its ends. -/
theorem listInit_represents (h : Heap) (hhead : headOf plist ≠ null) (htail : tailOf plist ≠ null) :
    ∃ h', listInit h plist = .ok h' ∧ Represents h' plist [] ∧
      ∀ c ∉ chain plist [], h'.next c = h.next c ∧ h'.prev c = h.prev c := by
  have hne := headOf_ne_tailOf plist
  refine ⟨⟨Function.update (Function.update h.prev (headOf plist) null) (tailOf plist)
    (headOf plist), Function.update (Function.update h.next (headOf plist) (tailOf plist))
    (tailOf plist) null⟩, ?_, ⟨?_, ?_, ?_, ?_, ?_⟩, fun c hc => ?_⟩
  · unfold listInit
    rw [storePrev_eq hhead, ok_bind, storeNext_eq hhead, ok_bind, storePrev_eq htail, ok_bind,
      storeNext_eq htail]
  · refine linked_cons_cons.mpr ⟨⟨?_, ?_⟩, linked_singleton _ _ _⟩
    swap
    · show Function.update (Function.update h.prev _ _) (tailOf plist) _ (tailOf plist) = _
      rw [Function.update_self]
    show Function.update (Function.update h.next _ _) (tailOf plist) _ (headOf plist) = _
    rw [Function.update_of_ne hne, Function.update_self]
  · simp [chain, hne]
  · simp [chain, hhead.symm, htail.symm]
  · show Function.update (Function.update h.prev _ _) (tailOf plist) _ (headOf plist) = null
    rw [Function.update_of_ne hne, Function.update_self]
  · show Function.update (Function.update h.next _ _) (tailOf plist) _ (tailOf plist) = null
    rw [Function.update_self]
  · have hch : c ≠ headOf plist := fun h => hc (mem_chain.mpr (Or.inl h))
    have hct : c ≠ tailOf plist := fun h => hc (mem_chain.mpr (Or.inr (Or.inr h)))
    constructor
    · show Function.update (Function.update h.next _ _) _ _ c = h.next c
      rw [Function.update_of_ne hct, Function.update_of_ne hch]
    · show Function.update (Function.update h.prev _ _) _ _ c = h.prev c
      rw [Function.update_of_ne hct, Function.update_of_ne hch]

end Representation

section Families

variable {ι : Type} {h h' : Heap} {plists : ι → Addr} {xs : ι → List Addr} {plist elem : Addr}
  {l : List Addr}

/-- A list depends on its own links only. -/
theorem Represents.of_agree (hrep : Represents h plist l)
    (hsame : ∀ a ∈ chain plist l, h'.next a = h.next a ∧ h'.prev a = h.prev a) :
    Represents h' plist l := by
  have hhead : headOf plist ∈ chain plist l := List.mem_cons_self
  have htail : tailOf plist ∈ chain plist l := mem_chain.mpr (Or.inr (Or.inr rfl))
  refine ⟨hrep.linked.congr (fun a ha => (hsame a (List.dropLast_subset _ ha)).1) fun b hb =>
    (hsame b (List.mem_of_mem_tail hb)).2, hrep.nodup, hrep.nonnull, ?_, ?_⟩
  · rw [(hsame _ hhead).2, hrep.ends.1]
  · rw [(hsame _ htail).1, hrep.ends.2]

variable [DecidableEq ι] {i : ι} {new : List Addr} {r : Except Fault Heap}

/-- A change of list `i` alone. -/
theorem Lists.relinks (hlists : Lists h plists xs) (hres : r = .ok h')
    (hrep : Represents h' (plists i) new)
    (hframe : ∀ j, j ≠ i → ∀ a ∈ chain (plists j) (xs j), h'.next a = h.next a ∧ h'.prev a = h.prev a)
    (hnew : ∀ j, j ≠ i → List.Disjoint (chain (plists i) new) (chain (plists j) (xs j))) :
    Relinks h plists xs i new r := by
  refine ⟨h', hres, ⟨fun j => ?_, fun j k hjk => ?_⟩, hframe⟩
  · by_cases hj : j = i
    · subst hj
      rw [Function.update_self]
      exact hrep
    · rw [Function.update_of_ne hj]
      exact (hlists.each j).of_agree (hframe j hj)
  · by_cases hj : j = i
    · subst hj
      rw [Function.update_self, Function.update_of_ne (Ne.symm hjk)]
      exact hnew k (Ne.symm hjk)
    · rw [Function.update_of_ne hj]
      by_cases hk : k = i
      · subst hk
        rw [Function.update_self]
        exact (hnew j hj).symm
      · rw [Function.update_of_ne hk]
        exact hlists.apart j k hjk

variable {ys zs : List Addr}

theorem listInsertBefore_relinks (hlists : Lists h plists xs) (hxs : xs i = ys ++ zs)
    (hfresh : Fresh plists xs elem) : Relinks h plists xs i (ys ++ elem :: zs)
      (listInsertBefore h (zs.headD (tailOf (plists i))) elem) := by
  have hrep := hlists.each i
  have hnot := hfresh.2 i
  rw [hxs] at hrep hnot
  obtain ⟨h', hres, hrep', hframe⟩ := hrep.insert hfresh.1 hnot
  rw [← hxs] at hframe
  refine hlists.relinks hres hrep' (fun j hj a ha => hframe a (fun hmem => ?_) fun heq => ?_)
    fun j hj a ha haj => ?_
  · exact hlists.apart j i hj ha hmem
  · exact hfresh.2 j (heq ▸ ha)
  · by_cases heq : a = elem
    · exact hfresh.2 j (heq ▸ haj)
    · refine hlists.apart j i hj haj (mem_chain.mpr ?_)
      have hmem := mem_chain.mp ha
      simp only [List.mem_append, List.mem_cons] at hmem
      rw [hxs, List.mem_append]
      tauto

theorem listRemove_relinks (hlists : Lists h plists xs) (hxs : xs i = ys ++ elem :: zs) :
    Relinks h plists xs i (ys ++ zs) (listRemove h elem) := by
  have hrep := hlists.each i
  rw [hxs] at hrep
  obtain ⟨h', hres, hrep', hframe⟩ := hrep.remove
  rw [← hxs] at hframe
  refine hlists.relinks hres hrep' (fun j hj a ha => hframe a fun hmem => ?_) fun j hj a ha haj => ?_
  · exact hlists.apart j i hj ha hmem
  · refine hlists.apart j i hj haj (mem_chain.mpr ?_)
    have hmem := mem_chain.mp ha
    rw [List.mem_append] at hmem
    rw [hxs, List.mem_append, List.mem_cons]
    tauto

end Families

section Loops

variable {h : Heap} {plist : Addr} {xs zs : List Addr} {fuel : ℕ}

/-- The first element behind the head, or the tail. -/
theorem next_head (hrep : Represents h plist xs) :
    h.next (headOf plist) = xs.headD (tailOf plist) := by
  have hlinked := hrep.linked
  cases xs with
  | nil => exact (linked_cons_cons.mp hlinked).1.1
  | cons x xs => exact (linked_cons_cons.mp hlinked).1.1

/-- The loop runs its body on the represented elements in order. -/
theorem whileElem_eq (body : σ → Addr → Except ρ σ)
    (hlinked : Linked h.next h.prev (zs ++ [tailOf plist])) (htail : tailOf plist ∉ zs)
    (hnull : null ∉ zs) (hfuel : zs.length < fuel) (s : σ) :
    whileElem h plist body fuel (zs.headD (tailOf plist)) s = .ok (zs.foldlM body s) := by
  induction zs generalizing fuel s with
  | nil =>
    obtain ⟨fuel, rfl⟩ := Nat.exists_eq_succ_of_ne_zero (Nat.ne_zero_of_lt hfuel)
    exact if_neg (not_not.mpr rfl)
  | cons e zs ih =>
    obtain ⟨fuel, rfl⟩ := Nat.exists_eq_succ_of_ne_zero (Nat.ne_zero_of_lt hfuel)
    have hne : e ≠ tailOf plist := fun heq => htail (heq ▸ List.mem_cons_self)
    have henull : e ≠ null := fun heq => hnull (heq ▸ List.mem_cons_self)
    have hnext : h.next e = zs.headD (tailOf plist) := by
      cases zs with
      | nil => exact (linked_cons_cons.mp hlinked).1.1
      | cons x zs => exact (linked_cons_cons.mp hlinked).1.1
    have hrest : Linked h.next h.prev (zs ++ [tailOf plist]) := List.IsChain.tail hlinked
    rw [List.headD_cons, whileElem, if_pos hne, List.foldlM_cons]
    cases hbody : body s e with
    | error r => rfl
    | ok s =>
      dsimp only
      rw [loadNext_eq henull, ok_bind, hnext]
      exact ih hrest (fun hmem => htail (List.mem_cons_of_mem e hmem))
        (fun hmem => hnull (List.mem_cons_of_mem e hmem)) (Nat.lt_of_succ_lt_succ hfuel) s

/-- The loop over a whole list. -/
theorem whileElem_represents (hrep : Represents h plist xs) (hfuel : xs.length < fuel)
    (body : σ → Addr → Except ρ σ) (s : σ) :
    (h.loadNext (headOf plist) >>= fun elem => whileElem h plist body fuel elem s) =
      .ok (xs.foldlM body s) := by
  rw [loadNext_eq (head_ne_null hrep), ok_bind, next_head hrep]
  exact whileElem_eq body hrep.linked.tail (tail_notMem hrep)
    (fun hmem => hrep.nonnull (mem_chain.mpr (Or.inr (Or.inl hmem)))) hfuel s

end Loops

section Results

variable {h : Heap} {plist : Addr} {xs : List Addr} {fuel : ℕ}

theorem listEmpty_eq (hrep : Represents h plist xs) :
    listEmpty h plist = .ok (if xs = [] then 1 else 0) := by
  unfold listEmpty
  rw [loadNext_eq (head_ne_null hrep), ok_bind, next_head hrep]
  cases xs with
  | nil => rw [List.headD_nil, if_pos rfl, if_pos rfl]
  | cons x xs =>
    have hx : x ≠ tailOf plist := fun heq => tail_notMem hrep (heq ▸ List.mem_cons_self)
    rw [List.headD_cons, if_neg hx, if_neg (List.cons_ne_nil x xs)]

/-- There are fewer elements than addresses. -/
theorem length_lt (hrep : Represents h plist xs) : xs.length < 2 ^ 32 := by
  have hnodup : ((chain plist xs).map UInt32.toNat).Nodup :=
    hrep.nodup.map fun a b hab => UInt32.toNat_inj.mp hab
  have hsub : (chain plist xs).map UInt32.toNat ⊆ List.range (2 ^ 32) := by
    intro n hn
    obtain ⟨a, -, rfl⟩ := List.mem_map.mp hn
    exact List.mem_range.mpr a.toNat_lt
  have hle := (List.subperm_of_subset hnodup hsub).length_le
  rw [List.length_map, List.length_range, chain, List.length_cons, List.length_append,
    List.length_singleton] at hle
  omega

theorem count_eq (xs : List Addr) (n : UInt32) :
    xs.foldlM lenBody n = .ok (n + UInt32.ofNat xs.length) := by
  induction xs generalizing n with
  | nil =>
    show Except.ok n = .ok (n + 0)
    rw [UInt32.add_zero]
  | cons x xs ih =>
    rw [List.foldlM_cons, lenBody, ok_bind, ih, List.length_cons, UInt32.ofNat_add, UInt32.add_assoc,
      UInt32.add_comm 1]
    rfl

theorem listLen_eq (hrep : Represents h plist xs) (hfuel : xs.length < fuel) :
    ∃ n, listLen fuel h plist = .ok n ∧ n.toNat = xs.length := by
  have hloop := whileElem_represents hrep hfuel lenBody 0
  refine ⟨UInt32.ofNat xs.length, ?_, UInt32.toNat_ofNat_of_lt (length_lt hrep)⟩
  rw [count_eq, UInt32.zero_add, loadNext_eq (head_ne_null hrep), ok_bind] at hloop
  unfold listLen
  rw [loadNext_eq (head_ne_null hrep), ok_bind, hloop]
  rfl

theorem find_eq (obj : Addr) (xs : List Addr) :
    xs.foldlM (findBody obj) () = if obj ∈ xs then .error 1 else .ok () := by
  induction xs with
  | nil => rfl
  | cons x xs ih =>
    rw [List.foldlM_cons, findBody]
    by_cases hx : x = obj
    · rw [if_pos hx, if_pos (hx ▸ List.mem_cons_self)]
      rfl
    · have hmem : obj ∈ x :: xs ↔ obj ∈ xs := by
        rw [List.mem_cons, or_iff_right (Ne.symm hx)]
      rw [if_neg hx, ok_bind, ih]
      simp only [hmem]

theorem elemFind_eq (hrep : Represents h plist xs) (hfuel : xs.length < fuel) (obj : Addr) :
    elemFind fuel h plist obj = .ok (if obj ∈ xs then 1 else 0) := by
  have hloop := whileElem_represents hrep hfuel (findBody obj) ()
  rw [find_eq, loadNext_eq (head_ne_null hrep), ok_bind] at hloop
  unfold elemFind
  rw [loadNext_eq (head_ne_null hrep), ok_bind, hloop]
  by_cases hmem : obj ∈ xs
  · rw [if_pos hmem, if_pos hmem]
    rfl
  · rw [if_neg hmem, if_neg hmem]
    rfl

/-- What the loop of `list_traversal` comes to. -/
theorem firstMatch_eq (func : Addr → Int32 → σ → Int32 × σ) (arg : Int32) (xs : List Addr) (s : σ) :
    xs.foldlM (traversalBody func arg) s = .ok (firstMatch func arg xs s).2 ∧
        (firstMatch func arg xs s).1 = null ∨
      xs.foldlM (traversalBody func arg) s = .error (firstMatch func arg xs s) := by
  induction xs generalizing s with
  | nil => exact Or.inl ⟨rfl, rfl⟩
  | cons x xs ih =>
    rw [List.foldlM_cons, traversalBody, firstMatch]
    by_cases hx : (func x arg s).1 ≠ 0
    · rw [if_pos hx, if_pos hx]
      exact Or.inr rfl
    · rw [if_neg hx, if_neg hx, ok_bind]
      exact ih _

theorem listTraversal_eq (hrep : Represents h plist xs) (hfuel : xs.length < fuel)
    (func : Addr → Int32 → σ → Int32 × σ) (arg : Int32) (s : σ) :
    listTraversal fuel h plist func arg s = .ok (firstMatch func arg xs s) := by
  unfold listTraversal
  rw [loadNext_eq (head_ne_null hrep), ok_bind, listEmpty_eq hrep, ok_bind]
  by_cases hnil : xs = []
  · subst hnil
    rw [if_pos rfl, if_pos (by decide)]
    rfl
  · have hloop := whileElem_represents hrep hfuel (traversalBody func arg) s
    rw [loadNext_eq (head_ne_null hrep), ok_bind] at hloop
    rw [if_neg hnil, if_neg (by decide), hloop, ok_bind]
    rcases firstMatch_eq func arg xs s with ⟨hres, hnull⟩ | hres
    · rw [hres]
      show Except.ok (null, (firstMatch func arg xs s).2) = _
      rw [← hnull]
    · rw [hres]

/-- For a function without effects it is the first element that satisfies it. -/
theorem firstMatch_pure (p : Addr → Int32 → Int32) (arg : Int32) (xs : List Addr) (s : σ) :
    firstMatch (fun elem arg s => (p elem arg, s)) arg xs s =
      ((xs.find? fun elem => p elem arg ≠ 0).getD null, s) := by
  induction xs with
  | nil => rfl
  | cons x xs ih =>
    rw [firstMatch, List.find?_cons]
    by_cases hx : p x arg ≠ 0
    · rw [if_pos hx, decide_eq_true hx]
      rfl
    · rw [if_neg hx, decide_eq_false hx]
      exact ih

end Results

/-- The lists are sequences: insertion, removal and the rest do to the represented sequence what
they are named for, and nothing to the other lists. -/
theorem lists_refine_sequences {ι σ : Type} [DecidableEq ι] (h : Heap) (plists : ι → Addr)
    (xs : ι → List Addr) (hlists : Lists h plists xs) (i : ι) :
    (∀ elem, Fresh plists xs elem →
      Relinks h plists xs i (elem :: xs i) (listPush h (plists i) elem) ∧
      Relinks h plists xs i (xs i ++ [elem]) (listAppend h (plists i) elem) ∧
      ∀ ys zs, xs i = ys ++ zs → Relinks h plists xs i (ys ++ elem :: zs)
        (listInsertBefore h (zs.headD (tailOf (plists i))) elem)) ∧
    (∀ elem ∈ xs i, Relinks h plists xs i ((xs i).erase elem) (listRemove h elem)) ∧
    (∀ x rest, xs i = x :: rest →
      (listPop h (plists i)).map Prod.fst = .ok x ∧
      Relinks h plists xs i rest ((listPop h (plists i)).map Prod.snd)) ∧
    listEmpty h (plists i) = .ok (if xs i = [] then 1 else 0) ∧
    ∀ fuel, (xs i).length < fuel →
      (∃ n, listLen fuel h (plists i) = .ok n ∧ n.toNat = (xs i).length) ∧
      (∀ obj, elemFind fuel h (plists i) obj = .ok (if obj ∈ xs i then 1 else 0)) ∧
      (∀ func arg (s : σ), listTraversal fuel h (plists i) func arg s =
        .ok (firstMatch func arg (xs i) s)) ∧
      ∀ (p : Addr → Int32 → Int32) arg (s : σ),
        listTraversal fuel h (plists i) (fun elem arg s => (p elem arg, s)) arg s =
          .ok (((xs i).find? fun elem => p elem arg ≠ 0).getD null, s) := by
  have hrep := hlists.each i
  refine ⟨fun elem hfresh => ⟨?_, ?_, fun ys zs hxs => ?_⟩, fun elem helem => ?_,
    fun x rest hxs => ?_, listEmpty_eq hrep, fun fuel hfuel => ⟨listLen_eq hrep hfuel,
      elemFind_eq hrep hfuel, listTraversal_eq hrep hfuel, fun p arg s => ?_⟩⟩
  · unfold listPush
    rw [loadNext_eq (head_ne_null hrep), ok_bind, next_head hrep]
    exact listInsertBefore_relinks hlists (List.nil_append _).symm hfresh
  · exact listInsertBefore_relinks hlists (List.append_nil _).symm hfresh
  · exact listInsertBefore_relinks hlists hxs hfresh
  · obtain ⟨ys, zs, hxs, hys⟩ := List.eq_append_cons_of_mem helem
    rw [hxs, List.erase_append_right _ hys, List.erase_cons_head]
    exact listRemove_relinks hlists hxs
  · obtain ⟨h', hres, hafter⟩ := listRemove_relinks hlists (show xs i = [] ++ x :: rest from hxs)
    have hpop : listPop h (plists i) = .ok (x, h') := by
      unfold listPop
      rw [loadNext_eq (head_ne_null hrep), ok_bind, next_head hrep, hxs, List.headD_cons, hres]
      rfl
    rw [hpop]
    exact ⟨rfl, h', rfl, hafter⟩
  · rw [listTraversal_eq hrep hfuel, firstMatch_pure]

/-- Two lists, one of them with an element; another one is pushed. -/
theorem lists_refine_sequences_sample : ∃ (h : Heap) (plists : Bool → Addr)
    (xs : Bool → List Addr), xs true = [128] ∧ xs false = [] ∧
      Relinks h plists xs true [256, 128] (listPush h (plists true) 256) := by
  obtain ⟨h, hone, hnone⟩ : ∃ h, Represents h 16 [128] ∧ Represents h 64 [] :=
    ⟨⟨fun a => if a = 24 then 128 else if a = 128 then 16 else if a = 72 then 64 else 0,
      fun a => if a = 16 then 128 else if a = 128 then 24 else if a = 64 then 72 else 0⟩,
      ⟨by unfold Linked; decide, by decide, by decide, by decide⟩,
      ⟨by unfold Linked; decide, by decide, by decide, by decide⟩⟩
  have hlists : Lists h (fun b : Bool => cond b 16 64) (fun b : Bool => cond b [128] []) := by
    refine ⟨fun b => ?_, fun b c hbc => ?_⟩
    · cases b
      · exact hnone
      · exact hone
    · have hapart : ∀ a ∈ chain 64 [], a ∉ chain 16 [128] := by
        intro a ha
        rcases mem_chain.mp ha with rfl | hnil | rfl
        · decide
        · cases hnil
        · decide
      cases b <;> cases c
      · exact absurd rfl hbc
      · exact fun a ha haj => hapart a ha haj
      · exact fun a ha haj => hapart a haj ha
      · exact absurd rfl hbc
  have hfresh : Fresh (fun b : Bool => cond b 16 64) (fun b : Bool => cond b [128] []) 256 := by
    refine ⟨by decide, fun b => ?_⟩
    cases b <;> decide
  exact ⟨h, _, _, rfl, rfl,
    ((lists_refine_sequences (σ := Unit) h _ _ hlists true).1 256 hfresh).1⟩

end X86System.LinkedList
