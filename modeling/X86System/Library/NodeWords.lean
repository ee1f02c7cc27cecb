import X86System.Library.Links
import Mathlib.Logic.Function.Basic

/-!
# Linked nodes in words of memory

A node is two words, the address of the previous node and that of the next one. Nodes that
do not overlap are linked in and out by writing these words alone.
-/
namespace X86System.NodeWords
open Links

/-- The two words of the node at an address. -/
def prevIn (mem : ℕ → ℕ) (a : ℕ) : ℕ := mem a
def nextIn (mem : ℕ → ℕ) (a : ℕ) : ℕ := mem (a + 4)

/-- The nodes at the addresses `l` are linked in this order. -/
def Threaded (mem : ℕ → ℕ) (l : List ℕ) : Prop := Linked (nextIn mem) (prevIn mem) l

/-- No node starts inside of another one. -/
def Spaced (l : List ℕ) : Prop := ∀ x ∈ l, ∀ y ∈ l, y ≠ x + 4

/-- What is written to link `e` in between `a` and `b`. -/
def link (mem : ℕ → ℕ) (a e b : ℕ) : ℕ → ℕ :=
  Function.update (Function.update (Function.update (Function.update mem (a + 4) e) e a) (e + 4) b)
    b e

/-- What is written to link out what is between `a` and `b`. -/
def unlink (mem : ℕ → ℕ) (a b : ℕ) : ℕ → ℕ :=
  Function.update (Function.update mem (a + 4) b) b a

section Words

variable {mem mem' : ℕ → ℕ} {l l₁ l₂ : List ℕ} {a b e x : ℕ}

theorem link_of_ne (ha : x ≠ a + 4) (he : x ≠ e) (he' : x ≠ e + 4) (hb : x ≠ b) :
    link mem a e b x = mem x := by
  unfold link
  rw [Function.update_of_ne hb, Function.update_of_ne he', Function.update_of_ne he,
    Function.update_of_ne ha]

theorem unlink_of_ne (ha : x ≠ a + 4) (hb : x ≠ b) : unlink mem a b x = mem x := by
  unfold unlink
  rw [Function.update_of_ne hb, Function.update_of_ne ha]

theorem Spaced.mono (h : Spaced l₂) (hsub : l₁ ⊆ l₂) : Spaced l₁ :=
  fun x hx y hy => h x (hsub hx) y (hsub hy)

/-- The words of the nodes decide whether they are linked. -/
theorem Threaded.congr (h : Threaded mem l)
    (heq : ∀ x ∈ l, mem' x = mem x ∧ mem' (x + 4) = mem (x + 4)) : Threaded mem' l :=
  Linked.congr h (fun x hx => (heq x (List.dropLast_subset l hx)).2)
    fun x hx => (heq x (List.mem_of_mem_tail hx)).1

/-- Two nodes that follow each other. -/
theorem Threaded.neighbours (h : Threaded mem (l₁ ++ a :: b :: l₂)) :
    mem (a + 4) = b ∧ mem b = a :=
  (linked_split.mp h).2.1

theorem Threaded.append_cons (h : Threaded mem (l₁ ++ a :: l₂)) : Threaded mem (l₁ ++ [a] ++ l₂) := by
  rwa [List.append_assoc, List.singleton_append]

theorem Threaded.link (h : Threaded mem (l₁ ++ a :: b :: l₂))
    (hnodup : (l₁ ++ a :: e :: b :: l₂).Nodup) (hspaced : Spaced (l₁ ++ a :: e :: b :: l₂)) :
    Threaded (link mem a e b) (l₁ ++ a :: e :: b :: l₂) := by
  have ha : a ∈ l₁ ++ a :: e :: b :: l₂ := by simp
  have he : e ∈ l₁ ++ a :: e :: b :: l₂ := by simp
  have hb : b ∈ l₁ ++ a :: e :: b :: l₂ := by simp
  have hperm : (l₁ ++ a :: e :: b :: l₂).Perm (e :: (l₁ ++ a :: b :: l₂)) := by
    have hcat : l₁ ++ a :: e :: b :: l₂ = (l₁ ++ [a]) ++ e :: (b :: l₂) := by simp
    have hcat' : l₁ ++ a :: b :: l₂ = (l₁ ++ [a]) ++ (b :: l₂) := by simp
    rw [hcat, hcat']
    exact List.perm_middle
  obtain ⟨hnew, hold⟩ := List.nodup_cons.mp (hperm.nodup_iff.mp hnodup)
  refine (Linked.insert h hold hnew).congr (fun x hx => ?_) fun x hx => ?_
  · replace hx := List.dropLast_subset _ hx
    have hxb : x + 4 ≠ b := fun heq => hspaced x hx b hb heq.symm
    have hxe : x + 4 ≠ e := fun heq => hspaced x hx e he heq.symm
    unfold nextIn NodeWords.link
    rw [Function.update_of_ne hxb]
    by_cases hx1 : x = e
    · rw [hx1, Function.update_self, Function.update_self]
    · rw [Function.update_of_ne (by omega), Function.update_of_ne hxe, Function.update_of_ne hx1]
      by_cases hx2 : x = a
      · rw [hx2, Function.update_self, Function.update_self]
      · rw [Function.update_of_ne (by omega), Function.update_of_ne hx2]
  · replace hx := List.mem_of_mem_tail hx
    have hxa : x ≠ a + 4 := hspaced a ha x hx
    have hxe : x ≠ e + 4 := hspaced e he x hx
    unfold prevIn NodeWords.link
    by_cases hx1 : x = b
    · rw [hx1, Function.update_self, Function.update_self]
    · rw [Function.update_of_ne hx1, Function.update_of_ne hx1, Function.update_of_ne hxe]
      by_cases hx2 : x = e
      · rw [hx2, Function.update_self, Function.update_self]
      · rw [Function.update_of_ne hx2, Function.update_of_ne hx2, Function.update_of_ne hxa]

theorem Threaded.unlink (h : Threaded mem (l₁ ++ a :: e :: b :: l₂))
    (hnodup : (l₁ ++ a :: e :: b :: l₂).Nodup) (hspaced : Spaced (l₁ ++ a :: e :: b :: l₂)) :
    Threaded (unlink mem a b) (l₁ ++ a :: b :: l₂) := by
  have hsub : l₁ ++ a :: b :: l₂ ⊆ l₁ ++ a :: e :: b :: l₂ := by
    intro x hx
    simp only [List.mem_append, List.mem_cons] at hx ⊢
    tauto
  have hspaced' := hspaced.mono hsub
  have ha : a ∈ l₁ ++ a :: b :: l₂ := by simp
  have hb : b ∈ l₁ ++ a :: b :: l₂ := by simp
  refine (Linked.remove h hnodup).congr (fun x hx => ?_) fun x hx => ?_
  · replace hx := List.dropLast_subset _ hx
    have hxb : x + 4 ≠ b := fun heq => hspaced' x hx b hb heq.symm
    unfold nextIn NodeWords.unlink
    rw [Function.update_of_ne hxb]
    by_cases hx1 : x = a
    · rw [hx1, Function.update_self, Function.update_self]
    · rw [Function.update_of_ne (by omega), Function.update_of_ne hx1]
  · replace hx := List.mem_of_mem_tail hx
    have hxa : x ≠ a + 4 := hspaced' a ha x hx
    unfold prevIn NodeWords.unlink
    by_cases hx1 : x = b
    · rw [hx1, Function.update_self, Function.update_self]
    · rw [Function.update_of_ne hx1, Function.update_of_ne hx1, Function.update_of_ne hxa]

end Words

end X86System.NodeWords
