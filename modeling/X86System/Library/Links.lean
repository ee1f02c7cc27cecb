import Mathlib.Data.List.Chain
import Mathlib.Tactic.Common

/-!
# Doubly linked sequences

Two functions, from an element to the next one and to the previous one, link a sequence
when they are inverse to each other along it. An element is linked in between two
neighbours, or out from between them, by changing the links of these alone.
-/
namespace X86System.Links

variable {α : Type} {next prev next' prev' : α → α} {a b e : α} {l l₁ l₂ : List α}

/-- The links along `l` lead from each element to the next and back. -/
def Linked (next prev : α → α) (l : List α) : Prop :=
  l.IsChain fun a b => next a = b ∧ prev b = a

theorem linked_singleton (next prev : α → α) (a : α) : Linked next prev [a] :=
  List.isChain_singleton a

theorem linked_split : Linked next prev (l₁ ++ a :: b :: l₂) ↔
    Linked next prev (l₁ ++ [a]) ∧ (next a = b ∧ prev b = a) ∧ Linked next prev (b :: l₂) :=
  List.isChain_append_cons_cons

theorem linked_cons_cons : Linked next prev (a :: b :: l) ↔
    (next a = b ∧ prev b = a) ∧ Linked next prev (b :: l) :=
  List.isChain_cons_cons

/-- The link out of the last element and the link into the first do not matter. -/
theorem Linked.congr (h : Linked next prev l) (hnext : ∀ a ∈ l.dropLast, next' a = next a)
    (hprev : ∀ b ∈ l.tail, prev' b = prev b) : Linked next' prev' l := by
  induction l with
  | nil => exact List.isChain_nil
  | cons a l ih =>
    cases l with
    | nil => exact linked_singleton next' prev' a
    | cons b l =>
      obtain ⟨⟨hab, hba⟩, hrest⟩ := linked_cons_cons.mp h
      rw [List.dropLast_cons_cons] at hnext
      refine linked_cons_cons.mpr ⟨⟨?_, ?_⟩, ih hrest (fun c hc => hnext c ?_) fun c hc => ?_⟩
      · rw [hnext a List.mem_cons_self, hab]
      · rw [hprev b List.mem_cons_self, hba]
      · exact List.mem_cons_of_mem a hc
      · exact hprev c (List.mem_cons_of_mem b hc)

/-- The part before a change of the links behind it. -/
theorem Linked.congr_left (h : Linked next prev (l₁ ++ [a]))
    (hnext : ∀ c ∈ l₁, next' c = next c) (hprev : ∀ c ∈ l₁ ++ [a], prev' c = prev c) :
    Linked next' prev' (l₁ ++ [a]) := by
  refine h.congr (fun c hc => hnext c ?_) fun c hc => hprev c (List.mem_of_mem_tail hc)
  rwa [List.dropLast_concat] at hc

/-- The part behind a change of the links before it. -/
theorem Linked.congr_right (h : Linked next prev (b :: l₂))
    (hnext : ∀ c ∈ b :: l₂, next' c = next c) (hprev : ∀ c ∈ l₂, prev' c = prev c) :
    Linked next' prev' (b :: l₂) :=
  h.congr (fun c hc => hnext c (List.dropLast_subset _ hc)) hprev

variable [DecidableEq α]

/-- Link `e` in between `a` and `b`. -/
theorem Linked.insert (h : Linked next prev (l₁ ++ a :: b :: l₂))
    (hnodup : (l₁ ++ a :: b :: l₂).Nodup) (he : e ∉ l₁ ++ a :: b :: l₂) :
    Linked (Function.update (Function.update next a e) e b)
      (Function.update (Function.update prev e a) b e) (l₁ ++ a :: e :: b :: l₂) := by
  simp only [List.mem_append, List.mem_cons, not_or] at he
  simp only [List.nodup_append, List.nodup_cons, List.mem_cons, not_or] at hnodup
  obtain ⟨he₁, hea, heb, he₂⟩ := he
  obtain ⟨-, ⟨⟨hab, ha₂⟩, hb₂, -⟩, hapart⟩ := hnodup
  obtain ⟨hleft, -, hright⟩ := linked_split.mp h
  refine linked_split.mpr ⟨hleft.congr_left (fun c hc => ?_) fun c hc => ?_, ⟨?_, ?_⟩,
    linked_cons_cons.mpr ⟨⟨?_, ?_⟩, hright.congr_right (fun c hc => ?_) fun c hc => ?_⟩⟩
  · have hce : c ≠ e := fun heq => he₁ (heq ▸ hc)
    have hca : c ≠ a := hapart c hc a (Or.inl rfl)
    rw [Function.update_of_ne hce, Function.update_of_ne hca]
  · have hcb : c ≠ b := by
      rcases List.mem_append.mp hc with hc | hc
      · exact hapart c hc b (Or.inr (Or.inl rfl))
      · exact List.mem_singleton.mp hc ▸ hab
    have hce : c ≠ e := by
      rcases List.mem_append.mp hc with hc | hc
      · exact fun heq => he₁ (heq ▸ hc)
      · exact List.mem_singleton.mp hc ▸ Ne.symm hea
    rw [Function.update_of_ne hcb, Function.update_of_ne hce]
  · rw [Function.update_of_ne (Ne.symm hea), Function.update_self]
  · rw [Function.update_of_ne heb, Function.update_self]
  · exact Function.update_self ..
  · exact Function.update_self ..
  · have hce : c ≠ e := by
      rcases List.mem_cons.mp hc with rfl | hc
      · exact Ne.symm heb
      · exact fun heq => he₂ (heq ▸ hc)
    have hca : c ≠ a := by
      rcases List.mem_cons.mp hc with rfl | hc
      · exact Ne.symm hab
      · exact fun heq => ha₂ (heq ▸ hc)
    rw [Function.update_of_ne hce, Function.update_of_ne hca]
  · have hcb : c ≠ b := fun heq => hb₂ (heq ▸ hc)
    have hce : c ≠ e := fun heq => he₂ (heq ▸ hc)
    rw [Function.update_of_ne hcb, Function.update_of_ne hce]

/-- Link `e` out from between `a` and `b`. -/
theorem Linked.remove (h : Linked next prev (l₁ ++ a :: e :: b :: l₂))
    (hnodup : (l₁ ++ a :: e :: b :: l₂).Nodup) :
    Linked (Function.update next a b) (Function.update prev b a) (l₁ ++ a :: b :: l₂) := by
  simp only [List.nodup_append, List.nodup_cons, List.mem_cons, not_or] at hnodup
  obtain ⟨-, ⟨⟨-, hab, ha₂⟩, -, hb₂, -⟩, hapart⟩ := hnodup
  obtain ⟨hleft, -, hrest⟩ := linked_split.mp h
  obtain ⟨-, hright⟩ := linked_cons_cons.mp hrest
  refine linked_split.mpr ⟨hleft.congr_left (fun c hc => ?_) fun c hc => ?_, ⟨?_, ?_⟩,
    hright.congr_right (fun c hc => ?_) fun c hc => ?_⟩
  · exact Function.update_of_ne (hapart c hc a (Or.inl rfl)) _ _
  · have hcb : c ≠ b := by
      rcases List.mem_append.mp hc with hc | hc
      · exact hapart c hc b (Or.inr (Or.inr (Or.inl rfl)))
      · exact List.mem_singleton.mp hc ▸ hab
    exact Function.update_of_ne hcb _ _
  · exact Function.update_self ..
  · exact Function.update_self ..
  · have hca : c ≠ a := by
      rcases List.mem_cons.mp hc with rfl | hc
      · exact Ne.symm hab
      · exact fun heq => ha₂ (heq ▸ hc)
    exact Function.update_of_ne hca _ _
  · have hcb : c ≠ b := fun heq => hb₂ (heq ▸ hc)
    exact Function.update_of_ne hcb _ _

end X86System.Links
