import Mathlib.Data.List.TakeWhile
import Mathlib.Tactic.Common

/-!
# The pieces of a list between separators

The non-empty pieces of a list are its maximal stretches without a separator.
-/
namespace X86System.Pieces

variable {α : Type} [DecidableEq α] {sep : α} {l w : List α}

/-- The non-empty pieces of `l` between separators. -/
def pieces (sep : α) (l : List α) : List (List α) := (l.splitOn sep).filter (· ≠ [])

@[simp] theorem pieces_nil : pieces sep [] = [] := by simp [pieces]

theorem splitOn_sep (l : List α) : (sep :: l).splitOn sep = [] :: l.splitOn sep := by
  have hnil : sep ∉ ([] : List α) := List.not_mem_nil
  have h := List.splitOn_append_cons_self_of_not_mem hnil l
  rwa [List.nil_append] at h

/-- A separator in front changes nothing. -/
@[simp] theorem pieces_sep (l : List α) : pieces sep (sep :: l) = pieces sep l := by
  rw [pieces, splitOn_sep, List.filter_cons_of_neg (by simp)]
  rfl

/-- A piece and a separator stand in front of the rest. -/
theorem pieces_append_sep (hne : w ≠ []) (hw : sep ∉ w) (l : List α) :
    pieces sep (w ++ sep :: l) = w :: pieces sep l := by
  rw [pieces, List.splitOn_append_cons_self_of_not_mem hw, List.filter_cons_of_pos (by simpa)]
  rfl

/-- One piece. -/
theorem pieces_of_notMem (hne : w ≠ []) (hw : sep ∉ w) : pieces sep w = [w] := by
  rw [pieces, List.splitOn_eq_singleton hw, List.filter_cons_of_pos (by simpa), List.filter_nil]

/-- The separators in front do not count. -/
theorem pieces_dropWhile (l : List α) : pieces sep (l.dropWhile (· = sep)) = pieces sep l := by
  induction l with
  | nil => rfl
  | cons c l ih =>
    by_cases hc : c = sep
    · subst hc
      rw [List.dropWhile_cons_of_pos (by simp), ih, pieces_sep]
    · rw [List.dropWhile_cons_of_neg (by simpa)]

/-- The first piece, and the pieces behind it. -/
theorem pieces_takeWhile (hl : l ≠ []) (hhead : l.head? ≠ some sep) :
    pieces sep l = l.takeWhile (· ≠ sep) :: pieces sep (l.dropWhile (· ≠ sep)) := by
  have hnot : sep ∉ l.takeWhile (· ≠ sep) := by
    intro hmem
    have hall := List.all_takeWhile (p := (· ≠ sep)) (l := l)
    simpa using List.all_eq_true.mp hall sep hmem
  have hne : l.takeWhile (· ≠ sep) ≠ [] := by
    obtain ⟨c, l, rfl⟩ := List.exists_cons_of_ne_nil hl
    have hc : c ≠ sep := fun h => hhead (congrArg some h)
    rw [List.takeWhile_cons_of_pos (by simpa)]
    exact List.cons_ne_nil _ _
  have hjoin := List.takeWhile_append_dropWhile (p := fun c => decide (c ≠ sep)) (l := l)
  rcases hrest : l.dropWhile (· ≠ sep) with _ | ⟨b, r⟩
  · rw [hrest, List.append_nil] at hjoin
    rw [pieces_nil, hjoin]
    exact pieces_of_notMem (hjoin ▸ hne) (hjoin ▸ hnot)
  · obtain rfl : b = sep := by
      have hb := List.head?_dropWhile_not (p := fun c => decide (c ≠ sep)) (l := l)
      rw [hrest] at hb
      simpa using hb
    rw [hrest] at hjoin
    rw [pieces_sep, ← pieces_append_sep hne hnot, hjoin]

end X86System.Pieces
