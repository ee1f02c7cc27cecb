import Mathlib.Logic.Function.Basic
import Mathlib.Data.Set.Basic
import Mathlib.Tactic.Common

/-!
# Ledgers of exclusive ownership

A ledger says which resource each owner holds, if any; no resource is held by two
owners. Resources are given, moved to another owner and given back.
-/
namespace X86System

/-- A partial function under which no two owners hold the same resource. -/
structure Ledger (α β : Type) where
  owns : α → Option β
  inj : ∀ {a b : α} {x : β}, owns a = some x → owns b = some x → a = b

namespace Ledger

variable {α β : Type} (L : Ledger α β) {a b : α} {x : β}

/-- Nobody holds `x`. -/
def Unowned (x : β) : Prop := ∀ a, L.owns a ≠ some x

variable [DecidableEq α]

/-- Owner `a` takes a resource that nobody holds. -/
def give (a : α) (x : β) (h : L.Unowned x) : Ledger α β where
  owns := Function.update L.owns a (some x)
  inj := by
    intro b c y hb hc
    simp only [Function.update_apply] at hb hc
    split_ifs at hb hc with h1 h2 h2
    · rw [h1, h2]
    · obtain rfl := Option.some.inj hb
      exact absurd hc (h c)
    · obtain rfl := Option.some.inj hc
      exact absurd hb (h b)
    · exact L.inj hb hc

/-- Owner `a` gives back what it holds. -/
def drop (a : α) : Ledger α β where
  owns := Function.update L.owns a none
  inj := by
    intro b c y hb hc
    simp only [Function.update_apply] at hb hc
    split_ifs at hb hc with h1 h2
    exact L.inj hb hc

/-- What `a` holds goes to `b`. -/
def move (a b : α) : Ledger α β where
  owns c := if c = b then L.owns a else if c = a then none else L.owns c
  inj := by
    intro c d y hc hd
    split_ifs at hc hd with h1 h2 h3 h4 h5
    · rw [h1, h2]
    · exact absurd (L.inj hd hc) h3
    · exact absurd (L.inj hc hd) h4
    · exact L.inj hc hd

theorem give_owns (h : L.Unowned x) (c : α) :
    (L.give a x h).owns c = if c = a then some x else L.owns c := by
  simp [give, Function.update_apply]

@[simp] theorem give_owns_self (h : L.Unowned x) : (L.give a x h).owns a = some x := by
  simp [give_owns]

theorem give_owns_of_ne (h : L.Unowned x) {c : α} (hc : c ≠ a) :
    (L.give a x h).owns c = L.owns c := by
  simp [give_owns, hc]

theorem drop_owns (c : α) : (L.drop a).owns c = if c = a then none else L.owns c := by
  simp [drop, Function.update_apply]

@[simp] theorem drop_owns_self : (L.drop a).owns a = none := by
  simp [drop_owns]

theorem drop_owns_of_ne {c : α} (hc : c ≠ a) : (L.drop a).owns c = L.owns c := by
  simp [drop_owns, hc]

/-- What one owner held is free once it gave it back. -/
theorem drop_unowned (h : L.owns a = some x) : (L.drop a).Unowned x := by
  intro c hc
  rw [drop_owns] at hc
  split_ifs at hc with hs
  exact hs (L.inj hc h)

theorem move_owns (c : α) :
    (L.move a b).owns c = if c = b then L.owns a else if c = a then none else L.owns c := rfl

@[simp] theorem move_owns_target : (L.move a b).owns b = L.owns a := by
  simp [move_owns]

theorem move_owns_source (h : a ≠ b) : (L.move a b).owns a = none := by
  simp [move_owns, h]

theorem move_owns_of_ne {c : α} (ha : c ≠ a) (hb : c ≠ b) :
    (L.move a b).owns c = L.owns c := by
  simp [move_owns, ha, hb]

/-- Moving to an owner that held nothing keeps the set of resources in use. -/
theorem exists_move_owns (hb : L.owns b = none) (p : α → Prop) (hp : p a ↔ p b) (x : β) :
    (∃ c, p c ∧ (L.move a b).owns c = some x) ↔ ∃ c, p c ∧ L.owns c = some x := by
  constructor
  · intro ⟨c, hc, hx⟩
    rw [move_owns] at hx
    split_ifs at hx with h1 h2
    · exact ⟨a, hp.mpr (h1 ▸ hc), hx⟩
    · exact ⟨c, hc, hx⟩
  · intro ⟨c, hc, hx⟩
    by_cases h1 : c = a
    · exact ⟨b, hp.mp (h1 ▸ hc), by rw [move_owns_target, ← h1, hx]⟩
    · have h2 : c ≠ b := by
        rintro rfl
        rw [hb] at hx
        cases hx
      exact ⟨c, hc, by rw [move_owns_of_ne L h1 h2, hx]⟩

end Ledger

end X86System
