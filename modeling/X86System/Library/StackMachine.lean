import Mathlib.Data.List.Induction
import Mathlib.Data.List.Nodup
import Mathlib.Logic.Function.Basic
import Mathlib.Tactic.Common

/-!
# A machine with a stack

A machine has registers and a memory of words, four bytes each. One register points to the
stack, which grows downwards. What is known of the memory is stated as lists of words from an
address upwards.
-/
namespace X86System.StackMachine

/-- The words from an address upwards. -/
def Holds (m : ℕ → ℕ) : ℕ → List ℕ → Prop
  | _, [] => True
  | a, w :: ws => m a = w ∧ Holds m (a + 4) ws

variable {m m' : ℕ → ℕ} {a b v : ℕ} {ws vs : List ℕ}

@[simp] theorem holds_nil : Holds m a [] := trivial

@[simp] theorem holds_cons : Holds m a (v :: ws) ↔ m a = v ∧ Holds m (a + 4) ws := Iff.rfl

theorem holds_append : Holds m a (ws ++ vs) ↔ Holds m a ws ∧ Holds m (a + 4 * ws.length) vs := by
  induction ws generalizing a with
  | nil => simp
  | cons w ws ih =>
    rw [List.cons_append, holds_cons, holds_cons, ih, List.length_cons, and_assoc,
      show a + 4 + 4 * ws.length = a + 4 * (ws.length + 1) by omega]

/-- Only the words themselves matter. -/
theorem Holds.congr (h : Holds m a ws)
    (heq : ∀ x, a ≤ x → x < a + 4 * ws.length → m' x = m x) : Holds m' a ws := by
  induction ws generalizing a with
  | nil => trivial
  | cons w ws ih =>
    obtain ⟨hw, hws⟩ := h
    rw [List.length_cons] at heq
    refine ⟨(heq a (Nat.le_refl _) (by omega)).trans hw, ih hws fun x hx hlt => heq x ?_ ?_⟩
    · omega
    · omega

theorem Holds.store (h : Holds m a ws) (hb : b < a ∨ a + 4 * ws.length ≤ b) :
    Holds (Function.update m b v) a ws :=
  h.congr fun x hx hlt => Function.update_of_ne (by omega) _ _

/-- The same words in another place. -/
theorem Holds.shift (h : Holds m a ws) (heq : ∀ i, i < 4 * ws.length → m' (b + i) = m (a + i)) :
    Holds m' b ws := by
  induction ws generalizing a b with
  | nil => trivial
  | cons w ws ih =>
    obtain ⟨hw, hws⟩ := h
    rw [List.length_cons] at heq
    refine ⟨(heq 0 (by omega)).trans hw, ih hws fun i hi => ?_⟩
    have hi' := heq (4 + i) (by omega)
    rwa [← Nat.add_assoc, ← Nat.add_assoc] at hi'

/-- A word of the list is stored anew. -/
theorem Holds.set (h : Holds m a ws) (i : ℕ) (hi : i < ws.length) :
    Holds (Function.update m (a + 4 * i) v) a (ws.set i v) := by
  induction ws generalizing a i with
  | nil => simp at hi
  | cons w ws ih =>
    obtain ⟨hw, hws⟩ := h
    cases i with
    | zero => exact ⟨Function.update_self _ _ _, hws.store (by omega)⟩
    | succ i =>
      have hplace : a + 4 * (i + 1) = a + 4 + 4 * i := by omega
      rw [hplace, List.set_cons_succ]
      exact ⟨(Function.update_of_ne (by omega) _ _).trans hw, ih hws i (by simpa using hi)⟩

/-- Stores one after the other. -/
def storeAll (l : List (ℕ × ℕ)) (m : ℕ → ℕ) : ℕ → ℕ :=
  l.foldl (fun m w => Function.update m w.1 w.2) m

@[simp] theorem storeAll_nil : storeAll [] m = m := rfl

@[simp] theorem storeAll_cons (w : ℕ × ℕ) (l : List (ℕ × ℕ)) :
    storeAll (w :: l) m = storeAll l (Function.update m w.1 w.2) := rfl

theorem storeAll_of_forall_ne {l : List (ℕ × ℕ)} (h : ∀ w ∈ l, w.1 ≠ a) : storeAll l m a = m a := by
  induction l generalizing m with
  | nil => rfl
  | cons w l ih =>
    rw [storeAll_cons, ih fun w hw => h w (List.mem_cons_of_mem _ hw)]
    exact Function.update_of_ne (h w List.mem_cons_self).symm _ _

theorem Holds.storeAll {l : List (ℕ × ℕ)} (h : Holds m a ws)
    (hl : ∀ w ∈ l, w.1 < a ∨ a + 4 * ws.length ≤ w.1) : Holds (storeAll l m) a ws :=
  h.congr fun x hx hlt => storeAll_of_forall_ne fun w hw => by
    have := hl w hw
    omega

structure Machine (R : Type*) where
  reg : R → ℕ
  mem : ℕ → ℕ

section Stack

variable {R : Type*} [DecidableEq R]

/-- Give a register a value. -/
def Machine.set (c : Machine R) (r : R) (v : ℕ) : Machine R :=
  { c with reg := Function.update c.reg r v }

@[simp] theorem Machine.set_reg (c : Machine R) (r : R) (v : ℕ) :
    (c.set r v).reg = Function.update c.reg r v := rfl

@[simp] theorem Machine.set_mem (c : Machine R) (r : R) (v : ℕ) : (c.set r v).mem = c.mem := rfl

/-- Put a word on the stack that `sp` points to. -/
def push (sp : R) (v : ℕ) (c : Machine R) : Machine R :=
  { reg := Function.update c.reg sp (c.reg sp - 4)
    mem := Function.update c.mem (c.reg sp - 4) v }

@[simp] theorem push_reg (sp : R) (v : ℕ) (c : Machine R) :
    (push sp v c).reg = Function.update c.reg sp (c.reg sp - 4) := rfl

@[simp] theorem push_mem (sp : R) (v : ℕ) (c : Machine R) :
    (push sp v c).mem = Function.update c.mem (c.reg sp - 4) v := rfl

def pushAll (sp : R) (vs : List ℕ) (c : Machine R) : Machine R :=
  vs.foldl (fun c v => push sp v c) c

/-- Take the word on top of the stack into a register. -/
def pop (sp r : R) (c : Machine R) : Machine R :=
  (c.set sp (c.reg sp + 4)).set r (c.mem (c.reg sp))

@[simp] theorem pop_reg (sp r : R) (c : Machine R) : (pop sp r c).reg =
    Function.update (Function.update c.reg sp (c.reg sp + 4)) r (c.mem (c.reg sp)) := rfl

@[simp] theorem pop_mem (sp r : R) (c : Machine R) : (pop sp r c).mem = c.mem := rfl

def popAll (sp : R) (rs : List R) (c : Machine R) : Machine R :=
  rs.foldl (fun c r => pop sp r c) c

variable {sp r : R} {rs : List R} {c : Machine R}

@[simp] theorem pushAll_nil : pushAll sp [] c = c := rfl

theorem pushAll_cons : pushAll sp (v :: vs) c = pushAll sp vs (push sp v c) := rfl

theorem pushAll_append : pushAll sp (vs ++ ws) c = pushAll sp ws (pushAll sp vs c) :=
  List.foldl_append

theorem pushAll_reg :
    (pushAll sp vs c).reg = Function.update c.reg sp (c.reg sp - 4 * vs.length) := by
  induction vs generalizing c with
  | nil => simp
  | cons v vs ih =>
    rw [pushAll_cons, ih]
    simp only [push_reg, Function.update_self, Function.update_idem, List.length_cons]
    congr 1
    omega

/-- Pushed words lie below the old top, the last one lowest. -/
theorem pushAll_holds (vs : List ℕ) (c : Machine R) (hroom : 4 * vs.length ≤ c.reg sp) :
    Holds (pushAll sp vs c).mem (c.reg sp - 4 * vs.length) vs.reverse := by
  induction vs using List.reverseRecOn with
  | nil => trivial
  | append_singleton vs v ih =>
    rw [List.length_append, List.length_singleton] at hroom ⊢
    have hbelow : 4 * vs.length ≤ c.reg sp := by omega
    have hnext : c.reg sp - 4 * (vs.length + 1) + 4 = c.reg sp - 4 * vs.length := by omega
    have htop : (pushAll sp vs c).reg sp - 4 = c.reg sp - 4 * (vs.length + 1) := by
      rw [pushAll_reg, Function.update_self]
      omega
    rw [pushAll_append, List.reverse_append, List.reverse_singleton, List.singleton_append,
      holds_cons, hnext]
    rw [pushAll_cons, pushAll_nil, push_mem, htop]
    exact ⟨Function.update_self _ _ _, (ih hbelow).store (by omega)⟩

theorem pushAll_mem_of_ne (hb : b < c.reg sp - 4 * vs.length ∨ c.reg sp ≤ b)
    (hroom : 4 * vs.length ≤ c.reg sp) : (pushAll sp vs c).mem b = c.mem b := by
  induction vs generalizing c with
  | nil => rfl
  | cons v vs ih =>
    rw [List.length_cons] at hb hroom
    have htop : (push sp v c).reg sp = c.reg sp - 4 := Function.update_self _ _ _
    rw [pushAll_cons, ih (by rw [htop]; omega) (by rw [htop]; omega)]
    exact Function.update_of_ne (by omega) _ _

end Stack

end X86System.StackMachine
