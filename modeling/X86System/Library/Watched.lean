import X86System.Library.Exec

/-!
# Code that is watched

Watched code records an event where it takes something or gives it back. Without the
record it is the code itself, so what is known of the code holds of the watched code;
the rules below follow its structure and join the records of its parts.
-/
namespace X86System.Exec

variable {κ ε α β : Type}

/-- Code that may stop and that records events. -/
structure Watched (κ ε α : Type) where
  run : Except ε (α × List κ)

instance : Monad (Watched κ ε) where
  pure a := ⟨.ok (a, [])⟩
  bind x f := ⟨x.run >>= fun v => (f v.1).run >>= fun v' => .ok (v'.1, v.2 ++ v'.2)⟩

/-- Code that is not watched records nothing. -/
instance : MonadLift (Except ε) (Watched κ ε) where
  monadLift r := ⟨r >>= fun a => .ok (a, [])⟩

/-- An event. -/
def record (e : κ) : Watched κ ε Unit := ⟨.ok ((), [e])⟩

/-- The code without its record. -/
def plain (x : Watched κ ε α) : Except ε α := x.run >>= fun v => .ok v.1

/-- What is returned and what was recorded satisfy `Q`. -/
def Records (x : Watched κ ε α) (Q : α → List κ → Prop) : Prop := Returns x.run fun v => Q v.1 v.2

section Plain

@[simp] theorem plain_pure (a : α) : plain (pure a : Watched κ ε α) = .ok a := rfl

@[simp] theorem plain_record (e : κ) : plain (record e : Watched κ ε Unit) = .ok () := rfl

@[simp] theorem plain_lift (r : Except ε α) : plain (liftM r : Watched κ ε α) = r := by
  cases r <;> rfl

@[simp] theorem plain_bind (x : Watched κ ε α) (f : α → Watched κ ε β) :
    plain (x >>= f) = plain x >>= fun a => plain (f a) := by
  rcases x with ⟨e | ⟨a, w⟩⟩
  · rfl
  · show ((f a).run >>= fun v' => Except.ok (v'.1, w ++ v'.2)) >>= (fun v => .ok v.1) = plain (f a)
    unfold plain
    rcases (f a).run with e | ⟨b, w'⟩ <;> rfl

@[simp] theorem plain_ite {c : Prop} [Decidable c] (x y : Watched κ ε α) :
    plain (if c then x else y) = if c then plain x else plain y := apply_ite plain c x y

end Plain

section Rules

variable {Q Q' : α → List κ → Prop} {R : β → List κ → Prop} {x : Watched κ ε α}
  {f : α → Watched κ ε β}

@[simp] theorem records_pure (a : α) : Records (pure a : Watched κ ε α) Q ↔ Q a [] := Iff.rfl

/-- The record of a sequence is that of its first part and then that of the rest. -/
theorem Records.bind (h : Records x Q)
    (hf : ∀ a w, Q a w → Records (f a) fun b w' => R b (w ++ w')) : Records (x >>= f) R := by
  refine Returns.bind h fun ⟨a, w⟩ ha => ?_
  exact Returns.bind (hf a w ha) fun _ hb => hb

theorem records_lift {r : Except ε α} {P : α → Prop} (h : Returns r P)
    (hf : ∀ a, P a → Records (f a) R) : Records (liftM r >>= f) R := by
  cases r with
  | error e => trivial
  | ok a =>
    refine Records.bind (Q := fun b w => b = a ∧ w = []) ⟨rfl, rfl⟩ fun b w ⟨hb, hw⟩ => ?_
    subst hb hw
    exact hf b h

/-- Nothing is recorded by code that is not watched. -/
theorem records_skip {r : Except ε α} (hf : ∀ a, Records (f a) R) : Records (liftM r >>= f) R :=
  records_lift (P := fun _ => True) (Returns.intro fun _ _ => trivial) fun a _ => hf a

theorem records_true (x : Watched κ ε α) : Records x fun _ _ => True :=
  Returns.intro fun _ _ => trivial

theorem records_record {e : κ} {g : Unit → Watched κ ε β}
    (h : Records (g ()) fun b w => R b (e :: w)) : Records (record e >>= g) R :=
  Records.bind (Q := fun _ w => w = [e]) rfl fun _ w hw => by
    subst hw
    exact h

theorem records_ite {c : Prop} [Decidable c] {y : Watched κ ε α} (h : c → Records x Q)
    (h' : ¬ c → Records y Q) : Records (if c then x else y) Q := by
  split_ifs with hc
  · exact h hc
  · exact h' hc

theorem Records.mono (h : Records x Q) (hQ : ∀ a w, Q a w → Q' a w) : Records x Q' :=
  Returns.mono h fun _ hv => hQ _ _ hv

theorem Records.of_ok {a : α} {w : List κ} (h : Records x Q) (hr : x.run = .ok (a, w)) : Q a w := by
  unfold Records at h
  rw [hr] at h
  exact h

/-- What the code returns is what the watched code returns. -/
theorem Records.and_plain {P : α → Prop} (h : Records x Q) (hp : Returns (plain x) P) :
    Records x fun a w => Q a w ∧ P a := by
  unfold Records plain at *
  revert h hp
  rcases x.run with e | ⟨a, w⟩
  · exact fun _ _ => trivial
  · exact fun h hp => ⟨h, hp⟩

end Rules

end X86System.Exec
