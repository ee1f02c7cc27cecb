import Mathlib.Tactic.Common
import Mathlib.Order.Defs.Unbundled

/-!
# Results of code that may stop

Code that may trip an assertion returns `Except ε α`. An outcome statement says
what a normal result satisfies and, separately, which errors may be raised; its
rules follow the structure of the code, one for each way of composing it.
-/
namespace X86System.Exec

variable {ε α β : Type}

/-- Stop with `e` unless the condition holds. -/
def ensure (e : ε) (p : Prop) [Decidable p] : Except ε Unit :=
  if p then .ok () else .error e

@[simp] theorem ensure_of {e : ε} {p : Prop} [Decidable p] (h : p) : ensure e p = .ok () :=
  if_pos h

@[simp] theorem ensure_of_not {e : ε} {p : Prop} [Decidable p] (h : ¬ p) :
    ensure e p = .error e := if_neg h

@[simp] theorem ok_bind (a : α) (f : α → Except ε β) : (Except.ok a >>= f) = f a := rfl

@[simp] theorem error_bind (e : ε) (f : α → Except ε β) :
    (Except.error e >>= f) = .error e := rfl

@[simp] theorem pure_eq_ok (a : α) : (pure a : Except ε α) = .ok a := rfl

/-- Go on with a result that is known. -/
theorem bind_of_ok {r : Except ε α} {a : α} {f : α → Except ε β} (h : r = .ok a) :
    (r >>= f) = f a := by
  rw [h, ok_bind]

/-- A sequence that returns came through its first part. -/
theorem of_bind_eq_ok {r : Except ε α} {f : α → Except ε β} {b : β} (h : (r >>= f) = .ok b) :
    ∃ a, r = .ok a ∧ f a = .ok b := by
  cases r with
  | ok a => exact ⟨a, rfl, h⟩
  | error e => cases h

/-- Code that returns passed its assertion. -/
theorem of_ensure_eq_ok {e : ε} {p : Prop} [Decidable p] {f : Unit → Except ε β} {b : β}
    (h : (ensure e p >>= f) = .ok b) : p ∧ f () = .ok b := by
  by_cases hp : p
  · rw [ensure_of hp] at h
    exact ⟨hp, h⟩
  · rw [ensure_of_not hp] at h
    cases h

section Decidable

variable {r : Except ε α}

/-- What code that runs returns can be computed and checked. -/
instance decidableExistsOk {p : α → Prop} [DecidablePred p] : Decidable (∃ a, r = .ok a ∧ p a) :=
  match r with
  | .ok a => decidable_of_iff (p a) (by simp)
  | .error _ => isFalse (by simp)

instance decidableExistsError {p : ε → Prop} [DecidablePred p] :
    Decidable (∃ e, r = .error e ∧ p e) :=
  match r with
  | .ok _ => isFalse (by simp)
  | .error e => decidable_of_iff (p e) (by simp)

end Decidable

/-- A normal result satisfies `Q`, an error satisfies `E`. -/
def Outcome (r : Except ε α) (Q : α → Prop) (E : ε → Prop) : Prop :=
  match r with
  | .ok a => Q a
  | .error e => E e

variable {Q Q' : α → Prop} {E F : ε → Prop}

@[simp] theorem outcome_ok (a : α) : Outcome (.ok a : Except ε α) Q E ↔ Q a := Iff.rfl

@[simp] theorem outcome_pure (a : α) : Outcome (pure a : Except ε α) Q E ↔ Q a := Iff.rfl

@[simp] theorem outcome_error (e : ε) : Outcome (.error e : Except ε α) Q E ↔ E e := Iff.rfl

/-- A continuation runs after every normal result. -/
theorem Outcome.bind {r : Except ε α} {f : α → Except ε β} {R : β → Prop}
    (h : Outcome r Q E) (hf : ∀ a, Q a → Outcome (f a) R E) : Outcome (r >>= f) R E := by
  cases r with
  | ok a => exact hf a h
  | error e => exact h

theorem Outcome.mono {r : Except ε α} (h : Outcome r Q E) (hQ : ∀ a, Q a → Q' a)
    (hE : ∀ e, E e → F e) : Outcome r Q' F := by
  cases r with
  | ok a => exact hQ a h
  | error e => exact hE e h

/-- After an assertion its condition is known. -/
theorem outcome_ensure {e : ε} {p : Prop} [Decidable p] {f : Unit → Except ε α}
    (hE : ¬ p → E e) (h : p → Outcome (f ()) Q E) : Outcome (ensure e p >>= f) Q E := by
  by_cases hp : p
  · rw [ensure_of hp]
    exact h hp
  · rw [ensure_of_not hp]
    exact hE hp

theorem outcome_ite {c : Prop} [Decidable c] {r r' : Except ε α}
    (h : c → Outcome r Q E) (h' : ¬ c → Outcome r' Q E) :
    Outcome (if c then r else r') Q E := by
  split_ifs with hc
  · exact h hc
  · exact h' hc

theorem Outcome.of_ok {r : Except ε α} {a : α} (h : Outcome r Q E) (hr : r = .ok a) : Q a := by
  subst hr
  exact h

theorem Outcome.of_error {r : Except ε α} {e : ε} (h : Outcome r Q E) (hr : r = .error e) :
    E e := by
  subst hr
  exact h

/-- Where no error is possible there is a result. -/
theorem Outcome.exists_ok {r : Except ε α} (h : Outcome r Q E) (hE : ∀ e, ¬ E e) :
    ∃ a, r = .ok a ∧ Q a := by
  cases r with
  | ok a => exact ⟨a, rfl, h⟩
  | error e => exact absurd h (hE e)

/-- Whatever is returned satisfies `Q`. -/
def Returns (r : Except ε α) (Q : α → Prop) : Prop := Outcome r Q fun _ => True

@[simp] theorem returns_ok (a : α) : Returns (.ok a : Except ε α) Q ↔ Q a := Iff.rfl

@[simp] theorem returns_error (e : ε) : Returns (.error e : Except ε α) Q := trivial

theorem Returns.bind {r : Except ε α} {f : α → Except ε β} {R : β → Prop}
    (h : Returns r Q) (hf : ∀ a, Q a → Returns (f a) R) : Returns (r >>= f) R :=
  Outcome.bind h hf

theorem Returns.mono {r : Except ε α} (h : Returns r Q) (hQ : ∀ a, Q a → Q' a) :
    Returns r Q' :=
  Outcome.mono h hQ fun _ _ => trivial

theorem Returns.of_ok {r : Except ε α} {a : α} (h : Returns r Q) (hr : r = .ok a) : Q a :=
  Outcome.of_ok h hr

theorem Returns.and {r : Except ε α} (h : Returns r Q) (h' : Returns r Q') :
    Returns r fun a => Q a ∧ Q' a := by
  cases r with
  | ok a => exact ⟨h, h'⟩
  | error e => trivial

theorem Returns.intro {r : Except ε α} (h : ∀ a, r = .ok a → Q a) : Returns r Q := by
  cases r with
  | ok a => exact h a rfl
  | error e => trivial

/-- Nothing is asked of a step whose result does not matter. -/
theorem returns_skip {r : Except ε α} {f : α → Except ε β} {R : β → Prop}
    (hf : ∀ a, Returns (f a) R) : Returns (r >>= f) R := by
  cases r with
  | ok a => exact hf a
  | error e => trivial

/-- The result of a step is known to the rest. -/
theorem returns_bind {r : Except ε α} {f : α → Except ε β} {R : β → Prop}
    (hf : ∀ a, r = .ok a → Returns (f a) R) : Returns (r >>= f) R := by
  cases r with
  | ok a => exact hf a rfl
  | error e => trivial

theorem returns_ensure {e : ε} {p : Prop} [Decidable p] {f : Unit → Except ε α}
    (h : p → Returns (f ()) Q) : Returns (ensure e p >>= f) Q :=
  outcome_ensure (fun _ => trivial) h

/-- An assertion that returns holds. -/
theorem returns_of_ensure (e : ε) {p : Prop} [Decidable p] : Returns (ensure e p) fun _ => p := by
  by_cases hp : p
  · rw [ensure_of hp]
    exact hp
  · rw [ensure_of_not hp]
    trivial

theorem returns_ite {c : Prop} [Decidable c] {r r' : Except ε α}
    (h : c → Returns r Q) (h' : ¬ c → Returns r' Q) : Returns (if c then r else r') Q :=
  outcome_ite h h'

section Leads

variable {σ : Type} {R : σ → σ → Prop} {s t : σ} {π : α → σ} {ρ : β → σ}

/-- What is returned holds a state that `R` relates to `s`; `π` finds it in the result. -/
def Leads (R : σ → σ → Prop) (s : σ) (r : Except ε α) (π : α → σ) : Prop :=
  Returns r fun v => R s (π v)

/-- The rest starts from the state that a first part leads to. -/
theorem Leads.bind [IsTrans σ R] {r : Except ε α} {f : α → Except ε β} (h : Leads R s r π)
    (hf : ∀ v, Leads R (π v) (f v) ρ) : Leads R s (r >>= f) ρ :=
  Returns.bind h fun v hv => (hf v).mono fun _ hw => IsTrans.trans _ _ _ hv hw

/-- A first change of the state, then the rest. -/
theorem Leads.after [IsTrans σ R] {r : Except ε α} (h : R s t) (hr : Leads R t r π) :
    Leads R s r π :=
  hr.mono fun _ hv => IsTrans.trans _ _ _ h hv

theorem Leads.skip {γ : Type} {r : Except ε γ} {f : γ → Except ε β}
    (hf : ∀ v, Leads R s (f v) ρ) : Leads R s (r >>= f) ρ := returns_skip hf

theorem Leads.ensure {e : ε} {p : Prop} [Decidable p] {f : Unit → Except ε β}
    (h : p → Leads R s (f ()) ρ) : Leads R s (ensure e p >>= f) ρ := returns_ensure h

theorem Leads.ite {c : Prop} [Decidable c] {r r' : Except ε α} (h : c → Leads R s r π)
    (h' : ¬ c → Leads R s r' π) : Leads R s (if c then r else r') π := returns_ite h h'

end Leads

end X86System.Exec
