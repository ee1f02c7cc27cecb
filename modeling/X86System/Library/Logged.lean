import X86System.Library.Exec

/-!
# Code whose record outlives its failure

Logged code records an event where it does something that cannot be taken back. What was
recorded before the code stops stays in its log, so a property of the log speaks of failing
runs too.
-/
namespace X86System.Exec

variable {κ ε α β : Type}

/-- Code that may stop, and the events up to there. -/
structure Logged (κ ε α : Type) where
  result : Except ε α
  log : List κ

namespace Logged

/-- The events of `f`, where `r` did not stop. -/
def logAfter (r : Except ε α) (f : α → Logged κ ε β) : List κ :=
  match r with
  | .error _ => []
  | .ok a => (f a).log

instance : Monad (Logged κ ε) where
  pure a := ⟨.ok a, []⟩
  bind x f := ⟨x.result >>= fun a => (f a).result, x.log ++ logAfter x.result f⟩

/-- Code that does nothing of note. -/
instance : MonadLift (Except ε) (Logged κ ε) where
  monadLift r := ⟨r, []⟩

/-- An event. -/
def event (e : κ) : Logged κ ε Unit := ⟨.ok (), [e]⟩

variable {x : Logged κ ε α} {f : α → Logged κ ε β}

@[simp] theorem result_pure (a : α) : (pure a : Logged κ ε α).result = .ok a := rfl

@[simp] theorem log_pure (a : α) : (pure a : Logged κ ε α).log = [] := rfl

@[simp] theorem result_event (e : κ) : (event e : Logged κ ε Unit).result = .ok () := rfl

@[simp] theorem log_event (e : κ) : (event e : Logged κ ε Unit).log = [e] := rfl

@[simp] theorem result_lift (r : Except ε α) : (liftM r : Logged κ ε α).result = r := rfl

@[simp] theorem log_lift (r : Except ε α) : (liftM r : Logged κ ε α).log = [] := rfl

@[simp] theorem result_bind : (x >>= f).result = x.result >>= fun a => (f a).result := rfl

/-- Plain code that returns. -/
theorem lift_bind {r : Except ε β} {a : β} {g : β → Logged κ ε α} (h : r = .ok a) :
    ((liftM r : Logged κ ε β) >>= g) = g a := by
  subst h
  rfl

/-- An event stands in front of what follows. -/
theorem event_bind (e : κ) (g : Unit → Logged κ ε α) :
    (event e >>= g) = ⟨(g ()).result, e :: (g ()).log⟩ := rfl

/-- Code that returned is followed by the events of the rest. -/
theorem log_bind {a : α} (h : x.result = .ok a) : (x >>= f).log = x.log ++ (f a).log := by
  change x.log ++ logAfter x.result f = _
  rw [h]
  rfl

/-- Code that stopped is followed by nothing. -/
theorem log_bind_error {e : ε} (h : x.result = .error e) : (x >>= f).log = x.log := by
  change x.log ++ logAfter x.result f = _
  rw [h]
  exact List.append_nil _

/-- The events of a part stay in the log of the whole. -/
theorem mem_log_bind {e : κ} (h : e ∈ x.log) : e ∈ (x >>= f).log := List.mem_append_left _ h

/-- The events of the rest are in the log of the whole. -/
theorem mem_log_rest {a : α} {e : κ} (h : x.result = .ok a) (he : e ∈ (f a).log) :
    e ∈ (x >>= f).log := by
  rw [log_bind h]
  exact List.mem_append_right _ he

/-- All events satisfy `P`. -/
def Keeps (P : κ → Prop) (x : Logged κ ε α) : Prop := ∀ e ∈ x.log, P e

variable {P : κ → Prop}

theorem Keeps.pure (a : α) : Keeps P (pure a : Logged κ ε α) :=
  fun _ he => absurd he List.not_mem_nil

theorem Keeps.lift (r : Except ε α) : Keeps P (liftM r : Logged κ ε α) :=
  fun _ he => absurd he List.not_mem_nil

theorem Keeps.bind (hx : Keeps P x) (hf : ∀ a, x.result = .ok a → Keeps P (f a)) :
    Keeps P (x >>= f) := by
  intro e he
  rcases List.mem_append.mp he with he | he
  · exact hx e he
  · rcases hr : x.result with err | a
    · rw [hr] at he
      exact absurd he List.not_mem_nil
    · rw [hr] at he
      exact hf a hr e he

theorem Keeps.event {e : κ} (h : P e) : Keeps P (event e : Logged κ ε Unit) := by
  intro e' he
  obtain rfl := List.mem_singleton.mp he
  exact h

/-- What holds of the whole holds of the first part. -/
theorem Keeps.of_bind (h : Keeps P (x >>= f)) : Keeps P x := fun e he => h e (mem_log_bind he)

/-- What holds of the whole holds of the rest. -/
theorem Keeps.rest {a : α} (h : Keeps P (x >>= f)) (hx : x.result = .ok a) : Keeps P (f a) :=
  fun e he => h e (mem_log_rest hx he)

/-- Code that returns and whose events all satisfy `P`. -/
structure Clean (P : κ → Prop) (x : Logged κ ε α) : Prop where
  returns : ∃ a, x.result = .ok a
  events : Keeps P x

theorem clean_pure (a : α) : Clean P (pure a : Logged κ ε α) := ⟨⟨a, rfl⟩, Keeps.pure a⟩

/-- After a clean part it is up to the rest. -/
theorem clean_bind {a : α} (h : x.result = .ok a) (hx : Keeps P x) :
    Clean P (x >>= f) ↔ Clean P (f a) := by
  constructor
  · rintro ⟨hret, hkeeps⟩
    rw [result_bind, h] at hret
    exact ⟨hret, hkeeps.rest h⟩
  · rintro ⟨hret, hkeeps⟩
    refine ⟨?_, hx.bind fun b hb => ?_⟩
    · rw [result_bind, h]
      exact hret
    · obtain rfl := Except.ok.inj (h.symm.trans hb)
      exact hkeeps

/-- A rest that is clean in any case does not count. -/
theorem clean_bind_left (hf : ∀ a, Clean P (f a)) : Clean P (x >>= f) ↔ Clean P x := by
  constructor
  · rintro ⟨⟨b, hb⟩, hkeeps⟩
    obtain ⟨a, ha, -⟩ := of_bind_eq_ok hb
    exact ⟨⟨a, ha⟩, hkeeps.of_bind⟩
  · intro h
    obtain ⟨a, ha⟩ := h.returns
    exact (clean_bind ha h.events).mpr (hf a)

/-- Nothing repairs a bad event. -/
theorem not_clean_bind {e : κ} (he : e ∈ x.log) (hbad : ¬ P e) : ¬ Clean P (x >>= f) :=
  fun h => hbad (h.events e (mem_log_bind he))

end Logged

end X86System.Exec
