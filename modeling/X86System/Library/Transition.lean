import Mathlib.Tactic.Common

/-!
# Labelled transition systems and their runs

A system has starting states and a labelled step. A run lists its labels in the
order they are taken, so an invariant may speak of the state alone or of the
state together with the history that led to it. Guarding a system keeps only the
steps whose label and source state satisfy a predicate.
-/
namespace X86System.Transition

/-- Starting states and a labelled step relation. -/
structure System (σ α : Type*) where
  start : σ → Prop
  step : σ → α → σ → Prop

variable {σ α : Type*}

/-- `T.Run s as t`: the steps labelled `as`, in order, lead from `s` to `t`. -/
inductive System.Run (T : System σ α) (s : σ) : List α → σ → Prop
  | nil : T.Run s [] s
  | snoc {t u : σ} {l : List α} {a : α} :
      T.Run s l t → T.step t a u → T.Run s (l ++ [a]) u

/-- Some run from a starting state ends here. -/
def System.Reachable (T : System σ α) (t : σ) : Prop :=
  ∃ s as, T.start s ∧ T.Run s as t

/-- Keep only the steps that satisfy the guard. -/
def System.guard (T : System σ α) (g : σ → α → Prop) : System σ α where
  start := T.start
  step s a t := T.step s a t ∧ g s a

/-- Keep only the steps that lead to states with the property. -/
def System.within (T : System σ α) (p : σ → Prop) : System σ α where
  start := T.start
  step s a t := T.step s a t ∧ p t

/-- Every step of a run satisfies the guard in the state it is taken from. -/
inductive System.RunWhere (T : System σ α) (g : σ → α → Prop) (s : σ) : List α → σ → Prop
  | nil : T.RunWhere g s [] s
  | snoc {t u : σ} {l : List α} {a : α} :
      T.RunWhere g s l t → g t a → T.step t a u → T.RunWhere g s (l ++ [a]) u

/-- A run may also be extended at its front. -/
theorem System.Run.cons {T : System σ α} {s t u : σ} {a : α} {as : List α}
    (hstep : T.step s a t) (hrun : T.Run t as u) : T.Run s (a :: as) u := by
  induction hrun with
  | nil => exact .snoc .nil hstep
  | snoc _ hst ih => exact .snoc (l := a :: _) ih hst

theorem System.Run.append {T : System σ α} {s t u : σ} {as bs : List α}
    (h : T.Run s as t) (h' : T.Run t bs u) : T.Run s (as ++ bs) u := by
  induction h' with
  | nil => simpa using h
  | snoc _ hst ih =>
    rw [← List.append_assoc]
    exact .snoc ih hst

/-- Runs of a system are runs of one with more steps. -/
theorem System.Run.mono {T U : System σ α} (hsub : ∀ s a t, T.step s a t → U.step s a t)
    {s t : σ} {as : List α} (h : T.Run s as t) : U.Run s as t := by
  induction h with
  | nil => exact .nil
  | snoc _ hst ih => exact .snoc ih (hsub _ _ _ hst)

/-- Where the guard asks nothing of the labels of a run, the run satisfies it. -/
theorem System.Run.where {T : System σ α} {g : σ → α → Prop} {s t : σ} {as : List α}
    (h : T.Run s as t) (hg : ∀ a ∈ as, ∀ u, g u a) : T.RunWhere g s as t := by
  induction h with
  | nil => exact .nil
  | snoc _ hst ih =>
    refine .snoc (ih fun a ha => hg a ?_) (hg _ ?_ _) hst <;> simp_all

theorem System.RunWhere.run {T : System σ α} {g : σ → α → Prop} {s t : σ} {as : List α}
    (h : T.RunWhere g s as t) : T.Run s as t := by
  induction h with
  | nil => exact .nil
  | snoc _ _ hstep ih => exact .snoc ih hstep

/-- What a step keeps, a run keeps. -/
theorem System.Run.keeps {T : System σ α} {I : σ → Prop}
    (hstep : ∀ s a t, I s → T.step s a t → I t) {s t : σ} {as : List α}
    (hrun : T.Run s as t) (hs : I s) : I t := by
  induction hrun with
  | nil => exact hs
  | snoc _ hst ih => exact hstep _ _ _ ih hst

/-- Where some labels use up a potential that no step adds to, a run has no more of them. -/
theorem System.Run.potential {T : System σ α} {I : σ → Prop} {f : σ → ℕ} {p : α → Bool}
    (hstep : ∀ s a t, I s → T.step s a t → I t ∧ f t + (if p a then 1 else 0) ≤ f s)
    {s t : σ} {as : List α} (hrun : T.Run s as t) (hs : I s) : I t ∧ f t + as.countP p ≤ f s := by
  induction hrun with
  | nil => exact ⟨hs, Nat.le_refl _⟩
  | @snoc t u l a _ hst ih =>
    obtain ⟨hu, hle⟩ := hstep t a u ih.1 hst
    refine ⟨hu, ?_⟩
    calc f u + (l ++ [a]).countP p = f u + (if p a then 1 else 0) + l.countP p := by
          rw [List.countP_append, List.countP_singleton, Nat.add_comm (l.countP p), Nat.add_assoc]
      _ ≤ f t + l.countP p := Nat.add_le_add_right hle _
      _ ≤ f s := ih.2

/-- What a guarded step keeps, a guarded run keeps. -/
theorem System.RunWhere.keeps {T : System σ α} {g : σ → α → Prop} {I : σ → Prop}
    (hstep : ∀ s a t, I s → g s a → T.step s a t → I t) {s t : σ} {as : List α}
    (hrun : T.RunWhere g s as t) (hs : I s) : I t := by
  induction hrun with
  | nil => exact hs
  | snoc _ hg hst ih => exact hstep _ _ _ ih hg hst

theorem System.Reachable.step {T : System σ α} {s t : σ} {a : α} (h : T.Reachable s)
    (hstep : T.step s a t) : T.Reachable t := by
  obtain ⟨s₀, as, hs₀, hrun⟩ := h
  exact ⟨s₀, as ++ [a], hs₀, .snoc hrun hstep⟩

/-- An invariant of the starting states that every step keeps holds everywhere. -/
theorem System.Reachable.invariant {T : System σ α} {I : σ → Prop}
    (hstart : ∀ s, T.start s → I s)
    (hstep : ∀ s a t, I s → T.step s a t → I t) {t : σ}
    (h : T.Reachable t) : I t := by
  obtain ⟨s, as, hs, hrun⟩ := h
  exact hrun.keeps hstep (hstart s hs)

/-- The same with the history of the run in the invariant. -/
theorem System.Run.history {T : System σ α} {I : List α → σ → Prop}
    (hstep : ∀ as s a t, I as s → T.step s a t → I (as ++ [a]) t) {s t : σ} {as : List α}
    (hs : I [] s) (hrun : T.Run s as t) : I as t := by
  induction hrun with
  | nil => exact hs
  | snoc _ hst ih => exact hstep _ _ _ _ ih hst

theorem System.Run.eq_of_nil {T : System σ α} {s t : σ} (h : T.Run s [] t) : t = s := by
  generalize hl : ([] : List α) = l at h
  cases h with
  | nil => rfl
  | snoc _ _ => exact absurd hl (by simp)

theorem System.Run.of_snoc {T : System σ α} {s u : σ} {as : List α} {a : α}
    (h : T.Run s (as ++ [a]) u) : ∃ t, T.Run s as t ∧ T.step t a u := by
  generalize hl : as ++ [a] = l at h
  cases h with
  | nil => exact absurd hl (by simp)
  | snoc hrun hst =>
    obtain ⟨rfl, rfl⟩ := List.append_singleton_inj.mp hl
    exact ⟨_, hrun, hst⟩

/-- Where a step has one result, so has a run. -/
theorem System.Run.unique {T : System σ α}
    (hdet : ∀ s a t u, T.step s a t → T.step s a u → t = u) {s t u : σ} {as : List α}
    (h : T.Run s as t) (h' : T.Run s as u) : t = u := by
  induction h generalizing u with
  | nil => exact h'.eq_of_nil.symm
  | snoc _ hst ih =>
    obtain ⟨v, hrun, hst'⟩ := h'.of_snoc
    obtain rfl := ih hrun
    exact hdet _ _ _ _ hst hst'

/-- Where the guard decides of each step whether it keeps a property, the property holds
all along a run if and only if the run satisfies the guard. -/
theorem System.Run.along_iff {T : System σ α} {g : σ → α → Prop} {I : σ → Prop}
    (hdet : ∀ s a t u, T.step s a t → T.step s a u → t = u) {s t : σ} {as : List α}
    (hstep : ∀ bs t a u, T.Run s bs t → I t → T.step t a u → (I u ↔ g t a))
    (hs : I s) (hrun : T.Run s as t) :
    (∀ bs u, bs <+: as → T.Run s bs u → I u) ↔ T.RunWhere g s as t := by
  induction hrun with
  | nil =>
    refine iff_of_true ?_ .nil
    intro bs u hbs hrun
    obtain rfl := List.prefix_nil.mp hbs
    rwa [hrun.eq_of_nil]
  | @snoc t u l a hrun hst ih =>
    constructor
    · intro hall
      have hbefore : ∀ bs v, bs <+: l → T.Run s bs v → I v := fun bs v hbs =>
        hall bs v (hbs.trans (List.prefix_append l [a]))
      have ht : I t := hbefore l t List.prefix_rfl hrun
      have hu : I u := hall _ u List.prefix_rfl (.snoc hrun hst)
      exact .snoc (ih.mp hbefore) ((hstep l t a u hrun ht hst).mp hu) hst
    · intro hwhere bs v hbs hrun'
      generalize hl : l ++ [a] = m at hwhere
      cases hwhere with
      | nil => exact absurd hl (by simp)
      | snoc hwhere hg hst' =>
        obtain ⟨rfl, rfl⟩ := List.append_singleton_inj.mp hl
        obtain rfl := hrun.unique hdet hwhere.run
        have hbefore := ih.mpr hwhere
        rcases List.prefix_concat_iff.mp hbs with rfl | hbs
        · obtain ⟨w, hrunw, hstw⟩ := hrun'.of_snoc
          obtain rfl := hrun.unique hdet hrunw
          exact (hstep _ _ _ _ hrun (hbefore _ _ List.prefix_rfl hrun) hstw).mpr hg
        · exact hbefore bs v hbs hrun'

end X86System.Transition
