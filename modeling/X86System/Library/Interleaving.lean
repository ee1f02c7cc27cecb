import X86System.Library.Exec
import Mathlib.Data.List.Basic
import Mathlib.Logic.Function.Basic
import Mathlib.Tactic.Common

/-!
# Agents that share a machine

A machine takes the calls of several agents in any order. If it serves every agent as
a machine of its own would, which knows this agent's calls only, then what an agent
is answered does not depend on the others: it is what it is answered in the run that
leaves their calls out.
-/
namespace X86System.Interleaving
open Exec Function

variable {ι ω σ α β ε : Type}

/-- The calls of a list one after the other; the answers carry the agent's name. -/
def run (step : ω → ι → α → Except ε (List β × ω)) :
    ω → List (ι × α) → Except ε (List (ι × β) × ω)
  | w, [] => .ok ([], w)
  | w, (i, a) :: l => do
    let (ys, w) ← step w i a
    let (out, w) ← run step w l
    .ok (ys.map (i, ·) ++ out, w)

/-- A first call that returns, then the others. -/
theorem run_cons {step : ω → ι → α → Except ε (List β × ω)} {w u w' : ω} {i : ι} {a : α} {ys : List β} {l : List (ι × α)}
    {out : List (ι × β)} (hstep : step w i a = .ok (ys, u)) (hrun : run step u l = .ok (out, w')) :
    run step w ((i, a) :: l) = .ok (ys.map (i, ·) ++ out, w') := by
  rw [run, hstep]
  show run step u l >>= _ = _
  rw [hrun]
  rfl

variable [DecidableEq ι]

/-- The calls of one agent, or the answers to it. -/
def own (i : ι) (l : List (ι × α)) : List α :=
  l.filterMap fun c => if c.1 = i then some c.2 else none

/-- The run without the calls of the others. -/
def alone (i : ι) (l : List (ι × α)) : List (ι × α) := l.filter (·.1 = i)

/-- A machine of one agent, which may refuse a call. -/
def localRun (f : σ → α → Option (List β × σ)) : σ → List α → Option (List β × σ)
  | x, [] => some ([], x)
  | x, a :: l => do
    let (ys, x) ← f x a
    let (out, x) ← localRun f x l
    some (ys ++ out, x)

section Lists

variable {i j : ι} {a : α} {l : List (ι × α)} {ys : List β} {out : List (ι × β)}

@[simp] theorem own_nil : own i ([] : List (ι × α)) = [] := rfl

@[simp] theorem own_cons_self : own i ((i, a) :: l) = a :: own i l := by simp [own]

theorem own_cons_of_ne (h : j ≠ i) : own i ((j, a) :: l) = own i l := by simp [own, h]

@[simp] theorem own_answers_self : own i (ys.map (i, ·) ++ out) = ys ++ own i out := by
  induction ys with
  | nil => rfl
  | cons y ys ih => rw [List.map_cons, List.cons_append, own_cons_self, ih, List.cons_append]

theorem own_answers_of_ne (h : j ≠ i) : own i (ys.map (j, ·) ++ out) = own i out := by
  induction ys with
  | nil => rfl
  | cons y ys ih => rw [List.map_cons, List.cons_append, own_cons_of_ne h, ih]

theorem own_alone_self : own i (alone i l) = own i l := by
  unfold own alone
  rw [List.filterMap_filter]
  refine List.filterMap_congr fun c _ => ?_
  by_cases hc : c.1 = i <;> simp [hc]

theorem own_alone_of_ne (h : j ≠ i) : own j (alone i l) = [] := by
  refine List.filterMap_eq_nil_iff.mpr fun c hc => ?_
  have hc : c.1 = i := by simpa using (List.mem_filter.mp hc).2
  rw [hc, if_neg (Ne.symm h)]

end Lists

/-- Where agent `i` is in the state `v i` of its own machine, a call that this machine takes is
answered as it answers, and the others stay where they are. -/
def Serves (step : ω → ι → α → Except ε (List β × ω)) (f : ι → σ → α → Option (List β × σ))
    (R : ω → (ι → σ) → Prop) : Prop :=
  ∀ w v i a ys x, R w v → f i (v i) a = some (ys, x) →
    ∃ w', step w i a = .ok (ys, w') ∧ R w' (update v i x)

variable {step : ω → ι → α → Except ε (List β × ω)} {f : ι → σ → α → Option (List β × σ)}
  {R : ω → (ι → σ) → Prop}

theorem localRun_cons {g : σ → α → Option (List β × σ)} {x : σ} {a : α} {l : List α}
    {r : List β × σ} (h : localRun g x (a :: l) = some r) : ∃ ys y out z,
      g x a = some (ys, y) ∧ localRun g y l = some (out, z) ∧ r = (ys ++ out, z) := by
  cases hg : g x a with
  | none => simp [localRun, hg] at h
  | some p =>
    cases hl : localRun g p.2 l with
    | none => simp [localRun, hg, hl] at h
    | some q => exact ⟨p.1, p.2, q.1, q.2, rfl, hl, by simpa [localRun, hg, hl] using h.symm⟩

/-- Over a run every agent is answered as by its own machine. -/
theorem Serves.run (hs : Serves step f R) : ∀ (l : List (ι × α)) {w : ω} {v : ι → σ}, R w v →
    (∀ i, ∃ r, localRun (f i) (v i) (own i l) = some r) →
    ∃ out w' v', run step w l = .ok (out, w') ∧ R w' v' ∧
      ∀ i, localRun (f i) (v i) (own i l) = some (own i out, v' i) := by
  intro l
  induction l with
  | nil => exact fun {w} {v} hR _ => ⟨[], w, v, rfl, hR, fun _ => rfl⟩
  | cons c l ih =>
    obtain ⟨j, a⟩ := c
    intro w v hR hl
    obtain ⟨r, hr⟩ := hl j
    rw [own_cons_self] at hr
    obtain ⟨ys, x, zs, y, hf, hrest, -⟩ := localRun_cons hr
    obtain ⟨u, hstep, hu⟩ := hs w v j a ys x hR hf
    have hl' : ∀ i, ∃ r, localRun (f i) (update v j x i) (own i l) = some r := by
      intro i
      by_cases hij : i = j
      · subst hij
        rw [update_self]
        exact ⟨_, hrest⟩
      · rw [update_of_ne hij]
        have hi := hl i
        rwa [own_cons_of_ne (Ne.symm hij)] at hi
    obtain ⟨out, w', v', hrun, hR', hout⟩ := ih hu hl'
    refine ⟨ys.map (j, ·) ++ out, w', v', run_cons hstep hrun, hR', fun i => ?_⟩
    have hi := hout i
    by_cases hij : i = j
    · subst hij
      rw [update_self] at hi
      rw [own_cons_self, own_answers_self]
      simp [localRun, hf, hi]
    · rw [update_of_ne hij] at hi
      rw [own_cons_of_ne (Ne.symm hij), own_answers_of_ne (Ne.symm hij), hi]

/-- What an agent is answered is what it is answered alone. -/
theorem Serves.alone (hs : Serves step f R) {l : List (ι × α)} {w : ω} {v : ι → σ} (hR : R w v)
    (hl : ∀ i, ∃ r, localRun (f i) (v i) (own i l) = some r) (i : ι) :
    ∃ out w' out' w'', Interleaving.run step w l = .ok (out, w') ∧
      Interleaving.run step w (alone i l) = .ok (out', w'') ∧ own i out = own i out' := by
  obtain ⟨out, w', v', hrun, -, hout⟩ := hs.run l hR hl
  obtain ⟨out', w'', v'', hrun', -, hout'⟩ := hs.run (Interleaving.alone i l) hR fun j => by
    by_cases hji : j = i
    · subst hji
      rw [own_alone_self]
      exact hl j
    · rw [own_alone_of_ne hji]
      exact ⟨_, rfl⟩
  refine ⟨out, w', out', w'', hrun, hrun', ?_⟩
  have hi := hout' i
  rw [own_alone_self, hout i] at hi
  exact congrArg Prod.fst (Option.some.inj hi)

end X86System.Interleaving
