import X86System.WashPath

/-!
# What a path search returns and holds

`search_file` follows the names of a path from the root and keeps the directory in which
it looked the last of them up. That directory is the one handle that the search leaves.
-/
namespace X86System.FileSystem
open Bytes Exec PathTree

variable {s t u : State} {a : InodePtr} {n : UInt32} {p c : List UInt8}
  {ds : List (List UInt8)} {dirs : Set UInt32} {h : Multiset InodePtr} {r : PathSearchRecord}

section Depths

theorem depthLoop_eq (fuel : ℕ) : ∀ (sub : Option (List UInt8)) (depth : ℕ),
    (∀ c ∈ sub.elim [] components, c.length ≤ maxFileNameLen) →
    (sub.elim [] components).length < fuel →
    depthLoop fuel sub depth = .ok (depth + (sub.elim [] components).length) := by
  induction fuel with
  | zero => exact fun _ _ _ h => absurd h (Nat.not_lt_zero _)
  | succ fuel ih =>
    intro sub depth hshort hfuel
    cases sub with
    | none => rfl
    | some p =>
      unfold depthLoop
      dsimp only [Option.elim_some] at hshort hfuel ⊢
      rcases pending_pathParse p with ⟨hname, hnil⟩ | ⟨hname, hcons⟩
      · rw [hname, hnil, ensure_of (by decide), ok_bind, if_pos rfl]
        rfl
      · rw [hcons] at hshort hfuel ⊢
        rw [List.length_cons] at hfuel ⊢
        rw [ensure_of (hshort _ List.mem_cons_self), ok_bind, if_neg hname,
          ih _ _ (fun c hc => hshort c (List.mem_cons_of_mem _ hc)) (by omega)]
        exact congrArg Except.ok (by omega)

theorem length_components_le (p : List UInt8) : (components p).length ≤ p.length := by
  induction p using components.induct with
  | case1 => simp [components]
  | case2 l ih =>
    rw [components_slash, List.length_cons]
    omega
  | case3 c l hc ih =>
    have hdrop := (List.dropWhile_suffix (· ≠ slash) (l := l)).length_le
    rw [components, if_neg hc, List.length_cons, List.length_cons]
    omega

/-- `path_depth_cnt` counts the names of a path. -/
theorem pathDepthCnt_eq (hshort : ∀ c ∈ components p, c.length ≤ maxFileNameLen)
    (hne : components p ≠ []) : pathDepthCnt p = .ok (components p).length := by
  rcases pending_pathParse p with ⟨-, hnil⟩ | ⟨hname, hcons⟩
  · exact absurd hnil hne
  · have hlen := length_components_le p
    rw [hcons] at hshort hlen ⊢
    rw [List.length_cons] at hlen ⊢
    unfold pathDepthCnt
    dsimp only
    rw [ensure_of (hshort _ List.mem_cons_self), ok_bind, ensure_of hname, ok_bind,
      depthLoop_eq _ _ _ (fun c hc => hshort c (List.mem_cons_of_mem _ hc)) (by omega), Nat.add_comm]

end Depths

/-- Every proper prefix of a walk that leads anywhere leads to a directory. -/
def PrefixesAreDirs (s : State) (cs : List (List UInt8)) : Prop :=
  ∀ ds, ds <+: cs → ds ≠ cs → ∀ n d, s.tree.resolve 0 ds = some (n, d) → d = true

/-- Where prefixes are directories, names are left only behind a missing one. -/
theorem PrefixesAreDirs.last {cs : List (List UInt8)} (hpre : PrefixesAreDirs s cs)
    (hends : s.tree.Ends cs ds c n) :
    ∃ es, cs = ds ++ c :: es ∧ (es = [] ∨ s.tree.entry n c = none) := by
  obtain ⟨es, hcs, hes⟩ := hends.names
  refine ⟨es, hcs, ?_⟩
  rcases hentry : s.tree.entry n c with _ | ⟨m, d⟩
  · exact Or.inr rfl
  · by_cases hnil : es = []
    · exact Or.inl hnil
    · -- `ds ++ [c]` is a proper prefix
      have hreach : s.tree.resolve 0 (ds ++ [c]) = some (m, d) := by
        have hds : s.tree.resolve 0 ds = some (n, true) := hends.reached
        rw [resolve_append hds, resolve_singleton, hentry]
      have hne : ds ++ [c] ≠ cs := by
        rw [hcs, List.append_cons ds c es]
        simpa using hnil
      have hprefix : ds ++ [c] <+: cs := by
        rw [hcs, List.append_cons ds c es]
        exact List.prefix_append ..
      obtain rfl := hpre _ hprefix hne m d hreach
      exact absurd (hes m hentry) hnil

/-- The directory of the record has one handle more than before the search. -/
theorem Searched.openCount (hs : Searched s t 0 r ds c n) (a : InodePtr) :
    t.openCount a = s.openCount a + if r.parentDir = .opened a then 1 else 0 := by
  rw [hs.walks.opens.count a, add_zero]
  cases hdir : r.parentDir with
  | root => simp [Dir.handles]
  | opened b =>
    by_cases hab : b = a
    · simp [Dir.handles, hab]
    · simp [Dir.handles, hab, Ne.symm hab]

end X86System.FileSystem
