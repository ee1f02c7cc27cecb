import Mathlib.Data.List.Induction
import Mathlib.Data.Set.Basic

/-!
# Paths in a tree with parent entries

In a directory a name leads to a node and tells whether that is a directory. Walking
down a list of names takes `..` for the entry of that name; washing the list takes it
for the removal of the name before it. In a tree whose `.` and `..` entries are correct
both ways end at the same node.
-/
namespace X86System.PathTree

variable {N C : Type}

/-- Where names lead from each node; `true` for directories. -/
structure Names (N C : Type) where
  root : N
  here : C
  up : C
  entry : N → C → Option (N × Bool)

/-- Walk down a list of names. A node that is not a directory ends the walk. -/
def Names.resolve (T : Names N C) (n : N) : List C → Option (N × Bool)
  | [] => some (n, true)
  | c :: cs =>
    match T.entry n c with
    | some (m, true) => T.resolve m cs
    | some (m, false) => some (m, false)
    | none => none

variable {T : Names N C} {n m : N} {c : C} {cs ds : List C}

@[simp] theorem resolve_nil : T.resolve n [] = some (n, true) := rfl

theorem resolve_cons (h : T.entry n c = some (m, true)) :
    T.resolve n (c :: cs) = T.resolve m cs := by
  rw [Names.resolve, h]

theorem resolve_cons_file (h : T.entry n c = some (m, false)) :
    T.resolve n (c :: cs) = some (m, false) := by
  rw [Names.resolve, h]

theorem resolve_cons_none (h : T.entry n c = none) : T.resolve n (c :: cs) = none := by
  rw [Names.resolve, h]

@[simp] theorem resolve_singleton : T.resolve n [c] = T.entry n c := by
  rcases h : T.entry n c with _ | ⟨m, d⟩
  · exact resolve_cons_none h
  · cases d
    · exact resolve_cons_file h
    · exact resolve_cons h

/-- Walking on from a directory. -/
theorem resolve_append (h : T.resolve n cs = some (m, true)) :
    T.resolve n (cs ++ ds) = T.resolve m ds := by
  induction cs generalizing n with
  | nil =>
    obtain rfl : n = m := by simpa using h
    rfl
  | cons c cs ih =>
    rcases hc : T.entry n c with _ | ⟨k, d⟩
    · rw [resolve_cons_none hc] at h
      exact absurd h (by simp)
    · cases d
      · rw [resolve_cons_file hc] at h
        exact absurd h (by simp)
      · rw [resolve_cons hc] at h
        rw [List.cons_append, resolve_cons hc, ih h]

/-- A walk does not go on behind a node that is not a directory. -/
theorem resolve_append_file (h : T.resolve n cs = some (m, false)) :
    T.resolve n (cs ++ ds) = some (m, false) := by
  induction cs generalizing n with
  | nil => exact absurd h (by simp)
  | cons c cs ih =>
    rcases hc : T.entry n c with _ | ⟨k, d⟩
    · rw [resolve_cons_none hc] at h
      exact absurd h (by simp)
    · cases d
      · rw [resolve_cons_file hc] at h
        rw [List.cons_append, resolve_cons_file hc, h]
      · rw [resolve_cons hc] at h
        rw [List.cons_append, resolve_cons hc, ih h]

/-- All but the last step of a walk that ends in a directory go through directories. -/
theorem resolve_concat (h : T.resolve n (cs ++ [c]) = some (m, true)) :
    ∃ k, T.resolve n cs = some (k, true) ∧ T.entry k c = some (m, true) := by
  induction cs generalizing n with
  | nil => exact ⟨n, rfl, by simpa using h⟩
  | cons b cs ih =>
    rcases hb : T.entry n b with _ | ⟨k, d⟩
    · rw [List.cons_append, resolve_cons_none hb] at h
      exact absurd h (by simp)
    · cases d
      · rw [List.cons_append, resolve_cons_file hb] at h
        exact absurd h (by simp)
      · rw [List.cons_append, resolve_cons hb] at h
        rw [resolve_cons hb]
        exact ih h

/-- A walk down `cs` looked `c` up last, in the directory `n` that the names `ds` before it
lead to. Names are left where `c` is missing or no directory. -/
structure Names.Ends (T : Names N C) (cs ds : List C) (c : C) (n : N) : Prop where
  names : ∃ es, cs = ds ++ c :: es ∧ ∀ m, T.entry n c = some (m, true) → es = []
  reached : T.resolve T.root ds = some (n, true)

/-- The last entry is where the walk ends. -/
theorem Names.Ends.resolve (h : T.Ends cs ds c n) : T.resolve T.root cs = T.entry n c := by
  obtain ⟨es, rfl, hes⟩ := h.names
  rw [resolve_append h.reached]
  rcases hc : T.entry n c with _ | ⟨m, d⟩
  · exact resolve_cons_none hc
  · cases d
    · exact resolve_cons_file hc
    · rw [hes m hc, resolve_singleton, hc]

/-- The `.` and `..` entries of a set of directories are correct: `.` is the directory
itself, `..` the directory that has its entry, and the root is its own parent. -/
structure Names.Correct (T : Names N C) (dirs : Set N) (valid : C → Prop) : Prop where
  root : T.root ∈ dirs
  here : ∀ n ∈ dirs, T.entry n T.here = some (n, true)
  up : ∀ n ∈ dirs, ∃ m ∈ dirs, T.entry n T.up = some (m, true)
  upRoot : T.entry T.root T.up = some (T.root, true)
  child : ∀ n ∈ dirs, ∀ c m, valid c → c ≠ T.here → c ≠ T.up → T.entry n c = some (m, true) →
    m ∈ dirs ∧ T.entry m T.up = some (n, true)

variable {dirs : Set N} {valid : C → Prop} {stack : List C}

/-- A directory found in a directory of the set is in the set. -/
theorem Names.Correct.mem_of_entry (hT : T.Correct dirs valid) (hn : n ∈ dirs) (hc : valid c)
    (h : T.entry n c = some (m, true)) : m ∈ dirs := by
  by_cases hhere : c = T.here
  · rw [hhere, hT.here n hn] at h
    obtain rfl : n = m := by simpa using h
    exact hn
  · by_cases hup : c = T.up
    · obtain ⟨k, hk, hkn⟩ := hT.up n hn
      rw [hup, hkn] at h
      obtain rfl : k = m := by simpa using h
      exact hk
    · exact (hT.child n hn c m hc hhere hup h).1

/-- Maps that agree on the directories are correct together. -/
theorem Names.Correct.congr {U : Names N C} (hT : T.Correct dirs valid) (hroot : U.root = T.root)
    (hhere : U.here = T.here) (hup : U.up = T.up)
    (hentry : ∀ n ∈ dirs, ∀ c, U.entry n c = T.entry n c) : U.Correct dirs valid where
  root := hroot ▸ hT.root
  here n hn := by rw [hhere, hentry n hn, hT.here n hn]
  up n hn := by
    obtain ⟨m, hm, hnm⟩ := hT.up n hn
    exact ⟨m, hm, by rw [hup, hentry n hn, hnm]⟩
  upRoot := by rw [hup, hroot, hentry _ hT.root, hT.upRoot]
  child n hn c m hc hnhere hnup h := by
    rw [hhere] at hnhere
    rw [hup] at hnup
    rw [hentry n hn] at h
    obtain ⟨hm, hmn⟩ := hT.child n hn c m hc hnhere hnup h
    exact ⟨hm, by rw [hup, hentry m hm, hmn]⟩

/-- Valid names lead from directories to directories. -/
theorem Names.Correct.mem_of_resolve (hT : T.Correct dirs valid) (hcs : ∀ c ∈ cs, valid c)
    (h : T.resolve T.root cs = some (n, true)) : n ∈ dirs := by
  induction cs using List.reverseRecOn generalizing n with
  | nil =>
    obtain rfl : T.root = n := by simpa using h
    exact hT.root
  | append_singleton cs c ih =>
    obtain ⟨k, hk, hc⟩ := resolve_concat h
    have hdir := ih (fun d hd => hcs d (List.mem_append_left _ hd)) hk
    exact hT.mem_of_entry hdir (hcs c (by simp)) hc

/-- Names that are neither `.` nor `..`. -/
def Names.Plain (T : Names N C) (valid : C → Prop) (stack : List C) : Prop :=
  ∀ c ∈ stack, valid c ∧ c ≠ T.here ∧ c ≠ T.up

/-- Plain names lead from directories to directories. -/
theorem Names.Correct.mem_dirs (hT : T.Correct dirs valid) (hst : T.Plain valid stack)
    (h : T.resolve T.root stack = some (n, true)) : n ∈ dirs :=
  hT.mem_of_resolve (fun c hc => (hst c hc).1) h

/-- In a tree no name but `.` and `..` leads to the root, and two names of a directory lead to
two directories. -/
structure Names.IsTree (T : Names N C) (dirs : Set N) (valid : C → Prop) : Prop
    extends T.Correct dirs valid where
  noRoot : ∀ n ∈ dirs, ∀ c, T.Plain valid [c] → T.entry n c ≠ some (T.root, true)
  single : ∀ n ∈ dirs, ∀ c d m, T.Plain valid [c, d] → T.entry n c = some (m, true) →
    T.entry n d = some (m, true) → c = d

theorem plain_concat : T.Plain valid (cs ++ [c]) ↔ T.Plain valid cs ∧ T.Plain valid [c] := by
  unfold Names.Plain
  rw [List.forall_mem_append]

/-- The last step of a walk down plain names. -/
theorem Names.Correct.last_step (hT : T.Correct dirs valid) (hcs : T.Plain valid (cs ++ [c]))
    (h : T.resolve T.root (cs ++ [c]) = some (n, true)) : ∃ k ∈ dirs,
      T.resolve T.root cs = some (k, true) ∧ T.entry k c = some (n, true) ∧
        T.entry n T.up = some (k, true) := by
  obtain ⟨k, hk, hc⟩ := resolve_concat h
  obtain ⟨hplain, hlast⟩ := plain_concat.mp hcs
  have hmem := hT.mem_dirs hplain hk
  obtain ⟨hv, hhere, hup⟩ := hlast c List.mem_cons_self
  exact ⟨k, hmem, hk, hc, (hT.child k hmem c n hv hhere hup hc).2⟩

/-- Each directory of a tree has one path of plain names. -/
theorem Names.IsTree.eq_of_resolve (hT : T.IsTree dirs valid) (hcs : T.Plain valid cs)
    (hds : T.Plain valid ds) (h : T.resolve T.root cs = some (n, true))
    (h' : T.resolve T.root ds = some (n, true)) : cs = ds := by
  induction cs using List.reverseRecOn generalizing ds n with
  | nil =>
    obtain rfl : T.root = n := by simpa using h
    induction ds using List.reverseRecOn with
    | nil => rfl
    | append_singleton ds d _ =>
      obtain ⟨k, hk, -, hd, -⟩ := hT.last_step hds h'
      exact absurd hd (hT.noRoot k hk d (plain_concat.mp hds).2)
  | append_singleton cs c ih =>
    obtain ⟨k, hk, hcs', hc, hup⟩ := hT.last_step hcs h
    induction ds using List.reverseRecOn with
    | nil =>
      obtain rfl : T.root = n := by simpa using h'
      exact absurd hc (hT.noRoot k hk c (plain_concat.mp hcs).2)
    | append_singleton ds d _ =>
      obtain ⟨k', -, hds', hd, hup'⟩ := hT.last_step hds h'
      -- both parents are what `..` leads to
      obtain rfl : k = k' := by simpa using hup.symm.trans hup'
      have hplain : T.Plain valid [c, d] := by
        intro b hb
        rcases List.mem_cons.mp hb with rfl | hb
        · exact (plain_concat.mp hcs).2 _ List.mem_cons_self
        · exact (plain_concat.mp hds).2 _ hb
      rw [ih (plain_concat.mp hcs).1 (plain_concat.mp hds).1 hcs' hds',
        hT.single k hk c d n hplain hc hd]

/-- A directory is neither the root, nor its parent, nor the parent of that. -/
theorem Names.IsTree.not_above (hT : T.IsTree dirs valid) (hcs : T.Plain valid (cs ++ [c]))
    (hm : T.resolve T.root cs = some (m, true)) (hn : T.entry m c = some (n, true)) :
    n ≠ T.root ∧ n ≠ m ∧ T.entry m T.up ≠ some (n, true) := by
  have hreach : T.resolve T.root (cs ++ [c]) = some (n, true) := by
    rw [resolve_append hm, resolve_singleton, hn]
  have hshort : ∀ ds, T.Plain valid ds → ds.length ≤ cs.length →
      T.resolve T.root ds ≠ some (n, true) := by
    intro ds hds hlen h
    have hlength := congrArg List.length (hT.eq_of_resolve hds hcs h hreach)
    rw [List.length_append, List.length_singleton] at hlength
    omega
  have hplain := (plain_concat.mp hcs).1
  refine ⟨?_, ?_, fun hup => ?_⟩
  · rintro rfl
    exact hshort [] (by simp [Names.Plain]) (Nat.zero_le _) rfl
  · rintro rfl
    exact hshort cs hplain le_rfl hm
  · induction cs using List.reverseRecOn with
    | nil =>
      obtain rfl : T.root = m := by simpa using hm
      obtain rfl : T.root = n := by simpa using hT.upRoot.symm.trans hup
      exact hshort [] hplain le_rfl rfl
    | append_singleton cs b _ =>
      obtain ⟨k, -, hk, -, hup'⟩ := hT.last_step hplain hm
      obtain rfl : k = n := by simpa using hup'.symm.trans hup
      exact hshort cs (plain_concat.mp hplain).1 (by simp) hk

section Wash

variable [DecidableEq C]

/-- One name on top of the names so far. -/
def Names.push (T : Names N C) (stack : List C) (c : C) : List C :=
  if c = T.up then stack.dropLast else if c = T.here then stack else stack ++ [c]

theorem mem_push {d : C} (hd : d ∈ T.push stack c) : d ∈ stack ∨ d = c := by
  unfold Names.push at hd
  split_ifs at hd
  · exact Or.inl (List.dropLast_subset _ hd)
  · exact Or.inl hd
  · simpa using hd

/-- The names with `.` and `..` worked off. -/
def Names.wash (T : Names N C) (cs : List C) : List C := cs.foldl T.push []

@[simp] theorem wash_concat : T.wash (cs ++ [c]) = T.push (T.wash cs) c := by
  simp [Names.wash]

theorem Names.Plain.push (h : T.Plain valid stack) (hc : valid c) :
    T.Plain valid (T.push stack c) := by
  unfold Names.push
  split_ifs with hup hhere
  · exact fun d hd => h d (List.dropLast_subset _ hd)
  · exact h
  · intro d hd
    rcases List.mem_append.mp hd with hd | hd
    · exact h d hd
    · obtain rfl := List.mem_singleton.mp hd
      exact ⟨hc, hhere, hup⟩

theorem plain_wash (hcs : ∀ c ∈ cs, valid c) : T.Plain valid (T.wash cs) := by
  induction cs using List.reverseRecOn with
  | nil => exact fun c hc => absurd hc (by simp [Names.wash])
  | append_singleton cs c ih =>
    rw [wash_concat]
    exact (ih fun d hd => hcs d (List.mem_append_left _ hd)).push (hcs c (by simp))

/-- One name: the stack leads where the walk goes from the directory of the stack. -/
theorem Names.Correct.resolve_push (hT : T.Correct dirs valid) (hst : T.Plain valid stack)
    (h : T.resolve T.root stack = some (n, true)) :
    T.resolve T.root (T.push stack c) = T.entry n c := by
  have hn := hT.mem_dirs hst h
  unfold Names.push
  split_ifs with hup hhere
  · subst hup
    induction stack using List.reverseRecOn with
    | nil =>
      obtain rfl : T.root = n := by simpa using h
      simpa using hT.upRoot.symm
    | append_singleton stack d _ =>
      obtain ⟨k, hk, hd⟩ := resolve_concat h
      obtain ⟨hv, hne, hne'⟩ := hst d (by simp)
      have hdir := hT.mem_dirs (fun e he => hst e (List.mem_append_left _ he)) hk
      rw [List.dropLast_concat, hk, (hT.child k hdir d n hv hne hne' hd).2]
  · rw [h, hhere, hT.here n hn]
  · rw [resolve_append h, resolve_singleton]

/-- Washing the names of a directory keeps where they lead. -/
theorem Names.Correct.resolve_wash_dir (hT : T.Correct dirs valid) (hcs : ∀ c ∈ cs, valid c)
    (h : T.resolve T.root cs = some (n, true)) :
    T.resolve T.root (T.wash cs) = some (n, true) := by
  induction cs using List.reverseRecOn generalizing n with
  | nil => exact h
  | append_singleton cs c ih =>
    have hcs' : ∀ d ∈ cs, valid d := fun d hd => hcs d (List.mem_append_left _ hd)
    obtain ⟨k, hk, hc⟩ := resolve_concat h
    rw [wash_concat, hT.resolve_push (plain_wash hcs') (ih hcs' hk), hc]

/-- Where all proper prefixes are directories, washing keeps where the names lead. -/
theorem Names.Correct.resolve_wash (hT : T.Correct dirs valid) (hcs : ∀ c ∈ cs, valid c)
    (hpre : ∀ ds, ds <+: cs → ds ≠ cs → ∃ n, T.resolve T.root ds = some (n, true)) :
    T.resolve T.root (T.wash cs) = T.resolve T.root cs := by
  rcases List.eq_nil_or_concat cs with rfl | ⟨ds, c, rfl⟩
  · rfl
  · have hds : ∀ d ∈ ds, valid d := fun d hd => hcs d (by simp [hd])
    obtain ⟨n, hn⟩ := hpre ds (by simp) (by simp)
    rw [List.concat_eq_append, wash_concat,
      hT.resolve_push (plain_wash hds) (hT.resolve_wash_dir hds hn), resolve_append hn,
      resolve_singleton]

end Wash

end X86System.PathTree
