import X86System.PathWalk
import X86System.Sessions

/-!
# The shell's path washing

`wash_path` interprets `.` and `..` by editing the path, `search_file` by the entries of
these names on disk. The string that `wash_path` builds is always the path of a stack
of names, which one more name pushes or pops.
-/
namespace X86System.FileSystem
open Bytes Exec PathTree

variable {s : State} {p name : List UInt8} {sub : Option (List UInt8)}
  {cs stack : List (List UInt8)} {dirs : Set UInt32}

section Source

/-- Cut the path at its last slash, which stays if it is the first byte. -/
def cutLast (newAbsPath : List UInt8) : Except Fault (List UInt8) :=
  match newAbsPath.reverse.dropWhile (· ≠ slash) with
  | [] => .error .page
  | [_] => .ok [slash]
  | _ :: l => .ok l.reverse

/-- `strcat` of a name, behind a slash if there is a name already. -/
def appendName (newAbsPath name : List UInt8) : Except Fault (List UInt8) :=
  let new := (if newAbsPath = [slash] then newAbsPath else newAbsPath ++ [slash]) ++ name
  do
    ensure Fault.overrun (new.length < maxPathLen)
    .ok new

/-- What one name does to the path so far. -/
def washName (newAbsPath name : List UInt8) : Except Fault (List UInt8) :=
  if name = [dot, dot] then cutLast newAbsPath
  else if name ≠ [dot] then appendName newAbsPath name
  else .ok newAbsPath

/-- The loop of `wash_path`, for at most `fuel` names. -/
def washLoop : ℕ → List UInt8 → List UInt8 → Option (List UInt8) → Except Fault (List UInt8)
  | 0, _, _, _ => .error .diverge
  | fuel + 1, newAbsPath, name, subPath =>
    if name = [] then .ok newAbsPath
    else do
      let newAbsPath ← washName newAbsPath name
      let (name, subPath) ← nextName subPath
      washLoop fuel newAbsPath name subPath

/-- `wash_path`; the new path is in a buffer of `MAX_PATH_LEN` bytes. -/
def washPath (oldAbsPath : List UInt8) : Except Fault (List UInt8) := do
  ensure Fault.assert (oldAbsPath.head? = some slash)
  let (name, subPath) ← nextName (some oldAbsPath)
  if name = [] then .ok [slash]
  else washLoop (oldAbsPath.length + 1) [slash] name subPath

end Source

section Strings

/-- The path of a stack of names. -/
def render (stack : List (List UInt8)) : List UInt8 :=
  if stack = [] then [slash] else joined stack

@[simp] theorem render_nil : render [] = [slash] := rfl

theorem render_of_ne (h : stack ≠ []) : render stack = joined stack := if_neg h

theorem joined_ne_slash (hstack : ∀ c ∈ stack, ValidName c) (h : stack ≠ []) :
    joined stack ≠ [slash] := by
  cases stack with
  | nil => exact absurd rfl h
  | cons c stack =>
    have hc := (hstack c List.mem_cons_self).1
    cases c with
    | nil => exact absurd rfl hc
    | cons b c => simp [joined_cons]

/-- Cutting at the last slash takes the last name away. -/
theorem cutLast_render (hstack : ∀ c ∈ stack, ValidName c) :
    cutLast (render stack) = .ok (render stack.dropLast) := by
  rcases List.eq_nil_or_concat stack with rfl | ⟨stack, name, rfl⟩
  · simp [cutLast]
  · rw [List.concat_eq_append] at hstack ⊢
    have hslash := (hstack name (by simp)).2.2.1
    have hall : ∀ b ∈ name.reverse, decide (b ≠ slash) = true := fun b hb =>
      decide_eq_true fun h => hslash (h ▸ List.mem_reverse.mp hb)
    rw [render_of_ne (by simp), joined_concat, List.dropLast_concat]
    unfold cutLast
    rw [List.reverse_append, List.reverse_cons, List.append_assoc,
      List.dropWhile_append_of_pos hall]
    cases stack with
    | nil => simp [joined]
    | cons c stack =>
      have hne : (joined (c :: stack)).reverse ≠ [] := by simp [joined_cons]
      obtain ⟨b, l, hl⟩ := List.exists_cons_of_ne_nil hne
      have hback : joined (c :: stack) = (b :: l).reverse := by rw [← hl, List.reverse_reverse]
      rw [hl, render_of_ne (List.cons_ne_nil c stack), hback]
      simp

/-- Appending a name puts it on the stack. -/
theorem appendName_render (hstack : ∀ c ∈ stack, ValidName c)
    (hlen : (joined (stack ++ [name])).length < maxPathLen) :
    appendName (render stack) name = .ok (render (stack ++ [name])) := by
  have hnew : (if render stack = [slash] then render stack else render stack ++ [slash]) ++ name =
      joined (stack ++ [name]) := by
    by_cases h : stack = []
    · simp [h, joined]
    · rw [render_of_ne h, if_neg (joined_ne_slash hstack h), joined_concat, List.append_assoc,
        List.singleton_append]
  unfold appendName
  dsimp only
  rw [hnew, ensure_of hlen, ok_bind, render_of_ne (by simp)]

/-- What one name does to a stack of names. -/
def pushName (stack : List (List UInt8)) (name : List UInt8) : List (List UInt8) :=
  if name = [dot, dot] then stack.dropLast else if name = [dot] then stack
  else stack ++ [name]

theorem tree_push : s.tree.push = pushName := rfl

theorem tree_wash : s.tree.wash cs = cs.foldl pushName [] := rfl

/-- One name is pushed on the stack of the path. -/
theorem washName_render (hstack : ∀ c ∈ stack, ValidName c)
    (hlen : (joined (stack ++ [name])).length < maxPathLen) :
    washName (render stack) name = .ok (render (pushName stack name)) := by
  rw [washName, pushName]
  by_cases hup : name = [dot, dot]
  · rw [if_pos hup, if_pos hup, cutLast_render hstack]
  · by_cases hhere : name = [dot]
    · rw [if_neg hup, if_neg (not_not_intro hhere), if_neg hup, if_pos hhere]
    · rw [if_neg hup, if_pos hhere, if_neg hup, if_neg hhere, appendName_render hstack hlen]

theorem length_joined_push (stack : List (List UInt8)) (name : List UInt8) :
    (joined (pushName stack name)).length ≤ (joined stack).length + (name.length + 1) := by
  have hdrop : (joined stack.dropLast).length ≤ (joined stack).length := by
    rcases List.eq_nil_or_concat stack with rfl | ⟨stack, c, rfl⟩
    · exact le_rfl
    · rw [List.concat_eq_append, List.dropLast_concat, joined_append, List.length_append]
      exact Nat.le_add_right _ _
  unfold pushName
  split_ifs
  · omega
  · omega
  · rw [joined_concat, List.length_append, List.length_cons]

theorem mem_pushName {c : List UInt8} (hc : c ∈ pushName stack name) : c ∈ stack ∨ c = name := by
  unfold pushName at hc
  split_ifs at hc
  · exact Or.inl (List.dropLast_subset _ hc)
  · exact Or.inl hc
  · simpa using hc

/-- The loop pushes the pending names. -/
theorem washLoop_render (fuel : ℕ) : ∀ (stack : List (List UInt8)) {cs : List (List UInt8)}
    {name : List UInt8} {sub : Option (List UInt8)}, Pending name sub cs → (∀ c ∈ stack, ValidName c) →
    (∀ c ∈ cs, ValidName c) → cs.length < fuel →
    (joined stack).length + (joined cs).length < maxPathLen →
    washLoop fuel (render stack) name sub = .ok (render (cs.foldl pushName stack)) := by
  induction fuel with
  | zero => exact fun _ _ _ _ _ _ _ hlen => absurd hlen (Nat.not_lt_zero _)
  | succ fuel ih =>
    intro stack cs name sub hpend hstack hvalid hlen hsize
    unfold washLoop
    rcases hpend with ⟨rfl, rfl⟩ | ⟨hname, rfl⟩
    · rw [if_pos rfl, List.foldl_nil]
    · have hrest : ∀ c ∈ sub.elim [] components, ValidName c := fun c hc =>
        hvalid c (List.mem_cons_of_mem _ hc)
      obtain ⟨name', sub', hnext, hpend⟩ := nextName_pending _ fun c hc => (hrest c hc).2.1
      rw [joined_cons, List.length_append, List.length_cons] at hsize
      have hnew : (joined (stack ++ [name])).length < maxPathLen := by
        rw [joined_concat, List.length_append, List.length_cons]
        omega
      have hpush := length_joined_push stack name
      rw [if_neg hname, washName_render hstack hnew, ok_bind, hnext, ok_bind,
        List.foldl_cons]
      refine ih _ hpend (fun c hc => ?_) hrest ?_ (by omega)
      · rcases mem_pushName hc with hc | rfl
        · exact hstack c hc
        · exact hvalid c List.mem_cons_self
      · rw [List.length_cons] at hlen
        exact Nat.lt_of_succ_lt_succ hlen

/-- The washed path is that of the washed names. -/
theorem washPath_render (hlen : p.length + 1 < maxPathLen)
    (hvalid : ∀ c ∈ components p, ValidName c) :
    washPath (slash :: p) = .ok (render ((components p).foldl pushName [])) := by
  obtain ⟨name, sub, hnext, hpend⟩ := nextName_pending (some (slash :: p)) fun c hc =>
    (hvalid c (by rwa [Option.elim_some, components_slash] at hc)).2.1
  rw [Option.elim_some, components_slash] at hpend
  have hjoined := length_joined_components p
  have hcount := length_le_joined (components (slash :: p))
  rw [components_slash] at hjoined hcount
  have hhead : (slash :: p).head? = some slash := rfl
  unfold washPath
  rw [ensure_of hhead, ok_bind, hnext, ok_bind]
  dsimp only
  split_ifs with hname
  · rcases hpend with ⟨-, hnil⟩ | ⟨hne, -⟩
    · rw [hnil]
      rfl
    · exact absurd hname hne
  · refine washLoop_render _ [] hpend (fun c hc => absurd hc (by simp)) hvalid ?_ ?_
    · rw [List.length_cons]
      omega
    · simp only [joined, List.flatMap_nil, List.length_nil, Nat.zero_add] at hjoined ⊢
      omega

end Strings

section Agreement

/-- Names have no slash, no byte that the path does not have, and are not empty. -/
theorem mem_components (p : List UInt8) : ∀ c ∈ components p, c ≠ [] ∧ slash ∉ c ∧ c ⊆ p := by
  induction hlen : p.length using Nat.strongRecOn generalizing p with
  | ind k ih =>
    subst hlen
    cases p with
    | nil => simp [components]
    | cons b l =>
      intro c hc
      rw [components] at hc
      split_ifs at hc with hb
      · obtain ⟨hne, hslash, hsub⟩ := ih l.length (by simp) l rfl c hc
        exact ⟨hne, hslash, fun e he => List.mem_cons_of_mem b (hsub he)⟩
      · rcases List.mem_cons.mp hc with rfl | hc
        · refine ⟨List.cons_ne_nil _ _, fun hmem => ?_, fun e he => ?_⟩
          · rcases List.mem_cons.mp hmem with h | h
            · exact hb h.symm
            · have hall := List.all_takeWhile (p := (· ≠ slash)) (l := l)
              simpa using List.all_eq_true.mp hall slash h
          · rcases List.mem_cons.mp he with rfl | he
            · exact List.mem_cons_self
            · exact List.mem_cons_of_mem b ((List.takeWhile_prefix _).subset he)
        · have hsuffix := List.dropWhile_suffix (l := l) (· ≠ slash)
          have hshort : (l.dropWhile (· ≠ slash)).length < (b :: l).length := by
            have := hsuffix.length_le
            rw [List.length_cons]
            omega
          obtain ⟨hne, hslash, hsub⟩ := ih _ hshort _ rfl c hc
          exact ⟨hne, hslash, fun e he => List.mem_cons_of_mem b (hsuffix.subset (hsub he))⟩

theorem valid_components (hzero : 0 ∉ p) (hshort : ∀ c ∈ components p, c.length < maxFileNameLen) :
    ∀ c ∈ components p, ValidName c := by
  intro c hc
  obtain ⟨hne, hslash, hsub⟩ := mem_components p c hc
  exact ⟨hne, hshort c hc, hslash, fun h => hzero (hsub h)⟩

theorem length_joined_wash (cs : List (List UInt8)) :
    (joined (cs.foldl pushName [])).length ≤ (joined cs).length := by
  induction cs using List.reverseRecOn with
  | nil => exact le_rfl
  | append_singleton cs c ih =>
    have hpush := length_joined_push (cs.foldl pushName []) c
    rw [List.foldl_concat, joined_concat, List.length_append, List.length_cons]
    omega

/-- The path of a stack begins with a slash and has the names of the stack. -/
theorem render_eq (hstack : ∀ c ∈ stack, ValidName c) : ∃ q, render stack = slash :: q ∧
    components q = stack ∧ (components q = [] → q = []) ∧
      (q = [] ∨ q.length + 1 = (joined stack).length) := by
  cases stack with
  | nil => exact ⟨[], rfl, by rw [components], fun _ => rfl, Or.inl rfl⟩
  | cons c stack =>
    have hjoined : joined (c :: stack) = slash :: (c ++ joined stack) := rfl
    have hnames := components_joined hstack
    rw [hjoined, components_slash] at hnames
    refine ⟨c ++ joined stack, ?_, hnames, fun h => ?_, Or.inr ?_⟩
    · rw [render_of_ne (List.cons_ne_nil c stack), hjoined]
    · rw [hnames] at h
      exact absurd h (List.cons_ne_nil c stack)
    · rw [hjoined, List.length_cons]

end Agreement

section Sample

theorem lookup_setHeap (heap : ℕ → Bool) (n : UInt32) (name : List UInt8) :
    State.lookup { s with heap := heap } n name = s.lookup n name :=
  lookupIn_congr rfl rfl rfl

/-- Where names lead does not depend on the heap. -/
theorem tree_setHeap (heap : ℕ → Bool) : State.tree { s with heap := heap } = s.tree := by
  simp only [State.tree, lookup_setHeap]

theorem TreeOk.setHeap (hT : TreeOk s dirs) (heap : ℕ → Bool) :
    TreeOk { s with heap := heap } dirs := by
  have hview : ∀ n, State.view { s with heap := heap } n = s.view n := fun _ => rfl
  refine ⟨⟨hT.opens.nodup, hT.opens.live, hT.opens.used⟩, hT.rootOpen, fun n hn => ?_,
    fun n hn name hv => ?_, fun n hn name e hv he => ?_, ?_⟩
  · rw [hview]
    exact hT.number n hn
  · rw [lookup_setHeap]
    exact hT.readable n hn name hv
  · rw [lookup_setHeap] at he
    exact hT.typed n hn name e hv he
  · rw [tree_setHeap]
    exact hT.entries

/-- A name that matches `.` or `..` is that. -/
theorem eq_dot_of_named {e : DirEntry} (hname : ValidName name) (he : e.named name)
    (h0 : e.bytes 0 = dot) (h1 : e.bytes 1 = 0 ∨ e.bytes 1 = dot ∧ e.bytes 2 = 0) :
    name = [dot] ∨ name = [dot, dot] := by
  obtain ⟨hne, -, -, hzero⟩ := hname
  unfold DirEntry.named at he
  rcases name with _ | ⟨b, _ | ⟨c, _ | ⟨d, l⟩⟩⟩
  · exact absurd rfl hne
  · simp only [strMatches, h0, Bool.and_eq_true, decide_eq_true_eq] at he
    exact Or.inl (by rw [he.1])
  · simp only [strMatches, h0, slice_apply, Bool.and_eq_true, decide_eq_true_eq] at he
    obtain ⟨rfl, hc, -⟩ := he
    have hc : e.bytes 1 = c := of_decide_eq_true hc
    rcases h1 with h1 | ⟨h1, -⟩
    · obtain rfl : 0 = c := h1.symm.trans hc
      exact absurd (by simp) hzero
    · obtain rfl : dot = c := h1.symm.trans hc
      exact Or.inr rfl
  · simp only [strMatches, h0, slice_apply, Bool.and_eq_true, decide_eq_true_eq] at he
    obtain ⟨-, hc, hd, -⟩ := he
    have hc : e.bytes 1 = c := of_decide_eq_true hc
    have hd : e.bytes 2 = d := of_decide_eq_true hd
    rcases h1 with h1 | ⟨-, h2⟩
    · obtain rfl : 0 = c := h1.symm.trans hc
      exact absurd (by simp) hzero
    · obtain rfl : 0 = d := h2.symm.trans hd
      exact absurd (by simp) hzero

theorem sampleSession_view {n : UInt32} (hn : n = 0 ∨ n = 2) :
    n.toNat < 4096 ∧ (sampleSession.fs.view n).iNo = n ∧
      (sampleSession.fs.view n).sector 12 = 0 ∧
      ∀ k < 140, (sampleSession.fs.view n).blockLba sampleDisk k =
        if k = 0 then (if n = 0 then 612 else 613) else 0 := by
  rcases hn with rfl | rfl
  · decide
  · decide

/-- The places of the two directories: `.`, `..`, those of `f` and `d`, and free ones. -/
theorem sampleSession_places : ∀ lba ∈ [612, 613], ∀ j < 21,
    let e := dirEntryAt sampleDisk lba j
    (e.bytes 0 = 0 ∨ e.fType = ftRegular ∨ e.fType = ftDirectory) ∧
      (e.fType = ftDirectory → e.bytes 0 = dot ∧ (e.bytes 1 = 0 ∨ e.bytes 1 = dot ∧ e.bytes 2 = 0) ∨
        lba = 612 ∧ e.iNo = 2) := by
  intro lba hlba
  obtain rfl | rfl : lba = 612 ∨ lba = 613 := by simpa using hlba
  · decide
  · decide

/-- What a lookup in one of the directories finds. -/
theorem sampleSession_lookup {n : UInt32} {name : List UInt8} (hn : n = 0 ∨ n = 2)
    (hv : ValidName name) : ∃ e, sampleSession.fs.lookup n name = .ok e ∧
      ∀ e', e = some e' → e'.named name ∧
        ∃ j < 21, e' = dirEntryAt sampleDisk (if n = 0 then 612 else 613) j := by
  obtain ⟨-, -, htable, hblocks⟩ := sampleSession_view hn
  have hread : ∀ k < 140,
      ((sampleSession.fs.view n).blockLba sampleSession.fs.disk k).toNat ≤ maxLba := by
    intro k hk
    have hblock : (sampleSession.fs.view n).blockLba sampleSession.fs.disk k = _ := hblocks k hk
    rw [hblock]
    split_ifs <;> decide
  refine ⟨_, lookupIn_eq hv.2.1 (by rw [htable]; decide) hread, fun e he => ?_⟩
  refine ⟨List.find?_some (p := fun e : DirEntry => e.named name) he, ?_⟩
  obtain ⟨k, hk, hmem⟩ := List.mem_flatMap.mp (List.mem_of_find?_eq_some he)
  have hk := List.mem_range.mp hk
  have hblock : (sampleSession.fs.view n).blockLba sampleSession.fs.disk k = _ := hblocks k hk
  rw [hblock] at hmem
  by_cases hzero : k = 0
  · rw [if_pos hzero] at hmem
    have hlba : (if n = 0 then 612 else 613 : UInt32) ≠ 0 := by split_ifs <;> decide
    rw [if_neg hlba] at hmem
    obtain ⟨j, hj, rfl⟩ := List.mem_map.mp hmem
    exact ⟨j, List.mem_range.mp hj, rfl⟩
  · simp [hzero] at hmem

/-- The two directories are a tree. -/
theorem sampleSession_tree : TreeOk sampleSession.fs {0, 2} := by
  have hplace : ∀ {n : UInt32} {name : List UInt8} {e : DirEntry}, n = 0 ∨ n = 2 → ValidName name →
      sampleSession.fs.lookup n name = .ok (some e) →
      (e.fType = ftRegular ∨ e.fType = ftDirectory) ∧
        (e.fType = ftDirectory → name = [dot] ∨ name = [dot, dot] ∨ n = 0 ∧ e.iNo = 2) := by
    intro n name e hn hv he
    obtain ⟨o, ho, hfound⟩ := sampleSession_lookup hn hv
    obtain rfl : o = some e := Except.ok.inj (ho.symm.trans he)
    obtain ⟨hnamed, j, hj, rfl⟩ := hfound e rfl
    have hlba : (if n = 0 then 612 else 613 : UInt32) ∈ [612, 613] := by split_ifs <;> simp
    obtain ⟨htype, hdir⟩ := sampleSession_places _ hlba j hj
    refine ⟨htype.resolve_left fun hfree => ?_, fun h => ?_⟩
    · obtain ⟨hne, -, -, hzero⟩ := hv
      rcases name with _ | ⟨b, l⟩
      · exact hne rfl
      · unfold DirEntry.named at hnamed
        simp only [strMatches, hfree, Bool.and_eq_true, decide_eq_true_eq] at hnamed
        exact hzero (hnamed.1 ▸ List.mem_cons_self)
    · rcases hdir h with ⟨h0, h1⟩ | ⟨hn, hno⟩
      · exact (eq_dot_of_named hv hnamed h0 h1).imp_right Or.inl
      · have hroot : n = 0 := by
          by_contra hne
          rw [if_neg hne] at hn
          exact absurd hn (by decide)
        exact Or.inr (Or.inr ⟨hroot, hno⟩)
  have hup : sampleSession.fs.tree.entry 2 [dot, dot] = some (0, true) := by decide
  have hupRoot : sampleSession.fs.tree.entry 0 [dot, dot] = some (0, true) := by decide
  refine ⟨⟨List.nodup_singleton 0, fun a ha => ?_, fun a ha => ?_⟩, by decide,
    fun n hn => ?_, fun n hn name hv => ?_, fun n hn name e hv he => (hplace hn hv he).1,
    Or.inl rfl, fun n hn => ?_, fun n hn => ⟨0, Or.inl rfl, ?_⟩, hupRoot,
    fun n hn c m hv hhere hne hc => ?_⟩
  · obtain rfl := List.mem_singleton.mp ha
    exact ⟨_, rfl, by decide⟩
  · obtain rfl := List.mem_singleton.mp ha
    decide
  · obtain ⟨hlt, hno, -⟩ := sampleSession_view hn
    exact ⟨hlt, hno⟩
  · exact (sampleSession_lookup hn hv).imp fun _ h => h.1
  · rcases hn with rfl | rfl <;> decide
  · rcases hn with rfl | rfl
    · exact hupRoot
    · exact hup
  · obtain ⟨o, ho, -⟩ := sampleSession_lookup hn hv
    cases o with
    | none => exact absurd (hc.symm.trans (entry_of_none ho)) (by simp)
    | some e =>
      have hentry := hc.symm.trans (entry_of_found ho)
      obtain ⟨rfl, htype⟩ : m = e.iNo ∧ e.fType = ftDirectory := by simpa using hentry
      rcases (hplace hn hv ho).2 htype with rfl | rfl | ⟨rfl, hno⟩
      · exact absurd rfl hhere
      · exact absurd rfl hne
      · rw [hno]
        exact ⟨Or.inr rfl, hup⟩

/-- `"d/../f"`. -/
def pathUpF : List UInt8 := [0x64, slash, dot, dot, slash, 0x66]

theorem components_pathUpF : components pathUpF = [[0x64], [dot, dot], [0x66]] := by
  simp [pathUpF, components, slash, dot]

/-- The proper prefixes `/` and `/d` and `/d/..` are directories. -/
theorem pathUpF_prefixes : ∀ ds, ds <+: components pathUpF → ds ≠ components pathUpF →
    ∃ n, sampleSession.fs.tree.resolve 0 ds = some (n, true) := by
  rw [components_pathUpF]
  intro ds hds hne
  have hmem : ds ∈ [[0x64], [dot, dot], [0x66]].inits := (List.mem_inits _ _).mpr hds
  have hcases : ds = [] ∨ ds = [[0x64]] ∨ ds = [[0x64], [dot, dot]] := by
    simpa [hne] using hmem
  rcases hcases with rfl | rfl | rfl
  · exact ⟨0, rfl⟩
  · exact ⟨2, by decide⟩
  · exact ⟨0, by decide⟩

end Sample

end X86System.FileSystem
