import X86System.WashPath
import X86System.Library.Pieces

/-!
# The canonical path

The names of a path are its non-empty pieces between slashes. `wash_path` works them off
on a stack that it keeps as a string; what it returns is the path of the stack, a path
that it leaves as it is.
-/
namespace X86System.FileSystem
open Bytes Exec PathTree Pieces

variable {p name : List UInt8} {stack cs : List (List UInt8)}

section Pieces

/-- The names are the non-empty pieces of the path. -/
theorem components_eq_splitOn (p : List UInt8) :
    components p = (p.splitOn slash).filter (· ≠ []) := by
  show components p = pieces slash p
  induction p using components.induct with
  | case1 => simp [components]
  | case2 l ih => rw [components_slash, ih, pieces_sep]
  | case3 c l hc ih =>
    rw [components, if_neg hc, ih, pieces_takeWhile (List.cons_ne_nil c l) (by simpa),
      List.takeWhile_cons_of_pos (by simpa), List.dropWhile_cons_of_pos (by simpa)]

/-- The pieces of the path of a stack. -/
theorem splitOn_joined (hcs : ∀ c ∈ cs, slash ∉ c) : (joined cs).splitOn slash = [] :: cs := by
  suffices ∀ b : List UInt8, slash ∉ b → (b ++ joined cs).splitOn slash = b :: cs from
    this [] (by simp)
  induction cs with
  | nil =>
    intro b hb
    rw [joined, List.flatMap_nil, List.append_nil, List.splitOn_eq_singleton hb]
  | cons c cs ih =>
    intro b hb
    have hrest := ih (fun d hd => hcs d (List.mem_cons_of_mem c hd)) c (hcs c List.mem_cons_self)
    rw [joined_cons, List.cons_append, List.splitOn_append_cons_self_of_not_mem hb, hrest]

/-- No slash stands at the end of the path of a stack. -/
theorem getLast?_joined (hcs : ∀ c ∈ cs, ValidName c) : (joined cs).getLast? ≠ some slash := by
  rcases List.eq_nil_or_concat cs with rfl | ⟨ds, c, rfl⟩
  · simp [joined]
  · rw [List.concat_eq_append] at hcs ⊢
    obtain ⟨hne, -, hslash, -⟩ := hcs c (by simp)
    rw [joined_concat, List.getLast?_append_of_ne_nil _ (List.cons_ne_nil slash c),
      List.getLast?_cons_of_ne_nil hne]
    exact fun h => hslash (List.mem_of_getLast? h)

end Pieces

section Stacks

/-- A stack without `.` and `..`. -/
def PlainStack (stack : List (List UInt8)) : Prop :=
  ∀ c ∈ stack, ValidName c ∧ c ≠ [dot] ∧ c ≠ [dot, dot]

theorem plainStack_push (hstack : PlainStack stack) (hname : ValidName name) :
    PlainStack (pushName stack name) := by
  intro c hc
  unfold pushName at hc
  split_ifs at hc with hup hhere
  · exact hstack c (List.dropLast_subset _ hc)
  · exact hstack c hc
  · rcases List.mem_append.mp hc with hc | hc
    · exact hstack c hc
    · obtain rfl := List.mem_singleton.mp hc
      exact ⟨hname, hhere, hup⟩

theorem plainStack_foldl (hstack : PlainStack stack) (hcs : ∀ c ∈ cs, ValidName c) :
    PlainStack (cs.foldl pushName stack) := by
  induction cs generalizing stack with
  | nil => exact hstack
  | cons c cs ih =>
    exact ih (plainStack_push hstack (hcs c List.mem_cons_self)) fun d hd =>
      hcs d (List.mem_cons_of_mem c hd)

/-- Plain names stay as they are. -/
theorem foldl_plainStack (hcs : PlainStack cs) : cs.foldl pushName stack = stack ++ cs := by
  induction cs generalizing stack with
  | nil => rw [List.foldl_nil, List.append_nil]
  | cons c cs ih =>
    obtain ⟨-, hhere, hup⟩ := hcs c List.mem_cons_self
    rw [List.foldl_cons, ih fun d hd => hcs d (List.mem_cons_of_mem c hd), pushName, if_neg hup,
      if_neg hhere, List.append_assoc, List.singleton_append]

/-- The path of a plain stack is either `/` or has no trailing slash and no other pieces than
the names. -/
theorem render_pieces (hstack : PlainStack stack) : render stack = [slash] ∨
    (render stack).getLast? ≠ some slash ∧
      ∀ c ∈ ((render stack).splitOn slash).tail, c ≠ [] ∧ c ≠ [dot] ∧ c ≠ [dot, dot] := by
  by_cases hne : stack = []
  · subst hne
    exact Or.inl rfl
  · rw [render_of_ne hne]
    refine Or.inr ⟨getLast?_joined fun c hc => (hstack c hc).1, fun c hc => ?_⟩
    rw [splitOn_joined fun c hc => (hstack c hc).1.2.2.1, List.tail_cons] at hc
    obtain ⟨⟨hempty, -⟩, hplain⟩ := hstack c hc
    exact ⟨hempty, hplain⟩

/-- `wash_path` leaves the path of a plain stack as it is. -/
theorem washPath_fixed (hstack : PlainStack stack)
    (hlen : (render stack).length < maxPathLen) : washPath (render stack) = .ok (render stack) := by
  obtain ⟨q, hq, hnames, -⟩ := render_eq fun c hc => (hstack c hc).1
  have hvalid : ∀ c ∈ components q, ValidName c := fun c hc => (hstack c (hnames ▸ hc)).1
  rw [hq, List.length_cons] at hlen
  rw [hq, washPath_render hlen hvalid, hnames, foldl_plainStack hstack, List.nil_append, ← hq]

end Stacks

/-- `wash_path` writes the path of the stack of its names, with `.` and `..` worked off. -/
theorem wash_path_canonical (p : List UInt8) (hzero : 0 ∉ p) (habs : p.head? = some slash)
    (hlen : p.length < maxPathLen) (hshort : ∀ c ∈ p.splitOn slash, c.length ≤ 15) :
    ∃ new, washPath p = .ok new ∧
      new = render (((p.splitOn slash).filter (· ≠ [])).foldl pushName []) ∧
      (new = [slash] ∨ new.getLast? ≠ some slash ∧
        ∀ c ∈ (new.splitOn slash).tail, c ≠ [] ∧ c ≠ [dot] ∧ c ≠ [dot, dot]) ∧
      new.length ≤ p.length ∧ washPath new = .ok new := by
  obtain ⟨q, rfl⟩ : ∃ q, p = slash :: q := List.head?_eq_some_iff.mp habs
  have hnames : components q = ((slash :: q).splitOn slash).filter (· ≠ []) := by
    rw [← components_slash, components_eq_splitOn]
  have hvalid : ∀ c ∈ components q, ValidName c := by
    refine valid_components (fun h => hzero (List.mem_cons_of_mem slash h)) fun c hc => ?_
    rw [hnames] at hc
    exact Nat.lt_succ_of_le (hshort c (List.mem_of_mem_filter hc))
  have hplain : PlainStack ((components q).foldl pushName []) :=
    plainStack_foldl (fun c hc => absurd hc (by simp)) hvalid
  have hnew : (render ((components q).foldl pushName [])).length ≤ (slash :: q).length := by
    have hjoined := length_joined_components q
    have hwash := length_joined_wash (components q)
    rw [components_slash] at hjoined
    rw [List.length_cons]
    unfold render
    split_ifs
    · rw [List.length_singleton]
      omega
    · exact hwash.trans hjoined
  rw [List.length_cons] at hlen
  refine ⟨_, washPath_render hlen hvalid, congrArg (fun cs => render (cs.foldl pushName [])) hnames,
    render_pieces hplain, hnew, washPath_fixed hplain (lt_of_le_of_lt hnew hlen)⟩

/-- `//ab/./c/../` becomes `/ab`. -/
theorem wash_path_canonical_sample : ∃ new,
    washPath [slash, slash, 97, 98, slash, dot, slash, 99, slash, dot, dot, slash] = .ok new ∧
      new.length ≤ 12 ∧ washPath new = .ok new := by
  obtain ⟨new, hnew, -, -, hlen, hfixed⟩ := wash_path_canonical
    [slash, slash, 97, 98, slash, dot, slash, 99, slash, dot, dot, slash]
    (by decide) rfl (by decide) (by decide)
  exact ⟨new, hnew, hlen, hfixed⟩

end X86System.FileSystem
