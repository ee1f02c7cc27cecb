import X86System.CanonicalPaths
import X86System.PathSearches
import X86System.Library.Logged

/-!
# The arrays for names

`path_parse` stores the characters of a name and nothing behind them, however many there
are. Its callers have arrays of `MAX_FILE_NAME_LEN` bytes on their stacks, which they clear
before each call, `path_depth_cnt` before each but the first. The functions below are those
of the same names with a record of each call of `path_parse`.
-/
namespace X86System.FileSystem
open Bytes Exec PathTree

variable {s : State} {p q name : List UInt8} {sub : Option (List UInt8)}
  {stack cs : List (List UInt8)}

/-- An array of `MAX_FILE_NAME_LEN` bytes. -/
structure NameBuffer where
  bytes : List UInt8
  size : bytes.length = maxFileNameLen

namespace NameBuffer

/-- `memset(name, 0, MAX_FILE_NAME_LEN)`. -/
def zero : NameBuffer := ⟨List.replicate maxFileNameLen 0, List.length_replicate⟩

/-- `name[0]`. -/
def first (b : NameBuffer) : UInt8 := b.bytes.headD 0

/-- The array with the characters stored from its start on. -/
def put (b : NameBuffer) (chars : List UInt8) (h : chars.length ≤ maxFileNameLen) : NameBuffer :=
  ⟨chars ++ b.bytes.drop chars.length, by rw [List.length_append, List.length_drop, b.size]; omega⟩

/-- The string in the array, which has to have a NUL. -/
def string (b : NameBuffer) : Except Fault (List UInt8) := do
  ensure Fault.overrun (0 ∈ b.bytes)
  .ok (b.bytes.takeWhile (· ≠ 0))

end NameBuffer

/-- A call of `path_parse`: the characters that it stores and the array before. -/
structure ParseCall where
  chars : List UInt8
  nameStore : NameBuffer

/-- At most `MAX_FILE_NAME_LEN - 1` characters are stored, and the array has a NUL then. -/
def ParseCall.Safe (c : ParseCall) : Prop :=
  c.chars.length ≤ maxFileNameLen - 1 ∧ 0 ∈ c.chars ++ c.nameStore.bytes.drop c.chars.length

namespace Buffered

abbrev Parsing : Type → Type := Logged ParseCall Fault

open Logged

/-- `path_parse` with the array that it stores to. -/
def pathParse (pathname : List UInt8) (nameStore : NameBuffer) :
    Parsing (NameBuffer × Option (List UInt8)) := do
  let (chars, rest) := FileSystem.pathParse pathname
  event ⟨chars, nameStore⟩
  if h : chars.length ≤ maxFileNameLen then pure (nameStore.put chars h, rest)
  else liftM (.error Fault.overrun : Except Fault (NameBuffer × Option (List UInt8)))

/-- Clear the array and parse the next name, if there is one. -/
def parseNext (p : Option (List UInt8)) : Parsing (NameBuffer × Option (List UInt8)) :=
  match p with
  | none => pure (.zero, none)
  | some p => pathParse p .zero

/-- Parse until `path_parse` returns NULL or stores an empty name. -/
def splitPath : ℕ → List UInt8 → Parsing (List (List UInt8))
  | 0, _ => liftM (.error Fault.diverge : Except Fault (List (List UInt8)))
  | fuel + 1, pathname => do
    let (nameStore, rest) ← pathParse pathname .zero
    let name ← nameStore.string
    if name = [] then pure []
    else
      match rest with
      | none => pure [name]
      | some pathname => do
        let names ← splitPath fuel pathname
        pure (name :: names)

/-- The loop of `path_depth_cnt`. -/
def depthLoop : ℕ → NameBuffer → Option (List UInt8) → ℕ → Parsing ℕ
  | 0, _, _, _ => liftM (.error Fault.diverge : Except Fault ℕ)
  | fuel + 1, name, p, depth =>
    if name.first = 0 then pure depth
    else do
      let (name, p) ← parseNext p
      depthLoop fuel name p (depth + 1)

/-- `path_depth_cnt` with what is on its stack where the array lies. -/
def pathDepthCnt (name : NameBuffer) (pathname : List UInt8) : Parsing ℕ := do
  let (name, p) ← pathParse pathname name
  depthLoop (pathname.length + 2) name p 0

/-- The next name of `search_file` or `wash_path`, parsed to a cleared array. -/
def nextName (subPath : Option (List UInt8)) : Parsing (List UInt8 × Option (List UInt8)) :=
  match subPath with
  | none => pure ([], none)
  | some p => do
    event ⟨(FileSystem.pathParse p).1, .zero⟩
    FileSystem.nextName (some p)

def searchLoop : ℕ → State → PathSearchRecord → UInt32 → List UInt8 → Option (List UInt8) →
    Option DirEntry → Parsing (UInt32 × PathSearchRecord × State)
  | 0, _, _, _, _, _, _ =>
    liftM (.error Fault.diverge : Except Fault (UInt32 × PathSearchRecord × State))
  | fuel + 1, s, record, parentInodeNo, name, subPath, dirE => do
    if name = [] then liftM (finishSearch s record parentInodeNo dirE)
    else
      liftM (ensure Fault.assert (record.searchedPath.length < 512))
      let searched := record.searchedPath ++ slash :: name
      liftM (ensure Fault.overrun (searched.length < maxPathLen))
      let record := { record with searchedPath := searched }
      match ← (liftM (searchDirEntry s record.parentDir name) : Parsing _) with
      | (none, s) => pure (minusOne, record, s)
      | (some e, s) =>
        let (name, subPath) ← nextName subPath
        if e.fType = ftDirectory then
          let (parentInodeNo, dir, s) ← enterDir s record.parentDir e.iNo
          searchLoop fuel s { record with parentDir := dir } parentInodeNo name subPath (some e)
        else if e.fType = ftRegular then
          pure (e.iNo, { record with fileType := ftRegular }, s)
        else searchLoop fuel s record parentInodeNo name subPath (some e)

def searchFile (s : State) (pathname : List UInt8) :
    Parsing (UInt32 × PathSearchRecord × State) := do
  if pathname = [slash] ∨ pathname = [slash, dot] ∨ pathname = [slash, dot, dot] then
    pure (0, { searchedPath := [], parentDir := .root, fileType := ftDirectory }, s)
  else
    liftM (ensure Fault.assert (pathname.head? = some slash ∧ 1 < pathname.length ∧
      pathname.length < maxPathLen))
    let (name, subPath) ← nextName (some pathname)
    searchLoop (pathname.length + 1) s
      { searchedPath := [], parentDir := .root, fileType := ftUnknown } 0 name subPath none

def washLoop : ℕ → List UInt8 → List UInt8 → Option (List UInt8) → Parsing (List UInt8)
  | 0, _, _, _ => liftM (.error Fault.diverge : Except Fault (List UInt8))
  | fuel + 1, newAbsPath, name, subPath =>
    if name = [] then pure newAbsPath
    else do
      let newAbsPath ← washName newAbsPath name
      let (name, subPath) ← nextName subPath
      washLoop fuel newAbsPath name subPath

def washPath (oldAbsPath : List UInt8) : Parsing (List UInt8) := do
  liftM (ensure Fault.assert (oldAbsPath.head? = some slash))
  let (name, subPath) ← nextName (some oldAbsPath)
  if name = [] then pure [slash]
  else washLoop (oldAbsPath.length + 1) [slash] name subPath

section Buffers

variable {b : NameBuffer} {rest : Option (List UInt8)}

theorem first_put (hne : name ≠ []) (hzero : 0 ∉ name) (h : name.length ≤ maxFileNameLen) :
    (b.put name h).first ≠ 0 := by
  cases name with
  | nil => exact absurd rfl hne
  | cons c l => exact fun h => hzero (h ▸ List.mem_cons_self)

theorem first_zero : NameBuffer.zero.first = 0 := rfl

theorem first_put_zero (hzero : 0 ∉ name) (h : name.length ≤ maxFileNameLen) :
    (NameBuffer.zero.put name h).first = 0 ↔ name = [] := by
  refine ⟨fun hfirst => by_contra fun hne => first_put hne hzero h hfirst, ?_⟩
  rintro rfl
  exact first_zero

theorem drop_zero_bytes (n : ℕ) :
    NameBuffer.zero.bytes.drop n = List.replicate (maxFileNameLen - n) 0 := List.drop_replicate ..

/-- In a cleared array a call is safe if and only if the name leaves room for the NUL. -/
theorem safe_zero : (⟨name, .zero⟩ : ParseCall).Safe ↔ name.length ≤ 15 := by
  refine ⟨fun h => h.1, fun h => ⟨h, List.mem_append_right name ?_⟩⟩
  rw [drop_zero_bytes]
  exact List.mem_replicate.mpr ⟨Nat.sub_ne_zero_of_lt (Nat.lt_succ_of_le h), rfl⟩

/-- A name with room for the NUL is the string in a cleared array. -/
theorem string_put (hzero : 0 ∉ name) (h : name.length ≤ maxFileNameLen) (hshort : name.length ≤ 15) :
    (NameBuffer.zero.put name h).string = .ok name := by
  have hall : ∀ c ∈ name, decide (c ≠ 0) = true := fun c hc =>
    decide_eq_true fun h => hzero (h ▸ hc)
  have hmem : (0 : UInt8) ∈ (NameBuffer.zero.put name h).bytes := (safe_zero.mpr hshort).2
  unfold NameBuffer.string
  rw [ensure_of hmem, ok_bind]
  show Except.ok ((name ++ NameBuffer.zero.bytes.drop name.length).takeWhile _) = .ok name
  rw [List.takeWhile_append_of_pos hall, drop_zero_bytes, List.takeWhile_replicate]
  simp

/-- What `path_parse` stores has no NUL, as little as the path. -/
theorem pathParse_notMem (hzero : 0 ∉ p) : 0 ∉ (FileSystem.pathParse p).1 ∧
    ∀ q ∈ (FileSystem.pathParse p).2, 0 ∉ q := by
  have hrest : 0 ∉ p.dropWhile (· = slash) := fun h => hzero ((List.dropWhile_suffix _).subset h)
  unfold FileSystem.pathParse
  refine ⟨fun h => hrest ((List.takeWhile_prefix _).subset h), fun q hq => ?_⟩
  have hdrop : 0 ∉ (p.dropWhile (· = slash)).dropWhile (· ≠ slash) := fun h =>
    hrest ((List.dropWhile_suffix _).subset h)
  dsimp only at hq
  split at hq
  · cases hq
  · obtain rfl := Option.some.inj hq
    exact hdrop

/-- Behind the last name there is no rest. -/
theorem pathParse_rest (h : (FileSystem.pathParse p).1 = []) : (FileSystem.pathParse p).2 = none := by
  unfold FileSystem.pathParse at h ⊢
  dsimp only at h ⊢
  rcases hq : p.dropWhile (· = slash) with _ | ⟨c, l⟩
  · rfl
  · have hc : c ≠ slash := of_decide_eq_false (dropWhile_head hq)
    rw [hq, List.takeWhile_cons_of_pos (by simpa using hc)] at h
    exact absurd h (List.cons_ne_nil _ _)

theorem pathParse_log : (pathParse p b).log = [⟨(FileSystem.pathParse p).1, b⟩] := by
  unfold pathParse
  dsimp only
  rw [event_bind]
  split_ifs <;> rfl

theorem pathParse_result (h : (FileSystem.pathParse p).1.length ≤ maxFileNameLen) :
    (pathParse p b).result = .ok (b.put _ h, (FileSystem.pathParse p).2) := by
  unfold pathParse
  dsimp only
  rw [event_bind, dif_pos h]
  rfl

theorem pathParse_overrun (h : maxFileNameLen < (FileSystem.pathParse p).1.length) :
    (pathParse p b).result = .error .overrun := by
  unfold pathParse
  dsimp only
  rw [event_bind, dif_neg (Nat.not_le_of_lt h)]
  rfl

end Buffers

section Results

theorem splitPath_eq (fuel : ℕ) : ∀ {p : List UInt8}, 0 ∉ p →
    (∀ c ∈ components p, c.length ≤ 15) → (components p).length < fuel →
    (splitPath fuel p).result = .ok (components p) := by
  induction fuel with
  | zero => exact fun _ _ h => absurd h (Nat.not_lt_zero _)
  | succ fuel ih =>
    intro p hzero hshort hfuel
    have hnames := pathParse_notMem hzero
    have hpend := pending_pathParse p
    have hlen : (FileSystem.pathParse p).1.length ≤ 15 := by
      rcases hpend with ⟨hnil, -⟩ | ⟨-, hcons⟩
      · rw [hnil]
        exact Nat.zero_le _
      · exact hshort _ (hcons ▸ List.mem_cons_self)
    have hfit : (FileSystem.pathParse p).1.length ≤ maxFileNameLen := hlen.trans (by decide)
    unfold splitPath
    rw [result_bind, pathParse_result hfit, ok_bind]
    dsimp only
    rw [result_bind, result_lift, string_put hnames.1 hfit hlen, ok_bind]
    rcases hpend with ⟨hnil, hcs⟩ | ⟨hne, hcs⟩
    · rw [if_pos hnil, hcs]
      rfl
    · rw [if_neg hne]
      rcases hrest : (FileSystem.pathParse p).2 with _ | q
      · rw [hcs, hrest]
        rfl
      · rw [hrest, Option.elim_some] at hcs
        rw [hcs, List.length_cons] at hfuel
        have hq := ih (hnames.2 q hrest) (fun c hc => hshort c (hcs ▸ List.mem_cons_of_mem _ hc))
          (Nat.lt_of_succ_lt_succ hfuel)
        dsimp only
        rw [result_bind, hq, ok_bind, hcs]
        rfl

/-- The array is cleared and filled with the first name of what is left. -/
theorem parseNext_result (hzero : ∀ q ∈ sub, 0 ∉ q)
    (hshort : ∀ c ∈ sub.elim [] components, c.length ≤ maxFileNameLen) :
    ∃ b name rest, (parseNext sub).result = .ok (b, rest) ∧ (b.first = 0 ↔ name = []) ∧
      Pending name rest (sub.elim [] components) ∧ ∀ q ∈ rest, 0 ∉ q := by
  cases sub with
  | none =>
    exact ⟨.zero, [], none, rfl, iff_of_true rfl rfl, Or.inl ⟨rfl, rfl⟩, fun q hq => absurd hq (by simp)⟩
  | some q =>
    have hq := pathParse_notMem (hzero q rfl)
    have hpend := pending_pathParse q
    have hlen : (FileSystem.pathParse q).1.length ≤ maxFileNameLen := by
      rcases hpend with ⟨hnil, -⟩ | ⟨-, hcons⟩
      · rw [hnil]
        exact Nat.zero_le _
      · refine hshort _ ?_
        rw [Option.elim_some, hcons]
        exact List.mem_cons_self
    exact ⟨_, _, _, pathParse_result hlen, first_put_zero hq.1 hlen, hpend, hq.2⟩

/-- The loop of `path_depth_cnt` counts the names that are pending. -/
theorem depthLoop_result (fuel : ℕ) : ∀ {b : NameBuffer} {sub : Option (List UInt8)}
    {name : List UInt8} {cs : List (List UInt8)} (depth : ℕ), (b.first = 0 ↔ name = []) →
    Pending name sub cs → (∀ q ∈ sub, 0 ∉ q) → (∀ c ∈ cs, c.length ≤ maxFileNameLen) →
    cs.length < fuel → (depthLoop fuel b sub depth).result = .ok (depth + cs.length) := by
  induction fuel with
  | zero => exact fun _ _ _ _ _ h => absurd h (Nat.not_lt_zero _)
  | succ fuel ih =>
    intro b sub name cs depth hfirst hpend hzero hshort hfuel
    unfold depthLoop
    rcases hpend with ⟨hnil, rfl⟩ | ⟨hne, rfl⟩
    · rw [if_pos (hfirst.mpr hnil)]
      rfl
    · have hmem : ∀ c ∈ sub.elim [] components, c.length ≤ maxFileNameLen := fun c hc =>
        hshort c (List.mem_cons_of_mem _ hc)
      obtain ⟨b', name', rest, hnext, hfirst', hpend', hrest⟩ := parseNext_result hzero hmem
      rw [List.length_cons] at hfuel ⊢
      rw [if_neg (mt hfirst.mp hne), result_bind, hnext, ok_bind,
        ih (depth + 1) hfirst' hpend' hrest hmem (Nat.lt_of_succ_lt_succ hfuel)]
      exact congrArg Except.ok (by omega)

/-- `path_depth_cnt` counts the names of a path that has one, whatever its array held. -/
theorem pathDepthCnt_result (b : NameBuffer) (hzero : 0 ∉ p)
    (hshort : ∀ c ∈ components p, c.length ≤ maxFileNameLen) (hne : components p ≠ []) :
    (pathDepthCnt b p).result = .ok (components p).length := by
  have hq := pathParse_notMem hzero
  have hpend := pending_pathParse p
  have hcount := length_components_le p
  rcases hpend with ⟨-, hnil⟩ | ⟨hname, hcons⟩
  · exact absurd hnil hne
  · have hlen := hshort _ (hcons ▸ List.mem_cons_self)
    unfold pathDepthCnt
    rw [result_bind, pathParse_result hlen, ok_bind,
      depthLoop_result _ 0 (iff_of_false (first_put hname hq.1 hlen) hname)
        (Or.inr ⟨hname, hcons⟩) hq.2 hshort (by omega), Nat.zero_add]

end Results

section Plain

variable {fuel : ℕ}

/-- `search_file` and `wash_path` do the same with and without the record. -/
theorem nextName_result : (nextName sub).result = FileSystem.nextName sub := by
  cases sub <;> rfl

theorem washLoop_plain (fuel : ℕ) : ∀ (new name : List UInt8) (sub : Option (List UInt8)),
    (washLoop fuel new name sub).result = FileSystem.washLoop fuel new name sub := by
  induction fuel with
  | zero => exact fun _ _ _ => rfl
  | succ fuel ih =>
    intro new name sub
    unfold washLoop FileSystem.washLoop
    split_ifs with hname
    · rfl
    · rw [result_bind, result_lift]
      refine bind_congr fun new => ?_
      rw [result_bind, nextName_result]
      exact bind_congr fun v => ih new v.1 v.2

theorem washPath_plain (p : List UInt8) : (washPath p).result = FileSystem.washPath p := by
  unfold washPath FileSystem.washPath
  rw [result_bind, result_lift]
  refine bind_congr fun _ => ?_
  rw [result_bind, nextName_result]
  refine bind_congr fun v => ?_
  dsimp only
  split_ifs
  · rfl
  · exact washLoop_plain _ _ _ _

theorem searchLoop_plain (fuel : ℕ) : ∀ (s : State) (r : PathSearchRecord) (n : UInt32)
    (name : List UInt8) (sub : Option (List UInt8)) (e : Option DirEntry),
    (searchLoop fuel s r n name sub e).result = FileSystem.searchLoop fuel s r n name sub e := by
  induction fuel with
  | zero => exact fun _ _ _ _ _ _ => rfl
  | succ fuel ih =>
    intro s r n name sub e
    unfold searchLoop FileSystem.searchLoop
    split_ifs with hname
    · rfl
    · simp only [result_bind, result_lift]
      refine bind_congr fun _ => bind_congr fun _ => bind_congr fun v => ?_
      rcases v with ⟨_ | e, t⟩
      · rfl
      · dsimp only
        rw [result_bind, nextName_result]
        refine bind_congr fun w => ?_
        split_ifs
        · rw [result_bind, result_lift]
          exact bind_congr fun _ => ih _ _ _ _ _ _
        · rfl
        · exact ih _ _ _ _ _ _

theorem searchFile_plain (s : State) (p : List UInt8) :
    (searchFile s p).result = FileSystem.searchFile s p := by
  unfold searchFile FileSystem.searchFile
  split_ifs
  · rfl
  · rw [result_bind, result_lift]
    refine bind_congr fun _ => ?_
    rw [result_bind, nextName_result]
    exact bind_congr fun v => searchLoop_plain _ _ _ _ _ _ _

end Plain

section Calls

variable {b : NameBuffer} {rest : Option (List UInt8)} {α : Type} {x : Parsing α}
  {w : List ParseCall}

/-- A call for the next name and the calls for those behind it. -/
theorem safe_cons (hlog : x.log = ⟨name, .zero⟩ :: w) (hpend : Pending name rest (components q))
    (hnext : name.length ≤ 15 →
      ((∀ c ∈ w, c.Safe) ↔ ∀ c ∈ (components q).tail, c.length ≤ 15)) :
    (∀ c ∈ x.log, c.Safe) ↔ ∀ c ∈ components q, c.length ≤ 15 := by
  rw [hlog, List.forall_mem_cons, safe_zero]
  rcases hpend with ⟨rfl, hnil⟩ | ⟨hne, hcons⟩
  · have hw := hnext (Nat.zero_le _)
    rw [hnil] at hw ⊢
    rw [hw]
    simp
  · rw [hcons] at hnext ⊢
    rw [List.forall_mem_cons]
    exact and_congr_right hnext

theorem parseNext_some_log : (parseNext (some q)).log = [⟨(FileSystem.pathParse q).1, .zero⟩] :=
  pathParse_log

/-- The calls of the loop of `path_depth_cnt` are safe if the names behind the first are short. -/
theorem depthLoop_safe (fuel : ℕ) : ∀ {b : NameBuffer} {sub : Option (List UInt8)}
    {name : List UInt8} {cs : List (List UInt8)} (depth : ℕ), (b.first = 0 ↔ name = []) →
    Pending name sub cs → (∀ q ∈ sub, 0 ∉ q) → cs.length < fuel →
    ((∀ c ∈ (depthLoop fuel b sub depth).log, c.Safe) ↔ ∀ c ∈ cs.tail, c.length ≤ 15) := by
  induction fuel with
  | zero => exact fun _ _ _ _ h => absurd h (Nat.not_lt_zero _)
  | succ fuel ih =>
    intro b sub name cs depth hfirst hpend hzero hfuel
    unfold depthLoop
    rcases hpend with ⟨hnil, rfl⟩ | ⟨hne, rfl⟩
    · rw [if_pos (hfirst.mpr hnil)]
      simp
    · rw [if_neg (mt hfirst.mp hne), List.tail_cons]
      rw [List.length_cons] at hfuel
      have hfuel := Nat.lt_of_succ_lt_succ hfuel
      cases sub with
      | none =>
        have hloop := ih (depth + 1) (iff_of_true first_zero (Eq.refl []))
          (Or.inl ⟨rfl, rfl⟩ : Pending [] none []) (fun q hq => absurd hq (by simp)) hfuel
        exact hloop
      | some q =>
        refine safe_cons (q := q) (w := logAfter (pathParse q .zero).result fun v =>
          depthLoop fuel v.1 v.2 (depth + 1)) ?_ (pending_pathParse q) fun hshort => ?_
        · show (pathParse q .zero).log ++ _ = _
          rw [pathParse_log]
          rfl
        · have hq := pathParse_notMem (hzero q rfl)
          have hlen : (FileSystem.pathParse q).1.length ≤ maxFileNameLen := hshort.trans (by decide)
          rw [pathParse_result hlen]
          exact ih (depth + 1) (first_put_zero hq.1 hlen) (pending_pathParse q) hq.2 hfuel

/-- Without a rest no name is parsed any more. -/
theorem depthLoop_none (fuel : ℕ) (b : NameBuffer) (depth : ℕ) :
    (depthLoop fuel b none depth).log = [] := by
  induction fuel generalizing b depth with
  | zero => rfl
  | succ fuel ih =>
    unfold depthLoop
    split_ifs
    · rfl
    · exact ih .zero (depth + 1)

/-- The first call of `path_depth_cnt` needs a NUL that was in its array before. -/
theorem pathDepthCnt_safe (b : NameBuffer) (hzero : 0 ∉ p) :
    (∀ c ∈ (pathDepthCnt b p).log, c.Safe) ↔ (∀ c ∈ components p, c.length ≤ 15) ∧
      0 ∈ b.bytes.drop ((components p).headD []).length := by
  have hq := pathParse_notMem hzero
  have hpend := pending_pathParse p
  have hcount := length_components_le p
  have hlog : (pathDepthCnt b p).log = ⟨(FileSystem.pathParse p).1, b⟩ ::
      logAfter (pathParse p b).result fun v => depthLoop (p.length + 2) v.1 v.2 0 := by
    show (pathParse p b).log ++ _ = _
    rw [pathParse_log]
    rfl
  have hhead : (components p).headD [] = (FileSystem.pathParse p).1 := by
    rcases hpend with ⟨hnil, hcs⟩ | ⟨-, hcons⟩
    · rw [hcs, hnil]
      rfl
    · rw [hcons]
      rfl
  have hcall : (⟨(FileSystem.pathParse p).1, b⟩ : ParseCall).Safe ↔
      (FileSystem.pathParse p).1.length ≤ 15 ∧
        0 ∈ b.bytes.drop ((components p).headD []).length := by
    rw [hhead]
    exact and_congr_right fun _ => List.mem_append.trans (or_iff_right hq.1)
  have hnames : (∀ c ∈ components p, c.length ≤ 15) ↔ (FileSystem.pathParse p).1.length ≤ 15 ∧
      ∀ c ∈ (components p).tail, c.length ≤ 15 := by
    rcases hpend with ⟨hnil, hcs⟩ | ⟨-, hcons⟩
    · rw [hcs, hnil]
      simp
    · rw [hcons, List.forall_mem_cons, List.tail_cons]
  rw [hlog, List.forall_mem_cons, hcall, hnames, and_right_comm, and_congr_left_iff]
  refine fun _ => and_congr_right fun hshort => ?_
  have hlen : (FileSystem.pathParse p).1.length ≤ maxFileNameLen := hshort.trans (by decide)
  rw [pathParse_result hlen]
  rcases hpend with ⟨hnil, hcs⟩ | ⟨hne, hcons⟩
  · -- the array may begin with anything, but there is no rest to parse
    show (∀ c ∈ (depthLoop _ _ (FileSystem.pathParse p).2 0).log, c.Safe) ↔ _
    rw [pathParse_rest hnil, depthLoop_none, hcs]
    simp
  · exact depthLoop_safe _ 0 (iff_of_false (first_put hne hq.1 hlen) hne)
      (Or.inr ⟨hne, hcons⟩) hq.2 (by omega)

theorem nextName_ok (h : (FileSystem.pathParse q).1.length ≤ 15) :
    FileSystem.nextName (some q) = .ok (FileSystem.pathParse q) := by
  have hlt : (FileSystem.pathParse q).1.length < maxFileNameLen := Nat.lt_succ_of_le h
  unfold FileSystem.nextName
  dsimp only
  rw [ensure_of hlt, ok_bind]

theorem nextName_some_log (f : List UInt8 × Option (List UInt8) → Parsing α) :
    (nextName (some q) >>= f).log = ⟨(FileSystem.pathParse q).1, .zero⟩ ::
      logAfter (FileSystem.nextName (some q)) f := rfl

/-- The calls of the loop of `wash_path` are safe if the names behind the first are short. -/
theorem washLoop_safe (fuel : ℕ) : ∀ (stack : List (List UInt8)) {cs : List (List UInt8)}
    {name : List UInt8} {sub : Option (List UInt8)}, Pending name sub cs →
    (∀ c ∈ stack, ValidName c) → name.length ≤ 15 →
    (∀ c ∈ cs, c ≠ [] ∧ slash ∉ c ∧ 0 ∉ c) → cs.length < fuel →
    (joined stack).length + (joined cs).length < maxPathLen →
    ((∀ c ∈ (washLoop fuel (render stack) name sub).log, c.Safe) ↔
      ∀ c ∈ cs.tail, c.length ≤ 15) := by
  induction fuel with
  | zero => exact fun _ _ _ _ _ _ _ _ h => absurd h (Nat.not_lt_zero _)
  | succ fuel ih =>
    intro stack cs name sub hpend hstack hshort hclean hfuel hsize
    unfold washLoop
    rcases hpend with ⟨hnil, rfl⟩ | ⟨hne, rfl⟩
    · rw [if_pos hnil]
      simp
    · obtain ⟨-, hslash, hzero⟩ := hclean name List.mem_cons_self
      have hname : ValidName name := ⟨hne, Nat.lt_succ_of_le hshort, hslash, hzero⟩
      rw [List.length_cons] at hfuel
      rw [joined_cons, List.length_append, List.length_cons] at hsize
      have hnew : (joined (stack ++ [name])).length < maxPathLen := by
        rw [joined_concat, List.length_append, List.length_cons]
        omega
      have hpush := length_joined_push stack name
      have hfuel := Nat.lt_of_succ_lt_succ hfuel
      rw [if_neg hne, lift_bind (washName_render hstack hnew), List.tail_cons]
      cases sub with
      | none =>
        have hdone : (washLoop fuel (render (pushName stack name)) [] none).log = [] := by
          cases fuel <;> rfl
        show (∀ c ∈ (washLoop fuel (render (pushName stack name)) [] none).log, c.Safe) ↔ _
        rw [hdone]
        simp
      | some q =>
        refine safe_cons (nextName_some_log _) (pending_pathParse q) fun hshort => ?_
        rw [nextName_ok hshort]
        refine ih _ (pending_pathParse q) (fun c hc => ?_) hshort
          (fun c hc => hclean c (List.mem_cons_of_mem name hc)) hfuel ?_
        · rcases mem_pushName hc with hc | rfl
          · exact hstack c hc
          · exact hname
        · rw [Option.elim_some] at hsize
          omega

/-- The calls of `wash_path` are safe if all names are short. -/
theorem washPath_safe (hzero : 0 ∉ p) (habs : p.head? = some slash) (hlen : p.length < maxPathLen) :
    (∀ c ∈ (washPath p).log, c.Safe) ↔ ∀ c ∈ components p, c.length ≤ 15 := by
  have hcount := length_components_le p
  have hjoined : (joined (components p)).length ≤ p.length := by
    obtain ⟨q, rfl⟩ := List.head?_eq_some_iff.mp habs
    exact length_joined_components q
  unfold washPath
  rw [lift_bind (ensure_of habs)]
  refine safe_cons (nextName_some_log _) (pending_pathParse p) fun hshort => ?_
  rw [nextName_ok hshort]
  show (∀ c ∈ (if (FileSystem.pathParse p).1 = [] then pure [slash] else
    washLoop (p.length + 1) (render []) (FileSystem.pathParse p).1 (FileSystem.pathParse p).2 :
      Parsing (List UInt8)).log, c.Safe) ↔ _
  split_ifs with hnil
  · rcases pending_pathParse p with ⟨-, hcs⟩ | ⟨hne, -⟩
    · rw [hcs]
      simp
    · exact absurd hnil hne
  · refine washLoop_safe _ [] (pending_pathParse p) (fun c hc => absurd hc (by simp)) hshort
      (fun c hc => ?_) (Nat.lt_succ_of_le hcount) ?_
    · obtain ⟨hne, hslash, hsub⟩ := mem_components p c hc
      exact ⟨hne, hslash, fun h => hzero (hsub h)⟩
    · show 0 + _ < _
      omega

/-- A call of `search_file` for the next of short names. -/
theorem nextName_safe (hsub : ∀ c ∈ sub.elim [] components, c.length ≤ 15) :
    Keeps ParseCall.Safe (nextName sub) := by
  cases sub with
  | none => exact Keeps.pure _
  | some q =>
    intro c hc
    obtain rfl : c = ⟨(FileSystem.pathParse q).1, .zero⟩ := List.mem_singleton.mp hc
    refine safe_zero.mpr ?_
    rcases pending_pathParse q with ⟨hnil, -⟩ | ⟨-, hcons⟩
    · rw [hnil]
      exact Nat.zero_le _
    · refine hsub _ ?_
      rw [Option.elim_some, hcons]
      exact List.mem_cons_self

/-- Behind a short name that was parsed there are only short names. -/
theorem nextName_rest (hsub : ∀ c ∈ sub.elim [] components, c.length ≤ 15)
    {v : List UInt8 × Option (List UInt8)} (hv : (nextName sub).result = .ok v) :
    v.1 ≠ [] → ∀ c ∈ v.2.elim [] components, c.length ≤ 15 := by
  intro hne c hc
  cases sub with
  | none =>
    obtain rfl := Except.ok.inj hv
    exact absurd rfl hne
  | some q =>
    rw [nextName_result] at hv
    obtain ⟨-, hv⟩ := of_ensure_eq_ok hv
    obtain rfl := Except.ok.inj hv
    rcases pending_pathParse q with ⟨hnil, -⟩ | ⟨-, hcons⟩
    · exact absurd hnil hne
    · refine hsub c ?_
      rw [Option.elim_some, hcons]
      exact List.mem_cons_of_mem _ hc

/-- The calls of `search_file` are safe if all names are short. -/
theorem searchLoop_safe (fuel : ℕ) : ∀ {s : State} {r : PathSearchRecord} {n : UInt32}
    {name : List UInt8} {sub : Option (List UInt8)} {e : Option DirEntry},
    (name ≠ [] → ∀ c ∈ sub.elim [] components, c.length ≤ 15) →
    Keeps ParseCall.Safe (searchLoop fuel s r n name sub e) := by
  induction fuel with
  | zero => exact fun _ => Keeps.lift _
  | succ fuel ih =>
    intro s r n name sub e hsub
    unfold searchLoop
    split_ifs with hname
    · exact Keeps.lift _
    · refine (Keeps.lift _).bind fun _ _ => (Keeps.lift _).bind fun _ _ =>
        (Keeps.lift _).bind fun v _ => ?_
      rcases v with ⟨_ | e, t⟩
      · exact Keeps.pure _
      · refine (nextName_safe (hsub hname)).bind fun v hv => ?_
        have hrest := nextName_rest (hsub hname) hv
        dsimp only
        split_ifs
        · exact (Keeps.lift _).bind fun _ _ => ih hrest
        · exact Keeps.pure _
        · exact ih hrest

theorem searchFile_safe (s : State) (hshort : ∀ c ∈ components p, c.length ≤ 15) :
    Keeps ParseCall.Safe (searchFile s p) := by
  unfold searchFile
  split_ifs
  · exact Keeps.pure _
  · have hsub : ∀ c ∈ (some p).elim [] components, c.length ≤ 15 := hshort
    refine (Keeps.lift _).bind fun _ _ => (nextName_safe hsub).bind fun v hv => ?_
    exact searchLoop_safe _ (nextName_rest hsub hv)

end Calls

end Buffered

/-- Parsing name after name to a cleared array yields the non-empty pieces between the slashes,
and `path_depth_cnt` returns how many these are. -/
theorem path_parse_splits (p : List UInt8) (hzero : 0 ∉ p)
    (hshort : ∀ c ∈ p.splitOn slash, c.length ≤ 15) :
    (Buffered.splitPath (p.length + 1) p).result = .ok ((p.splitOn slash).filter (· ≠ [])) ∧
      ∀ b, (p.splitOn slash).filter (· ≠ []) ≠ [] → (Buffered.pathDepthCnt b p).result =
        .ok ((p.splitOn slash).filter (· ≠ [])).length := by
  have hmem : ∀ c ∈ components p, c.length ≤ 15 := by
    intro c hc
    rw [components_eq_splitOn] at hc
    exact hshort c (List.mem_of_mem_filter hc)
  rw [← components_eq_splitOn]
  refine ⟨Buffered.splitPath_eq _ hzero hmem (Nat.lt_succ_of_le (length_components_le p)),
    fun b hne => Buffered.pathDepthCnt_result b hzero (fun c hc => ?_) hne⟩
  exact (hmem c hc).trans (by decide)

/-- `//ab/c/`. -/
theorem path_parse_splits_sample :
    (Buffered.splitPath 8 [slash, slash, 97, 98, slash, 99, slash]).result = .ok [[97, 98], [99]] :=
  (path_parse_splits [slash, slash, 97, 98, slash, 99, slash] (by decide) (by decide)).1

/-- All calls of `path_parse` that the three functions make for a path are safe if and only if
its names are short and the array of `path_depth_cnt` had a NUL behind the first of them. -/
theorem name_arrays_hold (p : List UInt8) (hzero : 0 ∉ p) (hlen : p.length < maxPathLen)
    (b : NameBuffer) (s : State) :
    ((∀ c ∈ (Buffered.pathDepthCnt b p).log, c.Safe) ∧
      (∀ c ∈ (Buffered.searchFile s p).log, c.Safe) ∧
      ∀ c ∈ (Buffered.washPath p).log, c.Safe) ↔
    (∀ c ∈ components p, c.length ≤ 15) ∧
      0 ∈ b.bytes.drop ((components p).headD []).length := by
  rw [Buffered.pathDepthCnt_safe b hzero]
  refine ⟨fun h => h.1, fun h => ⟨h, Buffered.searchFile_safe s h.1, ?_⟩⟩
  by_cases habs : p.head? = some slash
  · exact (Buffered.washPath_safe hzero habs hlen).mpr h.1
  · unfold Buffered.washPath
    rw [ensure_of_not habs]
    exact fun c hc => absurd hc List.not_mem_nil

/-- `/ab` with a cleared array. -/
theorem name_arrays_hold_sample :
    ((∀ c ∈ (Buffered.pathDepthCnt .zero [slash, 97, 98]).log, c.Safe) ∧
      (∀ c ∈ (Buffered.searchFile sampleSession.fs [slash, 97, 98]).log, c.Safe) ∧
      ∀ c ∈ (Buffered.washPath [slash, 97, 98]).log, c.Safe) ↔
    (∀ c ∈ components [slash, 97, 98], c.length ≤ 15) ∧
      0 ∈ NameBuffer.zero.bytes.drop ((components [slash, 97, 98]).headD []).length :=
  name_arrays_hold [slash, 97, 98] (by decide) (by decide) .zero sampleSession.fs

/-- A name of twenty characters overruns the array of `wash_path`. -/
theorem name_arrays_overrun : ¬ ∀ p : List UInt8, 0 ∉ p → p.length < maxPathLen →
    ∀ (b : NameBuffer) (s : State), (∀ c ∈ (Buffered.pathDepthCnt b p).log, c.Safe) ∧
      (∀ c ∈ (Buffered.searchFile s p).log, c.Safe) ∧
      ∀ c ∈ (Buffered.washPath p).log, c.Safe := by
  intro h
  have hwash := (h (slash :: List.replicate 20 97) (by decide) (by decide) .zero
    sampleSession.fs).2.2 ⟨List.replicate 20 97, .zero⟩ List.mem_cons_self
  exact absurd hwash.1 (by decide)

end X86System.FileSystem
