import X86System.Readline
import X86System.Library.CStrings
import X86System.Library.Pieces

/-!
# Command lines

`cmd_parse` cuts a string into words and stores a pointer to each one in `argv`; it looks
at their number behind the store. `my_shell` has it parse the whole line, or each part of
a line with bars, and executes what it finds; the parts are executed whatever `cmd_parse`
returns. Stores to `argv`, calls of `cmd_parse` and calls of `cmd_execute` are recorded. What
a command does is left out, and so are the pipes that the parts are connected with.
-/
namespace X86System.Shell
open Bytes Exec Logged CStrings Pieces

variable {buf buf' : Image} {a i argc fuel next : ℕ} {l l' w : List UInt8} {token : UInt8}

section Source

/-- `MAX_ARG_NR`, the size of `argv`, and `cmd_len`, the size of `cmd_line`. -/
def maxArgNr : ℕ := 16
def cmdLen : ℕ := 128

/-- `' '` and `'|'`. -/
def space : UInt8 := 0x20
def bar : UInt8 := 0x7c

/-- Pointers to characters of `cmd_line`. -/
abbrev Argv := ℕ → Option ℕ

/-- `cmd_line` and `argv`. -/
structure Cmd where
  buf : Image
  argv : Argv

/-- A store to `argv[i]`; a call of `cmd_parse` with what it returns and leaves; a call of
`cmd_execute`. -/
inductive Event
  | stored (i : ℕ)
  | parsed (cmdStr : ℕ) (before : Image) (argc : ℤ) (after : Cmd)
  | executed (argc : ℤ) (argv : Argv)

/-- Where in `argv` an event stores. -/
def Event.store? : Event → Option ℕ
  | .stored i => some i
  | _ => none

abbrev Parsing : Type → Type := Logged Event Fault

/-- `argv[i] = p`. -/
def setArg (i : ℕ) (p : Option ℕ) (s : Cmd) : Parsing Cmd := do
  event (.stored i)
  pure { s with argv := Function.update s.argv i p }

/-- The loop that clears `argv`. -/
def clearArgv (s : Cmd) : Parsing Cmd :=
  (List.range maxArgNr).foldlM (fun s argIdx => setArg argIdx none s) s

/-- The end of a word becomes a NUL and is passed, unless the string ends there. -/
def cutWord (buf : Image) (next : ℕ) : ℕ × Image :=
  if buf next ≠ 0 then (next + 1, Function.update buf next 0) else (next, buf)

/-- The outer loop of `cmd_parse`. -/
def parseLoop (token : UInt8) : ℕ → Cmd → ℕ → ℕ → Parsing (ℤ × Cmd)
  | 0, _, _, _ => liftM (.error Fault.diverge : Except Fault (ℤ × Cmd))
  | fuel + 1, s, next, argc =>
    if s.buf next = 0 then pure (argc, s)
    else do
      let next ← liftM (scan Fault.diverge (· = token) (fuel + 1) s.buf next)
      if s.buf next = 0 then pure (argc, s)
      else
        let s ← setArg argc (some next) s
        let next ← liftM (scan Fault.diverge (fun c => c ≠ 0 ∧ c ≠ token) (fuel + 1) s.buf next)
        let (next, buf) := cutWord s.buf next
        let s := { s with buf := buf }
        if maxArgNr < argc then pure (-1, s) else parseLoop token fuel s next (argc + 1)

def cmdParse (s : Cmd) (cmdStr : ℕ) (token : UInt8) : Parsing (ℤ × Cmd) := do
  let s₁ ← clearArgv s
  let (argc, s₁) ← parseLoop token (cmdLen + 1) s₁ cmdStr 0
  event (.parsed cmdStr s.buf argc s₁)
  pure (argc, s₁)

/-- `cmd_execute`. The first `strcmp` asserts that `argv[0]` is not NULL. -/
def cmdExecute (argc : ℤ) (s : Cmd) : Parsing Unit := do
  event (.executed argc s.argv)
  liftM (ensure Fault.assert (s.argv 0 ≠ none))

/-- A part of a line with bars: whatever `cmd_parse` returns is executed. -/
def runPart (s : Cmd) (eachCmd : ℕ) : Parsing Cmd := do
  let (argc, s) ← cmdParse s eachCmd space
  cmdExecute argc s
  pure s

/-- The loop of `my_shell` over the parts that end with a bar, and the last part behind it. -/
def pipeLoop : ℕ → Cmd → ℕ → Parsing Cmd
  | 0, _, _ => liftM (.error Fault.diverge : Except Fault Cmd)
  | fuel + 1, s, eachCmd => do
    match ← liftM (strchr Fault.diverge bar (cmdLen + 1) s.buf eachCmd) with
    | none => runPart s eachCmd
    | some pipeSymbol =>
      let s ← runPart { s with buf := Function.update s.buf pipeSymbol 0 } eachCmd
      pipeLoop fuel s (pipeSymbol + 1)

/-- What `my_shell` does with the line in `cmd_line`. -/
def runLine (s : Cmd) : Parsing Cmd := do
  if s.buf 0 = 0 then pure s
  else
    match ← liftM (strchr Fault.diverge bar (cmdLen + 1) s.buf 0) with
    | some pipeSymbol =>
      let s ← runPart { s with buf := Function.update s.buf pipeSymbol 0 } 0
      let s ← pipeLoop (cmdLen + 1) s (pipeSymbol + 1)
      clearArgv s
    | none =>
      let (argc, s) ← cmdParse s 0 space
      if argc = -1 then pure s
      else
        cmdExecute argc s
        clearArgv s

end Source

section Specification

/-- `cmd_parse` returns the number of words and stores a pointer to each one, or returns -1
where they are too many. -/
structure ParsesWords (ws : List (List UInt8)) (argc : ℤ) (after : Cmd) : Prop where
  count : ws.length ≤ maxArgNr → argc = ws.length
  args : ws.length ≤ maxArgNr → ∀ i w, ws[i]? = some w →
    ∃ p, after.argv i = some p ∧ StringAt after.buf p w
  tooMany : maxArgNr < ws.length → argc = -1

/-- A store is within `argv`, a call of `cmd_parse` parses the words of its string, and a call of
`cmd_execute` has a command and as many arguments as `argv` holds. -/
def Event.Safe : Event → Prop
  | .stored i => i < maxArgNr
  | .parsed cmdStr before argc after => ∃ l, StringAt before cmdStr l ∧
    ParsesWords ((l.splitOn space).filter (· ≠ [])) argc after
  | .executed argc argv => 1 ≤ argc ∧ argc ≤ maxArgNr ∧ argv 0 ≠ none

/-- A command of at least one word and no more than `argv` holds. -/
def HasWords (l : List UInt8) : Prop :=
  1 ≤ ((l.splitOn space).filter (· ≠ [])).length ∧
    ((l.splitOn space).filter (· ≠ [])).length ≤ maxArgNr

instance (l : List UInt8) : Decidable (HasWords l) :=
  inferInstanceAs (Decidable (_ ∧ _))

end Specification

section Words

/-- The first word of `l`, at `p`, is cut off; `l'` is left at `next'`. -/
structure WordCut (token : UInt8) (buf buf' : Image) (next p next' : ℕ) (l w l' : List UInt8) :
    Prop where
  pieces : pieces token l = w :: pieces token l'
  word : StringAt buf' p w
  rest : StringAt buf' next' l'
  start : next ≤ p
  apart : p + w.length < next' ∨ p + w.length = next' ∧ l' = []
  finish : next' + l'.length = next + l.length
  shorter : l'.length < l.length
  same : ∀ i, i < next ∨ next + l.length ≤ i → buf' i = buf i

/-- A string that is not blank: blanks, a word, and the end or a blank behind it. -/
theorem exists_word (hl : l.dropWhile (· = token) ≠ []) : ∃ blanks w rest,
    l = blanks ++ (w ++ rest) ∧ (∀ c ∈ blanks, c = token) ∧ w ≠ [] ∧ (∀ c ∈ w, c ≠ token) ∧
      (rest = [] ∨ ∃ l', rest = token :: l') ∧
      Pieces.pieces token l = w :: Pieces.pieces token rest := by
  have hhead : (l.dropWhile (· = token)).head? ≠ some token := by
    intro h
    have hnot := List.head?_dropWhile_not (p := fun c => decide (c = token)) (l := l)
    rw [h] at hnot
    simp at hnot
  have hword := pieces_takeWhile hl hhead
  rw [pieces_dropWhile] at hword
  refine ⟨l.takeWhile (· = token), (l.dropWhile (· = token)).takeWhile (· ≠ token),
    (l.dropWhile (· = token)).dropWhile (· ≠ token), ?_, fun c hc => ?_, ?_, fun c hc => ?_, ?_,
    hword⟩
  · rw [List.takeWhile_append_dropWhile, List.takeWhile_append_dropWhile]
  · have hall := List.all_takeWhile (p := fun c => decide (c = token)) (l := l)
    simpa using List.all_eq_true.mp hall c hc
  · obtain ⟨c, r, hr⟩ := List.exists_cons_of_ne_nil hl
    rw [hr] at hhead ⊢
    have hc : c ≠ token := fun h => hhead (congrArg some h)
    rw [List.takeWhile_cons_of_pos (by simpa)]
    exact List.cons_ne_nil _ _
  · have hall := List.all_takeWhile (p := fun c => decide (c ≠ token))
      (l := l.dropWhile (· = token))
    simpa using List.all_eq_true.mp hall c hc
  · rcases hrest : (l.dropWhile (· = token)).dropWhile (· ≠ token) with _ | ⟨b, r⟩
    · exact Or.inl rfl
    · have hb := List.head?_dropWhile_not (p := fun c => decide (c ≠ token))
        (l := l.dropWhile (· = token))
      rw [hrest] at hb
      obtain rfl : b = token := by simpa using hb
      exact Or.inr ⟨r, rfl⟩

end Words

section Parsing

variable {s s' t : Cmd} {p next' : ℕ}

theorem setArg_bind {α : Type} (p : Option ℕ) (s : Cmd) (f : Cmd → Parsing α) :
    (setArg i p s >>= f) = ((event (.stored i) : Parsing Unit) >>= fun _ =>
      f { s with argv := Function.update s.argv i p }) := rfl

/-- The rest of a blank string is passed. -/
theorem parseLoop_blank (htoken : token ≠ 0) (h : StringAt s.buf next l)
    (hfuel : l.length < fuel + 1) (hl : ∀ c ∈ l, c = token) :
    parseLoop token (fuel + 1) s next argc = pure ((argc : ℤ), s) := by
  unfold parseLoop
  by_cases hnil : l = []
  · rw [if_pos (h.eq_nil_iff.mpr hnil)]
  · have hstop : decide (s.buf (next + l.length) = token) = false := by
      rw [h.nul]
      exact decide_eq_false htoken.symm
    have hscan := scan_append (e := Fault.diverge) (p := fun c => decide (c = token))
      (show StringAt s.buf next (l ++ []) by rwa [List.append_nil]) (fun c hc => decide_eq_true (hl c hc)) hstop hfuel
    rw [if_neg (mt h.eq_nil_iff.mp hnil), lift_bind hscan, if_pos h.nul]

/-- The loops of one turn: the blanks, the word and the cut behind it. -/
theorem exists_wordCut (htoken : token ≠ 0) (h : StringAt buf next l) (hfuel : l.length < fuel)
    (hl : l.dropWhile (· = token) ≠ []) : ∃ p next' w l' buf',
    WordCut token buf buf' next p next' l w l' ∧
      scan Fault.diverge (· = token) fuel buf next = .ok p ∧ buf p ≠ 0 ∧
      scan Fault.diverge (fun c => c ≠ 0 ∧ c ≠ token) fuel buf p = .ok (p + w.length) ∧
      cutWord buf (p + w.length) = (next', buf') := by
  obtain ⟨blanks, w, rest, hjoin, hblanks, hne, hw, hrest, hpieces⟩ := exists_word hl
  have hlen : l.length = blanks.length + (w.length + rest.length) := by
    rw [hjoin, List.length_append, List.length_append]
  have hword : StringAt buf (next + blanks.length) (w ++ rest) := (hjoin ▸ h).of_append
  have hrestAt := hword.of_append
  have hpos : 0 < w.length := List.length_pos_of_ne_nil hne
  have hhead : buf (next + blanks.length) ∈ w := by
    have hc := List.getElem?_eq_getElem hpos
    have hchar := hword.chars 0 w[0] (by rw [List.getElem?_append_left hpos, hc])
    rw [Nat.add_zero] at hchar
    rw [hchar]
    exact List.getElem_mem hpos
  have hnul : ∀ c ∈ w, c ≠ 0 := fun c hc h0 => hword.noNul (h0 ▸ List.mem_append_left rest hc)
  have hblank := scan_append (e := Fault.diverge) (p := fun c => decide (c = token))
    (hjoin ▸ h) (fun c hc => decide_eq_true (hblanks c hc)) (decide_eq_false (hw _ hhead))
    (show blanks.length < fuel by omega)
  have hend : decide (buf (next + blanks.length + w.length) ≠ 0 ∧
      buf (next + blanks.length + w.length) ≠ token) = false := by
    rcases hrest with rfl | ⟨l', rfl⟩
    · rw [stringAt_nil.mp hrestAt]
      simp
    · rw [(stringAt_cons.mp hrestAt).1]
      simp
  have hscan := scan_append (e := Fault.diverge) (p := fun c => decide (c ≠ 0 ∧ c ≠ token))
    hword (fun c hc => decide_eq_true ⟨hnul c hc, hw c hc⟩) hend (show w.length < fuel by omega)
  rcases hrest with rfl | ⟨l', rfl⟩
  · -- the string ends behind the word
    have hcut : cutWord buf (next + blanks.length + w.length) =
        (next + blanks.length + w.length, buf) := if_neg (not_not.mpr (stringAt_nil.mp hrestAt))
    rw [List.append_nil] at hword
    rw [List.length_nil] at hlen
    refine ⟨_, _, w, [], buf, ⟨hpieces, hword, hrestAt, Nat.le_add_right .., Or.inr ⟨rfl, rfl⟩,
      ?_, ?_, fun i _ => rfl⟩, hblank, hnul _ hhead, hscan, hcut⟩
    · rw [List.length_nil]
      omega
    · rw [List.length_nil]
      omega
  · have hsep : buf (next + blanks.length + w.length) ≠ 0 := by
      rw [(stringAt_cons.mp hrestAt).1]
      exact htoken
    have hcut : cutWord buf (next + blanks.length + w.length) =
        (next + blanks.length + w.length + 1,
          Function.update buf (next + blanks.length + w.length) 0) := if_pos hsep
    rw [pieces_sep] at hpieces
    rw [List.length_cons] at hlen
    obtain ⟨hcutWord, hcutRest⟩ := hword.cut
    refine ⟨_, _, w, l', _, ⟨hpieces, hcutWord, hcutRest, Nat.le_add_right ..,
      Or.inl (Nat.lt_succ_self _), ?_, ?_, fun i hi => ?_⟩, hblank, hnul _ hhead, hscan, hcut⟩
    · omega
    · omega
    · exact Function.update_of_ne (by omega) _ _

/-- One turn of the loop: the pointer to the next word is stored and the word cut off. -/
theorem parseLoop_word (argc : ℕ) (htoken : token ≠ 0) (h : StringAt s.buf next l)
    (hfuel : l.length < fuel + 1) (hl : l.dropWhile (· = token) ≠ []) : ∃ p next' w l' buf',
    WordCut token s.buf buf' next p next' l w l' ∧
      parseLoop token (fuel + 1) s next argc = (event (.stored argc) : Parsing Unit) >>= fun _ =>
        if maxArgNr < argc then pure (-1, ⟨buf', Function.update s.argv argc (some p)⟩)
        else parseLoop token fuel ⟨buf', Function.update s.argv argc (some p)⟩ next' (argc + 1) := by
  have hnil : l ≠ [] := by
    rintro rfl
    exact hl rfl
  obtain ⟨p, next', w, l', buf', hword, hblank, hhead, hscan, hcut⟩ :=
    exists_wordCut htoken h hfuel hl
  refine ⟨p, next', w, l', buf', hword, ?_⟩
  rw [parseLoop, if_neg (mt h.eq_nil_iff.mp hnil), lift_bind hblank, if_neg hhead, setArg_bind]
  dsimp only
  rw [lift_bind hscan, hcut]

end Parsing

section Loops

variable {s s' t : Cmd} {p next' : ℕ}

/-- The words of `l` are stored from `argv[argc]` on, and nothing else changes. -/
structure Stored (token : UInt8) (s : Cmd) (next argc : ℕ) (l : List UInt8) (s' : Cmd) : Prop where
  low : ∀ i < argc, s'.argv i = s.argv i
  args : ∀ i w, (pieces token l)[i]? = some w →
    ∃ p, s'.argv (argc + i) = some p ∧ StringAt s'.buf p w
  same : ∀ i, i < next ∨ next + l.length ≤ i → s'.buf i = s.buf i

theorem stored_blank (hl : pieces token l = []) : Stored token s next argc l s :=
  ⟨fun _ _ => rfl, fun i w hw => absurd hw (by simp [hl]), fun _ _ => rfl⟩

/-- A word in front of stored words. -/
theorem Stored.cons (hcut : WordCut token s.buf buf' next p next' l w l')
    (h : Stored token ⟨buf', Function.update s.argv argc (some p)⟩ next' (argc + 1) l' s') :
    Stored token s next argc l s' := by
  have hstart := hcut.start
  have hfinish := hcut.finish
  have hshorter := hcut.shorter
  refine ⟨fun i hi => ?_, fun i v hv => ?_, fun i hi => ?_⟩
  · rw [h.low i (Nat.lt_succ_of_lt hi)]
    exact Function.update_of_ne hi.ne _ _
  · rw [hcut.pieces] at hv
    cases i with
    | zero =>
      obtain rfl : w = v := Option.some.inj hv
      refine ⟨p, (h.low argc (Nat.lt_succ_self argc)).trans (Function.update_self ..), ?_⟩
      refine hcut.word.of_agree fun j _ hj => h.same j ?_
      rcases hcut.apart with hlt | ⟨heq, rfl⟩
      · exact Or.inl (lt_of_le_of_lt hj hlt)
      · rw [List.length_nil]
        omega
    | succ i =>
      obtain ⟨q, hq, hstring⟩ := h.args i v hv
      refine ⟨q, ?_, hstring⟩
      rwa [← Nat.add_assoc, Nat.add_right_comm]
  · have hnext : p + w.length ≤ next' := by
      rcases hcut.apart with hlt | ⟨heq, -⟩
      · exact hlt.le
      · exact heq.le
    exact (h.same i (by omega)).trans (hcut.same i hi)

theorem parseLoop_words (htoken : token ≠ 0) : ∀ {fuel : ℕ} {s : Cmd} {next argc : ℕ}
    {l : List UInt8}, StringAt s.buf next l → l.length < fuel →
    argc + (pieces token l).length ≤ maxArgNr → ∃ s',
      (parseLoop token fuel s next argc).result =
        .ok (((argc + (pieces token l).length : ℕ) : ℤ), s') ∧
      Keeps Event.Safe (parseLoop token fuel s next argc) ∧ Stored token s next argc l s' := by
  intro fuel
  induction fuel with
  | zero => exact fun _ hfuel => absurd hfuel (Nat.not_lt_zero _)
  | succ fuel ih =>
    intro s next argc l h hfuel hargs
    by_cases hl : l.dropWhile (· = token) = []
    · have hpieces : pieces token l = [] := by rw [← pieces_dropWhile, hl, pieces_nil]
      have hblank : ∀ c ∈ l, c = token := fun c hc => by
        simpa using List.dropWhile_eq_nil_iff.mp hl c hc
      rw [parseLoop_blank htoken h hfuel hblank, hpieces]
      exact ⟨s, rfl, Keeps.pure _, stored_blank hpieces⟩
    · obtain ⟨p, next', w, l', buf', hcut, hturn⟩ :=
        parseLoop_word argc htoken h hfuel hl
      have hcount : (pieces token l).length = (pieces token l').length + 1 := by
        rw [hcut.pieces, List.length_cons]
      have hshorter := hcut.shorter
      have hroom : argc < maxArgNr := by omega
      obtain ⟨s', hres, hkeeps, hstored⟩ := ih
        (s := ⟨buf', Function.update s.argv argc (some p)⟩) hcut.rest (by omega)
        (show argc + 1 + (pieces token l').length ≤ maxArgNr by omega)
      rw [hturn, if_neg hroom.le.not_gt, event_bind]
      refine ⟨s', ?_, fun e he => ?_, hstored.cons hcut⟩
      · rw [hcount, ← Nat.add_assoc, Nat.add_right_comm]
        exact hres
      · rcases List.mem_cons.mp he with rfl | he
        · exact hroom
        · exact hkeeps e he

/-- The word after the last one that `argv` holds is stored behind it. -/
theorem parseLoop_tooMany (htoken : token ≠ 0) : ∀ {fuel : ℕ} {s : Cmd} {next argc : ℕ}
    {l : List UInt8}, StringAt s.buf next l → l.length < fuel → argc ≤ maxArgNr →
    maxArgNr < argc + (pieces token l).length →
    Event.stored maxArgNr ∈ (parseLoop token fuel s next argc).log := by
  intro fuel
  induction fuel with
  | zero => exact fun _ hfuel => absurd hfuel (Nat.not_lt_zero _)
  | succ fuel ih =>
    intro s next argc l h hfuel hargc hmany
    have hl : l.dropWhile (· = token) ≠ [] := by
      intro hl
      rw [← pieces_dropWhile, hl, pieces_nil, List.length_nil] at hmany
      omega
    obtain ⟨p, next', w, l', buf', hcut, hturn⟩ := parseLoop_word argc htoken h hfuel hl
    rw [hcut.pieces, List.length_cons] at hmany
    have hshorter := hcut.shorter
    rw [hturn, if_neg hargc.not_gt, event_bind]
    rcases hargc.lt_or_eq with hlt | rfl
    · exact List.mem_cons_of_mem _ (ih hcut.rest (by omega) hlt (by omega))
    · exact List.mem_cons_self

end Loops

section Commands

variable {s s' t : Cmd} {argv : Argv} {line : List UInt8}

theorem clearArgv_spec (s : Cmd) : ∃ argv, (clearArgv s).result = .ok ⟨s.buf, argv⟩ ∧
    Keeps Event.Safe (clearArgv s) := by
  suffices ∀ is : List ℕ, (∀ i ∈ is, i < maxArgNr) → ∀ s : Cmd, ∃ argv,
      (is.foldlM (fun s i => setArg i none s) s : Parsing Cmd).result = .ok ⟨s.buf, argv⟩ ∧
        Keeps Event.Safe (is.foldlM (fun s i => setArg i none s) s) from
    this (List.range maxArgNr) (fun i hi => List.mem_range.mp hi) s
  intro is
  induction is with
  | nil => exact fun _ s => ⟨s.argv, rfl, Keeps.pure s⟩
  | cons i is ih =>
    intro his s
    obtain ⟨argv, hres, hkeeps⟩ := ih (fun j hj => his j (List.mem_cons_of_mem i hj))
      { s with argv := Function.update s.argv i none }
    rw [List.foldlM_cons, setArg_bind, event_bind]
    refine ⟨argv, hres, fun e he => ?_⟩
    rcases List.mem_cons.mp he with rfl | he
    · exact his i List.mem_cons_self
    · exact hkeeps e he

theorem clean_clearArgv (s : Cmd) : Clean Event.Safe (clearArgv s) := by
  obtain ⟨argv, hres, hkeeps⟩ := clearArgv_spec s
  exact ⟨⟨_, hres⟩, hkeeps⟩

/-- `cmd_parse` of a string with no more words than `argv` holds. -/
theorem cmdParse_words (h : StringAt s.buf a l) (hlen : l.length ≤ cmdLen)
    (hwords : (pieces space l).length ≤ maxArgNr) : ∃ s',
    (cmdParse s a space).result = .ok (((pieces space l).length : ℤ), s') ∧
      Keeps Event.Safe (cmdParse s a space) ∧ Stored space ⟨s.buf, s'.argv⟩ a 0 l s' := by
  obtain ⟨argv, hclear, hclearKeeps⟩ := clearArgv_spec s
  obtain ⟨s', hres, hkeeps, hstored⟩ := parseLoop_words (s := ⟨s.buf, argv⟩)
    (show space ≠ 0 by decide) h (Nat.lt_succ_of_le hlen)
    (show 0 + (pieces space l).length ≤ maxArgNr by rwa [Nat.zero_add])
  rw [Nat.zero_add] at hres
  refine ⟨s', ?_, ?_, ⟨fun _ _ => rfl, hstored.args, hstored.same⟩⟩
  · unfold cmdParse
    rw [result_bind, hclear, ok_bind, result_bind, hres]
    rfl
  · refine hclearKeeps.bind fun t ht => ?_
    obtain rfl := Except.ok.inj (hclear.symm.trans ht)
    refine hkeeps.bind fun r hr => ?_
    obtain rfl := Except.ok.inj (hres.symm.trans hr)
    intro e he
    obtain rfl : e = .parsed a s.buf ((pieces space l).length : ℤ) s' := List.mem_singleton.mp he
    refine ⟨l, h, fun _ => rfl, fun _ i w hw => ?_, fun hmany => absurd hwords hmany.not_ge⟩
    have hargs := hstored.args i w hw
    rwa [Nat.zero_add] at hargs

theorem cmdParse_tooMany (h : StringAt s.buf a l) (hlen : l.length ≤ cmdLen)
    (hmany : maxArgNr < (pieces space l).length) :
    Event.stored maxArgNr ∈ (cmdParse s a space).log := by
  obtain ⟨argv, hclear, -⟩ := clearArgv_spec s
  have hmem := parseLoop_tooMany (s := ⟨s.buf, argv⟩) (show space ≠ 0 by decide) h
    (Nat.lt_succ_of_le hlen) (Nat.zero_le maxArgNr)
    (show maxArgNr < 0 + (pieces space l).length by rwa [Nat.zero_add])
  unfold cmdParse
  rw [log_bind hclear]
  exact List.mem_append_right _ (mem_log_bind hmem)

theorem not_safe_stored : ¬ Event.Safe (.stored maxArgNr) := Nat.lt_irrefl _

/-- A command with words is executed. -/
theorem cmdExecute_words (hwords : HasWords l) (h : Stored space t a 0 l s) :
    Clean Event.Safe (cmdExecute ((pieces space l).length : ℤ) s) := by
  obtain ⟨hpos, hle⟩ := hwords
  have hne : s.argv 0 ≠ none := by
    obtain ⟨p, hp, -⟩ := h.args 0 _ (List.getElem?_eq_getElem hpos)
    rw [hp]
    exact Option.some_ne_none p
  unfold cmdExecute
  rw [event_bind, ensure_of hne]
  refine ⟨⟨(), rfl⟩, fun e he => ?_⟩
  obtain rfl : e = .executed ((pieces space l).length : ℤ) s.argv := List.mem_singleton.mp he
  exact ⟨Int.ofNat_le.mpr hpos, Int.ofNat_le.mpr hle, hne⟩

/-- A part of the line is run safely if and only if it has words, and not too many. -/
theorem runPart_words (h : StringAt s.buf a l) (hlen : l.length ≤ cmdLen) (hwords : HasWords l) :
    ∃ s', (runPart s a).result = .ok s' ∧ Keeps Event.Safe (runPart s a) ∧
      ∀ i, i < a ∨ a + l.length ≤ i → s'.buf i = s.buf i := by
  obtain ⟨s', hres, hkeeps, hstored⟩ := cmdParse_words h hlen hwords.2
  obtain ⟨⟨_, hexec⟩, hexecKeeps⟩ := cmdExecute_words hwords hstored
  refine ⟨s', ?_, ?_, hstored.same⟩
  · unfold runPart
    rw [result_bind, hres, ok_bind, result_bind, hexec]
    rfl
  · refine hkeeps.bind fun r hr => ?_
    obtain rfl := Except.ok.inj (hres.symm.trans hr)
    exact hexecKeeps.bind fun _ _ => Keeps.pure _

theorem runPart_bad (h : StringAt s.buf a l) (hlen : l.length ≤ cmdLen) (hwords : ¬ HasWords l) :
    ∃ e ∈ (runPart s a).log, ¬ e.Safe := by
  by_cases hmany : maxArgNr < (pieces space l).length
  · exact ⟨_, mem_log_bind (cmdParse_tooMany h hlen hmany), not_safe_stored⟩
  · have hle : (pieces space l).length ≤ maxArgNr := Nat.le_of_not_lt hmany
    obtain ⟨s', hres, -, -⟩ := cmdParse_words h hlen hle
    have hnone : ¬ 1 ≤ (pieces space l).length := fun hpos => hwords ⟨hpos, hle⟩
    refine ⟨.executed ((pieces space l).length : ℤ) s'.argv, ?_, fun hsafe => hnone ?_⟩
    · unfold runPart
      rw [log_bind hres]
      exact List.mem_append_right _ List.mem_cons_self
    · exact Int.ofNat_le.mp hsafe.1

/-- A part in front of more of the line. -/
theorem clean_runPart_bind {α : Type} {f : Cmd → Parsing α} {q : Prop} (h : StringAt s.buf a l)
    (hlen : l.length ≤ cmdLen) (hf : ∀ s' : Cmd,
      (∀ i, i < a ∨ a + l.length ≤ i → s'.buf i = s.buf i) → (Clean Event.Safe (f s') ↔ q)) :
    Clean Event.Safe (runPart s a >>= f) ↔ HasWords l ∧ q := by
  by_cases hwords : HasWords l
  · obtain ⟨s', hres, hkeeps, hsame⟩ := runPart_words h hlen hwords
    rw [clean_bind hres hkeeps, hf s' hsame, and_iff_right hwords]
  · obtain ⟨e, he, hbad⟩ := runPart_bad h hlen hwords
    exact iff_of_false (not_clean_bind he hbad) fun hand => hwords hand.1

theorem clean_runPart (h : StringAt s.buf a l) (hlen : l.length ≤ cmdLen) :
    Clean Event.Safe (runPart s a) ↔ HasWords l := by
  have hbind := clean_runPart_bind (f := fun s' => (pure s' : Parsing Cmd)) (q := True) h hlen
    fun s' _ => iff_of_true (clean_pure s') trivial
  rw [and_true] at hbind
  exact (clean_bind_left fun s' => clean_pure s').symm.trans hbind

/-- The parts are run safely if and only if each one has words, and not too many. -/
theorem clean_pipeLoop : ∀ {fuel : ℕ} {s : Cmd} {a : ℕ} {l : List UInt8}, StringAt s.buf a l →
    l.length < fuel → l.length ≤ cmdLen →
    (Clean Event.Safe (pipeLoop fuel s a) ↔ ∀ part ∈ l.splitOn bar, HasWords part) := by
  intro fuel
  induction fuel with
  | zero => exact fun _ hfuel => absurd hfuel (Nat.not_lt_zero _)
  | succ fuel ih =>
    intro s a l h hfuel hlen
    unfold pipeLoop
    by_cases hbar : bar ∈ l
    · obtain ⟨w, l', rfl, hw⟩ := List.eq_append_cons_of_mem hbar
      rw [List.length_append, List.length_cons] at hfuel hlen
      obtain ⟨hpart, hrest⟩ := h.cut
      rw [lift_bind (strchr_some h hw (by omega)), List.splitOn_append_cons_self_of_not_mem hw,
        List.forall_mem_cons]
      refine clean_runPart_bind hpart (by omega) fun s' hsame => ih ?_ (by omega) (by omega)
      exact hrest.of_agree fun i hi _ => hsame i (by omega)
    · rw [lift_bind (strchr_none h hbar (Nat.lt_succ_of_le hlen)), List.splitOn_eq_singleton hbar,
        List.forall_mem_singleton]
      exact clean_runPart h hlen

end Commands

/-- A line is tokenised and executed safely if and only if it is empty or each part of it has at
least one word and no more than `argv` holds. -/
theorem command_lines_safe (line : List UInt8) (hlen : line.length < cmdLen) (buf : Image)
    (hline : HoldsString buf line) (argv : Argv) :
    Clean Event.Safe (runLine ⟨buf, argv⟩) ↔
      line = [] ∨ ∀ part ∈ line.splitOn bar, HasWords part := by
  have h : StringAt buf 0 line := ⟨fun i c hc => by rw [Nat.zero_add]; exact hline.chars i c hc,
    hline.noNul, by rw [Nat.zero_add]; exact hline.nul⟩
  unfold runLine
  by_cases hnil : line = []
  · rw [if_pos (h.eq_nil_iff.mpr hnil)]
    exact iff_of_true (clean_pure _) (Or.inl hnil)
  · rw [if_neg (mt h.eq_nil_iff.mp hnil), or_iff_right hnil]
    by_cases hbar : bar ∈ line
    · obtain ⟨w, l', rfl, hw⟩ := List.eq_append_cons_of_mem hbar
      rw [List.length_append, List.length_cons] at hlen
      obtain ⟨hpart, hrest⟩ := h.cut
      rw [lift_bind (strchr_some h hw (by omega)), List.splitOn_append_cons_self_of_not_mem hw,
        List.forall_mem_cons, Nat.zero_add] at *
      refine clean_runPart_bind hpart (by omega) fun s' hsame => ?_
      refine (clean_bind_left clean_clearArgv).trans (clean_pipeLoop ?_ (by omega) (by omega))
      exact hrest.of_agree fun i hi _ => hsame i (by omega)
    · rw [lift_bind (strchr_none h hbar (Nat.lt_succ_of_lt hlen)), List.splitOn_eq_singleton hbar,
        List.forall_mem_singleton]
      by_cases hmany : maxArgNr < (pieces space line).length
      · refine iff_of_false (not_clean_bind ?_ not_safe_stored) fun hwords => hmany.not_ge hwords.2
        exact cmdParse_tooMany h hlen.le hmany
      · have hle : (pieces space line).length ≤ maxArgNr := Nat.le_of_not_lt hmany
        obtain ⟨s', hres, hkeeps, hstored⟩ := cmdParse_words (s := ⟨buf, argv⟩) h hlen.le hle
        have hcount : ((pieces space line).length : ℤ) ≠ -1 := by omega
        rw [clean_bind hres hkeeps]
        dsimp only
        rw [if_neg hcount, clean_bind_left fun _ => clean_clearArgv s']
        refine ⟨fun hclean => ⟨?_, hle⟩, fun hwords => cmdExecute_words hwords hstored⟩
        exact Int.ofNat_le.mp (hclean.events _ List.mem_cons_self).1

/-- `ls | cat` in a zeroed buffer. -/
theorem command_lines_safe_sample : ∃ buf, HoldsString buf [108, 115, space, bar, 99, 97, 116] ∧
    Clean Event.Safe (runLine ⟨buf, fun _ => none⟩) := by
  have hline : HoldsString (fun i => ([108, 115, space, bar, 99, 97, 116] : List UInt8).getD i 0)
      [108, 115, space, bar, 99, 97, 116] := by
    refine ⟨fun i c hc => ?_, by decide, rfl⟩
    rw [List.getD_eq_getElem?_getD, hc]
    rfl
  exact ⟨_, hline, (command_lines_safe [108, 115, space, bar, 99, 97, 116] (by decide) _ hline _).mpr
    (Or.inr (by decide))⟩

/-- 17 words: a pointer is stored behind `argv`. -/
theorem command_lines_overrun : ¬ ∀ (line : List UInt8) (buf : Image) (argv : Argv),
    line.length < cmdLen → HoldsString buf line →
      Clean Event.Safe (runLine ⟨buf, argv⟩) := by
  intro hall
  have hline : HoldsString
      (fun i => ((List.replicate 17 [97, space]).flatten : List UInt8).getD i 0)
      (List.replicate 17 [97, space]).flatten := by
    refine ⟨fun i c hc => ?_, by decide, by decide⟩
    rw [List.getD_eq_getElem?_getD, hc]
    rfl
  have hstored : maxArgNr ∈ (runLine
      ⟨fun i => ((List.replicate 17 [97, space]).flatten : List UInt8).getD i 0,
        fun _ => none⟩).log.filterMap Event.store? := by
    decide
  obtain ⟨e, he, hstore⟩ := List.mem_filterMap.mp hstored
  have hsafe := (hall _ _ _ (by decide) hline).events e he
  cases e with
  | stored i =>
    obtain rfl : i = maxArgNr := Option.some.inj hstore
    exact not_safe_stored hsafe
  | parsed cmdStr before argc after => cases hstore
  | executed argc argv => cases hstore

end X86System.Shell
