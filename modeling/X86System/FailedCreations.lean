import X86System.HeapTraces

/-!
# Failed creations

A call that opens directories on its way and closes them again leaves the list of open
inodes as it found it, and with that all the memory it took is back where it came from.
Creating a file gives the inode number back where memory or a slot is missing, and
nothing where the process has no descriptor left.
-/
namespace X86System.FileSystem
open Bytes Exec Transition

variable {s t u : State} {x : Inode} {a : InodePtr} {y : Session} {h : Multiset InodePtr}
  {w w' : List HeapEvent} {pool : HeapPool}

section Balances

/-- One block for `b` of pool `p`. -/
def credit (p : HeapPool) (b : HeapBlock) : HeapPool → HeapBlock → ℤ :=
  fun q c => if q = p ∧ c = b then 1 else 0

/-- The blocks of the open inodes. -/
def State.openBlocks (s : State) : HeapPool → HeapBlock → ℤ
  | .kernel, .inode a => if a ∈ s.openInodes then 1 else 0
  | _, _ => 0

@[simp] theorem balance_nil : balance [] = 0 := rfl

@[simp] theorem balance_append (w w' : List HeapEvent) :
    balance (w ++ w') = balance w + balance w' := by
  funext p b
  simp only [balance, List.count_append, Pi.add_apply]
  push_cast
  ring

@[simp] theorem balance_take (p : HeapPool) (b : HeapBlock) :
    balance (.take p b :: w) = credit p b + balance w := by
  funext q c
  simp only [balance, credit, List.count_cons, Pi.add_apply, beq_iff_eq, HeapEvent.take.injEq,
    reduceCtorEq, if_false, eq_comm (a := p), eq_comm (a := b)]
  split_ifs <;> push_cast <;> ring

@[simp] theorem balance_give (p : HeapPool) (b : HeapBlock) :
    balance (.give p b :: w) = balance w - credit p b := by
  funext q c
  simp only [balance, credit, List.count_cons, Pi.sub_apply, beq_iff_eq, HeapEvent.give.injEq,
    reduceCtorEq, if_false, eq_comm (a := p), eq_comm (a := b)]
  split_ifs <;> push_cast <;> ring

theorem openBlocks_congr (h : t.openInodes = s.openInodes) : t.openBlocks = s.openBlocks := by
  funext p b
  unfold State.openBlocks
  rw [h]

theorem openBlocks_cons (hopen : t.openInodes = a :: s.openInodes) (ha : a ∉ s.openInodes) :
    t.openBlocks = s.openBlocks + credit .kernel (.inode a) := by
  funext p b
  rcases p with _ | _
  case user => simp [State.openBlocks, credit]
  rcases b with _ | _ | b
  case buffer => simp [State.openBlocks, credit]
  case dir => simp [State.openBlocks, credit]
  by_cases hb : b = a
  · subst hb
    simp [State.openBlocks, credit, hopen, ha]
  · simp [State.openBlocks, credit, hopen, hb]

theorem openBlocks_erase (hopen : t.openInodes = s.openInodes.erase a) (ha : a ∈ s.openInodes)
    (hnodup : s.openInodes.Nodup) : t.openBlocks = s.openBlocks - credit .kernel (.inode a) := by
  funext p b
  rcases p with _ | _
  case user => simp [State.openBlocks, credit]
  rcases b with _ | _ | b
  case buffer => simp [State.openBlocks, credit]
  case dir => simp [State.openBlocks, credit]
  by_cases hb : b = a
  · subst hb
    simp [State.openBlocks, credit, hopen, ha, hnodup.not_mem_erase]
  · simp [State.openBlocks, credit, hopen, hb, List.mem_erase_of_ne hb]

end Balances

section Searching

/-- The open inodes and the tables are as they were. -/
structure Aside (s t : State) : Prop where
  openInodes : t.openInodes = s.openInodes
  inodes : ∀ a < s.nextInode, t.inodes a = s.inodes a
  nextInode : s.nextInode ≤ t.nextInode
  rootDir : t.rootDir = s.rootDir
  part : t.part = s.part
  cur : t.cur = s.cur
  tables : SameTables s t

theorem Aside.popHeap (s : State) : Aside s s.popHeap :=
  ⟨rfl, fun _ _ => rfl, le_rfl, rfl, rfl, rfl, fun _ => rfl, rfl⟩

theorem Aside.trans (h : Aside s t) (h' : Aside t u) : Aside s u where
  openInodes := h'.openInodes.trans h.openInodes
  inodes a ha := (h'.inodes a (ha.trans_le h.nextInode)).trans (h.inodes a ha)
  nextInode := h.nextInode.trans h'.nextInode
  rootDir := h'.rootDir.trans h.rootDir
  part := h'.part.trans h.part
  cur := h'.cur.trans h.cur
  tables := h.tables.trans h'.tables

theorem sysMalloc_traced (b : HeapBlock) (s : State) (size : ℕ) :
    Records (Traced.sysMalloc pool b s size) fun v w =>
      v.2 = s.popHeap ∧ v.1.isSome = s.heap 0 ∧ balance w = if s.heap 0 then credit pool b else 0 := by
  unfold Traced.sysMalloc
  by_cases hheap : s.heap 0 = true
  · rw [sysMalloc_of_heap hheap]
    exact records_record ⟨rfl, hheap.symm, by simp [hheap]⟩
  · have hnone := Bool.eq_false_of_not_eq_true hheap
    rw [sysMalloc_of_none hnone]
    exact ⟨rfl, hnone.symm, by simp [hnone]⟩

theorem mallocInode_traced (s : State) : Records (Traced.mallocInode s) fun v w =>
    Aside s v.2 ∧ (v.1 = if s.heap 0 then some s.nextInode else none) ∧
      balance w = if s.heap 0 then credit .kernel (.inode s.nextInode) else 0 := by
  unfold Traced.mallocInode FileSystem.mallocInode
  by_cases hheap : s.heap 0 = true
  · simp only [if_pos hheap]
    refine records_record ⟨⟨rfl, fun b hb => ?_, Nat.le_succ _, rfl, rfl, rfl, fun _ => rfl, rfl⟩,
      rfl, by simp⟩
    exact Function.update_of_ne hb.ne ..
  · simp only [if_neg hheap]
    exact ⟨Aside.popHeap s, rfl, rfl⟩

/-- A new inode comes to the head of the list. -/
theorem inodeLoad_traced (s : State) (n : UInt32) :
    Records (Traced.inodeLoad pool s n) fun v w => v.1 = s.nextInode ∧
      v.2.openInodes = v.1 :: s.openInodes ∧ (∀ b < s.nextInode, v.2.inodes b = s.inodes b) ∧
      balance w = credit .kernel (.inode v.1) := by
  unfold Traced.inodeLoad
  refine records_skip fun pos => Records.bind (mallocInode_traced s) fun ⟨o, t⟩ w ⟨ht, ho, hw⟩ => ?_
  refine Records.bind (sysMalloc_traced ..) fun ⟨b, u⟩ w' ⟨hu, hb, hw'⟩ => ?_
  obtain rfl : u = t.popHeap := hu
  refine records_lift (Returns.intro fun _ => deref_ok) fun buf (hbuf : b = some buf) => ?_
  refine records_skip fun _ => ?_
  refine records_lift (Returns.intro fun _ => deref_ok) fun c (hc : o = some c) => records_record ?_
  subst hbuf hc
  have hheap : s.heap 0 = true := by
    by_contra hno
    simp [hno] at ho
  have hheap' : t.heap 0 = true := hb.symm
  obtain rfl : c = s.nextInode := by simpa [hheap] using ho
  refine ⟨rfl, ?_, fun b hb => ?_, ?_⟩
  · exact congrArg _ ht.openInodes
  · exact (setInode_inodes_of_ne _ _ _ hb.ne).trans (ht.inodes b hb)
  · rw [balance_append, balance_append, hw, hw', if_pos hheap, if_pos hheap']
    simp

/-- An inode that was open is the same one but for its count. -/
def KeptPlace (s t : State) (a : InodePtr) : Prop :=
  (t.inodes a).map Inode.place = (s.inodes a).map Inode.place

theorem inodeOpen_traced (hs : OpenOk s) (n : UInt32) :
    Records (Traced.inodeOpen pool s n) fun v w => s.openInodes <:+ v.2.openInodes ∧
      (∀ b ∈ s.openInodes, KeptPlace s v.2 b) ∧ balance w = v.2.openBlocks - s.openBlocks := by
  unfold Traced.inodeOpen
  refine records_skip fun r => ?_
  cases r with
  | none =>
    refine (inodeLoad_traced s n).mono fun ⟨b, t⟩ w ⟨hb, hopen, hinodes, hw⟩ => ?_
    obtain rfl : b = s.nextInode := hb
    have hnew : s.nextInode ∉ s.openInodes := fun hmem => lt_irrefl _ (hs.used _ hmem)
    refine ⟨?_, fun c hc => congrArg _ (hinodes c (hs.used c hc)), ?_⟩
    · rw [hopen]
      exact List.suffix_cons ..
    · rw [hw, openBlocks_cons hopen hnew, add_sub_cancel_left]
  | some b =>
    refine records_lift (Returns.intro fun _ => deref_ok) fun x (hx : s.inodes b = some x) => ?_
    refine ⟨List.suffix_rfl, fun c _ => ?_, (sub_self _).symm⟩
    unfold KeptPlace
    by_cases hc : c = b
    · subst hc
      rw [setInode_inodes_self, hx]
      rfl
    · rw [setInode_inodes_of_ne _ _ _ hc]

/-- With its last handle an inode leaves the list. -/
theorem inodeClose_traced (hs : OpenOk s) (ha : a ∈ s.openInodes) :
    Records (Traced.inodeClose s a) fun t w => balance w = t.openBlocks - s.openBlocks ∧
      ((t.openInodes = s.openInodes ∧ ∀ b, KeptPlace s t b) ∨
        s.openCount a = 1 ∧ t.openInodes = s.openInodes.erase a ∧
          ∀ b ≠ a, t.inodes b = s.inodes b) := by
  unfold Traced.inodeClose
  refine records_lift (Returns.intro fun _ => deref_ok) fun x (hx : s.inodes a = some x) => ?_
  refine records_ite (fun hone => records_record ⟨?_, Or.inr ⟨?_, rfl, fun b hb => ?_⟩⟩)
    fun _ => ⟨?_, Or.inl ⟨rfl, fun b => ?_⟩⟩
  · rw [balance_give, balance_nil, openBlocks_erase rfl ha hs.nodup]
    abel
  · rw [openCount_of_mem ha hx, hone]
  · exact Function.update_of_ne hb ..
  · exact (sub_self _).symm
  · unfold KeptPlace
    by_cases hb : b = a
    · subst hb
      rw [setInode_inodes_self, hx]
      rfl
    · rw [setInode_inodes_of_ne _ _ _ hb]

/-- From `s` to `t` the directories in `h` were opened, the inodes that were open are still
there, and what was taken is the memory of the directories and of the inodes opened. -/
structure Roams (pool : HeapPool) (s t : State) (h : Multiset InodePtr) (w : List HeapEvent) :
    Prop where
  opens : Opens s t h
  suffix : s.openInodes <:+ t.openInodes
  kept : ∀ b ∈ s.openInodes, KeptPlace s t b
  memory : balance w = t.openBlocks - s.openBlocks + (h.card : ℤ) • credit pool .dir

/-- The same beside a call that leaves the open inodes alone. -/
theorem Roams.aside (hr : Roams pool s t h w) (ha : Aside t u) : Roams pool s u h w where
  opens :=
    { start := hr.opens.start
      ok := by
        refine ⟨ha.openInodes ▸ hr.opens.ok.nodup, fun b hb => ?_, fun b hb => ?_⟩
        · rw [ha.openInodes] at hb
          rw [ha.inodes b (hr.opens.ok.used b hb)]
          exact hr.opens.ok.live b hb
        · rw [ha.openInodes] at hb
          exact (hr.opens.ok.used b hb).trans_le ha.nextInode
      count := fun b => by
        rw [← hr.opens.count b]
        unfold State.openCount
        rw [ha.openInodes]
        refine if_ctx_congr Iff.rfl (fun hb => ?_) fun _ => rfl
        rw [ha.inodes b (hr.opens.ok.used b hb)]
      old := fun b hb => by
        rw [ha.inodes b (hr.opens.ok.used b (hr.opens.mem_of_open hb))]
        exact hr.opens.old b hb
      new := fun b hb => hr.opens.new b (ha.openInodes ▸ hb)
      nextInode := hr.opens.nextInode.trans ha.nextInode
      rootDir := ha.rootDir.trans hr.opens.rootDir
      part := ha.part.trans hr.opens.part
      cur := ha.cur.trans hr.opens.cur
      tables := hr.opens.tables.trans ha.tables }
  suffix := ha.openInodes ▸ hr.suffix
  kept b hb := by
    have hmem := hr.opens.mem_of_open hb
    exact (congrArg _ (ha.inodes b (hr.opens.ok.used b hmem))).trans (hr.kept b hb)
  memory := by rw [hr.memory, openBlocks_congr ha.openInodes]

theorem Roams.refl (hs : OpenOk s) : Roams pool s s 0 [] :=
  ⟨Opens.refl hs, List.suffix_rfl, fun _ _ => rfl, by simp⟩

theorem Roams.dirOpen (hr : Roams pool s t h w) (n : UInt32) :
    Records (Traced.dirOpen pool t n) fun v w' => Roams pool s v.2 (v.1.handles + h) (w ++ w') := by
  have hopens := dirOpen_opens hr.opens n
  rw [← @Traced.dirOpen_plain pool] at hopens
  have hfacts : Records (Traced.dirOpen pool t n) fun v w' => t.openInodes <:+ v.2.openInodes ∧
      (∀ b ∈ t.openInodes, KeptPlace t v.2 b) ∧ (∃ a, v.1 = .opened a) ∧
      balance w' = v.2.openBlocks - t.openBlocks + credit pool .dir := by
    unfold Traced.dirOpen
    refine Records.bind (sysMalloc_traced ..) fun ⟨b, u⟩ w₁ ⟨hu, hb, hw₁⟩ => ?_
    obtain rfl : u = t.popHeap := hu
    refine records_lift (Returns.intro fun _ => deref_ok) fun buf (hbuf : b = some buf) => ?_
    subst hbuf
    have hok : OpenOk t.popHeap := ⟨hr.opens.ok.nodup, hr.opens.ok.live, hr.opens.ok.used⟩
    refine Records.bind (inodeOpen_traced hok n) fun ⟨c, v⟩ w₂ ⟨hsuffix, hkept, hw₂⟩ => ?_
    refine ⟨hsuffix, hkept, ⟨c, rfl⟩, ?_⟩
    have hblocks : t.popHeap.openBlocks = t.openBlocks := openBlocks_congr rfl
    have hheap : t.heap 0 = true := hb.symm
    rw [balance_append, balance_append, hw₁, hw₂, if_pos hheap, balance_nil, hblocks]
    abel
  refine (hfacts.and_plain hopens).mono fun ⟨d, v⟩ w' ⟨⟨hsuffix, hkept, ⟨c, hc⟩, hw'⟩, ho⟩ => ?_
  refine ⟨ho, hr.suffix.trans hsuffix, fun b hb => ?_, ?_⟩
  · exact (hkept b (hr.opens.mem_of_open hb)).trans (hr.kept b hb)
  · obtain rfl : d = .opened c := hc
    rw [balance_append, hr.memory, hw', Dir.handles, Multiset.card_add, Multiset.card_singleton]
    push_cast
    rw [add_smul, one_smul]
    abel

/-- A directory that is held is closed, and its memory goes back. -/
theorem Roams.dirClose {d : Dir} (hr : Roams pool s t (d.handles + h) w) :
    Records (Traced.dirClose pool t d) fun u w' => Roams pool s u h (w ++ w') := by
  have hopens := dirClose_opens hr.opens
  rw [← @Traced.dirClose_plain pool] at hopens
  cases d with
  | root =>
    show Roams pool s t h (w ++ [])
    rw [List.append_nil]
    simpa [Dir.handles] using hr
  | opened a =>
    have hmem : a ∈ t.openInodes := hr.opens.mem_of_held (by simp [Dir.handles])
    have hfacts : Records (Traced.dirClose pool t (.opened a)) fun u w' =>
        balance w' = u.openBlocks - t.openBlocks - credit pool .dir ∧
        s.openInodes <:+ u.openInodes ∧ ∀ b ∈ s.openInodes, KeptPlace t u b := by
      apply Records.bind (inodeClose_traced hr.opens.ok hmem)
      rintro u w₁ ⟨hw₁, hu⟩
      refine records_record ⟨?_, ?_⟩
      · rw [balance_append, balance_give, hw₁, balance_nil]
        abel
      rcases hu with ⟨hopen, hsame⟩ | ⟨hone, hopen, hsame⟩
      · exact ⟨hopen ▸ hr.suffix, fun b _ => hsame b⟩
      · -- the last handle is that of the directory
        have hnew : a ∉ s.openInodes := by
          intro ha
          have hpos := hr.opens.start.openCount_pos.mpr ha
          have hcnt := hr.opens.count a
          simp only [Dir.handles, Multiset.count_add, Multiset.count_singleton_self] at hcnt
          omega
        obtain ⟨l, hl⟩ := hr.suffix
        have hal : a ∈ l := by
          rw [← hl] at hmem
          exact (List.mem_append.mp hmem).resolve_right hnew
        refine ⟨⟨l.erase a, ?_⟩, fun b hb => congrArg _ (hsame b fun hba => hnew (hba ▸ hb))⟩
        rw [hopen, ← hl, List.erase_append_left _ hal]
    apply (hfacts.and_plain hopens).mono
    rintro u w' ⟨⟨hw', hsuffix, hkept⟩, ho⟩
    refine ⟨ho, hsuffix, fun b hb => (hkept b hb).trans (hr.kept b hb), ?_⟩
    rw [balance_append, hr.memory, hw', Dir.handles, Multiset.card_add, Multiset.card_singleton]
    push_cast
    rw [add_smul, one_smul]
    abel

/-- What was taken and given back does not count. -/
theorem Roams.append (hr : Roams pool s t h w) (hw' : balance w' = 0) :
    Roams pool s t h (w ++ w') :=
  ⟨hr.opens, hr.suffix, hr.kept, by rw [balance_append, hw', add_zero, hr.memory]⟩

theorem searchDirEntry_traced (s : State) (d : Dir) (name : List UInt8) :
    Records (Traced.searchDirEntry pool s d name) fun v w => Aside s v.2 ∧ balance w = 0 := by
  unfold Traced.searchDirEntry
  refine Records.bind (sysMalloc_traced ..) fun ⟨o, t⟩ w ⟨ht, ho, hw⟩ => ?_
  obtain rfl : t = s.popHeap := ht
  cases o with
  | none =>
    have hnone : s.heap 0 = false := ho.symm
    exact ⟨Aside.popHeap s, by simp [hw, hnone]⟩
  | some b =>
    have hfirst : s.heap 0 = true := ho.symm
    refine records_skip fun x => records_skip fun b => records_skip fun b => ?_
    refine Records.bind (sysMalloc_traced ..) fun ⟨o, u⟩ w' ⟨hu, ho', hw'⟩ => ?_
    obtain rfl : u = s.popHeap.popHeap := hu
    refine records_skip fun e => ?_
    refine records_lift (P := fun _ => o.isSome = true) (returns_of_ensure _) fun _ hsome => ?_
    have hsecond : s.popHeap.heap 0 = true := ho'.symm.trans hsome
    refine records_record (records_record ⟨(Aside.popHeap s).trans (Aside.popHeap _), ?_⟩)
    simp only [balance_append, balance_give, balance_nil, hw, hw', if_pos hfirst, if_pos hsecond]
    abel

theorem Roams.searchDirEntry (hr : Roams pool s t h w) (d : Dir) (name : List UInt8) :
    Records (Traced.searchDirEntry pool t d name) fun v w' => Roams pool s v.2 h (w ++ w') :=
  (searchDirEntry_traced t d name).mono fun _ _ ⟨ha, hw'⟩ => (hr.aside ha).append hw'

theorem Roams.enterDir {d : Dir} (hr : Roams pool s t (d.handles + h) w) (n : UInt32) :
    Records (Traced.enterDir pool t d n) fun v w' =>
      Roams pool s v.2.2 (v.2.1.handles + h) (w ++ w') := by
  refine records_skip fun x => Records.bind hr.dirClose fun u w₁ hu => ?_
  refine Records.bind (hu.dirOpen n) fun v w₂ hv => ?_
  simpa using hv

theorem Roams.finishSearch {r : PathSearchRecord} (hr : Roams pool s t (r.parentDir.handles + h) w)
    (n : UInt32) (dirE : Option DirEntry) :
    Records (Traced.finishSearch pool t r n dirE) fun v w' =>
      Roams pool s v.2.2 (v.2.1.parentDir.handles + h) (w ++ w') := by
  refine Records.bind hr.dirClose fun u w₁ hu => Records.bind (hu.dirOpen n) fun v w₂ hv => ?_
  cases dirE with
  | none => trivial
  | some e => simpa using hv

theorem Roams.searchLoop (fuel : ℕ) : ∀ (t : State) (r : PathSearchRecord) (n : UInt32)
    (name : List UInt8) (sub : Option (List UInt8)) (dirE : Option DirEntry)
    (w : List HeapEvent), Roams pool s t (r.parentDir.handles + h) w →
      Records (Traced.searchLoop pool fuel t r n name sub dirE) fun v w' =>
        Roams pool s v.2.2 (v.2.1.parentDir.handles + h) (w ++ w') := by
  induction fuel with
  | zero => exact fun _ _ _ _ _ _ _ _ => trivial
  | succ fuel ih =>
    intro t r n name sub dirE w hr
    refine records_ite (fun _ => hr.finishSearch n dirE) fun _ => ?_
    refine records_skip fun _ => records_skip fun _ => ?_
    refine Records.bind (hr.searchDirEntry ..) fun ⟨e, u⟩ w₁ hu => ?_
    have hsame : ∀ v, Roams pool s v (r.parentDir.handles + h) (w ++ w₁) →
        Roams pool s v (r.parentDir.handles + h) (w ++ (w₁ ++ [])) := by
      intro v hv
      rwa [List.append_nil]
    have hrest : ∀ {w' : List HeapEvent} {v : State} {g : Multiset InodePtr},
        Roams pool s v g (w ++ w₁ ++ w') → Roams pool s v g (w ++ (w₁ ++ w')) := by
      intro w' v g hv
      rwa [← List.append_assoc]
    cases e with
    | none => exact hsame _ hu
    | some e =>
      refine records_skip fun p => records_ite (fun _ => ?_) fun _ => ?_
      · refine Records.bind (hu.enterDir e.iNo) fun v w₂ hv => ?_
        refine (ih _ _ _ _ _ _ _ hv).mono fun v' w' hv' => hrest ?_
        rwa [← List.append_assoc]
      refine records_ite (fun _ => hsame _ hu) fun _ => ?_
      have hloop := ih u { r with searchedPath := r.searchedPath ++ slash :: name } n p.1 p.2
        (some e) _ hu
      exact hloop.mono fun v' w' hv' => hrest hv'

/-- The search for a path holds the directory of its record and no other memory. -/
theorem Roams.searchFile (hr : Roams pool s t h w) (path : List UInt8) :
    Records (Traced.searchFile pool t path) fun v w' =>
      Roams pool s v.2.2 (v.2.1.parentDir.handles + h) (w ++ w') := by
  have hroot : Roams pool s t (Dir.root.handles + h) w := by simpa [Dir.handles] using hr
  refine records_ite (fun _ => ?_) fun _ => records_skip fun _ => records_skip fun v => ?_
  · show Roams pool s t (Dir.root.handles + h) (w ++ [])
    rwa [List.append_nil]
  · exact Roams.searchLoop _ _ _ _ _ _ _ _ hroot

end Searching

section Creating

/-- Nothing is left of a call: directories are as they were, but for how often they are open, the
disk with its bitmaps and inode table too, and all memory is back where it came from. -/
structure Traceless (s t : State) (w : List HeapEvent) : Prop where
  view : ∀ n, (t.view n).place = (s.view n).place
  disk : t.disk = s.disk
  blockBitmap : t.blockBitmap = s.blockBitmap
  inodeBitmap : t.inodeBitmap = s.inodeBitmap
  memory : ∀ p b, balance w p b = 0

/-- Without handles the list of open inodes is the one before. -/
theorem Roams.openInodes (hr : Roams pool s t 0 w) : t.openInodes = s.openInodes := by
  obtain ⟨l, hl⟩ := hr.suffix
  cases l with
  | nil => exact hl.symm
  | cons b l =>
    have hmem : b ∈ t.openInodes := hl ▸ List.mem_cons_self
    have hnodup := hr.opens.ok.nodup
    rw [← hl, List.cons_append, List.nodup_cons] at hnodup
    have hcnt := hr.opens.count b
    have hpos := hr.opens.ok.openCount_pos.mpr hmem
    have hold : b ∈ s.openInodes := hr.opens.start.openCount_pos.mp (by
      rw [Multiset.count_zero] at hcnt
      omega)
    exact absurd (List.mem_append_right l hold) hnodup.1

/-- What a number stands for is the same as long as the disk is. -/
theorem Roams.view (hr : Roams pool s t 0 w) (hdisk : t.disk = s.disk) (n : UInt32) :
    (t.view n).place = (s.view n).place := by
  have hopen : t.openInode n = s.openInode n := by
    unfold State.openInode
    rw [hr.openInodes]
    exact List.find?_congr fun b hb => by rw [hr.opens.old b hb]
  cases hn : s.openInode n with
  | none => rw [view_of_none hn, view_of_none (hopen.trans hn), diskRecord, diskRecord, hdisk,
      hr.opens.part]
  | some b =>
    have hb : b ∈ s.openInodes := List.mem_of_find?_eq_some hn
    obtain ⟨x, hx, -⟩ := openInode_iNo hn
    have hkept := hr.kept b hb
    unfold KeptPlace at hkept
    rw [hx] at hkept
    cases hy : t.inodes b with
    | none => simp [hy] at hkept
    | some z =>
      rw [view_of_open hn hx, view_of_open (hopen.trans hn) hy]
      simpa [hy] using hkept

theorem Roams.traceless (hr : Roams pool s t 0 w) (hb : Browsed s t)
    (hw : FileSystem.balance w' = FileSystem.balance w) : Traceless s t w' where
  view := hr.view hb.disk
  disk := hb.disk
  blockBitmap := hb.blockBitmap
  inodeBitmap := hb.inodeBitmap
  memory p b := by
    rw [hw, hr.memory, openBlocks_congr hr.openInodes]
    simp

theorem pcbFdInstall_numbers (s : State) (g : ℕ) :
    Leads SameNumbers s (pcbFdInstall s g) Prod.snd := by
  refine (pcbFdInstall_exits s g).mono fun r hr => ?_
  rcases hr with ⟨rfl, -⟩ | ⟨task, fd, -, -, -, rfl⟩
  · rfl
  · rfl

theorem enrolFile_numbers (s : State) (parent a : InodePtr) (i g : ℕ) :
    Leads SameNumbers s (enrolFile s parent a i g) Prod.snd := by
  refine Leads.skip fun x => Leads.bind (leads_numbers (inodeSync_disk ..)) fun v => ?_
  refine Leads.skip fun y => Leads.bind (leads_numbers (inodeSync_disk ..)) fun w => ?_
  refine Leads.bind (leads_numbers (bitmapSync_disk ..)) fun z => ?_
  exact pcbFdInstall_numbers ..

/-- The exits of `file_create` behind the allocation of the inode. -/
theorem createInDir_traced (lone : Bool) (s : State) (parent : InodePtr) (name : List UInt8)
    (flag : UInt8) (i : ℕ) (a : InodePtr) (b : Buffer) :
    Records (Traced.createInDir pool lone s parent name flag i a b) fun r w =>
      (r = (none, ((s.setInode a (inodeInit (UInt32.ofNat i))).freeInode a).dropInodeNo i) ∧
        ¬ s.slotFree ∧ balance w =
          -credit (freedTo pool .kernel lone) (.inode a) - credit pool .buffer) ∨
      s.slotFree ∧ (r.1 = none ↔ ¬ s.fdFree) ∧ r.2.inodeBitmap = s.inodeBitmap := by
  unfold Traced.createInDir
  dsimp only
  cases hslot : getFreeSlotInGlobal (s.setInode a (inodeInit (UInt32.ofNat i))) with
  | none =>
    refine records_record (records_record (Or.inl ⟨rfl, getFreeSlotInGlobal_none.mp hslot, ?_⟩))
    simp only [balance_give, balance_nil]
    abel
  | some g =>
    obtain ⟨hg, hfree⟩ := getFreeSlotInGlobal_spec hslot
    refine records_skip fun e => ?_
    have hbits : Detached State.inodeBitmap := ⟨fun _ _ => rfl, fun _ _ _ => rfl, fun _ _ => rfl⟩
    have hsync := ((syncDirEntry_done ((s.setInode a (inodeInit (UInt32.ofNat i))).setFile g
      ⟨0, flag.toUInt32, some a⟩) parent e b).and (syncDirEntry_same hbits ..)).and
        ((syncDirEntry_slots ..).and (syncDirEntry_still ..))
    refine records_lift hsync fun ⟨done, t⟩ ⟨⟨hdone, hsame⟩, hslots, hstill⟩ => ?_
    have hstill : Still _ t := hstill
    obtain rfl : done = true := hdone
    have henrol := (enrolFile_exits (s := s) hslots hstill.tables.tasks hstill.cur parent i
      (a := a)).and (enrolFile_numbers t parent a i g)
    refine records_lift henrol fun r ⟨hr, hnumbers⟩ => records_record (Or.inr ⟨⟨g, hg, hfree⟩, ?_, ?_⟩)
    · rcases hr with ⟨hnone, hno, -⟩ | ⟨fd, hsome, -, hyes, -⟩
      · exact iff_of_true hnone hno
      · exact iff_of_false (by simp [hsome]) (not_not.mpr hyes)
    · exact hnumbers.trans hsame

/-- The inode of a failed creation is freed and its number given back. -/
theorem undone_aside (hs : Aside s t) (i : ℕ) (ha : s.nextInode ≤ a) :
    Aside s (((t.setInode a x).freeInode a).dropInodeNo i) := by
  refine ⟨hs.openInodes, fun b hb => ?_, hs.nextInode, hs.rootDir, hs.part, hs.cur, hs.tables.slots,
    hs.tables.tasks⟩
  have hne : b ≠ a := (hb.trans_le ha).ne
  show Function.update (t.setInode a x).inodes a none b = s.inodes b
  rw [Function.update_of_ne hne, setInode_inodes_of_ne _ _ _ hne, hs.inodes b hb]

/-- `s` after the allocations of `file_create` up to that of an inode number. -/
def State.numbered (s : State) (i : ℕ) : State :=
  { s.popHeap with inodeBitmap := bitmapSet s.inodeBitmap i true }

theorem undone_browsed {i : ℕ} (hi : i ∈ s.inodeBitmap.free) (hb : Browsed (s.numbered i) t) :
    Browsed s (t.dropInodeNo i) where
  disk := hb.disk
  part := hb.part
  blockBitmap := hb.blockBitmap
  inodeBitmap := by
    show bitmapSet t.inodeBitmap i false = s.inodeBitmap
    rw [hb.inodeBitmap]
    exact bitmapSet_undo hi
  rootDir := hb.rootDir
  fileTable := hb.fileTable
  tasks := hb.tasks
  cur := hb.cur

/-- What `file_create` leaves where it creates nothing: nothing but a block given to another pool
where the running process frees the only block of an arena of the kernel. -/
structure Undone (pool : HeapPool) (lone : Bool) (s t : State) (w : List HeapEvent) : Prop where
  aside : Aside s t
  browsed : Browsed s t
  memory : if s.heap 0 = true ∧ s.heap 1 = true ∧ pool = .user ∧ lone = true
    then ∃ a, balance w = credit .kernel (.inode a) - credit .user (.inode a) else balance w = 0
  stopped : ¬ (s.heap 0 = true ∧ s.heap 1 = true ∧ s.slotFree)

/-- The exits of `file_create`: nothing is created, or a file with or without a descriptor. -/
theorem fileCreate_traced (lone : Bool) (s : State) (d : Dir) (name : List UInt8) (flag : UInt8) :
    Records (Traced.fileCreate pool lone s d name flag) fun r w =>
      (r.1 = none ∧ Undone pool lone s r.2 w) ∨
      (s.heap 0 = true ∧ s.heap 1 = true ∧ s.slotFree) ∧ (r.1 = none ↔ ¬ s.fdFree) ∧
        r.2.inodeBitmap ≠ s.inodeBitmap := by
  unfold Traced.fileCreate
  refine Records.bind (sysMalloc_traced ..) fun ⟨o, t⟩ w ⟨ht, ho, hw⟩ => ?_
  obtain rfl : t = s.popHeap := ht
  cases o with
  | none =>
    have hnone : s.heap 0 = false := ho.symm
    refine Or.inl ⟨rfl, Aside.popHeap s, ⟨rfl, rfl, rfl, rfl, rfl, rfl, rfl, rfl⟩, ?_, ?_⟩
    · simp [hw, hnone]
    · simp [hnone]
  | some b =>
    have hfirst : s.heap 0 = true := ho.symm
    rw [if_pos hfirst] at hw
    refine records_lift (inodeBitmapAlloc_some s.popHeap) fun r ⟨i, hi, hr⟩ => ?_
    subst hr
    have hi : i ∈ s.inodeBitmap.free := hi
    have hside : Aside s (s.numbered i) :=
      ⟨rfl, fun _ _ => rfl, le_rfl, rfl, rfl, rfl, fun _ => rfl, rfl⟩
    have hbrowsed : Returns (plain (Traced.mallocInode (s.numbered i)))
        fun v => Browsed (s.numbered i) v.2 := by
      rw [Traced.mallocInode_plain]
      exact mallocInode_browsed _
    refine Records.bind ((mallocInode_traced (s.numbered i)).and_plain hbrowsed)
      fun ⟨o, v⟩ w' ⟨⟨hnew, ho', hw'⟩, hb⟩ => ?_
    have hv : Aside s v := hside.trans hnew
    have hbv : Browsed (s.numbered i) v := hb
    clear hnew hb
    have hundone := undone_browsed hi hbv
    by_cases hsecond : s.heap 1 = true
    case neg =>
      obtain rfl : o = none := ho'.trans (if_neg hsecond)
      rw [if_neg (show ¬ (s.numbered i).heap 0 = true from hsecond)] at hw'
      refine records_record (Or.inl ⟨rfl, ⟨hv.openInodes, hv.inodes, hv.nextInode, hv.rootDir,
        hv.part, hv.cur, hv.tables.slots, hv.tables.tasks⟩, hundone, ?_, fun h => hsecond h.2.1⟩)
      rw [if_neg fun h => hsecond h.2.1]
      simp [hw, hw']
    obtain rfl : o = some s.nextInode := ho'.trans (if_pos hsecond)
    rw [if_pos (show (s.numbered i).heap 0 = true from hsecond)] at hw'
    have hslot : v.slotFree ↔ s.slotFree := hbv.slotFree
    have hfd : v.fdFree ↔ s.fdFree := hbv.fdFree
    refine (createInDir_traced ..).mono fun r w'' hr => ?_
    rcases hr with ⟨hr, hno, hw''⟩ | ⟨hyes, hnone, hbits⟩
    · subst hr
      have haside := undone_aside (x := inodeInit (UInt32.ofNat i)) hv i (le_refl s.nextInode)
      refine Or.inl ⟨rfl, haside, ⟨hundone.disk, hundone.part,
        hundone.blockBitmap, hundone.inodeBitmap, hundone.rootDir, hundone.fileTable,
        hundone.tasks, hundone.cur⟩, ?_, fun h => hno (hslot.mpr h.2.2)⟩
      have htotal : balance (w ++ (w' ++ w'')) = credit .kernel (.inode s.nextInode) -
          credit (freedTo pool .kernel lone) (.inode s.nextInode) := by
        rw [balance_append, balance_append, hw, hw', hw'']
        show credit pool .buffer + (credit .kernel (.inode s.nextInode) +
          (-credit (freedTo pool .kernel lone) (.inode s.nextInode) - credit pool .buffer)) = _
        abel
      split_ifs with hlost
      · obtain ⟨-, -, rfl, rfl⟩ := hlost
        exact ⟨s.nextInode, htotal⟩
      · have hback : freedTo pool .kernel lone = .kernel := by
          unfold freedTo
          split_ifs with hlone
          · cases pool with
            | kernel => rfl
            | user => exact absurd ⟨hfirst, hsecond, rfl, hlone⟩ hlost
          · rfl
        rw [htotal, hback, sub_self]
    · refine Or.inr ⟨⟨hfirst, hsecond, hslot.mp hyes⟩, hnone.trans (not_congr hfd), fun heq => ?_⟩
      have hset : bitmapSet s.inodeBitmap i true = s.inodeBitmap :=
        hbv.inodeBitmap.symm.trans (hbits.symm.trans heq)
      have htest := bitmapScanTest_set s.inodeBitmap i i true
      rw [hset, if_pos rfl, ((Bitmap.mem_free _ _).mp hi).2] at htest
      exact absurd htest (by simp)

end Creating

section Calls

/-- `sys_mkdir` comes to its end once it has an inode number. -/
theorem makeDir_done (s : State) (r : PathSearchRecord) (i : ℕ) (b : Buffer) :
    Returns (makeDir s r i b) fun v => v.1 = true := by
  unfold makeDir
  refine Returns.bind (blockBitmapAlloc_some s) fun ⟨lba, t⟩ hlba => ?_
  cases lba with
  | none => exact absurd rfl hlba
  | some lba =>
    refine returns_ensure fun _ => returns_skip fun t => returns_skip fun x => ?_
    refine returns_skip fun self => returns_skip fun up => ?_
    refine returns_skip fun b => returns_skip fun b => returns_skip fun b => ?_
    refine returns_skip fun t => returns_skip fun e => ?_
    refine Returns.bind (syncDirEntry_done ..) fun ⟨done, u⟩ hdone => ?_
    obtain rfl : done = true := hdone
    exact returns_skip fun x => returns_skip fun v => returns_skip fun w => returns_skip fun z => rfl

/-- A search and the closing of the directory of its record leave nothing. -/
theorem Roams.closeFound {r : PathSearchRecord}
    (hr : Roams pool s t (r.parentDir.handles + 0) w) (hb : Browsed s t) :
    Records (Traced.dirClose pool t r.parentDir) fun u w₁ =>
      Roams pool s u 0 (w ++ w₁) ∧ Browsed s u := by
  have hclose := dirClose_browsed t r.parentDir
  rw [← @Traced.dirClose_plain pool] at hclose
  exact (hr.dirClose.and_plain hclose).mono fun u w₁ ⟨hu, hbu⟩ => ⟨hu, hb.trans hbu⟩

theorem Roams.searchFile_browsed (hs : OpenOk s) (ha : Aside s t) (hb : Browsed s t)
    (path : List UInt8) : Records (Traced.searchFile pool t path) fun v w =>
      Roams pool s v.2.2 (v.2.1.parentDir.handles + 0) w ∧ Browsed s v.2.2 ∧
        FileSystem.searchFile t path = .ok v := by
  have hplain : Returns (plain (Traced.searchFile pool t path)) fun v =>
      Browsed t v.2.2 ∧ FileSystem.searchFile t path = .ok v := by
    rw [Traced.searchFile_plain]
    exact (FileSystem.searchFile_browsed t path).and (Returns.intro fun _ hv => hv)
  have hstart : Roams pool s t 0 [] := (Roams.refl hs).aside ha
  exact ((hstart.searchFile path).and_plain hplain).mono fun v w ⟨hv, hbv, hsearch⟩ =>
    ⟨hv, hb.trans hbv, hsearch⟩

/-- A failed `sys_mkdir` leaves nothing: behind its allocations it does not fail. -/
theorem sysMkdir_traced (hs : OpenOk s) (path : List UInt8) :
    Records (Traced.sysMkdir pool s path) fun r w => r.1 = false → Traceless s r.2 w := by
  have haside := Aside.popHeap s
  have hpop : Browsed s s.popHeap := ⟨rfl, rfl, rfl, rfl, rfl, rfl, rfl, rfl⟩
  unfold Traced.sysMkdir
  refine Records.bind (sysMalloc_traced ..) fun ⟨o, t⟩ w₀ ⟨ht, ho, hw₀⟩ => ?_
  obtain rfl : t = s.popHeap := ht
  cases o with
  | none =>
    have hnone : s.heap 0 = false := ho.symm
    have hw₀ : balance w₀ = 0 := by simpa [hnone] using hw₀
    exact fun _ => ((Roams.refl hs).aside haside : Roams pool s _ 0 []).traceless hpop (by simp [hw₀])
  | some b =>
    have hfirst : s.heap 0 = true := ho.symm
    rw [if_pos hfirst] at hw₀
    refine Records.bind (Roams.searchFile_browsed hs haside hpop path)
      fun ⟨n, r, u⟩ w₁ ⟨hu, hbu, _⟩ => ?_
    -- the exits that close the directory and free the buffer
    have hclose : Records (Traced.dirClose pool u r.parentDir >>= fun v =>
        record (.give pool .buffer) >>= fun _ => pure (false, v))
        fun v w => v.1 = false → Traceless s v.2 (w₀ ++ (w₁ ++ w)) := by
      refine Records.bind (hu.closeFound hbu) fun v w₂ ⟨hv, hbv⟩ => records_record fun _ => ?_
      refine hv.traceless hbv ?_
      simp only [balance_append, balance_give, balance_nil, hw₀]
      abel
    refine records_ite (fun _ => hclose) fun _ => ?_
    refine records_skip fun _ => records_skip fun _ => records_ite (fun _ => hclose) fun _ => ?_
    refine records_lift (inodeBitmapAlloc_some u) fun v ⟨i, _, hv⟩ => ?_
    subst hv
    refine records_lift (makeDir_done ..) fun v hmade => ?_
    refine Records.bind (records_true _) fun z w₂ _ => records_record fun h => ?_
    exact absurd (hmade.symm.trans h) (by simp)

/-- Where `sys_open` comes to `file_create` and there is memory, the process has a descriptor if
there is a slot, and if there is none the inode is not a process's to free with its arena. -/
def CreationUndone (pool : HeapPool) (lone : Bool) (s : State) (path : List UInt8) : Prop :=
  ∀ r u depth, searchFile s path = .ok (minusOne, r, u) → r.fileType ≠ ftDirectory →
    pathDepthCnt path = .ok depth → pathDepthCnt r.searchedPath = .ok depth →
    u.heap 0 = true → u.heap 1 = true →
    (s.slotFree → s.fdFree) ∧ (pool = .user → lone = true → s.slotFree)

/-- `file_create` after the search, and the directory is closed. -/
theorem Roams.fileCreate {r : PathSearchRecord} (lone : Bool)
    (hr : Roams pool s u (r.parentDir.handles + 0) w) (hb : Browsed s u) (name : List UInt8)
    (flags : UInt8) :
    Records (do
      let (fd, t) ← Traced.fileCreate pool lone u r.parentDir name flags
      let t ← Traced.dirClose pool t r.parentDir
      pure (fdResult fd, t)) fun v w' => v.1 = -1 → (Traceless s v.2 (w ++ w') ↔
        (u.heap 0 = true → u.heap 1 = true →
          (s.slotFree → s.fdFree) ∧ (pool = .user → lone = true → s.slotFree))) := by
  refine Records.bind (fileCreate_traced lone u r.parentDir name flags) fun ⟨fd, t⟩ w₁ hexit => ?_
  rw [hb.slotFree, hb.fdFree] at hexit
  rcases hexit with ⟨hfd, hundone⟩ | ⟨⟨hfirst, hsecond, hslot⟩, hnone, hbits⟩
  · obtain rfl : fd = none := hfd
    refine Records.bind ((hr.aside hundone.aside).closeFound (hb.trans hundone.browsed))
      fun v w₂ ⟨hv, hbv⟩ _ => ?_
    have hstop := hundone.stopped
    have hmem := hundone.memory
    rw [hb.slotFree] at hstop
    have htotal : FileSystem.balance (w ++ (w₁ ++ (w₂ ++ []))) =
        FileSystem.balance (w ++ w₂) + FileSystem.balance w₁ := by
      simp only [balance_append, balance_nil]
      abel
    split_ifs at hmem with hlost
    · obtain ⟨hfirst, hsecond, hpool, hlone⟩ := hlost
      obtain ⟨a, ha⟩ := hmem
      refine iff_of_false (fun h => ?_) fun h => ?_
      · have hzero : FileSystem.balance (w ++ w₂) = 0 := by
          rw [hv.memory, openBlocks_congr hv.openInodes]
          simp
        have hone := h.memory .kernel (.inode a)
        rw [htotal, hzero, ha] at hone
        simp [credit] at hone
      · exact hstop ⟨hfirst, hsecond, (h hfirst hsecond).2 hpool hlone⟩
    · refine iff_of_true (hv.traceless hbv (by rw [htotal, hmem, add_zero])) fun hfirst hsecond => ?_
      refine ⟨fun hslot => absurd ⟨hfirst, hsecond, hslot⟩ hstop, fun hpool hlone => ?_⟩
      exact absurd ⟨hfirst, hsecond, hpool, hlone⟩ hlost
  · have hclose : Returns (plain (Traced.dirClose pool t r.parentDir)) fun v => Browsed t v := by
      rw [Traced.dirClose_plain]
      exact FileSystem.dirClose_browsed t r.parentDir
    refine Records.bind ((records_true _).and_plain hclose) fun v w₂ ⟨_, hbv⟩ hfd => ?_
    have hno : ¬ s.fdFree := by
      refine hnone.mp ?_
      cases fd with
      | none => rfl
      | some n =>
        have hneg : (n : ℤ) = -1 := hfd
        omega
    refine iff_of_false (fun h => hbits ?_) fun h => hno ((h hfirst hsecond).1 hslot)
    exact hbv.inodeBitmap.symm.trans (h.inodeBitmap.trans hb.inodeBitmap.symm)

/-- A failed `sys_open` that was to create a file. -/
theorem sysOpen_traced (hs : OpenOk s) (lone : Bool) (path : List UInt8) {flags : UInt8}
    (hcreat : flags &&& oCreat ≠ 0) :
    Records (Traced.sysOpen pool lone s path flags) fun v w =>
      v.1 = -1 → (Traceless s v.2 w ↔ CreationUndone pool lone s path) := by
  have hside : Aside s s := ⟨rfl, fun _ _ => rfl, le_rfl, rfl, rfl, rfl, fun _ => rfl, rfl⟩
  unfold Traced.sysOpen
  refine records_skip fun _ => records_ite (fun _ => ?_) fun _ => ?_
  · exact fun h => absurd (show (0 : ℤ) = -1 from h) (by decide)
  refine records_skip fun _ => records_lift (Returns.intro fun _ h => h) fun depth hdepth => ?_
  refine Records.bind (Roams.searchFile_browsed hs hside (Browsed.refl s) path)
    fun ⟨n, r, u⟩ w ⟨hu, hbu, hsearch⟩ => ?_
  have hsame : ∀ {r' u'}, searchFile s path = .ok (minusOne, r', u') →
      n = minusOne ∧ r' = r ∧ u' = u := by
    intro r' u' h
    obtain ⟨rfl, rfl, rfl⟩ : minusOne = n ∧ r' = r ∧ u' = u := by simpa using h.symm.trans hsearch
    exact ⟨rfl, rfl, rfl⟩
  -- the exits that close the directory
  have hclose : CreationUndone pool lone s path → Records (Traced.dirClose pool u r.parentDir >>=
      fun v => pure ((-1 : ℤ), v)) fun v w' => v.1 = -1 →
        (Traceless s v.2 (w ++ w') ↔ CreationUndone pool lone s path) := by
    intro hcond
    refine Records.bind (hu.closeFound hbu) fun v w' ⟨hv, hbv⟩ _ => ?_
    exact iff_of_true (hv.traceless hbv (by simp)) hcond
  unfold Traced.openFound
  refine records_ite (fun hdir => ?_) fun hdir => ?_
  · refine hclose fun r' u' _ h hno => ?_
    obtain ⟨-, rfl, -⟩ := hsame h
    exact absurd hdir hno
  refine records_lift (Returns.intro fun _ h => h) fun depth' hdepth' => ?_
  refine records_ite (fun hfail => ?_) fun hgo => ?_
  · refine hclose fun r' u' depth'' h _ hd hd' => ?_
    obtain ⟨rfl, rfl, rfl⟩ := hsame h
    obtain rfl : depth = depth'' := Except.ok.inj (hdepth.symm.trans hd)
    obtain rfl : depth' = depth := Except.ok.inj (hdepth'.symm.trans hd')
    rcases hfail with hne | ⟨-, hread⟩ | ⟨hsome, -⟩
    · exact absurd rfl hne
    · exact absurd hread hcreat
    · exact absurd rfl hsome
  obtain ⟨hsameDepth, -, hfresh⟩ := by simpa only [not_or, not_and, not_not] using hgo
  have hnone : n = minusOne := by
    by_contra hne
    exact hcreat (hfresh hne)
  subst hnone hsameDepth
  refine records_ite (fun _ => ?_) fun h => absurd hcreat h
  refine (hu.fileCreate lone hbu (lastName path) flags).mono fun v w' hv hneg => (hv hneg).trans ?_
  refine ⟨fun h r' u' depth'' h' _ _ _ => ?_, fun h => h r u depth hsearch hdir hdepth hdepth'⟩
  obtain ⟨-, rfl, rfl⟩ := hsame h'
  exact h

/-- In every reachable state a `sys_mkdir` that returns -1 leaves no trace, and a `sys_open` with
`O_CREAT` that does leaves none if and only if the creation can be undone. -/
theorem failed_creation_leaves_no_trace (hy : sessions.Reachable y) (p : ℕ) (pool : HeapPool)
    (lone : Bool) (path : List UInt8) (flags : UInt8) (hcreat : flags &&& oCreat ≠ 0) :
    (∀ t w, (Traced.sysMkdir pool (y.run p).fs path).run = .ok ((false, t), w) →
      Traceless (y.run p).fs t w) ∧
    ∀ t w, (Traced.sysOpen pool lone (y.run p).fs path flags).run = .ok ((-1, t), w) →
      (Traceless (y.run p).fs t w ↔ CreationUndone pool lone (y.run p).fs path) := by
  have hs := reachable_openOk hy p
  constructor
  · exact fun t w hrun => (sysMkdir_traced hs path).of_ok hrun rfl
  · exact fun t w hrun => (sysOpen_traced hs lone path hcreat).of_ok hrun rfl

/-- Process 1 creates `/f`, which is there. -/
theorem failed_creation_leaves_no_trace_f : ∃ t w t' w',
    (Traced.sysMkdir .user (sampleSession.run 1).fs pathF).run = .ok ((false, t), w) ∧
    Traceless (sampleSession.run 1).fs t w ∧
    (Traced.sysOpen .user true (sampleSession.run 1).fs pathF 4).run = .ok ((-1, t'), w') ∧
    (Traceless (sampleSession.run 1).fs t' w' ↔
      CreationUndone .user true (sampleSession.run 1).fs pathF) := by
  obtain ⟨⟨⟨made, t⟩, w⟩, hmade, rfl⟩ : ∃ v,
      (Traced.sysMkdir .user (sampleSession.run 1).fs pathF).run = .ok v ∧ v.1.1 = false := by
    decide
  obtain ⟨⟨⟨fd, t'⟩, w'⟩, hfd, rfl⟩ : ∃ v,
      (Traced.sysOpen .user true (sampleSession.run 1).fs pathF 4).run = .ok v ∧ v.1.1 = -1 := by
    decide
  have hboth := failed_creation_leaves_no_trace ⟨_, _, sampleSession_start, .nil⟩ 1 .user true
    pathF 4 (by decide)
  exact ⟨t, w, t', w', hmade, hboth.1 t w hmade, hfd, hboth.2 t' w' hfd⟩

/-- A process without a free descriptor creates `/g`: -1, and the file is there. -/
theorem failed_creation_stays : ∃ y t w, sessions.Reachable y ∧
    (Traced.sysOpen .user false (y.run 1).fs [slash, 0x67] 4).run = .ok ((-1, t), w) ∧
    ¬ Traceless (y.run 1).fs t w := by
  obtain ⟨y, hy, ⟨⟨fd, t⟩, w⟩, hopen, rfl, hbit⟩ : ∃ y, sampleSession.exec [(1, .dup2 0 3),
      (1, .dup2 0 4), (1, .dup2 0 5), (1, .dup2 0 6), (1, .dup2 0 7)] = .ok y ∧
      ∃ v, (Traced.sysOpen .user false (y.run 1).fs [slash, 0x67] 4).run = .ok v ∧ v.1.1 = -1 ∧
        bitmapScanTest v.1.2.inodeBitmap 3 ≠ bitmapScanTest (y.run 1).fs.inodeBitmap 3 := by
    decide +kernel
  refine ⟨y, t, w, ⟨_, _, sampleSession_start, exec_run hy⟩, hopen, fun h => hbit ?_⟩
  rw [h.inodeBitmap]

end Calls

end X86System.FileSystem
