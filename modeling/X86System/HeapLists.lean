import X86System.HeapWords
import X86System.Library.NodeWords

/-!
# Free lists in memory

The list functions on words of data. Each of them takes the words from one sequence to
another and leaves every word alone that is in no node of the list.
-/
namespace X86System.Memory
open Exec NodeWords

/-- What is linked: the ends of the list and its elements. -/
def nodes (plist : ℕ) (xs : List ℕ) : List ℕ := headOf plist :: (xs ++ [tailOf plist])

/-- The nodes of a list are apart, and their words hold data. -/
structure Shaped (G : Layout) (dir plist : ℕ) (xs : List ℕ) : Prop where
  nodup : (nodes plist xs).Nodup
  spaced : Spaced (nodes plist xs)
  data : ∀ x ∈ nodes plist xs, DataWord G dir x ∧ DataWord G dir (x + 4)

/-- A word in no node. -/
def Off (l : List ℕ) (x : ℕ) : Prop := ∀ y ∈ l, x ≠ y ∧ x ≠ y + 4

section Shapes

variable {G : Layout} {dir plist x : ℕ} {xs ys zs l l' : List ℕ}

theorem mem_nodes : x ∈ nodes plist xs ↔ x = headOf plist ∨ x ∈ xs ∨ x = tailOf plist := by
  simp [nodes]

theorem nodes_sublist (h : ys.Sublist xs) : (nodes plist ys).Sublist (nodes plist xs) :=
  (h.append_right _).cons_cons _

theorem Shaped.mono (h : Shaped G dir plist xs) (hsub : ys.Sublist xs) : Shaped G dir plist ys where
  nodup := h.nodup.sublist (nodes_sublist hsub)
  spaced := h.spaced.mono (nodes_sublist hsub).subset
  data := fun x hx => h.data x ((nodes_sublist hsub).subset hx)

theorem Off.mono (h : Off l' x) (hsub : l ⊆ l') : Off l x := fun y hy => h y (hsub hy)

theorem Shaped.tail_notMem (h : Shaped G dir plist xs) : tailOf plist ∉ xs := by
  intro hmem
  exact (List.nodup_append.mp h.nodup.tail).2.2 _ hmem _ List.mem_cons_self rfl

theorem Shaped.nodup_elems (h : Shaped G dir plist xs) : xs.Nodup :=
  (List.nodup_append.mp h.nodup.tail).1

/-- The neighbours of a place between `ys` and `zs`. -/
theorem nodes_split (plist : ℕ) (ys zs : List ℕ) : ∃ l₁ a b l₂,
    a ∈ headOf plist :: ys ∧ b = zs.headD (tailOf plist) ∧
      nodes plist (ys ++ zs) = l₁ ++ a :: b :: l₂ ∧
      ∀ e, nodes plist (ys ++ e :: zs) = l₁ ++ a :: e :: b :: l₂ := by
  obtain ⟨l₁, a, hleft⟩ : ∃ l₁ a, headOf plist :: ys = l₁ ++ [a] := by
    rcases List.eq_nil_or_concat (headOf plist :: ys) with hnil | ⟨l₁, a, hcat⟩
    · exact absurd hnil (List.cons_ne_nil _ _)
    · exact ⟨l₁, a, hcat.trans (List.concat_eq_append ..)⟩
  obtain ⟨l₂, hright⟩ : ∃ l₂, zs ++ [tailOf plist] = zs.headD (tailOf plist) :: l₂ := by
    cases zs with
    | nil => exact ⟨[], rfl⟩
    | cons b zs => exact ⟨zs ++ [tailOf plist], rfl⟩
  refine ⟨l₁, a, _, l₂, by rw [hleft]; simp, rfl, ?_, fun e => ?_⟩
  · have hcat : nodes plist (ys ++ zs) = (headOf plist :: ys) ++ (zs ++ [tailOf plist]) := by
      simp [nodes]
    rw [hcat, hleft, hright, List.append_assoc, List.singleton_append]
  · have hcat : nodes plist (ys ++ e :: zs) = (headOf plist :: ys) ++ e :: (zs ++ [tailOf plist]) := by
      simp [nodes]
    rw [hcat, hleft, hright, List.append_assoc, List.singleton_append]

/-- What follows the head. -/
theorem threaded_head {mem : ℕ → ℕ} (h : Threaded mem (nodes plist xs)) :
    mem (nextOf (headOf plist)) = xs.headD (tailOf plist) := by
  cases xs with
  | nil => exact (@Threaded.neighbours mem [] _ _ _ h).1
  | cons x xs => exact (@Threaded.neighbours mem [] _ _ _ h).1

end Shapes

section Lists

variable {m₀ m : Machine} {G₀ G : Layout} {live : List Allocation} {mem : ℕ → ℕ}
  {plist e : ℕ} {xs ys zs : List ℕ}

/-- Every word of data has an address of 32 bits. -/
theorem Coherent.data_lt (h : Coherent m G) {dir a : ℕ} (ha : DataWord G dir a) : a < 2 ^ 32 := by
  obtain ⟨-, f, ⟨-, hlt, -⟩ | ⟨pf, hf, -⟩⟩ := ha
  · omega
  · cases pf with
    | kernel =>
      obtain ⟨⟨-, hlt⟩, -⟩ := h.encoded.kernelPage _ f hf
      omega
    | user =>
      obtain ⟨t, ht, -⟩ := h.encoded.userPage _ _ f hf
      obtain ⟨-, hlt, -⟩ := h.encoded.tableEntry _ _ _ ht
      omega

theorem Shaped.length_lt (h : Shaped G m₀.cr3 plist xs) (hc : Coherent m G) :
    xs.length < 2 ^ 32 := by
  have hsub : (xs ++ [tailOf plist]).toFinset ⊆ Finset.range (2 ^ 32) := by
    intro x hx
    rw [Finset.mem_range]
    refine hc.data_lt (h.data x ?_).1
    exact List.mem_cons_of_mem _ (List.mem_toFinset.mp hx)
  have hnodup : (xs ++ [tailOf plist]).Nodup := h.nodup.tail
  have hcard := Finset.card_le_card hsub
  rw [List.toFinset_card_of_nodup hnodup, Finset.card_range, List.length_append,
    List.length_singleton] at hcard
  omega

/-- `list_insert_before` between `a` and `b`. -/
theorem Sees.listInsertBefore (h : Sees m₀ G₀ G live mem m) {a b : ℕ} (hprev : mem b = a)
    (hne : b ≠ a + 4) (ha : DataWord G m₀.cr3 (a + 4)) (hb : DataWord G m₀.cr3 b)
    (he : DataWord G m₀.cr3 e) (he' : DataWord G m₀.cr3 (e + 4)) :
    ∃ m', listInsertBefore m b e = .ok m' ∧ Sees m₀ G₀ G live (link mem a e b) m' := by
  obtain ⟨m₁, hs₁, h₁⟩ := h.store ha e
  obtain ⟨m₂, hs₂, h₂⟩ := h₁.store he a
  obtain ⟨m₃, hs₃, h₃⟩ := h₂.store he' b
  obtain ⟨m₄, hs₄, h₄⟩ := h₃.store hb e
  refine ⟨m₄, ?_, h₄⟩
  unfold Memory.listInsertBefore prevOf nextOf
  rw [h.load hb, ok_bind, hprev, hs₁, ok_bind, h₁.load hb, Function.update_of_ne hne, ok_bind, hprev,
    hs₂, ok_bind, hs₃, ok_bind, hs₄]

/-- `list_remove` from between `a` and `b`. -/
theorem Sees.listRemove (h : Sees m₀ G₀ G live mem m) {a b : ℕ} (hprev : mem e = a)
    (hnext : mem (e + 4) = b) (hne : e ≠ a + 4) (hae : e ≠ a) (ha : DataWord G m₀.cr3 (a + 4))
    (hb : DataWord G m₀.cr3 b) (he : DataWord G m₀.cr3 e) (he' : DataWord G m₀.cr3 (e + 4)) :
    ∃ m', listRemove m e = .ok m' ∧ Sees m₀ G₀ G live (unlink mem a b) m' := by
  obtain ⟨m₁, hs₁, h₁⟩ := h.store ha b
  obtain ⟨m₂, hs₂, h₂⟩ := h₁.store hb a
  refine ⟨m₂, ?_, h₂⟩
  unfold Memory.listRemove prevOf nextOf
  rw [h.load he, ok_bind, h.load he', ok_bind, hprev, hnext, hs₁, ok_bind, h₁.load he',
    Function.update_of_ne (by omega), ok_bind, h₁.load he, Function.update_of_ne hne, ok_bind,
    hnext, hprev, hs₂]

/-- What a change of a list leaves behind: another sequence, and every other word as it was. -/
def Relisted (m₀ : Machine) (G₀ G : Layout) (live : List Allocation) (mem : ℕ → ℕ) (plist : ℕ)
    (xs ys : List ℕ) (m' : Machine) : Prop :=
  ∃ mem', Sees m₀ G₀ G live mem' m' ∧ Threaded mem' (nodes plist ys) ∧
    ∀ x, Off (nodes plist xs) x → mem' x = mem x

/-- `list_append` of an element that is on no list. -/
theorem Sees.listAppend (h : Sees m₀ G₀ G live mem m) (hl : Threaded mem (nodes plist xs))
    (hs : Shaped G m₀.cr3 plist (xs ++ [e])) :
    ∃ m', listAppend m plist e = .ok m' ∧
      Relisted m₀ G₀ G live mem plist (xs ++ [e]) (xs ++ [e]) m' := by
  obtain ⟨l₁, a, b, l₂, -, hb, hold, hnew⟩ := nodes_split plist xs []
  rw [List.append_nil] at hold
  rw [List.headD_nil] at hb
  subst hb
  have hnodup := hs.nodup
  have hspaced := hs.spaced
  have hdata := hs.data
  rw [hold] at hl
  rw [hnew e] at hnodup hspaced hdata
  have ha : a ∈ l₁ ++ a :: e :: tailOf plist :: l₂ := by simp
  have he : e ∈ l₁ ++ a :: e :: tailOf plist :: l₂ := by simp
  have hb : tailOf plist ∈ l₁ ++ a :: e :: tailOf plist :: l₂ := by simp
  obtain ⟨m', hins, h'⟩ := h.listInsertBefore hl.neighbours.2 (hspaced a ha _ hb) (hdata a ha).2
    (hdata _ hb).1 (hdata e he).1 (hdata e he).2
  refine ⟨m', hins, _, h', ?_, fun x hx => ?_⟩
  · rw [hnew e]
    exact hl.link hnodup hspaced
  · rw [hnew e] at hx
    exact link_of_ne (hx a ha).2 (hx e he).1 (hx e he).2 (hx _ hb).1

/-- `list_remove` of an element of a list. -/
theorem Sees.listRemove_elem (h : Sees m₀ G₀ G live mem m)
    (hl : Threaded mem (nodes plist (ys ++ e :: zs)))
    (hs : Shaped G m₀.cr3 plist (ys ++ e :: zs)) :
    ∃ m', Memory.listRemove m e = .ok m' ∧
      Relisted m₀ G₀ G live mem plist (ys ++ e :: zs) (ys ++ zs) m' := by
  obtain ⟨l₁, a, b, l₂, -, -, hold, hnew⟩ := nodes_split plist ys zs
  have hnodup := hs.nodup
  have hspaced := hs.spaced
  have hdata := hs.data
  rw [hnew e] at hnodup hspaced hdata hl
  have ha : a ∈ l₁ ++ a :: e :: b :: l₂ := by simp
  have he : e ∈ l₁ ++ a :: e :: b :: l₂ := by simp
  have hb : b ∈ l₁ ++ a :: e :: b :: l₂ := by simp
  have hae : e ≠ a := by
    rintro rfl
    have hrest := (List.nodup_append.mp hnodup).2.1
    simp at hrest
  have hnext : mem (e + 4) = b := hl.append_cons.neighbours.1
  obtain ⟨m', hrem, h'⟩ := h.listRemove hl.neighbours.2 hnext (hspaced a ha e he) hae (hdata a ha).2
    (hdata b hb).1 (hdata e he).1 (hdata e he).2
  refine ⟨m', hrem, _, h', ?_, fun x hx => ?_⟩
  · rw [hold]
    exact hl.unlink hnodup hspaced
  · rw [hnew e] at hx
    exact unlink_of_ne (hx a ha).2 (hx b hb).1

theorem Sees.load_head (h : Sees m₀ G₀ G live mem m) (hl : Threaded mem (nodes plist xs))
    (hs : Shaped G m₀.cr3 plist xs) :
    m.load (nextOf (headOf plist)) = .ok (xs.headD (tailOf plist)) := by
  rw [← threaded_head hl]
  exact h.load (hs.data _ List.mem_cons_self).2

theorem Sees.listPop (h : Sees m₀ G₀ G live mem m) (hl : Threaded mem (nodes plist (e :: zs)))
    (hs : Shaped G m₀.cr3 plist (e :: zs)) :
    ∃ m', Memory.listPop m plist = .ok (e, m') ∧ Relisted m₀ G₀ G live mem plist (e :: zs) zs m' := by
  obtain ⟨m', hrem, h'⟩ := @Sees.listRemove_elem _ _ _ _ _ _ _ e [] zs h hl hs
  refine ⟨m', ?_, h'⟩
  unfold Memory.listPop
  rw [h.load_head hl hs, ok_bind, List.headD_cons, hrem]
  rfl

theorem Sees.listEmpty (h : Sees m₀ G₀ G live mem m) (hl : Threaded mem (nodes plist xs))
    (hs : Shaped G m₀.cr3 plist xs) : Memory.listEmpty m plist = .ok xs.isEmpty := by
  unfold Memory.listEmpty
  rw [h.load_head hl hs, ok_bind, pure_eq_ok]
  congr 1
  cases xs with
  | nil => simp
  | cons x xs =>
    have hne : x ≠ tailOf plist := by
      rintro rfl
      exact hs.tail_notMem List.mem_cons_self
    simp [hne]

/-- The loop of `elem_find` from the elements `zs` on. -/
theorem Sees.elemFindLoop (h : Sees m₀ G₀ G live mem m)
    (hl : Threaded mem (nodes plist (ys ++ zs))) (hs : Shaped G m₀.cr3 plist (ys ++ zs)) {fuel : ℕ}
    (hfuel : zs.length < fuel) : Memory.elemFindLoop m plist e fuel (zs.headD (tailOf plist)) =
      .ok (decide (e ∈ zs)) := by
  induction zs generalizing ys fuel with
  | nil =>
    obtain ⟨fuel, rfl⟩ : ∃ n, fuel = n + 1 := ⟨fuel - 1, by simp at hfuel; omega⟩
    simp [Memory.elemFindLoop]
  | cons z zs ih =>
    obtain ⟨fuel, rfl⟩ : ∃ n, fuel = n + 1 := ⟨fuel - 1, by simp at hfuel; omega⟩
    have hz : z ≠ tailOf plist := by
      rintro rfl
      exact hs.tail_notMem (by simp)
    have hsplit : ys ++ z :: zs = (ys ++ [z]) ++ zs := by simp
    have hnext : mem (nextOf z) = zs.headD (tailOf plist) := by
      obtain ⟨l₁, a, b, l₂, -, hb, -, hnew⟩ := nodes_split plist ys zs
      rw [hnew z] at hl
      rw [← hb]
      exact hl.append_cons.neighbours.1
    have hload := h.load (hs.data z (by simp [nodes])).2
    rw [hsplit] at hl hs
    have hfuel' : zs.length < fuel := by simpa using hfuel
    have hrest := ih hl hs hfuel'
    unfold Memory.elemFindLoop
    rw [List.headD_cons, if_neg hz]
    by_cases heq : z = e
    · rw [if_pos heq]
      simp [heq]
    · rw [if_neg heq]
      change m.load (nextOf z) = _ at hload
      rw [hload, ok_bind]
      change Memory.elemFindLoop m plist e fuel (mem (nextOf z)) = _
      rw [hnext, hrest]
      simp [Ne.symm heq]

theorem Sees.elemFind (h : Sees m₀ G₀ G live mem m) (hl : Threaded mem (nodes plist xs))
    (hs : Shaped G m₀.cr3 plist xs) : Memory.elemFind m plist e = .ok (decide (e ∈ xs)) := by
  unfold Memory.elemFind
  rw [h.load_head hl hs, ok_bind]
  exact @Sees.elemFindLoop _ _ _ _ _ _ _ e [] xs h hl hs _ (hs.length_lt h.holding.addressed.coherent)

end Lists

section Loops

variable {m₀ m : Machine} {G₀ G : Layout} {live : List Allocation} {mem : ℕ → ℕ}
  {a desc s idx left : ℕ} {xs : List ℕ}

/-- What the loops over the blocks of an arena read of its header and of its descriptor. -/
structure Describes (G : Layout) (dir : ℕ) (mem : ℕ → ℕ) (a desc s : ℕ) (l : List ℕ) : Prop where
  header : mem (descOf a) = desc
  size : mem (blockSizeOf desc) = s
  data : DataWord G dir (descOf a) ∧ DataWord G dir (blockSizeOf desc)
  off : Off l (descOf a) ∧ Off l (blockSizeOf desc)

theorem Describes.of_off {dir : ℕ} {mem' : ℕ → ℕ} {l l' : List ℕ}
    (h : Describes G dir mem a desc s l) (hsub : l' ⊆ l) (heq : ∀ x, Off l x → mem' x = mem x) :
    Describes G dir mem' a desc s l' where
  header := by rw [heq _ h.off.1, h.header]
  size := by rw [heq _ h.off.2, h.size]
  data := h.data
  off := ⟨h.off.1.mono hsub, h.off.2.mono hsub⟩

theorem Sees.arena2block (h : Sees m₀ G₀ G live mem m) {l : List ℕ}
    (hd : Describes G m₀.cr3 mem a desc s l) :
    Memory.arena2block m a idx = .ok (a + arenaSize + idx * s) := by
  unfold Memory.arena2block
  rw [h.load hd.data.1, ok_bind, hd.header, h.load hd.data.2, ok_bind, hd.size]
  rfl

/-- The blocks of a new arena go to the end of the list. -/
theorem Sees.splitArena (h : Sees m₀ G₀ G live mem m)
    (hl : Threaded mem (nodes (freeListOf desc) xs))
    (hs : Shaped G m₀.cr3 (freeListOf desc)
      (xs ++ (List.range' idx left).map fun i => a + arenaSize + i * s))
    (hd : Describes G m₀.cr3 mem a desc s (nodes (freeListOf desc)
      (xs ++ (List.range' idx left).map fun i => a + arenaSize + i * s))) :
    ∃ m', Memory.splitArena a left idx m = .ok m' ∧
      Relisted m₀ G₀ G live mem (freeListOf desc)
        (xs ++ (List.range' idx left).map fun i => a + arenaSize + i * s)
        (xs ++ (List.range' idx left).map fun i => a + arenaSize + i * s) m' := by
  induction left generalizing xs idx m mem with
  | zero =>
    refine ⟨m, rfl, mem, h, ?_, fun _ _ => rfl⟩
    simpa using hl
  | succ left ih =>
    have hcons : (List.range' idx (left + 1)).map (fun i => a + arenaSize + i * s) =
        (a + arenaSize + idx * s) :: (List.range' (idx + 1) left).map
          fun i => a + arenaSize + i * s := by
      rw [List.range'_succ, List.map_cons]
    generalize hb : a + arenaSize + idx * s = b at hcons
    have hcat : xs ++ (List.range' idx (left + 1)).map (fun i => a + arenaSize + i * s) =
        (xs ++ [b]) ++ (List.range' (idx + 1) left).map fun i => a + arenaSize + i * s := by
      rw [hcons]
      simp
    rw [hcat] at hs hd ⊢
    have hsub := List.sublist_append_left (xs ++ [b])
      ((List.range' (idx + 1) left).map fun i => a + arenaSize + i * s)
    have hs₁ := hs.mono hsub
    have hs₀ := hs₁.mono (List.sublist_append_left xs [b])
    have hnot : b ∉ xs := by
      have hnodup := hs₁.nodup_elems
      rw [List.nodup_append] at hnodup
      exact fun hmem => hnodup.2.2 b hmem b List.mem_cons_self rfl
    obtain ⟨m₁, happ, mem₁, h₁, hl₁, hoff₁⟩ := h.listAppend hl hs₁
    have hoff {x : ℕ} (hx : Off (nodes (freeListOf desc) ((xs ++ [b]) ++
        (List.range' (idx + 1) left).map fun i => a + arenaSize + i * s)) x) : mem₁ x = mem x :=
      hoff₁ x (hx.mono (nodes_sublist hsub).subset)
    obtain ⟨m', hsplit, mem', h', hl', hoff'⟩ :=
      ih h₁ hl₁ hs (hd.of_off (fun _ hx => hx) fun x hx => hoff hx)
    refine ⟨m', ?_, mem', h', hl', fun x hx => by rw [hoff' x hx, hoff hx]⟩
    unfold Memory.splitArena
    rw [h.arena2block hd, ok_bind, h.load hd.data.1, ok_bind, hd.header, hb, h.elemFind hl hs₀, ok_bind,
      ensure_of (by simpa using hnot), ok_bind, happ, ok_bind, hsplit]

/-- The blocks of an arena are taken out of the list. -/
theorem Sees.joinArena (h : Sees m₀ G₀ G live mem m)
    (hl : Threaded mem (nodes (freeListOf desc) xs))
    (hs : Shaped G m₀.cr3 (freeListOf desc) xs) (hpos : 0 < s)
    (hmem : ∀ i, idx ≤ i → i < idx + left → a + arenaSize + i * s ∈ xs)
    (hd : Describes G m₀.cr3 mem a desc s (nodes (freeListOf desc) xs)) :
    ∃ m', Memory.joinArena a left idx m = .ok m' ∧ Relisted m₀ G₀ G live mem (freeListOf desc) xs
      (xs.diff ((List.range' idx left).map fun i => a + arenaSize + i * s)) m' := by
  induction left generalizing xs idx m mem with
  | zero => exact ⟨m, rfl, mem, h, hl, fun _ _ => rfl⟩
  | succ left ih =>
    rw [List.range'_succ, List.map_cons, List.diff_cons]
    have hb := hmem idx le_rfl (by omega)
    obtain ⟨ys, zs, -, hxs, herase⟩ := List.exists_erase_eq hb
    have hl₀ := hl
    have hs₀ := hs
    rw [hxs] at hl₀ hs₀
    obtain ⟨m₁, hrem, mem₁, h₁, hl₁, hoff₁⟩ := h.listRemove_elem hl₀ hs₀
    rw [← herase] at hl₁
    rw [← hxs] at hoff₁
    have hsub : (xs.erase (a + arenaSize + idx * s)).Sublist xs := List.erase_sublist
    have hsubset := (@nodes_sublist (freeListOf desc) _ _ hsub).subset
    have hrest (i : ℕ) (hlo : idx + 1 ≤ i) (hhi : i < idx + 1 + left) :
        a + arenaSize + i * s ∈ xs.erase (a + arenaSize + idx * s) := by
      rw [hs.nodup_elems.mem_erase_iff]
      refine ⟨fun heq => ?_, hmem i (by omega) (by omega)⟩
      have hmul : i * s = idx * s := by omega
      have := Nat.eq_of_mul_eq_mul_right hpos hmul
      omega
    obtain ⟨m', hjoin, mem', h', hl', hoff'⟩ :=
      ih h₁ hl₁ (hs.mono hsub) hrest (hd.of_off hsubset hoff₁)
    refine ⟨m', ?_, mem', h', hl', fun x hx => by rw [hoff' x (hx.mono hsubset), hoff₁ x hx]⟩
    unfold Memory.joinArena
    rw [h.arena2block hd, ok_bind, h.load hd.data.1, ok_bind, hd.header, h.elemFind hl hs, ok_bind,
      ensure_of (by simpa using hb), ok_bind, hrem, ok_bind, hjoin]

end Loops

end X86System.Memory
