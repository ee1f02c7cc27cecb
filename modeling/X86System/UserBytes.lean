import X86System.SpaceCalls

/-!
# Bytes of user memory

Programs are copied byte by byte, while the frames are words. A byte of a user page is
read back as it was written, and writing it changes no other byte of the address space:
two pages never share a frame, and no frame of a user page holds entries.
-/
namespace X86System.Memory
open Exec Paging

/-- Byte `k` of a word. -/
def byteOf (w k : ℕ) : UInt8 := UInt8.ofNat (w / 256 ^ k)

/-- The word with byte `k` replaced. -/
def withByte (w k : ℕ) (b : UInt8) : ℕ := w - w / 256 ^ k % 256 * 256 ^ k + b.toNat * 256 ^ k

/-- Read the byte at a virtual address. -/
def Machine.loadByte (m : Machine) (vaddr : ℕ) : Except Fault UInt8 := do
  let w ← m.load vaddr
  .ok (byteOf w (vaddr % 4))

/-- Write the byte at a virtual address. -/
def Machine.storeByte (m : Machine) (vaddr : ℕ) (b : UInt8) : Except Fault Machine := do
  let w ← m.load vaddr
  m.store vaddr (withByte w (vaddr % 4) b)

/-- Write bytes one after the other. -/
def Machine.storeBytes (m : Machine) (vaddr : ℕ) : List UInt8 → Except Fault Machine
  | [] => .ok m
  | b :: l => do
    let m ← m.storeByte vaddr b
    m.storeBytes (vaddr + 1) l

section Words

variable {w k j : ℕ} {b : UInt8}

theorem byteOf_congr {x y : ℕ} (h : x / 256 ^ k % 256 = y / 256 ^ j % 256) :
    byteOf x k = byteOf y j := by
  unfold byteOf
  rw [← UInt8.toNat_inj, UInt8.toNat_ofNat', UInt8.toNat_ofNat', h]

theorem byteOf_withByte_self (hk : k < 4) (w : ℕ) (b : UInt8) : byteOf (withByte w k b) k = b := by
  have hb := b.toNat_lt
  have hbyte : withByte w k b / 256 ^ k % 256 = b.toNat := by
    unfold withByte
    interval_cases k <;> omega
  unfold byteOf
  rw [← UInt8.toNat_inj, UInt8.toNat_ofNat', hbyte]

theorem byteOf_withByte_of_ne (hk : k < 4) (hj : j < 4) (hjk : j ≠ k) (w : ℕ) (b : UInt8) :
    byteOf (withByte w k b) j = byteOf w j := by
  have hb := b.toNat_lt
  refine byteOf_congr ?_
  unfold withByte
  interval_cases k <;> interval_cases j <;> omega

end Words

section Memory

variable {m m' : Machine} {G : Layout} {u v d : ℕ} {b : UInt8} {l : List UInt8}

/-- An address of the user half reaches its word in the frame of its page. -/
theorem Coherent.walk_byte (hc : Coherent m G) (hd : d ∈ G.spaces) (hv : v < 0xc0000000) :
    walk m.ram d v = (G.owns (.user d (v / 4096))).map (·, wordIndex v) := by
  rw [walk_eq_map, hc.walk_user hd (by omega), Option.map_map]
  rfl

/-- Reading a byte of the user half. -/
theorem Coherent.loadByte_eq (hc : Coherent m G) (hspace : m.cr3 ∈ G.spaces)
    (hv : v < 0xc0000000) : m.loadByte v = (G.owns (.user m.cr3 (v / 4096))).elim (.error .page)
      fun f => .ok (byteOf (m.ram f (wordIndex v)) (v % 4)) := by
  unfold Machine.loadByte Machine.load
  rw [hc.walk_byte hspace hv]
  cases G.owns (.user m.cr3 (v / 4096)) with
  | none => rfl
  | some f => rfl

/-- The word and the byte in it tell the addresses of a page apart. -/
theorem eq_of_word (hpage : v / 4096 = u / 4096) (hword : wordIndex v = wordIndex u)
    (hbyte : v % 4 = u % 4) : v = u := by
  unfold wordIndex at hword
  omega

/-- Writing a byte of the user half changes that byte only, and no entry. -/
theorem Coherent.storeByte (hc : Coherent m G) (hspace : m.cr3 ∈ G.spaces)
    (hu : u < 0xc0000000) (h : m.storeByte u b = .ok m') :
    ∃ ram, m' = m.setRam ram ∧ (∀ g, Structural G g → ∀ i, ram g i = m.ram g i) ∧
      ∀ v < 0xc0000000, m'.loadByte v = if v = u then .ok b else m.loadByte v := by
  have hwalk := hc.walk_byte hspace hu
  unfold Machine.storeByte Machine.load Machine.store at h
  rw [hwalk] at h
  cases ho : G.owns (.user m.cr3 (u / 4096)) with
  | none =>
    rw [ho] at h
    cases h
  | some f =>
    rw [ho] at h
    obtain rfl := Except.ok.inj h
    set w := withByte (m.ram f (wordIndex u)) (u % 4) b
    have hframe : ∀ g, Structural G g → ∀ i, poke m.ram f (wordIndex u) w g i = m.ram g i := by
      intro g hg
      apply poke_of_frame_ne
      rintro rfl
      exact hc.not_structural ho (fun hmem => hc.user_not_dir ho hmem) (by simp) hg
    refine ⟨poke m.ram f (wordIndex u) w, rfl, hframe, fun v hv => ?_⟩
    have hc' := hc.setRam hframe
    have hnew := hc'.loadByte_eq hspace hv
    change (m.setRam _).loadByte v = _
    rw [hnew, hc.loadByte_eq hspace hv]
    dsimp only [Machine.setRam]
    by_cases hvu : v = u
    · subst hvu
      rw [if_pos rfl, ho, Option.elim_some, poke_self, byteOf_withByte_self (by omega)]
    rw [if_neg hvu]
    cases hv' : G.owns (.user m.cr3 (v / 4096)) with
    | none => rfl
    | some g =>
      rw [Option.elim_some, Option.elim_some]
      by_cases hword : g = f ∧ wordIndex v = wordIndex u
      · obtain ⟨rfl, hidx⟩ := hword
        have hpage : v / 4096 = u / 4096 := by
          have howner := G.ledger.inj hv' ho
          injection howner
        rw [hidx, poke_self, byteOf_withByte_of_ne (by omega) (by omega)]
        exact fun hbyte => hvu (eq_of_word hpage hidx hbyte)
      · unfold poke
        rw [if_neg hword]

/-- Writing bytes of the user half changes those bytes only, and no entry. -/
theorem Coherent.storeBytes : ∀ {m : Machine} {u : ℕ}, Coherent m G → m.cr3 ∈ G.spaces →
    u + l.length ≤ 0xc0000000 → m.storeBytes u l = .ok m' →
    ∃ ram, m' = m.setRam ram ∧ (∀ g, Structural G g → ∀ i, ram g i = m.ram g i) ∧
      (∀ i b, l[i]? = some b → m'.loadByte (u + i) = .ok b) ∧
      ∀ v < 0xc0000000, v < u ∨ u + l.length ≤ v → m'.loadByte v = m.loadByte v := by
  induction l with
  | nil =>
    intro m u hc hspace hlen h
    obtain rfl := Except.ok.inj h
    exact ⟨m.ram, rfl, fun g _ i => rfl, fun i b hb => by simp at hb, fun v _ _ => rfl⟩
  | cons b l ih =>
    intro m u hc hspace hlen h
    rw [List.length_cons] at hlen ⊢
    obtain ⟨m₁, hstore, h⟩ := of_bind_eq_ok h
    obtain ⟨ram₁, rfl, hframe₁, hbytes₁⟩ := hc.storeByte hspace (by omega) hstore
    obtain ⟨ram, rfl, hframe, hnew, hold⟩ := ih (hc.setRam hframe₁) hspace (by omega) h
    refine ⟨ram, rfl, fun g hg i => (hframe g hg i).trans (hframe₁ g hg i), fun i b' hb' => ?_,
      fun v hv hout => ?_⟩
    · cases i with
      | zero =>
        obtain rfl : b = b' := by simpa using hb'
        rw [Nat.add_zero, hold u (by omega) (by omega), hbytes₁ u (by omega), if_pos rfl]
      | succ i =>
        have hshift : u + (i + 1) = u + 1 + i := by omega
        rw [hshift]
        exact hnew i b' (by simpa using hb')
    · rw [hold v hv (by omega), hbytes₁ v hv, if_neg (by omega)]

/-- A byte of a page that is there can be written, as one of the writes of the running code. -/
theorem Sound.store_byte {s : State} (hs : Sound s G)
    (hproc : (s.machine.tasks s.machine.running).pgdir ≠ none) (hu : u < 0xc0000000)
    (hwalk : walk s.machine.ram s.machine.cr3 (u / 4096 * 4096) ≠ none) (b : UInt8) :
    ∃ w m', s.machine.storeByte u b = .ok m' ∧
      Step s (.store u w) { s with machine := m' } := by
  have hspace : s.machine.cr3 ∈ G.spaces := (hs.cr3_cases.resolve_left fun h => hproc h.1).2
  rw [hs.coherent.walk_user hspace (by omega)] at hwalk
  obtain ⟨f, ho⟩ := Option.ne_none_iff_exists'.mp (mt Option.map_eq_none_iff.mpr hwalk)
  have hbyte : walk s.machine.ram s.machine.cr3 u = some (f, wordIndex u) := by
    rw [hs.coherent.walk_byte hspace hu, ho]
    rfl
  set w := withByte (s.machine.ram f (wordIndex u)) (u % 4) b
  have hstore : s.machine.store u w =
      .ok { s.machine with ram := poke s.machine.ram f (wordIndex u) w } := by
    rw [Machine.store, hbyte]
  refine ⟨w, _, ?_, Step.store (by omega) hbyte (fun p hp v hv heq => ?_) hstore⟩
  · unfold Machine.storeByte Machine.load
    rw [hbyte, ok_bind]
    exact hstore
  · obtain ⟨d, hd, hdir⟩ := hs.dir p hp
    rw [hs.walk_pgdir hv hdir] at heq
    obtain rfl : d = f := (Prod.mk.inj (Option.some.inj heq)).1
    exact hs.coherent.user_not_dir ho hd

end Memory

end X86System.Memory
