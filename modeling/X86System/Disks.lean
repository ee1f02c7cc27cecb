import X86System.Partitions

/-!
# The partitions of several disks

`ide_init` scans the second disk of each channel. What it should register is said by a
walk of its own: the primary partitions of the boot record, and the logical partitions of
the tables that hang off its extended entry, whose links count from the start of the
extended partition of the same disk. The driver's base is set by the first extended entry
of all and stays.
-/
namespace X86System.Ide
open Bytes Exec
open FileSystem (maxLba)

section Init

def State.setName (s : State) (hd : ℕ) (name : String) : State :=
  { s with devices := Function.update s.devices hd { s.devices hd with name := name } }

/-- One round of the loop over the devices of a channel. -/
def initDevice (room : ℕ) (disk : Image) (channelNo devNo : ℕ) (s : State) :
    Except Fault State := do
  let hd := channelNo * 2 + devNo
  let s := s.setName hd ("sd" ++ (Char.ofNat ('a'.toNat + channelNo * 2 + devNo)).toString)
  let s ← if devNo ≠ 0 then partitionScan disk hd room 0 s else .ok s
  .ok { s with pNo := 0, lNo := 0 }

/-- The loop over the channels from `channelNo` on, each with its two disks. -/
def initChannels (room : ℕ) : ℕ → List (Image × Image) → State → Except Fault State
  | _, [], s => .ok s
  | channelNo, channel :: rest, s => do
    let s ← initDevice room channel.1 channelNo 0 s
    let s ← initDevice room channel.2 channelNo 1 s
    initChannels room (channelNo + 1) rest s

/-- The disk loop of `ide_init`. -/
def ideInit (room : ℕ) (channels : List (Image × Image)) : Except Fault State :=
  initChannels room 0 channels {}

end Init

section Reference

/-- The rest of the table at `lba` with the tables that its links, counted from `base`,
lead to, and the logical partitions in them. -/
inductive Chain (disk : Image) (base : UInt32) :
    UInt32 → List PartitionTableEntry → List (UInt32 × UInt32) → Prop
  | nil {lba : UInt32} : Chain disk base lba [] []
  | empty {lba : UInt32} {p : PartitionTableEntry} {rest : List PartitionTableEntry}
      {l : List (UInt32 × UInt32)} :
      p.fsType = 0 → Chain disk base lba rest l → Chain disk base lba (p :: rest) l
  | extended {lba : UInt32} {p : PartitionTableEntry} {rest : List PartitionTableEntry}
      {below l : List (UInt32 × UInt32)} :
      p.fsType = 0x5 → p.startLba + base ≠ 0 →
      Chain disk base (p.startLba + base) (partitionTable disk (p.startLba + base)) below →
      Chain disk base lba rest l → Chain disk base lba (p :: rest) (below ++ l)
  | logical {lba : UInt32} {p : PartitionTableEntry} {rest : List PartitionTableEntry}
      {l : List (UInt32 × UInt32)} :
      p.fsType ≠ 0x5 → p.fsType ≠ 0 → Chain disk base lba rest l →
      Chain disk base lba (p :: rest) ((lba + p.startLba, p.secCnt) :: l)

def isExtended (p : PartitionTableEntry) : Bool := p.fsType == 0x5

def isPrimary (p : PartitionTableEntry) : Bool := p.fsType != 0x5 && p.fsType != 0

/-- Start and size of the primary partitions of a table. -/
def primariesIn (entries : List PartitionTableEntry) : List (UInt32 × UInt32) :=
  (entries.filter isPrimary).map fun p => (p.startLba, p.secCnt)

/-- What the extended entry of a table stands for, if it has one. -/
def LogicalsIn (disk : Image) (entries : List PartitionTableEntry)
    (l : List (UInt32 × UInt32)) : Prop :=
  match entries.find? isExtended with
  | none => l = []
  | some p => Chain disk p.startLba p.startLba (partitionTable disk p.startLba) l

/-- At most three primary partitions and one extended one, whose tables are no circle and
have at most eight logical partitions. -/
structure WellFormed (disk : Image) : Prop where
  primaries : (primariesIn (partitionTable disk 0)).length ≤ 3
  extended : ((partitionTable disk 0).filter isExtended).length ≤ 1
  chain : ∀ p ∈ partitionTable disk 0, isExtended p = true → p.startLba ≠ 0 ∧
    ∃ l, Chain disk p.startLba p.startLba (partitionTable disk p.startLba) l ∧ l.length ≤ 8

/-- Start and size of the partition at a place. -/
def Progress.get? (w : Progress) : Slot → Option (UInt32 × UInt32)
  | .prim i => w.primaries[i]?
  | .logic i => w.logicals[i]?

def Disk.get? (d : Disk) : Slot → Option (UInt32 × UInt32)
  | .prim i => d.primParts[i]?.map fun p => (p.startLba, p.secCnt)
  | .logic i => d.logicParts[i]?.map fun p => (p.startLba, p.secCnt)

/-- The partitions of a disk that the driver has linked. -/
def State.registered (s : State) (hd : ℕ) : List (Slot × Option (UInt32 × UInt32)) :=
  (s.partitionList.filter fun x => x.1 == hd).map fun x => (x.2, (s.devices hd).get? x.2)

/-- The partitions registered for a disk are those of the walk through its tables. -/
def Registers (t : State) (hd : ℕ) (disk : Image) : Prop :=
  ∃ w : Progress, w.primaries = primariesIn (partitionTable disk 0) ∧
    LogicalsIn disk (partitionTable disk 0) w.logicals ∧
    (t.registered hd).Perm (w.slots.map fun slot => (slot, w.get? slot))

/-- The driver's base behind a disk that it scanned with base `base`. -/
def nextBase (base : UInt32) (disk : Image) : UInt32 :=
  if base ≠ 0 then base
  else ((partitionTable disk 0).find? isExtended).elim 0 PartitionTableEntry.startLba

/-- The tables found with the base in force are within the limits of the driver. Where that
base comes from another disk, they happen to list what the disk's own tables list. -/
def Served (room : ℕ) (base : UInt32) (disk : Image) : Prop :=
  ∃ w, Visits disk room 0 (partitionTable disk 0) ⟨base, [], []⟩ w ∧
    (base ≠ 0 → w.primaries = primariesIn (partitionTable disk 0) ∧
      LogicalsIn disk (partitionTable disk 0) w.logicals)

end Reference

section Agreement

variable {disk : Image} {base lba : UInt32} {room : ℕ} {w w' : Progress}
  {entries : List PartitionTableEntry} {l : List (UInt32 × UInt32)}

/-- A base that is set stays. -/
theorem Visits.base_eq (h : Visits disk room lba entries w w') (hbase : w.base ≠ 0) :
    w'.base = w.base := by
  induction h with
  | nil => rfl
  | empty _ _ ih => exact ih hbase
  | @extended _ _ p _ w _ _ _ _ _ _ ihbelow ih =>
    have henter : w.enter p = w := if_pos hbase
    have hbelow := ihbelow (by rwa [henter])
    rw [henter] at hbelow
    rw [ih (by rwa [hbelow]), hbelow]
  | primary _ _ _ _ ih => exact ih hbase
  | logical _ _ _ _ _ ih => exact ih hbase
  | eighth _ _ _ _ => rfl

/-- With the disk's own base the driver meets the logical partitions of its tables. -/
theorem Visits.of_chain (h : Visits disk room lba entries w w') (hlba : lba ≠ 0)
    (hbase : w.base = base) (hne : base ≠ 0) (hchain : Chain disk base lba entries l)
    (hlen : w.logicals.length + l.length ≤ 8) :
    w' = { w with logicals := w.logicals ++ l } := by
  induction h generalizing l with
  | nil =>
    cases hchain
    simp
  | empty hzero _ ih =>
    cases hchain with
    | empty _ hchain => exact ih hlba hbase hchain hlen
    | extended hext => rw [hzero] at hext; cases hext
    | logical _ hnz => exact absurd hzero hnz
  | @extended _ _ p _ w w₁ _ hext _ _ _ ihbelow ih =>
    cases hchain with
    | empty hzero _ => rw [hext] at hzero; cases hzero
    | @extended _ _ _ below l _ hlink hbelow hrest =>
      have hw : w.base ≠ 0 := by rwa [hbase]
      have hl : w.link p = p.startLba + base := by rw [Progress.link, if_pos hw, hbase]
      have hent : w.enter p = w := if_pos hw
      rw [hl, hent] at ihbelow
      rw [List.length_append] at hlen
      have hw₁ := ihbelow hlink hbase hbelow (by omega)
      subst hw₁
      have hw' := ih hlba hbase hrest (by simp only [List.length_append]; omega)
      rw [hw', List.append_assoc]
    | logical hne _ => exact absurd hext hne
  | primary => exact absurd rfl hlba
  | logical hext hzero _ _ _ ih =>
    cases hchain with
    | empty h0 _ => exact absurd h0 hzero
    | extended h5 => exact absurd h5 hext
    | logical _ _ hrest =>
      have hw' := ih hlba hbase hrest (by
        simp only [Progress.addLogical, List.length_append, List.length_cons, List.length_nil]
          at hlen ⊢
        omega)
      rw [hw', Progress.addLogical]
      simp only [List.append_assoc, List.singleton_append]
  | eighth hext hzero _ hseven =>
    cases hchain with
    | empty h0 _ => exact absurd h0 hzero
    | extended h5 => exact absurd h5 hext
    | @logical _ _ _ l _ _ hrest =>
      rw [List.length_cons] at hlen
      obtain rfl : l = [] := List.eq_nil_of_length_eq_zero (by omega)
      rfl

theorem primariesIn_cons (p : PartitionTableEntry) :
    primariesIn (p :: entries) =
      if isPrimary p then (p.startLba, p.secCnt) :: primariesIn entries
      else primariesIn entries := by
  unfold primariesIn
  rw [List.filter_cons]
  split_ifs <;> rfl

/-- A boot record without extended entry, or the rest of one behind it. -/
theorem Visits.of_plain (h : Visits disk room 0 entries w w')
    (hnone : entries.filter isExtended = []) :
    w' = { w with primaries := w.primaries ++ primariesIn entries } := by
  induction entries generalizing w with
  | nil =>
    cases h
    simp [primariesIn]
  | cons p rest ih =>
    have hp : isExtended p = false := by
      cases hp : isExtended p with
      | false => rfl
      | true => rw [List.filter_cons_of_pos hp] at hnone; cases hnone
    rw [List.filter_cons_of_neg (by simp [hp])] at hnone
    cases h with
    | empty hzero hrest =>
      rw [ih hrest hnone, primariesIn_cons, if_neg (by simp [isPrimary, hzero])]
    | extended hext => simp [isExtended, hext] at hp
    | primary hext hzero _ hrest =>
      rw [ih hrest hnone, primariesIn_cons, if_pos (by simp [isPrimary, hext, hzero])]
      simp [Progress.addPrimary]
    | logical _ _ hlba => exact absurd rfl hlba
    | eighth _ _ hlba => exact absurd rfl hlba

/-- The first disk with an extended entry is scanned as its tables say. -/
theorem Visits.of_boot (h : Visits disk room 0 entries w w') (hbase : w.base = 0)
    (hlogicals : w.logicals = []) (hone : (entries.filter isExtended).length ≤ 1)
    (hchain : ∀ p ∈ entries, isExtended p = true → p.startLba ≠ 0 ∧
      ∃ l, Chain disk p.startLba p.startLba (partitionTable disk p.startLba) l ∧ l.length ≤ 8) :
    w'.primaries = w.primaries ++ primariesIn entries ∧ LogicalsIn disk entries w'.logicals ∧
      w'.base = (entries.find? isExtended).elim 0 PartitionTableEntry.startLba := by
  induction entries generalizing w with
  | nil =>
    cases h
    refine ⟨by simp [primariesIn], hlogicals, hbase⟩
  | cons p rest ih =>
    have hrestchain := fun q hq => hchain q (List.mem_cons_of_mem p hq)
    cases h with
    | empty hzero hrest =>
      have hp : isExtended p = false := by simp [isExtended, hzero]
      rw [List.filter_cons_of_neg (by simp [hp])] at hone
      obtain ⟨hprims, hlogs, hb⟩ := ih hrest hbase hlogicals hone hrestchain
      unfold LogicalsIn
      rw [primariesIn_cons, if_neg (by simp [isPrimary, hzero]),
        List.find?_cons_of_neg (by simp [hp])]
      exact ⟨hprims, hlogs, hb⟩
    | extended hext hreach hbelow hrest =>
      have hp : isExtended p = true := by simp [isExtended, hext]
      rw [List.filter_cons_of_pos hp, List.length_cons] at hone
      have hnone : rest.filter isExtended = [] := List.eq_nil_of_length_eq_zero (by omega)
      obtain ⟨hstart, l, hl, hlen⟩ := hchain p List.mem_cons_self hp
      have hlink : w.link p = p.startLba := if_neg (not_not_intro hbase)
      have hent : w.enter p = { w with base := p.startLba } := if_neg (not_not_intro hbase)
      rw [hlink, hent] at hbelow
      have hw₁ := hbelow.of_chain hstart rfl hstart hl (by simpa [hlogicals] using hlen)
      subst hw₁
      have hw' := hrest.of_plain hnone
      subst hw'
      unfold LogicalsIn
      rw [primariesIn_cons, if_neg (by simp [isPrimary, hext]), List.find?_cons_of_pos hp]
      refine ⟨rfl, ?_, rfl⟩
      simpa [hlogicals] using hl
    | primary hext hzero _ hrest =>
      have hp : isExtended p = false := by simp [isExtended, hext]
      rw [List.filter_cons_of_neg (by simp [hp])] at hone
      obtain ⟨hprims, hlogs, hb⟩ := ih hrest hbase hlogicals hone hrestchain
      unfold LogicalsIn
      rw [primariesIn_cons, if_pos (by simp [isPrimary, hext, hzero]),
        List.find?_cons_of_neg (by simp [hp])]
      refine ⟨?_, hlogs, hb⟩
      rw [hprims]
      simp [Progress.addPrimary]
    | logical _ _ hlba => exact absurd rfl hlba
    | eighth _ _ hlba => exact absurd rfl hlba

end Agreement

section Registered

variable {hd d : ℕ} {s₀ s t : State} {w w' : Progress} {disk : Image}

/-- What a scan should have registered. -/
def Progress.entries (w : Progress) : List (Slot × Option (UInt32 × UInt32)) :=
  w.slots.map fun slot => (slot, w.get? slot)

theorem Progress.mem_prim {i : ℕ} {x : UInt32 × UInt32} :
    (Slot.prim i, some x) ∈ w.entries ↔ w.primaries[i]? = some x := by
  constructor
  · intro h
    obtain ⟨slot, -, hx⟩ := List.mem_map.mp h
    obtain ⟨rfl, hx⟩ := Prod.mk.inj hx
    exact hx
  · intro h
    have hi := (List.getElem?_eq_some_iff.mp h).1
    refine List.mem_map.mpr ⟨.prim i, ?_, Prod.ext rfl h⟩
    exact List.mem_append_left _ (List.mem_map_of_mem (List.mem_range.mpr hi))

theorem Progress.mem_logic {i : ℕ} {x : UInt32 × UInt32} :
    (Slot.logic i, some x) ∈ w.entries ↔ w.logicals[i]? = some x := by
  constructor
  · intro h
    obtain ⟨slot, -, hx⟩ := List.mem_map.mp h
    obtain ⟨rfl, hx⟩ := Prod.mk.inj hx
    exact hx
  · intro h
    have hi := (List.getElem?_eq_some_iff.mp h).1
    refine List.mem_map.mpr ⟨.logic i, ?_, Prod.ext rfl h⟩
    exact List.mem_append_right _ (List.mem_map_of_mem (List.mem_range.mpr hi))

/-- The registered partitions determine the two lists. -/
theorem Progress.eq_of_perm (h : w.entries.Perm w'.entries) :
    w.primaries = w'.primaries ∧ w.logicals = w'.logicals := by
  constructor
  · refine List.ext_getElem? fun i => Option.ext fun x => ?_
    rw [← mem_prim, h.mem_iff, mem_prim]
  · refine List.ext_getElem? fun i => Option.ext fun x => ?_
    rw [← mem_logic, h.mem_iff, mem_logic]

theorem getElem?_written {n : ℕ} (old : Vector Partition n)
    (f : UInt32 × UInt32 → ℕ → Partition) (hf : ∀ x i, ((f x i).startLba, (f x i).secCnt) = x)
    {l : List (UInt32 × UInt32)} {i : ℕ} (hi : i < l.length) (hn : l.length ≤ n) :
    (written old f l)[i]?.map (fun p => (p.startLba, p.secCnt)) = l[i]? := by
  rw [Vector.getElem?_eq_getElem (by omega), List.getElem?_eq_getElem hi]
  simp only [written, Vector.getElem_ofFn, dif_pos hi, Option.map_some, hf]

theorem Tracks.get? (h : Tracks hd s₀ s w) {slot : Slot} (hslot : slot ∈ w.slots) :
    (s.devices hd).get? slot = w.get? slot := by
  have hprim := h.primaries
  have hlogic := h.logicals
  rw [h.devices_self]
  rcases List.mem_append.mp hslot with hslot | hslot
  · obtain ⟨i, hi, rfl⟩ := List.mem_map.mp hslot
    exact getElem?_written (s₀.devices hd).primParts
      (fun x i => (s₀.devices hd).part hd x.1 x.2 (i + 1)) (fun _ _ => rfl)
      (List.mem_range.mp hi) (by omega)
  · obtain ⟨i, hi, rfl⟩ := List.mem_map.mp hslot
    exact getElem?_written (s₀.devices hd).logicParts
      (fun x i => (s₀.devices hd).part hd x.1 x.2 (i + 5)) (fun _ _ => rfl)
      (List.mem_range.mp hi) (by omega)

/-- A scan registers for its disk what it met. -/
theorem Tracks.registered (h : Tracks hd s₀ s w) (hnew : ∀ slot, (hd, slot) ∉ s₀.partitionList) :
    (s.registered hd).Perm w.entries := by
  obtain ⟨slots, hlist, hperm⟩ := h.list
  have hold : s₀.partitionList.filter (fun x => x.1 == hd) = [] := by
    rw [List.filter_eq_nil_iff]
    rintro ⟨d, slot⟩ hmem hd
    obtain rfl : d = _ := eq_of_beq hd
    exact hnew slot hmem
  have hmine : (slots.map (Prod.mk hd)).filter (fun x => x.1 == hd) = slots.map (Prod.mk hd) := by
    rw [List.filter_eq_self]
    intro x hx
    obtain ⟨slot, -, rfl⟩ := List.mem_map.mp hx
    exact beq_self_eq_true hd
  unfold State.registered
  rw [hlist, List.filter_append, hold, hmine, List.nil_append, List.map_map]
  have hval : slots.map ((fun x : ℕ × Slot => (x.2, (s.devices hd).get? x.2)) ∘ Prod.mk hd) =
      slots.map fun slot => (slot, w.get? slot) := by
    refine List.map_congr_left fun slot hslot => ?_
    exact Prod.ext rfl (h.get? (hperm.mem_iff.mp hslot))
  rw [hval]
  exact hperm.map _

/-- A scan of one disk leaves the partitions of the others. -/
theorem Tracks.registered_ne (h : Tracks hd s₀ s w) (hne : d ≠ hd) :
    s.registered d = s₀.registered d := by
  obtain ⟨slots, hlist, -⟩ := h.list
  have hmine : (slots.map (Prod.mk hd)).filter (fun x => x.1 == d) = [] := by
    rw [List.filter_eq_nil_iff]
    rintro x hx
    obtain ⟨slot, -, rfl⟩ := List.mem_map.mp hx
    simp [hne.symm]
  unfold State.registered
  rw [hlist, List.filter_append, hmine, List.append_nil, h.devices, Function.update_of_ne hne]

/-- The registered partitions are those of the disk's tables just where the scan met them. -/
theorem Tracks.registers_iff (h : Tracks hd s₀ s w)
    (hnew : ∀ slot, (hd, slot) ∉ s₀.partitionList) (ht : t.registered hd = s.registered hd) :
    Registers t hd disk ↔ w.primaries = primariesIn (partitionTable disk 0) ∧
      LogicalsIn disk (partitionTable disk 0) w.logicals := by
  have hperm := h.registered hnew
  constructor
  · rintro ⟨w', hprims, hlogs, hperm'⟩
    rw [ht] at hperm'
    obtain ⟨hp, hl⟩ := Progress.eq_of_perm (hperm.symm.trans hperm')
    rw [hp, hl]
    exact ⟨hprims, hlogs⟩
  · rintro ⟨hprims, hlogs⟩
    refine ⟨w, hprims, hlogs, ?_⟩
    rw [ht]
    exact hperm

end Registered

section Loop

variable {room channelNo hd d : ℕ} {s t : State} {w : Progress} {disk : Image}

@[simp] theorem setName_registered (s : State) (hd d : ℕ) (name : String) :
    (s.setName hd name).registered d = s.registered d := by
  have hget : ∀ slot, ((s.setName hd name).devices d).get? slot = (s.devices d).get? slot := by
    intro slot
    by_cases hne : d = hd
    · subst hne
      cases slot <;> simp [State.setName, Disk.get?]
    · simp only [State.setName, Function.update_of_ne hne]
  simp only [State.registered, hget]
  rfl

/-- The driver at the start of a round for channel `channelNo`. -/
structure Ready (channelNo : ℕ) (s : State) : Prop where
  pNo : s.pNo = 0
  lNo : s.lNo = 0
  new : ∀ hd slot, channelNo * 2 ≤ hd → (hd, slot) ∉ s.partitionList

/-- The second disk of a channel was scanned, and `w` is what was met. -/
structure Scanned (channelNo : ℕ) (s t : State) (w : Progress) : Prop where
  base : t.extLbaBase = w.base
  ready : Ready (channelNo + 1) t
  registers : ∀ u disk, u.registered (channelNo * 2 + 1) = t.registered (channelNo * 2 + 1) →
    (Registers u (channelNo * 2 + 1) disk ↔ w.primaries = primariesIn (partitionTable disk 0) ∧
      LogicalsIn disk (partitionTable disk 0) w.logicals)
  others : ∀ d ≠ channelNo * 2 + 1, t.registered d = s.registered d

theorem Tracks.scanned {s₁ u : State} (hs : Ready channelNo s)
    (hlist : s₁.partitionList = s.partitionList) (hreg : ∀ d, s₁.registered d = s.registered d)
    (h : Tracks (channelNo * 2 + 1) s₁ u w) :
    Scanned channelNo s { u with pNo := 0, lNo := 0 } w where
  base := h.base
  ready :=
    { pNo := rfl
      lNo := rfl
      new := by
        intro hd slot hle hmem
        obtain ⟨slots, hl, -⟩ := h.list
        change (hd, slot) ∈ u.partitionList at hmem
        rw [hl, hlist] at hmem
        rcases List.mem_append.mp hmem with hmem | hmem
        · exact hs.new hd slot (by omega) hmem
        · obtain ⟨_, -, heq⟩ := List.mem_map.mp hmem
          have := (Prod.mk.inj heq).1
          omega }
  registers := by
    intro v disk hv
    refine h.registers_iff ?_ hv
    intro slot
    rw [hlist]
    exact hs.new _ slot (by omega)
  others := by
    intro d hd
    exact (h.registered_ne hd).trans (hreg d)

/-- The rounds for the two disks of a channel, of which the first is not scanned. -/
def initChannel (room channelNo : ℕ) (channel : Image × Image) (s : State) : Except Fault State :=
  initDevice room channel.1 channelNo 0 s >>= initDevice room channel.2 channelNo 1

/-- The driver when the second disk of a channel is scanned. -/
def State.beforeScan (s : State) (channelNo : ℕ) : State :=
  let s := s.setName (channelNo * 2) ("sd" ++ (Char.ofNat ('a'.toNat + channelNo * 2)).toString)
  let s := { s with pNo := 0, lNo := 0 }
  s.setName (channelNo * 2 + 1) ("sd" ++ (Char.ofNat ('a'.toNat + channelNo * 2 + 1)).toString)

theorem initChannel_eq (channel : Image × Image) (s : State) :
    initChannel room channelNo channel s =
      partitionScan channel.2 (channelNo * 2 + 1) room 0 (s.beforeScan channelNo) >>= fun s =>
        .ok { s with pNo := 0, lNo := 0 } :=
  rfl

theorem beforeScan_registered (s : State) (channelNo d : ℕ) :
    (s.beforeScan channelNo).registered d = s.registered d := by
  unfold State.beforeScan
  rw [setName_registered]
  exact setName_registered s _ d _

theorem beforeScan_list (s : State) (channelNo : ℕ) :
    (s.beforeScan channelNo).partitionList = s.partitionList := rfl

theorem beforeScan_tracks (s : State) (channelNo hd : ℕ) :
    Tracks hd (s.beforeScan channelNo) (s.beforeScan channelNo) ⟨s.extLbaBase, [], []⟩ :=
  .start rfl rfl

/-- A round that returns met a tree of tables, and registered what was in it. -/
theorem initChannel_scanned {channel : Image × Image} (hs : Ready channelNo s)
    (h : initChannel (room + 1) channelNo channel s = .ok t) :
    ∃ w, Visits channel.2 room 0 (partitionTable channel.2 0) ⟨s.extLbaBase, [], []⟩ w ∧
      Scanned channelNo s t w := by
  rw [initChannel_eq] at h
  obtain ⟨u, hu, h⟩ := of_bind_eq_ok h
  obtain rfl := Except.ok.inj h
  obtain ⟨below, w, hroom, -, hvisit, htr⟩ :=
    partitionScan_visits _ _ _ _ _ _ _ _ (beforeScan_tracks s channelNo _) hu
  obtain rfl : room = below := by omega
  exact ⟨w, hvisit, htr.scanned hs (beforeScan_list s channelNo) (beforeScan_registered s channelNo)⟩

theorem initChannel_of_visits {channel : Image × Image} (hs : Ready channelNo s)
    (hvisit : Visits channel.2 room 0 (partitionTable channel.2 0) ⟨s.extLbaBase, [], []⟩ w) :
    ∃ t, initChannel (room + 1) channelNo channel s = .ok t ∧ Scanned channelNo s t w := by
  obtain ⟨u, hu, htr⟩ := scanEntries_of_visits hvisit (beforeScan_tracks s channelNo
    (channelNo * 2 + 1))
  refine ⟨_, ?_, htr.scanned hs (beforeScan_list s channelNo) (beforeScan_registered s channelNo)⟩
  rw [initChannel_eq, partitionScan, ensure_of (by decide), ok_bind, hu, ok_bind]

theorem initChannels_cons (channel : Image × Image) (rest : List (Image × Image)) (s : State) :
    initChannels room channelNo (channel :: rest) s =
      initChannel room channelNo channel s >>= initChannels room (channelNo + 1) rest := by
  rfl

/-- Later channels leave the partitions of earlier ones. -/
theorem initChannels_registered {channels : List (Image × Image)} (hs : Ready channelNo s)
    (h : initChannels (room + 1) channelNo channels s = .ok t) (hd : d < channelNo * 2) :
    t.registered d = s.registered d := by
  induction channels generalizing channelNo s with
  | nil =>
    obtain rfl := Except.ok.inj h
    rfl
  | cons channel rest ih =>
    rw [initChannels_cons] at h
    obtain ⟨u, hu, h⟩ := of_bind_eq_ok h
    obtain ⟨w, -, hscan⟩ := initChannel_scanned hs hu
    rw [ih hscan.ready h (by omega), hscan.others d (by omega)]

/-- What the scan met with a base of its own disk is what the disk's tables list. -/
theorem Visits.agrees (hvisit : Visits disk room 0 (partitionTable disk 0) ⟨0, [], []⟩ w)
    (hwf : WellFormed disk) : w.primaries = primariesIn (partitionTable disk 0) ∧
      LogicalsIn disk (partitionTable disk 0) w.logicals := by
  obtain ⟨hprims, hlogs, -⟩ := hvisit.of_boot rfl rfl hwf.extended hwf.chain
  exact ⟨by simpa using hprims, hlogs⟩

theorem Visits.base_next {base : UInt32}
    (hvisit : Visits disk room 0 (partitionTable disk 0) ⟨base, [], []⟩ w)
    (hwf : WellFormed disk) : w.base = nextBase base disk := by
  unfold nextBase
  by_cases hbase : base = 0
  · subst hbase
    rw [if_neg (not_not_intro rfl)]
    exact (hvisit.of_boot rfl rfl hwf.extended hwf.chain).2.2
  · rw [if_pos hbase]
    exact hvisit.base_eq hbase

theorem initChannels_iff {channels : List (Image × Image)} (hs : Ready channelNo s)
    (hwf : ∀ channel ∈ channels, WellFormed channel.2) :
    (∃ t, initChannels (room + 1) channelNo channels s = .ok t ∧
        ∀ i (h : i < channels.length), Registers t ((channelNo + i) * 2 + 1) channels[i].2) ↔
      ∀ i (h : i < channels.length), Served room
        ((channels.take i).foldl (fun base channel => nextBase base channel.2) s.extLbaBase)
        channels[i].2 := by
  induction channels generalizing channelNo s with
  | nil => simp [initChannels]
  | cons channel rest ih =>
    have hwf₀ := hwf channel List.mem_cons_self
    have hwfrest := fun c hc => hwf c (List.mem_cons_of_mem channel hc)
    constructor
    · rintro ⟨t, ht, hall⟩
      rw [initChannels_cons] at ht
      obtain ⟨u, hu, ht⟩ := of_bind_eq_ok ht
      obtain ⟨w, hvisit, hscan⟩ := initChannel_scanned hs hu
      have hkept := initChannels_registered hscan.ready ht
        (show channelNo * 2 + 1 < (channelNo + 1) * 2 by omega)
      have hfirst := (hscan.registers t channel.2 hkept).mp (hall 0 (by simp))
      have hbase : u.extLbaBase = nextBase s.extLbaBase channel.2 := by
        rw [hscan.base, hvisit.base_next hwf₀]
      have hrest := (ih hscan.ready hwfrest).mp ⟨t, ht, fun i hi => by
        have := hall (i + 1) (by simpa using hi)
        rwa [show (channelNo + (i + 1)) * 2 + 1 = (channelNo + 1 + i) * 2 + 1 by omega] at this⟩
      intro i hi
      cases i with
      | zero => exact ⟨w, hvisit, fun _ => hfirst⟩
      | succ i =>
        have := hrest i (by simpa using hi)
        rwa [hbase] at this
    · intro hall
      obtain ⟨w, hvisit, hagree⟩ := hall 0 (by simp)
      have hvisit : Visits channel.2 room 0 (partitionTable channel.2 0) ⟨s.extLbaBase, [], []⟩ w :=
        hvisit
      obtain ⟨u, hu, hscan⟩ := initChannel_of_visits hs hvisit
      have hbase : u.extLbaBase = nextBase s.extLbaBase channel.2 := by
        rw [hscan.base]
        exact hvisit.base_next hwf₀
      obtain ⟨t, ht, hrest⟩ := (ih hscan.ready hwfrest).mpr fun i hi => by
        have := hall (i + 1) (by simpa using hi)
        rwa [hbase]
      refine ⟨t, by rw [initChannels_cons, hu, ok_bind, ht], ?_⟩
      have hkept := initChannels_registered hscan.ready ht
        (show channelNo * 2 + 1 < (channelNo + 1) * 2 by omega)
      intro i hi
      cases i with
      | zero =>
        refine (hscan.registers t channel.2 hkept).mpr ?_
        by_cases hzero : s.extLbaBase = 0
        · rw [hzero] at hvisit
          exact hvisit.agrees hwf₀
        · exact hagree hzero
      | succ i =>
        have := hrest i (by simpa using hi)
        rwa [show (channelNo + 1 + i) * 2 + 1 = (channelNo + (i + 1)) * 2 + 1 by omega] at this

end Loop

/-- The driver's base when the scan comes to the disk of channel `i`. -/
def baseBefore (channels : List (Image × Image)) (i : ℕ) : UInt32 :=
  (channels.take i).foldl (fun base channel => nextBase base channel.2) 0

theorem ready_boot : Ready 0 {} where
  pNo := rfl
  lNo := rfl
  new _ _ _ := List.not_mem_nil

/-- For well-formed disks the partitions registered are those of their tables if and only if
every disk is served right: tables within the limits, and where an earlier disk has an
extended partition, tables that list the same from the other base. -/
theorem disks_registered_iff (room : ℕ) {channels : List (Image × Image)}
    (hwf : ∀ channel ∈ channels, WellFormed channel.2) :
    (∃ t, ideInit (room + 1) channels = .ok t ∧
        ∀ i (h : i < channels.length), Registers t (i * 2 + 1) channels[i].2) ↔
      ∀ i (h : i < channels.length), Served room (baseBefore channels i) channels[i].2 := by
  have h := @initChannels_iff room _ _ _ ready_boot hwf
  simp only [Nat.zero_add] at h
  exact h

/-- An extended partition at sector 100 with one logical partition in it. -/
def oneLogical : Image := fun i =>
  if i = 450 then 0x05 else if i = 454 then 100 else if i = 458 then 50
  else if i = 51650 then 0x83 else if i = 51654 then 1 else if i = 51658 then 10 else 0

theorem oneLogical_boot : partitionTable oneLogical 0 =
    ⟨0x05, 100, 50⟩ :: List.replicate 3 ⟨0, 0, 0⟩ := by
  decide

theorem oneLogical_table : partitionTable oneLogical 100 =
    ⟨0x83, 1, 10⟩ :: List.replicate 3 ⟨0, 0, 0⟩ := by
  decide

theorem oneLogical_chain :
    Chain oneLogical 100 100 (partitionTable oneLogical 100) [(101, 10)] := by
  rw [oneLogical_table]
  exact .logical (by decide) (by decide) (.empty rfl (.empty rfl (.empty rfl .nil)))

theorem oneLogical_wellFormed : WellFormed oneLogical where
  primaries := by rw [oneLogical_boot]; decide
  extended := by rw [oneLogical_boot]; decide
  chain := by
    intro p hp hext
    rw [oneLogical_boot] at hp
    rcases List.mem_cons.mp hp with rfl | hp
    · exact ⟨by decide, _, oneLogical_chain, by decide⟩
    · obtain rfl := List.eq_of_mem_replicate hp
      exact absurd hext (by decide)

theorem disks_registered_one :
    (∃ t, ideInit 3 [(Bytes.zeros, oneLogical)] = .ok t ∧
        ∀ i (h : i < 1), Registers t (i * 2 + 1) ([(Bytes.zeros, oneLogical)].get ⟨i, h⟩).2) ↔
      ∀ i (h : i < 1), Served 2 (baseBefore [(Bytes.zeros, oneLogical)] i)
        ([(Bytes.zeros, oneLogical)].get ⟨i, h⟩).2 :=
  disks_registered_iff 2 (by
    intro channel hc
    obtain rfl := List.mem_singleton.mp hc
    exact oneLogical_wellFormed)

/-- The logical partition of a second such disk is looked for at sector 200. -/
theorem disks_not_registered :
    ¬ ∀ room (channels : List (Image × Image)), (∀ channel ∈ channels, WellFormed channel.2) →
      ∀ t, ideInit room channels = .ok t →
        ∀ i (h : i < channels.length), Registers t (i * 2 + 1) channels[i].2 := by
  intro hall
  have hrun : ∃ t, ideInit 3 [(Bytes.zeros, oneLogical), (Bytes.zeros, oneLogical)] = .ok t ∧
      t.registered 3 = [] := by
    decide
  obtain ⟨t, ht, hreg⟩ := hrun
  have hwf : ∀ channel ∈ [(Bytes.zeros, oneLogical), (Bytes.zeros, oneLogical)],
      WellFormed channel.2 := by
    intro channel hc
    obtain rfl | hc := List.mem_cons.mp hc
    · exact oneLogical_wellFormed
    · obtain rfl := List.mem_singleton.mp hc
      exact oneLogical_wellFormed
  obtain ⟨w, -, hlogs, hperm⟩ := hall 3 _ hwf t ht 1 (by decide)
  change (t.registered 3).Perm w.entries at hperm
  change LogicalsIn oneLogical (partitionTable oneLogical 0) w.logicals at hlogs
  rw [hreg] at hperm
  rw [oneLogical_boot] at hlogs
  have hlogs : Chain oneLogical 100 100 (partitionTable oneLogical 100) w.logicals := hlogs
  rw [oneLogical_table] at hlogs
  have hone : ∃ x l, w.logicals = x :: l := by
    generalize w.logicals = logicals at hlogs
    cases hlogs with
    | empty hzero => cases hzero
    | extended hext => cases hext
    | logical _ _ _ => exact ⟨_, _, rfl⟩
  obtain ⟨x, l, hl⟩ := hone
  have hmem := (Progress.mem_logic (w := w) (i := 0) (x := x)).mpr (by rw [hl]; rfl)
  rw [← hperm.mem_iff] at hmem
  cases hmem

end X86System.Ide
