import X86System.FileSystem

/-!
# Scanning the partition tables of a disk

`partition_scan` reads the boot sector at an address and goes through the four entries
of its table. An extended entry leads to another table, so the scan calls itself; the
address is relative to the start of the first extended partition that was met, which a
global variable keeps. The partitions go into two arrays of the disk, at positions that
two more globals count.
-/
namespace X86System.Ide
open Bytes Exec
open FileSystem (maxLba)

/-- `struct partition_table_entry`, as far as it is read. -/
structure PartitionTableEntry where
  fsType : UInt8
  startLba : UInt32
  secCnt : UInt32
  deriving DecidableEq, Repr

/-- `bs->partition_table` of the boot sector at `lba`. -/
def partitionTable (disk : Image) (lba : UInt32) : List PartitionTableEntry :=
  (List.range 4).map fun n =>
    let p := entry (slice disk (512 * lba.toNat)) 446 16 n
    ⟨p 4, wordAt p 8, wordAt p 12⟩

/-- `struct partition` before it is mounted. -/
structure Partition where
  startLba : UInt32 := 0
  secCnt : UInt32 := 0
  myDisk : Option ℕ := none
  name : String := ""
  deriving DecidableEq, Repr

structure Disk where
  name : String := ""
  primParts : Vector Partition 4 := .replicate 4 {}
  logicParts : Vector Partition 8 := .replicate 8 {}
  deriving DecidableEq

/-- The place of a partition in its disk, which `partition_list` links. -/
inductive Slot
  | prim (i : ℕ)
  | logic (i : ℕ)
  deriving DecidableEq, Repr

/-- The driver's variables. The disks are those of `channels`, by their number. -/
structure State where
  extLbaBase : UInt32 := 0
  pNo : ℕ := 0
  lNo : ℕ := 0
  devices : ℕ → Disk := fun _ => {}
  partitionList : List (ℕ × Slot) := []

/-- What the scan writes to a partition of disk `hd`; `no` is for its name. -/
def Disk.part (d : Disk) (hd : ℕ) (startLba secCnt : UInt32) (no : ℕ) : Partition where
  startLba := startLba
  secCnt := secCnt
  myDisk := some hd
  name := d.name ++ toString no

/-- Fill the next primary partition of disk `hd` and append it to the list. -/
def State.addPrimary (s : State) (hd : ℕ) (startLba secCnt : UInt32) : State :=
  let d := s.devices hd
  let primParts := d.primParts.setIfInBounds s.pNo (d.part hd startLba secCnt (s.pNo + 1))
  { s with
    devices := Function.update s.devices hd { d with primParts := primParts }
    partitionList := s.partitionList ++ [(hd, .prim s.pNo)]
    pNo := s.pNo + 1 }

def State.addLogical (s : State) (hd : ℕ) (startLba secCnt : UInt32) : State :=
  let d := s.devices hd
  let logicParts := d.logicParts.setIfInBounds s.lNo (d.part hd startLba secCnt (s.lNo + 5))
  { s with
    devices := Function.update s.devices hd { d with logicParts := logicParts }
    partitionList := s.partitionList ++ [(hd, .logic s.lNo)]
    lNo := s.lNo + 1 }

/-- The loop of `partition_scan` over the rest of a table. `nested` is the call of
`partition_scan` in it. -/
def scanEntries (nested : UInt32 → State → Except Fault State) (hd : ℕ) (extLba : UInt32) :
    List PartitionTableEntry → State → Except Fault State
  | [], s => .ok s
  | p :: rest, s =>
    if p.fsType = 0x5 then do
      let s ← if s.extLbaBase ≠ 0 then nested (p.startLba + s.extLbaBase) s
        else nested p.startLba { s with extLbaBase := p.startLba }
      scanEntries nested hd extLba rest s
    else if p.fsType ≠ 0 then
      if extLba = 0 then do
        ensure Fault.overrun (s.pNo < 4)
        let s := s.addPrimary hd (extLba + p.startLba) p.secCnt
        ensure Fault.assert (s.pNo < 4)
        scanEntries nested hd extLba rest s
      else do
        ensure Fault.overrun (s.lNo < 8)
        let s := s.addLogical hd (extLba + p.startLba) p.secCnt
        if s.lNo ≥ 8 then .ok s
        else scanEntries nested hd extLba rest s
    else scanEntries nested hd extLba rest s

/-- `partition_scan`, where the kernel's stack and heap have room for `room` calls in each
other with their boot sectors. -/
def partitionScan (disk : Image) (hd : ℕ) : ℕ → UInt32 → State → Except Fault State
  | 0, _, _ => .error .diverge
  | room + 1, extLba, s => do
    ensure Fault.assert (extLba.toNat ≤ maxLba)
    scanEntries (partitionScan disk hd room) hd extLba (partitionTable disk extLba) s

section Visits

/-- What a scan has met: the base of relative addresses, and start and size of the
partitions of the two kinds. -/
structure Progress where
  base : UInt32
  primaries : List (UInt32 × UInt32) := []
  logicals : List (UInt32 × UInt32) := []
  deriving DecidableEq

/-- Where an extended entry leads. -/
def Progress.link (w : Progress) (p : PartitionTableEntry) : UInt32 :=
  if w.base ≠ 0 then p.startLba + w.base else p.startLba

def Progress.enter (w : Progress) (p : PartitionTableEntry) : Progress :=
  if w.base ≠ 0 then w else { w with base := p.startLba }

def Progress.addPrimary (w : Progress) (lba : UInt32) (p : PartitionTableEntry) : Progress :=
  { w with primaries := w.primaries ++ [(lba + p.startLba, p.secCnt)] }

def Progress.addLogical (w : Progress) (lba : UInt32) (p : PartitionTableEntry) : Progress :=
  { w with logicals := w.logicals ++ [(lba + p.startLba, p.secCnt)] }

/-- The rest of the table at `lba` with all that it leads to: a finite tree of tables on
sectors the driver reaches, not deeper than `room`, with at most three primary partitions.
Behind the eighth logical partition the table ends, and there is no ninth. -/
inductive Visits (disk : Image) :
    ℕ → UInt32 → List PartitionTableEntry → Progress → Progress → Prop
  | nil {room : ℕ} {lba : UInt32} {w : Progress} : Visits disk room lba [] w w
  | empty {room : ℕ} {lba : UInt32} {p : PartitionTableEntry}
      {rest : List PartitionTableEntry} {w w' : Progress} :
      p.fsType = 0 → Visits disk room lba rest w w' → Visits disk room lba (p :: rest) w w'
  | extended {room : ℕ} {lba : UInt32} {p : PartitionTableEntry}
      {rest : List PartitionTableEntry} {w w₁ w' : Progress} :
      p.fsType = 0x5 → (w.link p).toNat ≤ maxLba →
      Visits disk room (w.link p) (partitionTable disk (w.link p)) (w.enter p) w₁ →
      Visits disk (room + 1) lba rest w₁ w' → Visits disk (room + 1) lba (p :: rest) w w'
  | primary {room : ℕ} {p : PartitionTableEntry}
      {rest : List PartitionTableEntry} {w w' : Progress} :
      p.fsType ≠ 0x5 → p.fsType ≠ 0 → w.primaries.length < 3 →
      Visits disk room 0 rest (w.addPrimary 0 p) w' → Visits disk room 0 (p :: rest) w w'
  | logical {room : ℕ} {lba : UInt32} {p : PartitionTableEntry}
      {rest : List PartitionTableEntry} {w w' : Progress} :
      p.fsType ≠ 0x5 → p.fsType ≠ 0 → lba ≠ 0 → w.logicals.length < 7 →
      Visits disk room lba rest (w.addLogical lba p) w' → Visits disk room lba (p :: rest) w w'
  | eighth {room : ℕ} {lba : UInt32} {p : PartitionTableEntry}
      {rest : List PartitionTableEntry} {w : Progress} :
      p.fsType ≠ 0x5 → p.fsType ≠ 0 → lba ≠ 0 → w.logicals.length = 7 →
      Visits disk room lba (p :: rest) w (w.addLogical lba p)

end Visits

section Arrays

variable {n : ℕ} (old : Vector Partition n) (f : UInt32 × UInt32 → ℕ → Partition)

/-- An array whose first elements were written. -/
def written (l : List (UInt32 × UInt32)) : Vector Partition n :=
  Vector.ofFn fun i => if h : i.val < l.length then f l[i.val] i.val else old[i.val]

@[simp] theorem written_nil : written old f [] = old := by
  ext i hi
  simp [written]

theorem written_append (l : List (UInt32 × UInt32)) (x : UInt32 × UInt32) :
    (written old f l).setIfInBounds l.length (f x l.length) = written old f (l ++ [x]) := by
  ext i hi
  simp only [written, Vector.getElem_setIfInBounds, Vector.getElem_ofFn, List.length_append,
    List.length_singleton]
  by_cases hlt : i < l.length
  · rw [if_neg (by omega), dif_pos hlt, dif_pos (by omega), List.getElem_append_left hlt]
  · by_cases heq : i = l.length
    · subst heq
      rw [if_pos rfl, dif_pos (by omega), List.getElem_concat_length rfl]
    · rw [if_neg (fun h => heq h.symm), dif_neg hlt, dif_neg (by omega)]

end Arrays

/-- Disk `hd` behind a scan that has met `w`. -/
def Disk.fill (d : Disk) (hd : ℕ) (w : Progress) : Disk :=
  { d with
    primParts := written d.primParts (fun x i => d.part hd x.1 x.2 (i + 1)) w.primaries
    logicParts := written d.logicParts (fun x i => d.part hd x.1 x.2 (i + 5)) w.logicals }

/-- The places of the partitions. -/
def Progress.slots (w : Progress) : List Slot :=
  (List.range w.primaries.length).map .prim ++ (List.range w.logicals.length).map .logic

/-- A scan that started in `s₀` has come to `s`, and what it met is `w`. -/
structure Tracks (hd : ℕ) (s₀ s : State) (w : Progress) : Prop where
  base : s.extLbaBase = w.base
  pNo : s.pNo = w.primaries.length
  lNo : s.lNo = w.logicals.length
  primaries : w.primaries.length ≤ 3
  logicals : w.logicals.length ≤ 8
  devices : s.devices = Function.update s₀.devices hd ((s₀.devices hd).fill hd w)
  list : ∃ slots : List Slot, s.partitionList = s₀.partitionList ++ slots.map (Prod.mk hd) ∧
    slots.Perm w.slots

section Tracks

variable {hd : ℕ} {s₀ s : State} {w : Progress} {p : PartitionTableEntry} {lba : UInt32}

theorem Tracks.start (hp : s.pNo = 0) (hl : s.lNo = 0) :
    Tracks hd s s ⟨s.extLbaBase, [], []⟩ where
  base := rfl
  pNo := hp
  lNo := hl
  primaries := by simp
  logicals := by simp
  devices := by
    have hfill : (s.devices hd).fill hd ⟨s.extLbaBase, [], []⟩ = s.devices hd := by
      simp [Disk.fill]
    rw [hfill, Function.update_eq_self]
  list := ⟨[], by simp, by simp [Progress.slots]⟩

theorem Tracks.devices_self (h : Tracks hd s₀ s w) :
    s.devices hd = (s₀.devices hd).fill hd w := by
  rw [h.devices, Function.update_self]

theorem Tracks.addPrimary (h : Tracks hd s₀ s w) (hroom : w.primaries.length < 3) :
    Tracks hd s₀ (s.addPrimary hd (0 + p.startLba) p.secCnt) (w.addPrimary 0 p) where
  base := h.base
  pNo := by simp [State.addPrimary, Progress.addPrimary, h.pNo]
  lNo := h.lNo
  primaries := by
    simp only [Progress.addPrimary, List.length_append, List.length_singleton]
    omega
  logicals := h.logicals
  devices := by
    change Function.update s.devices hd _ = _
    rw [h.devices_self, h.pNo, h.devices, Function.update_idem]
    congr 1
    have hset := written_append (s₀.devices hd).primParts
      (fun x i => (s₀.devices hd).part hd x.1 x.2 (i + 1)) w.primaries (0 + p.startLba, p.secCnt)
    simp only [Disk.fill, Progress.addPrimary, ← hset]
    rfl
  list := by
    obtain ⟨slots, hlist, hperm⟩ := h.list
    refine ⟨slots ++ [.prim w.primaries.length], ?_, ?_⟩
    · change s.partitionList ++ [(hd, .prim s.pNo)] = _
      rw [hlist, h.pNo, List.map_append, List.append_assoc]
      rfl
    · have hslots : (w.addPrimary 0 p).slots = (List.range w.primaries.length).map .prim ++
          .prim w.primaries.length :: (List.range w.logicals.length).map .logic := by
        simp [Progress.slots, Progress.addPrimary, List.range_succ]
      rw [hslots]
      exact List.perm_append_comm.trans
        (((hperm.cons _)).trans List.perm_middle.symm)

theorem Tracks.addLogical (h : Tracks hd s₀ s w) (hroom : w.logicals.length < 8) :
    Tracks hd s₀ (s.addLogical hd (lba + p.startLba) p.secCnt) (w.addLogical lba p) where
  base := h.base
  pNo := h.pNo
  lNo := by simp [State.addLogical, Progress.addLogical, h.lNo]
  primaries := h.primaries
  logicals := by
    simp only [Progress.addLogical, List.length_append, List.length_singleton]
    omega
  devices := by
    change Function.update s.devices hd _ = _
    rw [h.devices_self, h.lNo, h.devices, Function.update_idem]
    congr 1
    have hset := written_append (s₀.devices hd).logicParts
      (fun x i => (s₀.devices hd).part hd x.1 x.2 (i + 5)) w.logicals (lba + p.startLba, p.secCnt)
    simp only [Disk.fill, Progress.addLogical, ← hset]
    rfl
  list := by
    obtain ⟨slots, hlist, hperm⟩ := h.list
    refine ⟨slots ++ [.logic w.logicals.length], ?_, ?_⟩
    · change s.partitionList ++ [(hd, .logic s.lNo)] = _
      rw [hlist, h.lNo, List.map_append, List.append_assoc]
      rfl
    · have hslots : (w.addLogical lba p).slots = w.slots ++ [.logic w.logicals.length] := by
        simp [Progress.slots, Progress.addLogical, List.range_succ]
      rw [hslots]
      exact hperm.append_right _

theorem Tracks.addPrimary_pNo (h : Tracks hd s₀ s w) :
    (s.addPrimary hd (0 + p.startLba) p.secCnt).pNo = w.primaries.length + 1 := by
  change s.pNo + 1 = _
  rw [h.pNo]

theorem Tracks.addLogical_lNo (h : Tracks hd s₀ s w) :
    (s.addLogical hd (lba + p.startLba) p.secCnt).lNo = w.logicals.length + 1 := by
  change s.lNo + 1 = _
  rw [h.lNo]

/-- The state in which an extended entry is followed. -/
def State.enter (s : State) (p : PartitionTableEntry) : State :=
  if s.extLbaBase ≠ 0 then s else { s with extLbaBase := p.startLba }

theorem Tracks.enter (h : Tracks hd s₀ s w) : Tracks hd s₀ (s.enter p) (w.enter p) := by
  unfold State.enter Progress.enter
  rw [h.base]
  split_ifs with hbase
  · exact h
  · exact { h with base := rfl }

end Tracks

section Loop

variable {disk : Image} {hd room : ℕ} {s₀ s t : State} {w w' : Progress} {lba : UInt32}
  {p : PartitionTableEntry} {rest entries : List PartitionTableEntry}

/-- An extended entry leads on from the state it is entered in. -/
theorem Tracks.scan_extended (h : Tracks hd s₀ s w) (hext : p.fsType = 0x5)
    (nested : UInt32 → State → Except Fault State) :
    scanEntries nested hd lba (p :: rest) s =
      nested (w.link p) (s.enter p) >>= scanEntries nested hd lba rest := by
  rw [scanEntries, if_pos hext]
  unfold Progress.link State.enter
  rw [h.base]
  split_ifs
  · rfl
  · rfl

/-- What a nested call that returns has met. -/
def NestedVisits (disk : Image) (hd : ℕ) (s₀ : State)
    (nested : UInt32 → State → Except Fault State) (room : ℕ) : Prop :=
  ∀ link s t w, Tracks hd s₀ s w → nested link s = .ok t → ∃ below w', room = below + 1 ∧
    link.toNat ≤ maxLba ∧ Visits disk below link (partitionTable disk link) w w' ∧
    Tracks hd s₀ t w'

theorem scanEntries_visits {nested : UInt32 → State → Except Fault State}
    (hnested : NestedVisits disk hd s₀ nested room) (htr : Tracks hd s₀ s w)
    (h : scanEntries nested hd lba entries s = .ok t) :
    ∃ w', Visits disk room lba entries w w' ∧ Tracks hd s₀ t w' := by
  induction entries generalizing s w with
  | nil =>
    obtain rfl := Except.ok.inj h
    exact ⟨w, .nil, htr⟩
  | cons p rest ih =>
    by_cases hext : p.fsType = 0x5
    · rw [htr.scan_extended hext] at h
      obtain ⟨u, hu, h⟩ := of_bind_eq_ok h
      obtain ⟨below, w₁, rfl, hreach, hvisit, htr₁⟩ := hnested _ _ _ _ htr.enter hu
      obtain ⟨w', hrest, htr'⟩ := ih htr₁ h
      exact ⟨w', .extended hext hreach hvisit hrest, htr'⟩
    · rw [scanEntries, if_neg hext] at h
      by_cases hzero : p.fsType = 0
      · rw [if_neg (not_not_intro hzero)] at h
        obtain ⟨w', hrest, htr'⟩ := ih htr h
        exact ⟨w', .empty hzero hrest, htr'⟩
      · rw [if_pos hzero] at h
        by_cases hlba : lba = 0
        · subst hlba
          rw [if_pos rfl] at h
          obtain ⟨-, h⟩ := of_ensure_eq_ok h
          obtain ⟨hroom, h⟩ := of_ensure_eq_ok h
          rw [htr.addPrimary_pNo] at hroom
          have hroom : w.primaries.length < 3 := by omega
          obtain ⟨w', hrest, htr'⟩ := ih (htr.addPrimary hroom) h
          exact ⟨w', .primary hext hzero hroom hrest, htr'⟩
        · rw [if_neg hlba] at h
          obtain ⟨hroom, h⟩ := of_ensure_eq_ok h
          rw [htr.lNo] at hroom
          have hadd : Tracks hd s₀ (s.addLogical hd (lba + p.startLba) p.secCnt)
            (w.addLogical lba p) := htr.addLogical hroom
          by_cases hlast : w.logicals.length = 7
          · rw [if_pos (by rw [htr.addLogical_lNo]; omega)] at h
            obtain rfl := Except.ok.inj h
            exact ⟨_, .eighth hext hzero hlba hlast, hadd⟩
          · rw [if_neg (by rw [htr.addLogical_lNo]; omega)] at h
            obtain ⟨w', hrest, htr'⟩ := ih hadd h
            exact ⟨w', .logical hext hzero hlba (by omega) hrest, htr'⟩

/-- A scan that returns has met a finite tree of tables within the limits. -/
theorem partitionScan_visits (disk : Image) (hd : ℕ) (s₀ : State) (room : ℕ) :
    NestedVisits disk hd s₀ (partitionScan disk hd room) room := by
  induction room with
  | zero =>
    intro link s t w _ h
    cases h
  | succ room ih =>
    intro link s t w htr h
    obtain ⟨hreach, h⟩ := of_ensure_eq_ok h
    obtain ⟨w', hvisit, htr'⟩ := scanEntries_visits ih htr h
    exact ⟨room, w', rfl, hreach, hvisit, htr'⟩

/-- Where the tables are a finite tree within the limits, the scan goes through it. -/
theorem scanEntries_of_visits (hvisit : Visits disk room lba entries w w') :
    ∀ {s : State}, Tracks hd s₀ s w →
      ∃ t, scanEntries (partitionScan disk hd room) hd lba entries s = .ok t ∧
        Tracks hd s₀ t w' := by
  induction hvisit with
  | nil => exact fun htr => ⟨_, rfl, htr⟩
  | empty hzero _ ih =>
    intro s htr
    obtain ⟨t, ht, htr'⟩ := ih htr
    refine ⟨t, ?_, htr'⟩
    rw [scanEntries, if_neg (by rw [hzero]; decide), if_neg (not_not_intro hzero), ht]
  | extended hext hreach _ _ ihbelow ih =>
    intro s htr
    obtain ⟨u, hu, htr₁⟩ := ihbelow htr.enter
    obtain ⟨t, ht, htr'⟩ := ih htr₁
    refine ⟨t, ?_, htr'⟩
    rw [htr.scan_extended hext, partitionScan, ensure_of hreach, ok_bind, hu, ok_bind, ht]
  | primary hext hzero hroom _ ih =>
    intro s htr
    obtain ⟨t, ht, htr'⟩ := ih (htr.addPrimary hroom)
    refine ⟨t, ?_, htr'⟩
    rw [scanEntries, if_neg hext, if_pos hzero, if_pos rfl]
    rw [ensure_of (by rw [htr.pNo]; omega), ok_bind]
    change (ensure _ _ >>= _) = _
    rw [ensure_of (by rw [htr.addPrimary_pNo]; omega), ok_bind, ht]
  | logical hext hzero hlba hroom _ ih =>
    intro s htr
    obtain ⟨t, ht, htr'⟩ := ih (htr.addLogical (by omega))
    refine ⟨t, ?_, htr'⟩
    rw [scanEntries, if_neg hext, if_pos hzero, if_neg hlba]
    rw [ensure_of (by rw [htr.lNo]; omega), ok_bind]
    change (if _ then _ else _) = _
    rw [if_neg (by rw [htr.addLogical_lNo]; omega), ht]
  | eighth hext hzero hlba hroom =>
    intro s htr
    refine ⟨_, ?_, htr.addLogical (by omega)⟩
    rw [scanEntries, if_neg hext, if_pos hzero, if_neg hlba]
    rw [ensure_of (by rw [htr.lNo]; omega), ok_bind]
    change (if _ then _ else _) = _
    rw [if_pos (by rw [htr.addLogical_lNo]; omega)]

/-- The scan of a disk from its boot record, and what it met. -/
theorem Tracks.scan_iff (htr : Tracks hd s₀ s w) :
    (∃ t, partitionScan disk hd (room + 1) 0 s = .ok t) ↔
      ∃ w', Visits disk room 0 (partitionTable disk 0) w w' := by
  constructor
  · rintro ⟨t, ht⟩
    obtain ⟨below, w', hroom, -, hvisit, -⟩ := partitionScan_visits disk hd s₀ _ _ _ _ _ htr ht
    obtain rfl : room = below := by omega
    exact ⟨w', hvisit⟩
  · rintro ⟨w', hvisit⟩
    obtain ⟨t, ht, -⟩ := scanEntries_of_visits hvisit htr
    refine ⟨t, ?_⟩
    rw [partitionScan, ensure_of (by decide), ok_bind, ht]

end Loop

theorem Progress.nodup_slots (w : Progress) : w.slots.Nodup := by
  refine List.nodup_append.mpr ⟨?_, ?_, ?_⟩
  · exact List.nodup_range.map fun i j h => Slot.prim.inj h
  · exact List.nodup_range.map fun i j h => Slot.logic.inj h
  · intro x hx y hy
    obtain ⟨i, -, rfl⟩ := List.mem_map.mp hx
    obtain ⟨j, -, rfl⟩ := List.mem_map.mp hy
    exact Slot.noConfusion

/-- Slots that the arrays of a disk have. -/
def Slot.Inside : Slot → Prop
  | .prim i => i < 4
  | .logic i => i < 8

theorem Tracks.inside {hd : ℕ} {s₀ s : State} {w : Progress} (h : Tracks hd s₀ s w)
    {slot : Slot} (hslot : slot ∈ w.slots) : slot.Inside := by
  have hprim := h.primaries
  have hlogic := h.logicals
  rcases List.mem_append.mp hslot with hslot | hslot
  · obtain ⟨i, hi, rfl⟩ := List.mem_map.mp hslot
    have hi := List.mem_range.mp hi
    exact show i < 4 by omega
  · obtain ⟨i, hi, rfl⟩ := List.mem_map.mp hslot
    have hi := List.mem_range.mp hi
    exact show i < 8 by omega

/-- The driver when `ide_init` comes to disk `hd`. -/
structure Fresh (hd : ℕ) (s : State) : Prop where
  pNo : s.pNo = 0
  lNo : s.lNo = 0
  nodup : s.partitionList.Nodup
  new : ∀ slot, (hd, slot) ∉ s.partitionList

/-- The scan ends without an assertion and a write outside the two arrays of its disk, and
links each of their partitions at most once. -/
def Survives (room : ℕ) (disk : Image) (hd : ℕ) (s : State) : Prop :=
  ∃ t, partitionScan disk hd room 0 s = .ok t ∧ t.partitionList.Nodup ∧
    (∀ d ≠ hd, t.devices d = s.devices d) ∧
    ∃ slots : List Slot, t.partitionList = s.partitionList ++ slots.map (Prod.mk hd) ∧
      ∀ slot ∈ slots, slot.Inside

theorem Fresh.tracks {hd : ℕ} {s : State} (h : Fresh hd s) :
    Tracks hd s s ⟨s.extLbaBase, [], []⟩ :=
  .start h.pNo h.lNo

/-- What is linked was new and is linked once. -/
theorem Tracks.nodup {hd : ℕ} {s₀ s : State} {w : Progress} (h : Tracks hd s₀ s w)
    (hnodup : s₀.partitionList.Nodup) (hnew : ∀ slot, (hd, slot) ∉ s₀.partitionList) :
    s.partitionList.Nodup := by
  obtain ⟨slots, hlist, hperm⟩ := h.list
  rw [hlist]
  refine List.nodup_append.mpr ⟨hnodup, ?_, ?_⟩
  · exact (hperm.nodup_iff.mpr w.nodup_slots).map fun i j hij => (Prod.mk.inj hij).2
  · rintro x hx y hy rfl
    obtain ⟨slot, -, rfl⟩ := List.mem_map.mp hy
    exact hnew slot hx

/-- A scan survives just those disks whose tables, followed from the boot record, are a
finite tree within the limits of the driver. -/
theorem partition_scan_survives_iff (room : ℕ) (disk : Image) {hd : ℕ} {s : State}
    (hs : Fresh hd s) :
    Survives (room + 1) disk hd s ↔
      ∃ w, Visits disk room 0 (partitionTable disk 0) ⟨s.extLbaBase, [], []⟩ w := by
  constructor
  · rintro ⟨t, ht, -⟩
    exact hs.tracks.scan_iff.mp ⟨t, ht⟩
  · rintro ⟨w, hvisit⟩
    obtain ⟨t, ht⟩ := hs.tracks.scan_iff.mpr ⟨w, hvisit⟩
    obtain ⟨-, w', -, -, -, htr⟩ := partitionScan_visits disk hd s _ _ _ _ _ hs.tracks ht
    obtain ⟨slots, hlist, hperm⟩ := htr.list
    refine ⟨t, ht, htr.nodup hs.nodup hs.new, ?_, slots, hlist, ?_⟩
    · intro d hd
      rw [htr.devices, Function.update_of_ne hd]
    · intro slot hslot
      exact htr.inside (hperm.mem_iff.mp hslot)

theorem fresh_boot (hd : ℕ) : Fresh hd {} where
  pNo := rfl
  lNo := rfl
  nodup := List.nodup_nil
  new _ := List.not_mem_nil

/-- A disk without partitions. -/
theorem partition_scan_survives_blank :
    Survives 1 Bytes.zeros 1 {} ↔
      ∃ w, Visits Bytes.zeros 0 0 (partitionTable Bytes.zeros 0) ⟨0, [], []⟩ w :=
  partition_scan_survives_iff 0 Bytes.zeros (fresh_boot 1)

/-- A boot record with four primary partitions. -/
def fourPrimaries : Image := fun i => if i ∈ [450, 466, 482, 498] then 0x83 else 0

theorem fourPrimaries_table :
    partitionTable fourPrimaries 0 = List.replicate 4 ⟨0x83, 0, 0⟩ := by
  decide

/-- The counter is checked behind the fourth primary partition, which has its place. -/
theorem partition_scan_not_survives : ¬ ∃ room, Survives room fourPrimaries 1 {} := by
  rintro ⟨room, t, ht, -⟩
  cases room with
  | zero => cases ht
  | succ room =>
    rw [partitionScan, ensure_of (by decide), ok_bind, fourPrimaries_table] at ht
    cases ht

end X86System.Ide
