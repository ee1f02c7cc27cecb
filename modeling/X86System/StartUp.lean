import X86System.Format
import X86System.Partitions
import X86System.Library.Logged

/-!
# The search for file systems at start-up

`filesys_init` reads the super block of the partitions that `ide_init` has found and
formats those without a file system. A running pointer goes through the two arrays of a
disk, and an index over the twelve places says when it has to change from one array to
the other. The index belongs to the whole search and is not set back for the next disk.
-/
namespace X86System.Ide
open Bytes Exec Logged
open FileSystem (maxLba)

/-- A partition of a disk, by the disk's number and its place there. -/
abbrev Place := ℕ × Slot

inductive SearchEvent
  | read (place : Place) (magic : UInt32)
  | format (place : Place)
  deriving DecidableEq

/-- The disks, and the kernel around them. -/
structure World where
  disks : ℕ → Image
  kernel : FileSystem.State

def Disk.partition? (d : Disk) : Slot → Option Partition
  | .prim i => d.primParts[i]?
  | .logic i => d.logicParts[i]?

/-- `part++`. -/
def Slot.next : Slot → Slot
  | .prim i => .prim (i + 1)
  | .logic i => .logic (i + 1)

/-- `*part`. -/
def Disk.load (d : Disk) (part : Slot) : Except Fault Partition :=
  match d.partition? part with
  | some p => .ok p
  | none => .error .overrun

section Search

variable (pad : Place → Vector UInt8 460) (devices : ℕ → Disk)

/-- The body of the innermost loop: one partition. `pad` is what the stack holds where
`partition_format` puts its super block. -/
def searchPart (hd : ℕ) (part : Slot) (w : World) : Logged SearchEvent Fault World := do
  let p ← (devices hd).load part
  if p.secCnt ≠ 0 then do
    let lba := p.startLba + 1
    ensure Fault.assert (lba.toNat ≤ maxLba)
    let magic := wordAt (w.disks hd) (512 * lba.toNat)
    event (.read (hd, part) magic)
    if magic = 0x19590318 then pure w
    else do
      event (.format (hd, part))
      let own ← FileSystem.deref p.myDisk
      let t ← FileSystem.partitionFormat (w.kernel.setDisk (w.disks own)) p.startLba p.secCnt
        (pad (hd, part))
      pure ⟨Function.update w.disks own t.disk, t⟩
  else pure w

/-- `while (part_idx < 12)`. -/
def searchParts (hd : ℕ) : ℕ → ℕ → Slot → World → Logged SearchEvent Fault (ℕ × World)
  | 0, partIdx, _, w => if partIdx < 12 then liftM (.error Fault.diverge : Except Fault _)
    else pure (partIdx, w)
  | fuel + 1, partIdx, part, w =>
    if partIdx < 12 then do
      let part := if partIdx = 4 then .logic 0 else part
      let w ← searchPart pad devices hd part w
      searchParts hd fuel (partIdx + 1) part.next w
    else pure (partIdx, w)

/-- A round of `while (dev_no < 2)`: the first disk of a channel is not searched. -/
def searchDevice (channelNo devNo partIdx : ℕ) (w : World) :
    Logged SearchEvent Fault (ℕ × World) :=
  if devNo = 0 then pure (partIdx, w)
  else searchParts pad devices (channelNo * 2 + devNo) 12 partIdx (.prim 0) w

/-- `while (channel_no < channel_cnt)`. -/
def searchChannels : ℕ → ℕ → ℕ → World → Logged SearchEvent Fault (ℕ × World)
  | 0, _, partIdx, w => pure (partIdx, w)
  | rest + 1, channelNo, partIdx, w => do
    let x ← searchDevice pad devices channelNo 0 partIdx w
    let x ← searchDevice pad devices channelNo 1 x.1 x.2
    searchChannels rest (channelNo + 1) x.1 x.2

/-- `filesys_init` up to the end of the search. -/
def filesysInitSearch (channelCnt : ℕ) (w : World) : Logged SearchEvent Fault World := do
  let (sbBuf, kernel) := FileSystem.sysMalloc w.kernel 512
  ensure Fault.assert (sbBuf.isSome = true)
  let x ← searchChannels pad devices channelCnt 0 0 { w with kernel := kernel }
  pure x.2

end Search

section Spec

/-- The reads of a log with what they found. -/
def reads (log : List SearchEvent) : List (Place × UInt32) :=
  log.filterMap fun e => match e with
    | .read place magic => some (place, magic)
    | .format _ => none

def formats (log : List SearchEvent) : List Place :=
  log.filterMap fun e => match e with
    | .read _ _ => none
    | .format place => some place

/-- The places of the two arrays of a disk. -/
def allSlots : List Slot := (List.range 4).map .prim ++ (List.range 8).map .logic

/-- The partitions of disk `hd` that have a size. -/
def occupied (devices : ℕ → Disk) (hd : ℕ) : List Place :=
  (allSlots.filter fun slot =>
    ((devices hd).partition? slot).any fun p => p.secCnt != 0).map (Prod.mk hd)

/-- Those of the disks that are searched. -/
def dataPartitions (devices : ℕ → Disk) (channelCnt : ℕ) : List Place :=
  (List.range channelCnt).flatMap fun channelNo => occupied devices (channelNo * 2 + 1)

/-- The super block of each partition is read once, nothing else is read, and what is
formatted are the partitions whose magic number is another. -/
structure VisitsOnce (log : List SearchEvent) (places : List Place) : Prop where
  reads : ((reads log).map Prod.fst).Perm places
  formats : formats log = ((Ide.reads log).filter fun x => x.2 != 0x19590318).map Prod.fst

end Spec

section Logs

variable {log log' : List SearchEvent} {places places' : List Place}

/-- The log of a search through these places, in this order. -/
structure Follows (log : List SearchEvent) (places : List Place) : Prop where
  reads : (reads log).map Prod.fst = places
  formats : formats log = ((Ide.reads log).filter fun x => x.2 != 0x19590318).map Prod.fst

theorem reads_append : reads (log ++ log') = reads log ++ reads log' := List.filterMap_append

theorem formats_append : formats (log ++ log') = formats log ++ formats log' :=
  List.filterMap_append

theorem Follows.nil : Follows [] [] where
  reads := rfl
  formats := rfl

theorem Follows.append (h : Follows log places) (h' : Follows log' places') :
    Follows (log ++ log') (places ++ places') where
  reads := by rw [reads_append, List.map_append, h.reads, h'.reads]
  formats := by
    rw [formats_append, reads_append, List.filter_append, List.map_append, h.formats, h'.formats]

theorem Follows.read (place : Place) : Follows [.read place 0x19590318] [place] where
  reads := rfl
  formats := rfl

theorem Follows.format {place : Place} {magic : UInt32} (h : magic ≠ 0x19590318) :
    Follows [.read place magic, .format place] [place] where
  reads := rfl
  formats := by
    have hbad : (magic != 0x19590318) = true := bne_iff_ne.mpr h
    change [place] = ([(place, magic)].filter fun x => x.2 != 0x19590318).map Prod.fst
    rw [List.filter_cons, if_pos hbad]
    rfl

theorem Follows.visitsOnce_iff (h : Follows log places) :
    VisitsOnce log places' ↔ places.Perm places' :=
  ⟨fun hv => h.reads ▸ hv.reads, fun hp => ⟨h.reads.symm ▸ hp, h.formats⟩⟩

end Logs

section Loops

variable {pad : Place → Vector UInt8 460} {devices : ℕ → Disk} {hd partIdx k : ℕ} {part : Slot}
  {w w' : World}

/-- A place as far as it counts: alone if its partition has a size. -/
def visited (devices : ℕ → Disk) (hd : ℕ) (slot : Slot) : List Place :=
  if ((devices hd).partition? slot).any fun p => p.secCnt != 0 then [(hd, slot)] else []

theorem load_eq_ok {d : Disk} {p : Partition} (h : d.load part = .ok p) :
    d.partition? part = some p := by
  unfold Disk.load at h
  cases hopt : d.partition? part with
  | none => rw [hopt] at h; cases h
  | some q =>
    rw [hopt] at h
    exact congrArg some (Except.ok.inj h)

theorem searchPart_follows (h : (searchPart pad devices hd part w).result = .ok w') :
    Follows (searchPart pad devices hd part w).log (visited devices hd part) := by
  unfold searchPart at h ⊢
  obtain ⟨p, hp, -⟩ := of_bind_eq_ok h
  have hp : (devices hd).load part = .ok p := hp
  rw [lift_bind hp] at h ⊢
  unfold visited
  rw [load_eq_ok hp]
  by_cases hsize : p.secCnt = 0
  · rw [if_neg (not_not_intro hsize), if_neg (by simp [hsize])]
    exact Follows.nil
  · rw [if_pos hsize] at h ⊢
    rw [if_pos (by simp [hsize])]
    obtain ⟨hreach, -⟩ := of_ensure_eq_ok h
    rw [lift_bind (ensure_of hreach), event_bind] at h ⊢
    by_cases hmagic : wordAt (w.disks hd) (512 * (p.startLba + 1).toNat) = 0x19590318
    · rw [if_pos hmagic, hmagic]
      exact Follows.read _
    · rw [if_neg hmagic, event_bind] at h ⊢
      obtain ⟨own, hown, h'⟩ := of_bind_eq_ok h
      obtain ⟨t, ht, -⟩ := of_bind_eq_ok h'
      have hown : FileSystem.deref p.myDisk = .ok own := hown
      have ht : FileSystem.partitionFormat (w.kernel.setDisk (w.disks own)) p.startLba p.secCnt
        (pad (hd, part)) = .ok t := ht
      rw [lift_bind hown, lift_bind ht]
      exact Follows.format hmagic

/-- The place that the pointer has at an index. -/
def slotAt (partIdx : ℕ) : Slot := if partIdx < 4 then .prim partIdx else .logic (partIdx - 4)

theorem slotAt_next (h : partIdx + 1 ≠ 4) : (slotAt partIdx).next = slotAt (partIdx + 1) := by
  unfold slotAt
  by_cases hlt : partIdx < 4
  · rw [if_pos hlt, if_pos (by omega)]
    rfl
  · rw [if_neg hlt, if_neg (by omega)]
    exact congrArg Slot.logic (by omega)

/-- A search of one disk goes through the places from the index on. -/
theorem searchParts_follows {fuel : ℕ} (hle : partIdx ≤ 12) (hfuel : 12 ≤ partIdx + fuel)
    (hpart : partIdx = 4 ∨ part = slotAt partIdx)
    (h : (searchParts pad devices hd fuel partIdx part w).result = .ok (k, w')) :
    k = 12 ∧ Follows (searchParts pad devices hd fuel partIdx part w).log
      ((List.range' partIdx (12 - partIdx)).flatMap fun i => visited devices hd (slotAt i)) := by
  induction fuel generalizing partIdx part w with
  | zero =>
    obtain rfl : partIdx = 12 := by omega
    obtain ⟨rfl, -⟩ := Prod.mk.inj (Except.ok.inj h)
    exact ⟨rfl, Follows.nil⟩
  | succ fuel ih =>
    unfold searchParts at h ⊢
    by_cases hlt : partIdx < 12
    · rw [if_pos hlt] at h ⊢
      obtain ⟨u, hu, h⟩ := of_bind_eq_ok h
      rw [log_bind hu]
      have hslot : (if partIdx = 4 then .logic 0 else part) = slotAt partIdx := by
        rcases hpart with rfl | rfl
        · rfl
        · split_ifs with h4
          · subst h4
            rfl
          · rfl
      rw [hslot] at hu h ⊢
      have hnext : partIdx + 1 = 4 ∨ (slotAt partIdx).next = slotAt (partIdx + 1) := by
        by_cases h3 : partIdx + 1 = 4
        · exact .inl h3
        · exact .inr (slotAt_next h3)
      obtain ⟨hk, hrest⟩ := ih (by omega) (by omega) hnext h
      refine ⟨hk, ?_⟩
      have hrange : List.range' partIdx (12 - partIdx) =
          partIdx :: List.range' (partIdx + 1) (12 - (partIdx + 1)) := by
        rw [show 12 - partIdx = (12 - (partIdx + 1)) + 1 by omega]
        rfl
      rw [hrange, List.flatMap_cons]
      exact (searchPart_follows hu).append hrest
    · rw [if_neg hlt] at h ⊢
      obtain rfl : partIdx = 12 := by omega
      obtain ⟨rfl, -⟩ := Prod.mk.inj (Except.ok.inj h)
      exact ⟨rfl, Follows.nil⟩

theorem occupied_eq (devices : ℕ → Disk) (hd : ℕ) :
    occupied devices hd = (List.range' 0 12).flatMap fun i => visited devices hd (slotAt i) := by
  have hslots : allSlots = (List.range' 0 12).map slotAt := by decide
  unfold occupied
  rw [hslots, List.filter_map, List.map_map]
  generalize List.range' 0 12 = l
  induction l with
  | nil => rfl
  | cons i l ih =>
    rw [List.flatMap_cons, ← ih, List.filter_cons]
    unfold visited
    simp only [Function.comp_apply]
    split_ifs
    · rfl
    · rfl

/-- The first disk is searched from its first place, every other one from behind its last. -/
theorem searchDevice_follows {channelNo : ℕ} (hle : partIdx = 0 ∨ partIdx = 12)
    (h : (searchDevice pad devices channelNo 1 partIdx w).result = .ok (k, w')) :
    k = 12 ∧ Follows (searchDevice pad devices channelNo 1 partIdx w).log
      (if partIdx = 0 then occupied devices (channelNo * 2 + 1) else []) := by
  unfold searchDevice at h ⊢
  rw [if_neg (by decide)] at h ⊢
  rcases hle with rfl | rfl
  · rw [if_pos rfl, occupied_eq]
    exact searchParts_follows (by omega) (by omega) (.inr rfl) h
  · rw [if_neg (by decide)]
    obtain ⟨rfl, -⟩ := Prod.mk.inj (Except.ok.inj h)
    exact ⟨rfl, Follows.nil⟩

/-- Only the first disk's partitions are searched, however many channels there are. -/
theorem searchChannels_follows {rest channelNo : ℕ} (hle : partIdx = 0 ∨ partIdx = 12)
    (h : (searchChannels pad devices rest channelNo partIdx w).result = .ok (k, w')) :
    Follows (searchChannels pad devices rest channelNo partIdx w).log
      (if partIdx = 0 ∧ rest ≠ 0 then occupied devices (channelNo * 2 + 1) else []) := by
  induction rest generalizing channelNo partIdx w with
  | zero =>
    rw [if_neg (fun h => h.2 rfl)]
    exact Follows.nil
  | succ rest ih =>
    obtain ⟨x, hx, h⟩ := of_bind_eq_ok h
    obtain rfl := Except.ok.inj hx
    obtain ⟨⟨k', u⟩, hu, h⟩ := of_bind_eq_ok h
    obtain ⟨rfl, hfirst⟩ := searchDevice_follows hle hu
    have hrest := ih (.inr rfl) h
    rw [if_neg (by omega)] at hrest
    have hlog : (searchChannels pad devices (rest + 1) channelNo partIdx w).log =
        (searchDevice pad devices channelNo 1 partIdx w).log ++
          (searchChannels pad devices rest (channelNo + 1) 12 u).log := by
      rw [searchChannels]
      exact log_bind hu
    rw [hlog]
    simpa using hfirst.append hrest

/-- What a search that comes to its end has read are the partitions of the first disk. -/
theorem filesysInitSearch_follows {channelCnt : ℕ}
    (h : (filesysInitSearch pad devices channelCnt w).result = .ok w') :
    Follows (filesysInitSearch pad devices channelCnt w).log
      (if channelCnt ≠ 0 then occupied devices 1 else []) := by
  obtain ⟨u, hu, h⟩ := of_bind_eq_ok h
  obtain ⟨x, hx, h⟩ := of_bind_eq_ok h
  have hfollows := searchChannels_follows (.inl rfl) hx
  simp only [true_and, Nat.zero_mul, Nat.zero_add] at hfollows
  have hlog : (filesysInitSearch pad devices channelCnt w).log =
      (searchChannels pad devices channelCnt 0 0
        { w with kernel := (FileSystem.sysMalloc w.kernel 512).2 }).log ++ [] := by
    unfold filesysInitSearch
    have hu : ensure Fault.assert ((FileSystem.sysMalloc w.kernel 512).1.isSome = true) = .ok u :=
      hu
    refine (congrArg Logged.log (lift_bind hu)).trans ?_
    exact log_bind hx
  rw [hlog, List.append_nil]
  exact hfollows

end Loops

section Coverage

variable {pad : Place → Vector UInt8 460} {devices : ℕ → Disk} {channelCnt : ℕ} {w w' : World}

/-- The partitions of the first disk are all partitions just if the others have none. -/
theorem occupied_perm_iff : ((if channelCnt ≠ 0 then occupied devices 1 else []).Perm
    (dataPartitions devices channelCnt)) ↔
      ∀ channelNo, 1 ≤ channelNo → channelNo < channelCnt →
        occupied devices (channelNo * 2 + 1) = [] := by
  cases channelCnt with
  | zero => simp [dataPartitions]
  | succ n =>
    have hsplit : dataPartitions devices (n + 1) = occupied devices 1 ++
        (List.range' 1 n).flatMap fun channelNo => occupied devices (channelNo * 2 + 1) := by
      unfold dataPartitions
      rw [List.range_eq_range']
      rfl
    rw [if_pos (by omega), hsplit]
    constructor
    · intro hperm channelNo hpos hlt
      have hlen := hperm.length_eq
      rw [List.length_append] at hlen
      have hnil : ((List.range' 1 n).flatMap fun channelNo =>
          occupied devices (channelNo * 2 + 1)) = [] := List.eq_nil_of_length_eq_zero (by omega)
      exact List.flatMap_eq_nil_iff.mp hnil channelNo (List.mem_range'_1.mpr ⟨hpos, by omega⟩)
    · intro hall
      have hnil : (List.range' 1 n).flatMap (fun channelNo => occupied devices (channelNo * 2 + 1)) =
          [] := by
        refine List.flatMap_eq_nil_iff.mpr fun channelNo hmem => ?_
        obtain ⟨hpos, hlt⟩ := List.mem_range'_1.mp hmem
        exact hall channelNo hpos (by omega)
      rw [hnil, List.append_nil]

/-- A disk whose first partition has a super block already. -/
def formattedImage : Image := fun i =>
  if i = 512 then 0x18 else if i = 513 then 0x03 else if i = 514 then 0x59
  else if i = 515 then 0x19 else 0

/-- Each data disk has one partition. -/
def onePartitionEach (hd : ℕ) : Disk where
  primParts := #v[⟨0, 5000, some hd, "sd"⟩, {}, {}, {}]

def formattedWorld : World := ⟨fun _ => formattedImage, FileSystem.blankState⟩

theorem formattedWorld_returns (channelCnt : ℕ) (h : channelCnt = 1 ∨ channelCnt = 2) :
    ∃ w', (filesysInitSearch (fun _ => .replicate 460 0) onePartitionEach channelCnt
      formattedWorld).result = .ok w' ∧ True := by
  rcases h with rfl | rfl
  · decide
  · decide

end Coverage

end X86System.Ide
