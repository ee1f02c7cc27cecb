import X86System.FileSystem
import X86System.Library.Logged

/-!
# Transfers of many sectors

`ide_read` and `ide_write` send a command for each 256 sectors and one for the rest. The
number of sectors of a command is passed as a byte, in which 256 is 0. The driver's
accesses to the ports are recorded; a device is what they make of its registers.
-/
namespace X86System.Ide
open Exec Logged
open FileSystem (maxLba)

section Driver

/-- What the driver does at the ports, and the wait for the interrupt. -/
inductive PortEvent
  | outb (port : UInt16) (data : UInt8)
  | insw (port : UInt16) (addr wordCnt : UInt32)
  | outsw (port : UInt16) (addr wordCnt : UInt32)
  | semaDown
  deriving DecidableEq, Repr

abbrev Driver : Type → Type := Logged PortEvent Fault

/-- `struct disk`, as far as a transfer reads it. -/
structure Drive where
  portBase : UInt16
  devNo : UInt8

namespace Drive

variable (hd : Drive)

def regData : UInt16 := hd.portBase + 0
def regSectCnt : UInt16 := hd.portBase + 2
def regLbaL : UInt16 := hd.portBase + 3
def regLbaM : UInt16 := hd.portBase + 4
def regLbaH : UInt16 := hd.portBase + 5
def regDev : UInt16 := hd.portBase + 6
def regCmd : UInt16 := hd.portBase + 7

end Drive

def bitDevMbs : UInt32 := 0xa0
def bitDevLba : UInt32 := 0x40
def bitDevDev : UInt32 := 0x10

def cmdReadSector : UInt8 := 0x20
def cmdWriteSector : UInt8 := 0x30

/-- The bit for the second disk of a channel. -/
def devBit (hd : Drive) : UInt32 := if hd.devNo = 1 then bitDevDev else 0

def selectDisk (hd : Drive) : Driver Unit :=
  event (.outb hd.regDev (bitDevMbs ||| bitDevLba ||| devBit hd).toUInt8)

def selectSector (hd : Drive) (lba : UInt32) (secCnt : UInt8) : Driver Unit := do
  liftM (ensure Fault.assert (lba.toNat ≤ maxLba))
  event (.outb hd.regSectCnt secCnt)
  event (.outb hd.regLbaL lba.toUInt8)
  event (.outb hd.regLbaM (lba >>> 8).toUInt8)
  event (.outb hd.regLbaH (lba >>> 16).toUInt8)
  event (.outb hd.regDev (bitDevMbs ||| bitDevLba ||| devBit hd ||| lba >>> 24).toUInt8)

def cmdOut (hd : Drive) (cmd : UInt8) : Driver Unit := event (.outb hd.regCmd cmd)

/-- `size_in_byte` of `read_from_sector` and of `write2sector`. -/
def sizeInByte (secCnt : UInt8) : UInt32 :=
  if secCnt = 0 then 256 * 512 else secCnt.toUInt32 * 512

def readFromSector (hd : Drive) (buf : UInt32) (secCnt : UInt8) : Driver Unit :=
  event (.insw hd.regData buf (sizeInByte secCnt / 2))

def write2sector (hd : Drive) (buf : UInt32) (secCnt : UInt8) : Driver Unit :=
  event (.outsw hd.regData buf (sizeInByte secCnt / 2))

variable (ready : UInt32 → Bool)

/-- The body of the loop of `ide_read`. `ready` tells what `busy_wait` returns after the command
for the sectors from `secsDone` on. -/
def readChunk (hd : Drive) (lba buf secsDone secsOp : UInt32) : Driver Unit := do
  selectSector hd (lba + secsDone) secsOp.toUInt8
  cmdOut hd cmdReadSector
  event .semaDown
  liftM (ensure Fault.assert (ready secsDone = true))
  readFromSector hd (buf + secsDone * 512) secsOp.toUInt8

/-- The body of the loop of `ide_write`. -/
def writeChunk (hd : Drive) (lba buf secsDone secsOp : UInt32) : Driver Unit := do
  selectSector hd (lba + secsDone) secsOp.toUInt8
  cmdOut hd cmdWriteSector
  liftM (ensure Fault.assert (ready secsDone = true))
  write2sector hd (buf + secsDone * 512) secsOp.toUInt8
  event .semaDown

/-- `while (secs_done < sec_cnt)`, for at most `fuel` rounds. -/
def sectorLoop (chunk : UInt32 → UInt32 → Driver Unit) (secCnt : UInt32) : ℕ → UInt32 → Driver Unit
  | 0, _ => liftM (.error Fault.diverge : Except Fault Unit)
  | fuel + 1, secsDone =>
    if secsDone < secCnt then do
      let secsOp := if secsDone + 256 ≤ secCnt then 256 else secCnt - secsDone
      chunk secsDone secsOp
      sectorLoop chunk secCnt fuel (secsDone + secsOp)
    else pure ()

/-- `ide_read` of the disk `hd` to the address `buf`. -/
def ideRead (hd : Drive) (lba buf secCnt : UInt32) : Driver Unit := do
  liftM (ensure Fault.assert (lba.toNat ≤ maxLba))
  liftM (ensure Fault.assert (0 < secCnt))
  selectDisk hd
  sectorLoop (readChunk ready hd lba buf) secCnt (secCnt.toNat + 1) 0

/-- `ide_write`. -/
def ideWrite (hd : Drive) (lba buf secCnt : UInt32) : Driver Unit := do
  liftM (ensure Fault.assert (lba.toNat ≤ maxLba))
  liftM (ensure Fault.assert (0 < secCnt))
  selectDisk hd
  sectorLoop (writeChunk ready hd lba buf) secCnt (secCnt.toNat + 1) 0

end Driver

section Device

/-- Data that are moved between the device and memory. -/
structure Move where
  toMemory : Bool
  addr : UInt32
  bytes : ℕ
  deriving DecidableEq, Repr

/-- A command with what it addresses, and the moves up to the next one. -/
structure Transfer where
  cmd : UInt8
  lbaMode : Bool
  slave : Bool
  lba : ℕ
  sectors : ℕ
  moves : List Move := []
  deriving DecidableEq, Repr

/-- The registers of a channel, and the commands so far, the last one first. -/
structure Ata where
  sectCnt : UInt8
  lbaL : UInt8
  lbaM : UInt8
  lbaH : UInt8
  dev : UInt8
  done : List Transfer := []

/-- The command that the registers describe; a sector count of 0 stands for 256. -/
def Ata.transfer (s : Ata) (cmd : UInt8) : Transfer where
  cmd := cmd
  lbaMode := s.dev &&& 0x40 ≠ 0
  slave := s.dev &&& 0x10 ≠ 0
  lba := s.lbaL.toNat + s.lbaM.toNat * 2 ^ 8 + s.lbaH.toNat * 2 ^ 16 + (s.dev &&& 0x0f).toNat * 2 ^ 24
  sectors := if s.sectCnt = 0 then 256 else s.sectCnt.toNat

/-- Data belong to the last command. -/
def Ata.move (s : Ata) (m : Move) : Ata :=
  match s.done with
  | [] => s
  | t :: done => { s with done := { t with moves := t.moves ++ [m] } :: done }

/-- An access to the ports from `base` on. -/
def Ata.step (base : UInt16) (s : Ata) : PortEvent → Ata
  | .outb port data =>
    if port = base + 2 then { s with sectCnt := data }
    else if port = base + 3 then { s with lbaL := data }
    else if port = base + 4 then { s with lbaM := data }
    else if port = base + 5 then { s with lbaH := data }
    else if port = base + 6 then { s with dev := data }
    else if port = base + 7 then { s with done := s.transfer data :: s.done }
    else s
  | .insw port addr wordCnt => if port = base then s.move ⟨true, addr, 2 * wordCnt.toNat⟩ else s
  | .outsw port addr wordCnt => if port = base then s.move ⟨false, addr, 2 * wordCnt.toNat⟩ else s
  | .semaDown => s

/-- The commands that a device gets which starts with the registers of `s`. -/
def Ata.commands (base : UInt16) (s : Ata) (events : List PortEvent) : List Transfer :=
  (events.foldl (Ata.step base) { s with done := [] }).done.reverse

/-- The commands are for the sectors from `lba` on, in order and each once. Each moves as many
bytes as it has sectors times 512, to or from where its first sector belongs in the buffer. -/
structure Covers (ts : List Transfer) (cmd : UInt8) (toMemory slave : Bool)
    (lba buf secCnt : UInt32) : Prop where
  sectors : (ts.flatMap fun t => (List.range t.sectors).map (t.lba + ·)) =
    (List.range secCnt.toNat).map (lba.toNat + ·)
  moves : ∀ t ∈ ts, t.cmd = cmd ∧ t.lbaMode = true ∧ t.slave = slave ∧ lba.toNat ≤ t.lba ∧
    t.moves = [⟨toMemory, buf + 512 * UInt32.ofNat (t.lba - lba.toNat), 512 * t.sectors⟩]

end Device

section Chunks

variable {ready : UInt32 → Bool} {hd : Drive} {lba buf secsDone secsOp : UInt32} {s : Ata}
  {base : UInt16}

/-- The accesses that select the sectors and send the command. -/
def selectEvents (hd : Drive) (lba : UInt32) (secCnt cmd : UInt8) : List PortEvent :=
  [.outb hd.regSectCnt secCnt, .outb hd.regLbaL lba.toUInt8, .outb hd.regLbaM (lba >>> 8).toUInt8,
    .outb hd.regLbaH (lba >>> 16).toUInt8,
    .outb hd.regDev (bitDevMbs ||| bitDevLba ||| devBit hd ||| lba >>> 24).toUInt8,
    .outb hd.regCmd cmd]

theorem readChunk_eq (hlba : (lba + secsDone).toNat ≤ maxLba) (hready : ready secsDone = true) :
    readChunk ready hd lba buf secsDone secsOp = ⟨.ok (),
      selectEvents hd (lba + secsDone) secsOp.toUInt8 cmdReadSector ++ [.semaDown,
        .insw hd.regData (buf + secsDone * 512) (sizeInByte secsOp.toUInt8 / 2)]⟩ := by
  unfold readChunk selectSector
  rw [ensure_of hlba, ensure_of hready]
  rfl

theorem writeChunk_eq (hlba : (lba + secsDone).toNat ≤ maxLba) (hready : ready secsDone = true) :
    writeChunk ready hd lba buf secsDone secsOp = ⟨.ok (),
      selectEvents hd (lba + secsDone) secsOp.toUInt8 cmdWriteSector ++
        [.outsw hd.regData (buf + secsDone * 512) (sizeInByte secsOp.toUInt8 / 2), .semaDown]⟩ := by
  unfold writeChunk selectSector
  rw [ensure_of hlba, ensure_of hready]
  rfl

/-- A chunk of 256 sectors is passed as 0, which the driver and the device take for 256. -/
theorem toNat_sizeInByte (hpos : 0 < secsOp.toNat) (hop : secsOp.toNat ≤ 256) :
    2 * (sizeInByte secsOp.toUInt8 / 2).toNat = 512 * secsOp.toNat ∧
      (if secsOp.toUInt8 = 0 then 256 else secsOp.toUInt8.toNat) = secsOp.toNat := by
  by_cases hfull : secsOp.toNat = 256
  · have hzero : secsOp.toUInt8 = 0 := by
      apply UInt8.toNat_inj.mp
      rw [UInt32.toNat_toUInt8, hfull]
      rfl
    rw [hzero, hfull]
    decide
  · have hbyte : secsOp.toUInt8.toNat = secsOp.toNat := by
      rw [UInt32.toNat_toUInt8]
      omega
    have hne : secsOp.toUInt8 ≠ 0 := by
      intro hzero
      rw [hzero] at hbyte
      exact absurd hbyte.symm (Nat.pos_iff_ne_zero.mp hpos)
    unfold sizeInByte
    rw [if_neg hne, if_neg hne, hbyte, UInt32.toNat_div, UInt32.toNat_mul, UInt8.toNat_toUInt32,
      hbyte]
    refine ⟨?_, rfl⟩
    show 2 * (secsOp.toNat * 512 % 4294967296 / 2) = _
    omega

/-- What the registers say of the sectors. -/
theorem select_lba (hd : Drive) (hlba : lba.toNat ≤ maxLba) :
    let dev := (bitDevMbs ||| bitDevLba ||| devBit hd ||| lba >>> 24).toUInt8
    lba.toUInt8.toNat + (lba >>> 8).toUInt8.toNat * 2 ^ 8 + (lba >>> 16).toUInt8.toNat * 2 ^ 16 +
      (dev &&& 0x0f).toNat * 2 ^ 24 = lba.toNat ∧ (dev &&& 0x40 ≠ 0) ∧
        (dev &&& 0x10 ≠ 0 ↔ hd.devNo = 1) := by
  have hhigh : lba >>> 24 = 0 := by
    apply UInt32.toNat_inj.mp
    have hle : lba.toNat ≤ 163839 := hlba
    rw [UInt32.toNat_shiftRight]
    show lba.toNat >>> 24 = 0
    rw [Nat.shiftRight_eq_div_pow]
    omega
  rw [hhigh]
  dsimp only
  refine ⟨?_, ?_, ?_⟩
  · have hdev : (bitDevMbs ||| bitDevLba ||| devBit hd ||| 0).toUInt8 &&& 0x0f = 0 := by
      unfold devBit
      split_ifs <;> decide
    have hle : lba.toNat ≤ 163839 := hlba
    rw [hdev, UInt32.toNat_toUInt8, UInt32.toNat_toUInt8, UInt32.toNat_toUInt8,
      UInt32.toNat_shiftRight, UInt32.toNat_shiftRight]
    show lba.toNat % 256 + lba.toNat >>> 8 % 256 * 2 ^ 8 + lba.toNat >>> 16 % 256 * 2 ^ 16 + 0 = _
    rw [Nat.shiftRight_eq_div_pow, Nat.shiftRight_eq_div_pow]
    omega
  · unfold devBit
    split_ifs <;> decide
  · unfold devBit
    split_ifs with h <;> simp [h] <;> decide

/-- The command that a device gets from a chunk. -/
def chunkTransfer (hd : Drive) (cmd : UInt8) (toMemory : Bool) (lba buf secsDone secsOp : UInt32) :
    Transfer where
  cmd := cmd
  lbaMode := true
  slave := decide (hd.devNo = 1)
  lba := (lba + secsDone).toNat
  sectors := secsOp.toNat
  moves := [⟨toMemory, buf + secsDone * 512, 512 * secsOp.toNat⟩]

theorem select_done (hd : Drive) (hlba : lba.toNat ≤ maxLba) (hpos : 0 < secsOp.toNat)
    (hop : secsOp.toNat ≤ 256) (cmd : UInt8) :
    ((selectEvents hd lba secsOp.toUInt8 cmd).foldl (Ata.step hd.portBase) s).done =
      { cmd := cmd, lbaMode := true, slave := decide (hd.devNo = 1), lba := lba.toNat,
        sectors := secsOp.toNat } :: s.done := by
  obtain ⟨haddr, hmode, hslave⟩ := select_lba hd hlba
  unfold selectEvents
  generalize (bitDevMbs ||| bitDevLba ||| devBit hd ||| lba >>> 24).toUInt8 = dev at *
  have hstep : (List.foldl (Ata.step hd.portBase) s [.outb hd.regSectCnt secsOp.toUInt8,
      .outb hd.regLbaL lba.toUInt8, .outb hd.regLbaM (lba >>> 8).toUInt8,
      .outb hd.regLbaH (lba >>> 16).toUInt8, .outb hd.regDev dev, .outb hd.regCmd cmd]).done =
      Ata.transfer ⟨secsOp.toUInt8, lba.toUInt8, (lba >>> 8).toUInt8, (lba >>> 16).toUInt8, dev,
        s.done⟩ cmd :: s.done := by
    simp [Ata.step, Drive.regSectCnt, Drive.regLbaL, Drive.regLbaM, Drive.regLbaH, Drive.regDev,
      Drive.regCmd]
  rw [hstep, Ata.transfer]
  dsimp only
  rw [haddr, (toNat_sizeInByte hpos hop).2, decide_eq_true hmode, decide_eq_decide.mpr hslave]

theorem readChunk_done (hlba : (lba + secsDone).toNat ≤ maxLba) (hready : ready secsDone = true)
    (hpos : 0 < secsOp.toNat) (hop : secsOp.toNat ≤ 256) :
    ((readChunk ready hd lba buf secsDone secsOp).log.foldl (Ata.step hd.portBase) s).done =
      chunkTransfer hd cmdReadSector true lba buf secsDone secsOp :: s.done := by
  rw [readChunk_eq hlba hready, List.foldl_append]
  have hdone := select_done (s := s) hd hlba hpos hop cmdReadSector
  generalize (selectEvents hd (lba + secsDone) secsOp.toUInt8 cmdReadSector).foldl
    (Ata.step hd.portBase) s = t at *
  simp only [Ata.step, Ata.move, Drive.regData, hdone, chunkTransfer, List.foldl_cons, List.foldl_nil,
    UInt16.add_zero, if_true, List.nil_append, (toNat_sizeInByte hpos hop).1]

theorem writeChunk_done (hlba : (lba + secsDone).toNat ≤ maxLba) (hready : ready secsDone = true)
    (hpos : 0 < secsOp.toNat) (hop : secsOp.toNat ≤ 256) :
    ((writeChunk ready hd lba buf secsDone secsOp).log.foldl (Ata.step hd.portBase) s).done =
      chunkTransfer hd cmdWriteSector false lba buf secsDone secsOp :: s.done := by
  rw [writeChunk_eq hlba hready, List.foldl_append]
  have hdone := select_done (s := s) hd hlba hpos hop cmdWriteSector
  generalize (selectEvents hd (lba + secsDone) secsOp.toUInt8 cmdWriteSector).foldl
    (Ata.step hd.portBase) s = t at *
  simp only [Ata.step, Ata.move, Drive.regData, hdone, chunkTransfer, List.foldl_cons, List.foldl_nil,
    UInt16.add_zero, if_true, List.nil_append, (toNat_sizeInByte hpos hop).1]

end Chunks

section Loops

variable {chunk : UInt32 → UInt32 → Driver Unit} {hd : Drive} {lba buf secCnt : UInt32} {cmd : UInt8}
  {toMemory : Bool}

/-- A chunk within the range sends one command for its sectors. -/
def Chunks (chunk : UInt32 → UInt32 → Driver Unit) (hd : Drive) (cmd : UInt8) (toMemory : Bool)
    (lba buf secCnt : UInt32) : Prop :=
  ∀ secsDone secsOp : UInt32, secsDone.toNat < secCnt.toNat → 0 < secsOp.toNat → secsOp.toNat ≤ 256 →
    (chunk secsDone secsOp).result = .ok () ∧ ∀ s : Ata,
      ((chunk secsDone secsOp).log.foldl (Ata.step hd.portBase) s).done =
        chunkTransfer hd cmd toMemory lba buf secsDone secsOp :: s.done

/-- How many sectors a round takes. -/
theorem secsOp_spec {secsDone : UInt32} (hlt : secsDone < secCnt) (hcnt : secCnt.toNat ≤ maxLba + 1) :
    let secsOp := if secsDone + 256 ≤ secCnt then 256 else secCnt - secsDone
    0 < secsOp.toNat ∧ secsOp.toNat ≤ 256 ∧
      (secsDone + secsOp).toNat = secsDone.toNat + secsOp.toNat ∧
        secsDone.toNat + secsOp.toNat ≤ secCnt.toNat := by
  have hlt : secsDone.toNat < secCnt.toNat := hlt
  have hcnt : secCnt.toNat ≤ 163840 := hcnt
  have hsum : (secsDone + 256).toNat = secsDone.toNat + 256 := by
    rw [UInt32.toNat_add]
    show (secsDone.toNat + 256) % 4294967296 = _
    omega
  dsimp only
  split_ifs with hfull
  · have hfull : (secsDone + 256).toNat ≤ secCnt.toNat := hfull
    rw [hsum] at hfull ⊢
    exact ⟨by decide, by decide, rfl, hfull⟩
  · have hrest : ¬ (secsDone + 256).toNat ≤ secCnt.toNat := hfull
    have hsub : (secCnt - secsDone).toNat = secCnt.toNat - secsDone.toNat :=
      UInt32.toNat_sub_of_le _ _ (UInt32.le_iff_toNat_le.mpr hlt.le)
    rw [hsum] at hrest
    rw [UInt32.toNat_add, hsub]
    omega

/-- The loop sends the commands for the sectors that are left. -/
theorem sectorLoop_covers (hchunk : Chunks chunk hd cmd toMemory lba buf secCnt)
    (hmax : lba.toNat + secCnt.toNat ≤ maxLba + 1) (fuel : ℕ) : ∀ secsDone : UInt32,
    secsDone.toNat ≤ secCnt.toNat → secCnt.toNat - secsDone.toNat < fuel →
    (sectorLoop chunk secCnt fuel secsDone).result = .ok () ∧ ∀ s : Ata, ∃ ts : List Transfer,
      ((sectorLoop chunk secCnt fuel secsDone).log.foldl (Ata.step hd.portBase) s).done =
        ts.reverse ++ s.done ∧
      (ts.flatMap fun t => (List.range t.sectors).map (t.lba + ·)) =
        (List.range (secCnt.toNat - secsDone.toNat)).map (lba.toNat + secsDone.toNat + ·) ∧
      ∀ t ∈ ts, ∃ d o : UInt32, d.toNat < secCnt.toNat ∧
        t = chunkTransfer hd cmd toMemory lba buf d o := by
  induction fuel with
  | zero => exact fun _ _ h => absurd h (Nat.not_lt_zero _)
  | succ fuel ih =>
    intro secsDone hle hfuel
    have hcnt : secCnt.toNat ≤ maxLba + 1 := (Nat.le_add_left _ _).trans hmax
    unfold sectorLoop
    by_cases hlt : secsDone < secCnt
    · obtain ⟨hpos, hop, hadd, hnext⟩ := secsOp_spec hlt hcnt
      rw [if_pos hlt]
      dsimp only
      generalize (if secsDone + 256 ≤ secCnt then 256 else secCnt - secsDone : UInt32) = op at *
      obtain ⟨hres, hdev⟩ := hchunk secsDone op hlt hpos hop
      obtain ⟨hrest, hrun⟩ := ih (secsDone + op) (by omega) (by omega)
      refine ⟨?_, fun s => ?_⟩
      · rw [result_bind, hres, ok_bind, hrest]
      · obtain ⟨ts, hdone, hsectors, hts⟩ := hrun ((chunk secsDone op).log.foldl
          (Ata.step hd.portBase) s)
        refine ⟨chunkTransfer hd cmd toMemory lba buf secsDone op :: ts, ?_, ?_, ?_⟩
        · rw [log_bind hres, List.foldl_append, hdone, hdev, List.reverse_cons, List.append_assoc,
            List.singleton_append]
        · have hsplit : secCnt.toNat - secsDone.toNat =
              op.toNat + (secCnt.toNat - (secsDone + op).toNat) := by omega
          have hlba : (lba + secsDone).toNat = lba.toNat + secsDone.toNat := by
            have hmax : lba.toNat + secCnt.toNat ≤ 163840 := hmax
            have hlt : secsDone.toNat < secCnt.toNat := hlt
            rw [UInt32.toNat_add]
            omega
          rw [List.flatMap_cons, hsectors, hsplit, List.range_add, List.map_append, List.map_map]
          show (List.range op.toNat).map ((lba + secsDone).toNat + ·) ++ _ = _
          rw [hlba, hadd]
          refine congrArg _ (List.map_congr_left fun k _ => ?_)
          show _ = lba.toNat + secsDone.toNat + (op.toNat + k)
          omega
        · intro t ht
          rcases List.mem_cons.mp ht with rfl | ht
          · exact ⟨secsDone, op, hlt, rfl⟩
          · exact hts t ht
    · have hdone : secCnt.toNat - secsDone.toNat = 0 := by
        have hnot : ¬ secsDone.toNat < secCnt.toNat := hlt
        omega
      rw [if_neg hlt]
      refine ⟨rfl, fun s => ⟨[], rfl, ?_, fun t ht => absurd ht List.not_mem_nil⟩⟩
      rw [hdone]
      rfl

/-- The commands of a call, and where their data are. -/
theorem sectorLoop_all (hchunk : Chunks chunk hd cmd toMemory lba buf secCnt)
    (hmax : lba.toNat + secCnt.toNat ≤ maxLba + 1) (hpos : 0 < secCnt) (s : Ata) :
    let call : Driver Unit := do
      liftM (ensure Fault.assert (lba.toNat ≤ maxLba))
      liftM (ensure Fault.assert (0 < secCnt))
      selectDisk hd
      sectorLoop chunk secCnt (secCnt.toNat + 1) 0
    call.result = .ok () ∧ Covers (s.commands hd.portBase call.log) cmd toMemory
      (decide (hd.devNo = 1)) lba buf secCnt := by
  have hlba : lba.toNat ≤ maxLba := by
    have hpos : 0 < secCnt.toNat := hpos
    omega
  obtain ⟨hres, hrun⟩ := sectorLoop_covers hchunk hmax (secCnt.toNat + 1) 0
    (Nat.zero_le _) (Nat.lt_succ_of_le (Nat.sub_le _ _))
  obtain ⟨ts, hdone, hsectors, hts⟩ := hrun (Ata.step hd.portBase { s with done := [] }
    (.outb hd.regDev (bitDevMbs ||| bitDevLba ||| devBit hd).toUInt8))
  dsimp only
  rw [lift_bind (ensure_of hlba), lift_bind (ensure_of hpos)]
  refine ⟨hres, ?_⟩
  have hcommands : s.commands hd.portBase (selectDisk hd >>= fun _ =>
      sectorLoop chunk secCnt (secCnt.toNat + 1) 0).log = ts := by
    unfold Ata.commands selectDisk
    rw [event_bind, List.foldl_cons, hdone]
    simp [Ata.step, Drive.regDev]
  rw [hcommands]
  refine ⟨by simpa using hsectors, fun t ht => ?_⟩
  obtain ⟨d, o, hlt, rfl⟩ := hts t ht
  have hsum : (lba + d).toNat = lba.toNat + d.toNat := by
    have hmax : lba.toNat + secCnt.toNat ≤ 163840 := hmax
    rw [UInt32.toNat_add]
    omega
  have haddr : UInt32.ofNat ((lba + d).toNat - lba.toNat) = d := by
    rw [hsum, Nat.add_sub_cancel_left, UInt32.ofNat_toNat]
  refine ⟨rfl, rfl, rfl, ?_, ?_⟩
  · show lba.toNat ≤ (lba + d).toNat
    omega
  · show [Move.mk toMemory (buf + d * 512) (512 * o.toNat)] =
      [Move.mk toMemory (buf + 512 * UInt32.ofNat ((lba + d).toNat - lba.toNat)) (512 * o.toNat)]
    rw [haddr, UInt32.mul_comm]

end Loops

section Transfers

variable {ready : UInt32 → Bool} {hd : Drive} {lba buf secCnt : UInt32}

theorem toNat_range {secsDone : UInt32} (hmax : lba.toNat + secCnt.toNat ≤ maxLba + 1)
    (hlt : secsDone.toNat < secCnt.toNat) : (lba + secsDone).toNat ≤ maxLba := by
  rw [UInt32.toNat_add]
  exact (Nat.mod_le _ _).trans (by omega)

theorem chunks_read (hready : ∀ n, ready n = true) (hmax : lba.toNat + secCnt.toNat ≤ maxLba + 1) :
    Chunks (readChunk ready hd lba buf) hd cmdReadSector true lba buf secCnt := by
  intro secsDone secsOp hlt hpos hop
  have hlba := toNat_range hmax hlt
  exact ⟨by rw [readChunk_eq hlba (hready _)], fun s => readChunk_done hlba (hready _) hpos hop⟩

theorem chunks_write (hready : ∀ n, ready n = true) (hmax : lba.toNat + secCnt.toNat ≤ maxLba + 1) :
    Chunks (writeChunk ready hd lba buf) hd cmdWriteSector false lba buf secCnt := by
  intro secsDone secsOp hlt hpos hop
  have hlba := toNat_range hmax hlt
  exact ⟨by rw [writeChunk_eq hlba (hready _)], fun s => writeChunk_done hlba (hready _) hpos hop⟩

end Transfers

/-- `ide_read` and `ide_write` return, and their commands cover the sectors of the call. -/
theorem transfers_cover_range (ready : UInt32 → Bool) (hready : ∀ n, ready n = true) (hd : Drive)
    (lba buf secCnt : UInt32) (hpos : 1 ≤ secCnt) (hmax : lba.toNat + secCnt.toNat - 1 ≤ maxLba)
    (s : Ata) :
    ((ideRead ready hd lba buf secCnt).result = .ok () ∧
      Covers (s.commands hd.portBase (ideRead ready hd lba buf secCnt).log) cmdReadSector true
        (decide (hd.devNo = 1)) lba buf secCnt) ∧
    (ideWrite ready hd lba buf secCnt).result = .ok () ∧
      Covers (s.commands hd.portBase (ideWrite ready hd lba buf secCnt).log) cmdWriteSector false
        (decide (hd.devNo = 1)) lba buf secCnt := by
  have hcnt : 0 < secCnt := hpos
  have hend : lba.toNat + secCnt.toNat ≤ maxLba + 1 := by omega
  exact ⟨sectorLoop_all (chunks_read hready hend) hend hcnt s,
    sectorLoop_all (chunks_write hready hend) hend hcnt s⟩

/-- 300 sectors from sector 100 on, in two commands. -/
theorem transfers_cover_range_sample :
    (ideRead (fun _ => true) ⟨0x1f0, 1⟩ 100 0x10000 300).result = .ok () ∧
      Covers (Ata.commands 0x1f0 ⟨0, 0, 0, 0, 0, []⟩
        (ideRead (fun _ => true) ⟨0x1f0, 1⟩ 100 0x10000 300).log) 0x20 true true 100 0x10000 300 :=
  (transfers_cover_range (fun _ => true) (fun _ => rfl) ⟨0x1f0, 1⟩ 100 0x10000 300 (by decide)
    (by decide) ⟨0, 0, 0, 0, 0, []⟩).1

end X86System.Ide
