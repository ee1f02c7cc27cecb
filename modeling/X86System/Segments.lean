import X86System.DescriptorCalls
import X86System.Format
import X86System.FileLimits
import X86System.PageRequests
import X86System.UserBytes

/-!
# Loading a segment of a program

`segment_load` asks for the pages of a segment and reads the segment from the file into
them. Whether a page is there is decided by the entry of the directory alone, looked at
twice. What the read returns is not looked at, so a segment counts as loaded also where
nothing was read. The file system and the memory of the process are one state each; the
buffers of `file_read` are no part of the segment's pages.
-/
namespace X86System.Loader
open Bytes Exec Paging Memory

/-- The loop of `segment_load` that asks for its pages. -/
def mapSegment : ℕ → ℕ → Machine → Except Fault (Bool × Machine)
  | 0, _, m => .ok (true, m)
  | cnt + 1, vaddrPage, m => do
    let pde ← m.load (pdePtr vaddrPage)
    let pte ← m.load (pdePtr vaddrPage)
    if pde &&& 1 = 0 ∨ pte &&& 1 = 0 then
      match ← getAPage m .user vaddrPage with
      | (none, m) => .ok (false, m)
      | (some _, m) => mapSegment cnt ((vaddrPage + pgSize) % 2 ^ 32) m
    else mapSegment cnt ((vaddrPage + pgSize) % 2 ^ 32) m

/-- `sys_read` to the memory at `vaddr`, from a descriptor that `load` has opened: it is
neither the keyboard nor a pipe. -/
def sysRead (s : FileSystem.State) (m : Machine) (fd vaddr : ℕ) (count : UInt32) :
    Except Fault (Option UInt32 × FileSystem.State × Machine) := do
  ensure Fault.assert (vaddr ≠ 0)
  let g ← FileSystem.fdLocal2Global s fd
  let (read, dst, s) ← FileSystem.fileRead s g zeros count
  let m ← m.storeBytes vaddr (FileSystem.bytesAt dst (read.elim 0 UInt32.toNat))
  .ok (read, s, m)

/-- How many pages a segment lies in. -/
def occupyPages (filesz vaddr : UInt32) : UInt32 :=
  let sizeInFirstPage := 4096 - (vaddr &&& 0x00000fff)
  if filesz > sizeInFirstPage then
    let leftSize := filesz - sizeInFirstPage
    FileSystem.divRoundUp leftSize 4096 + 1
  else 1

/-- `segment_load`; `true` stands for 1. -/
def segmentLoad (s : FileSystem.State) (m : Machine) (fd : ℕ) (offset filesz vaddr : UInt32) :
    Except Fault (Bool × FileSystem.State × Machine) := do
  let vaddrFirstPage := vaddr &&& 0xfffff000
  match ← mapSegment (occupyPages filesz vaddr).toNat vaddrFirstPage.toNat m with
  | (false, m) => .ok (false, s, m)
  | (true, m) =>
    let (_, s) ← FileSystem.sysLseek s fd offset.toInt32 1
    let (_, s, m) ← sysRead s m fd vaddr.toNat filesz
    .ok (true, s, m)

/-- Where `segment_load` returns 1, every page of the segment is mapped with its bit set, and the
bytes of the segment are those of the file with the inode `x`. -/
def LoadsSegment (s : FileSystem.State) (x : FileSystem.Inode) (m : Machine) (fd : ℕ)
    (offset filesz vaddr : UInt32) : Prop :=
  ∀ t m', segmentLoad s m fd offset filesz vaddr = .ok (true, t, m') →
    (∀ n, vaddr.toNat / 4096 ≤ n → n * 4096 < vaddr.toNat + filesz.toNat →
      walk m'.ram m'.cr3 (n * 4096) ≠ none ∧
      bitmapScanTest (m'.vaddrs .user).vaddrBitmap ((n * 4096 - userVaddrStart) / 4096) = true) ∧
    ∀ i b, i < filesz.toNat → (s.contents x)[offset.toNat + i]? = some b →
      m'.loadByte (vaddr.toNat + i) = .ok b

section Reading

variable {s : FileSystem.State} {g fd : ℕ} {f : FileSystem.File} {a : FileSystem.InodePtr}
  {x : FileSystem.Inode} {offset filesz : UInt32}

/-- A position in a file passes the check of `sys_lseek`. -/
theorem seek_inside {size : UInt32} (hlt : offset.toNat < size.toNat) (hsize : size.toNat < 2 ^ 31) :
    ¬ (offset.toInt32 < 0 ∨ offset.toInt32 > size.toInt32 - 1) := by
  have hoff : offset.toInt32.toInt = offset.toNat := by
    change offset.toBitVec.toInt = _
    exact BitVec.toInt_eq_toNat_of_lt (by change 2 * offset.toNat < _; omega)
  have hlast : (size.toInt32 - 1).toInt = size.toNat - 1 := by
    change (size.toBitVec - 1#32).toInt = _
    have hnat : (size.toBitVec - 1#32).toNat = size.toNat - 1 := by
      rw [BitVec.toNat_sub]
      change (2 ^ 32 - 1 + size.toNat) % 2 ^ 32 = _
      omega
    rw [BitVec.toInt_eq_toNat_of_lt (by omega), hnat]
    omega
  rw [gt_iff_lt, Int32.lt_iff_toInt_lt, Int32.lt_iff_toInt_lt, hoff, hlast]
  change ¬ ((offset.toNat : ℤ) < 0 ∨ _)
  omega

/-- `sys_lseek` to a position in a file. -/
theorem sysLseek_eq (h : FileSystem.RegularFile s g f a x)
    (hfd : FileSystem.fdLocal2Global s fd = .ok g) (hlt : offset.toNat < x.iSize.toNat) :
    FileSystem.sysLseek s fd offset.toInt32 1 =
      .ok (.value (some offset), s.setFile g { f with fdPos := offset }) := by
  have hsize := h.size_le
  have hneg : ¬ (fd : ℤ) < 0 := by omega
  unfold FileSystem.sysLseek
  rw [if_neg hneg, ensure_of (by decide), ok_bind, Int.toNat_natCast, hfd, ok_bind,
    FileSystem.file_of_slot h.slot, ok_bind, h.pointer, FileSystem.deref_some, ok_bind, h.inode,
    FileSystem.deref_some, ok_bind]
  change (if offset.toInt32 < 0 ∨ offset.toInt32 > x.iSize.toInt32 - 1 then _ else _) = _
  rw [if_neg (seek_inside hlt (by omega))]
  rfl

/-- A read that returns has read what is asked for, where that much is in the file. -/
theorem fileRead_segment (h : FileSystem.RegularFile s g f a x) (hm : FileSystem.Mounted s)
    (hheap : s.heap 0 = true ∧ s.heap 1 = true) (hpos : 0 < filesz.toNat)
    (hin : offset.toNat + filesz.toNat ≤ x.iSize.toNat) {r : Option UInt32} {dst : Image}
    {t : FileSystem.State}
    (hread : FileSystem.fileRead (s.setFile g { f with fdPos := offset }) g zeros filesz =
      .ok (r, dst, t)) : r = some filesz ∧
      FileSystem.bytesAt dst filesz.toNat = ((s.contents x).drop offset.toNat).take filesz.toNat := by
  have hmoved := h.moved s.heap offset
  have hsize := h.size_le
  set f' : FileSystem.File := { f with fdPos := offset } with hf'
  have hlt : f'.fdPos.toNat < x.iSize.toNat := by
    change offset.toNat < _
    omega
  obtain ⟨-, hlast⟩ := (hmoved.fileRead_asserts hheap.1 hheap.2 zeros filesz
    (FileSystem.readSize_more hlt)).of_ok hread
  have hcount : (FileSystem.readSize f' x filesz).toNat = filesz.toNat := by
    rw [FileSystem.toNat_readSize hlt.le (by change offset.toNat + _ < _; omega)]
    change min filesz.toNat (x.iSize.toNat - offset.toNat) = _
    omega
  rw [UInt32.toNat_add, hcount] at hlast
  change (offset.toNat + filesz.toNat) % _ / 512 < 139 at hlast
  have hfits : FileSystem.ReadFits f' x filesz := by
    refine ⟨?_, Or.inr ?_⟩
    · change offset.toNat + _ < _
      omega
    · change offset.toNat + min filesz.toNat (x.iSize.toNat - offset.toNat) < _
      omega
  have hreads := hmoved.reads_of_fits ⟨hm.blockLen, hm.inodeLen, hm.free_le⟩ hheap.1 hheap.2 hlt.le
    zeros hpos hfits
  obtain ⟨out, hout⟩ := FileSystem.readBytes_of_lt (s.contents x)
    (show offset.toNat < _ by rw [FileSystem.length_contents]; exact hlt) hpos
  have hlen := FileSystem.length_read _ hout
  rw [FileSystem.length_contents] at hlen
  have hfull : out.length = filesz.toNat := by omega
  change FileSystem.ReadsAs _ g f' zeros filesz
    (FileSystem.readBytes (s.contents x) offset.toNat filesz.toNat) at hreads
  rw [hout] at hreads
  obtain ⟨dst', hbytes, -, hrun⟩ := hreads
  obtain ⟨rfl, hdst⟩ := Prod.mk.inj (Except.ok.inj (hread.symm.trans hrun))
  obtain ⟨rfl, -⟩ := Prod.mk.inj hdst
  rw [hfull] at hbytes ⊢
  refine ⟨by rw [UInt32.ofNat_toNat], ?_⟩
  rw [hbytes]
  unfold FileSystem.readBytes at hout
  split_ifs at hout
  exact (Option.some.inj hout).symm

end Reading

section Mapping

variable {s : Memory.State} {G : Layout} {m m' : Machine} {n cnt v : ℕ} {r : Option ℕ}

/-- The page after a page of the user half. -/
theorem next_page (hn : n < 0xc0000) : (n * 4096 + pgSize) % 2 ^ 32 = (n + 1) * 4096 := by
  unfold pgSize
  omega

/-- The pages of a segment in the user half. -/
theorem segment_pages {filesz vaddr : UInt32} (hpos : 0 < filesz.toNat)
    (hend : vaddr.toNat + filesz.toNat ≤ 0xc0000000) :
    (vaddr &&& 0xfffff000).toNat = vaddr.toNat / 4096 * 4096 ∧
      vaddr.toNat / 4096 + (occupyPages filesz vaddr).toNat =
        (vaddr.toNat + filesz.toNat - 1) / 4096 + 1 := by
  have hlow : (vaddr &&& 0x00000fff).toNat = vaddr.toNat % 4096 := by
    rw [UInt32.toNat_and]
    exact Nat.and_two_pow_sub_one_eq_mod vaddr.toNat 12
  have hfirst : (4096 - (vaddr &&& 0x00000fff)).toNat = 4096 - vaddr.toNat % 4096 := by
    rw [UInt32.toNat_sub_of_le, hlow]
    · rfl
    · rw [UInt32.le_iff_toNat_le, hlow]
      exact (Nat.mod_lt _ (by norm_num)).le
  constructor
  · have hlt := vaddr.toNat_lt
    rw [UInt32.toNat_and]
    change vaddr.toNat &&& 0xfffff000 = _
    rw [show 0xfffff000 = (2 ^ 20 - 1) <<< 12 by rfl, and_high_bits]
    omega
  · unfold occupyPages
    dsimp only
    split_ifs with hbig
    · rw [gt_iff_lt, UInt32.lt_iff_toNat_lt, hfirst] at hbig
      have hleft : (filesz - (4096 - (vaddr &&& 0x00000fff))).toNat =
          filesz.toNat - (4096 - vaddr.toNat % 4096) := by
        rw [UInt32.toNat_sub_of_le, hfirst]
        rw [UInt32.le_iff_toNat_le, hfirst]
        exact hbig.le
      have hround : (FileSystem.divRoundUp (filesz - (4096 - (vaddr &&& 0x00000fff))) 4096).toNat =
          (filesz.toNat - (4096 - vaddr.toNat % 4096) + 4095) / 4096 := by
        unfold FileSystem.divRoundUp
        rw [UInt32.toNat_div, UInt32.toNat_sub_of_le, UInt32.toNat_add, hleft]
        · change ((_ + 4096) % 2 ^ 32 - 1) / 4096 = _
          omega
        · rw [UInt32.le_iff_toNat_le, UInt32.toNat_add, hleft]
          change 1 ≤ (_ + 4096) % 2 ^ 32
          omega
      rw [UInt32.toNat_add, hround]
      change _ + (_ + 1) % 2 ^ 32 = _
      omega
    · rw [gt_iff_lt, UInt32.lt_iff_toNat_lt, hfirst] at hbig
      change _ + 1 = _
      omega

/-- Asking for the pages of a segment keeps the invariant; by induction on the pages. -/
theorem mapSegment_sound (cnt : ℕ) : ∀ {s : Memory.State} {G : Layout} {n : ℕ} {done : Bool},
    Sound s G → (s.machine.tasks s.machine.running).pgdir = some v → 0x8048 ≤ n →
    n + cnt ≤ 0xc0000 → mapSegment cnt (n * 4096) s.machine = .ok (done, m') →
    ∃ G', Sound { s with machine := m' } G' ∧ (m'.tasks m'.running).pgdir = some v := by
  induction cnt with
  | zero =>
    intro s G n done hs hproc _ _ h
    obtain ⟨-, rfl⟩ := Prod.mk.inj (Except.ok.inj h)
    exact ⟨G, hs, hproc⟩
  | succ cnt ih =>
    intro s G n done hs hproc hlo hend h
    have hlo' : userVaddrStart ≤ n * 4096 := by
      unfold userVaddrStart
      omega
    have hself := hs.coherent.encoded.selfMapped _ hs.cr3_mem
    rw [mapSegment, load_pdePtr hself (by omega), ok_bind, ok_bind, next_page (by omega)] at h
    split_ifs at h with hbit
    · obtain ⟨⟨r, m₁⟩, hget, h⟩ := of_bind_eq_ok h
      obtain ⟨L', hs₁⟩ := hs.getAPage (by omega) hlo' (by omega) hget
      obtain ⟨hproc₁, -⟩ := hs.getAPage_process hproc hlo' (by omega) hget
      obtain ⟨rfl, -⟩ := hs.getAPage_maps hproc hlo' (by omega) hget
      exact ih (s := { s with machine := m₁ }) hs₁ hproc₁ (by omega) (by omega) h
    · exact ih hs hproc (by omega) (by omega) h

/-- The page of a byte that can be read is mapped, with its bit set. -/
theorem page_of_loadByte (hs : Sound s G)
    (hproc : (s.machine.tasks s.machine.running).pgdir ≠ none) {u : ℕ} (hu : u < 0xc0000000)
    {b : UInt8} (h : s.machine.loadByte u = .ok b) :
    walk s.machine.ram s.machine.cr3 (u / 4096 * 4096) ≠ none ∧
      bitmapScanTest (s.machine.vaddrs .user).vaddrBitmap
        ((u / 4096 * 4096 - userVaddrStart) / 4096) = true := by
  have hspace := (hs.running_space hproc).1
  rw [hs.coherent.loadByte_eq hspace hu] at h
  have howned : G.owns (.user s.machine.cr3 (u / 4096)) ≠ none := by
    intro hnone
    rw [hnone] at h
    cases h
  have hbit : (u / 4096 * 4096 - userVaddrStart) / 4096 = u / 4096 - 0x8048 := by
    unfold userVaddrStart
    omega
  rw [hs.coherent.walk_user hspace (by omega), hbit]
  exact ⟨by simpa using howned, hs.bit_of_owned hproc howned⟩

/-- Where all tables are there, nothing is asked for. -/
theorem mapSegment_present (cnt : ℕ) : ∀ {n : ℕ}, SelfMapped m.ram m.cr3 → n + cnt ≤ 0xc0000 →
    (∀ i < cnt, present (m.ram m.cr3 ((n + i) / 1024))) →
    mapSegment cnt (n * 4096) m = .ok (true, m) := by
  induction cnt with
  | zero =>
    intro n _ _ _
    rfl
  | succ cnt ih =>
    intro n hself hend htables
    have hbit := and_one_ne_zero.mpr (htables 0 (by omega))
    rw [mapSegment, load_pdePtr hself (by omega), ok_bind, ok_bind, dirIndex_page, if_neg (by tauto),
      next_page (by omega)]
    refine ih hself (by omega) fun i hi => ?_
    rw [show n + 1 + i = n + (i + 1) by omega]
    exact htables (i + 1) (by omega)

end Mapping

section Loading

variable {s : FileSystem.State} {g fd : ℕ} {f : FileSystem.File} {a : FileSystem.InodePtr}
  {x : FileSystem.Inode} {offset filesz vaddr : UInt32} {z : Memory.State} {G : Layout} {v : ℕ}

/-- A segment that was read is in memory. -/
theorem loadsSegment_of_heap (h : FileSystem.RegularFile s g f a x) (hm : FileSystem.Mounted s)
    (hfd : FileSystem.fdLocal2Global s fd = .ok g) (hheap : s.heap 0 = true ∧ s.heap 1 = true)
    (hpos : 0 < filesz.toNat) (hin : offset.toNat + filesz.toNat ≤ x.iSize.toNat)
    (hlo : userVaddrStart + pgSize ≤ vaddr.toNat)
    (hhi : vaddr.toNat + filesz.toNat ≤ 0xc0000000) (hs : Sound z G)
    (hproc : (z.machine.tasks z.machine.running).pgdir = some v) :
    LoadsSegment s x z.machine fd offset filesz vaddr := by
  intro t m' hrun
  obtain ⟨hfirst, hpages⟩ := segment_pages hpos hhi
  unfold userVaddrStart pgSize at hlo
  unfold segmentLoad at hrun
  dsimp only at hrun
  rw [hfirst] at hrun
  obtain ⟨⟨done, m₁⟩, hmap, hrun⟩ := of_bind_eq_ok hrun
  cases done with
  | false => exact nomatch (Prod.mk.inj (Except.ok.inj hrun)).1
  | true =>
    dsimp only at hrun
    rw [sysLseek_eq h hfd (by omega), ok_bind] at hrun
    obtain ⟨⟨r, t', m₂⟩, hread, hrun⟩ := of_bind_eq_ok hrun
    obtain ⟨-, hrun⟩ := Prod.mk.inj (Except.ok.inj hrun)
    obtain ⟨-, rfl⟩ := Prod.mk.inj hrun
    obtain ⟨-, hread⟩ := of_ensure_eq_ok hread
    obtain ⟨g', hg', hread⟩ := of_bind_eq_ok hread
    obtain rfl : g' = g := Except.ok.inj (hg'.symm.trans hfd)
    obtain ⟨⟨r', dst, u⟩, hfile, hread⟩ := of_bind_eq_ok hread
    obtain ⟨m₃, hstore, hread⟩ := of_bind_eq_ok hread
    obtain ⟨-, hread⟩ := Prod.mk.inj (Except.ok.inj hread)
    obtain ⟨-, rfl⟩ := Prod.mk.inj hread
    obtain ⟨rfl, hbytes⟩ := fileRead_segment h hm hheap hpos hin hfile
    change m₁.storeBytes vaddr.toNat (FileSystem.bytesAt dst filesz.toNat) = _ at hstore
    have hlen := FileSystem.length_bytesAt dst filesz.toNat
    obtain ⟨G₁, hs₁, hproc₁⟩ := mapSegment_sound _ hs hproc (by omega) (by omega) hmap
    have hspace : m₁.cr3 ∈ G₁.spaces := (hs₁.running_space (by simp [hproc₁])).1
    obtain ⟨ram, rfl, hframe, hnew, -⟩ := hs₁.coherent.storeBytes hspace (by omega) hstore
    have hs₂ := hs₁.setRam hframe
    refine ⟨fun n hn hn' => ?_, fun i b hi hb => ?_⟩
    · -- a byte of the page was written
      have hin' : max vaddr.toNat (n * 4096) - vaddr.toNat < filesz.toNat := by omega
      have hbyte := hnew _ _ (@FileSystem.getElem?_bytesAt _ dst _ hin')
      have hadd : vaddr.toNat + (max vaddr.toNat (n * 4096) - vaddr.toNat) =
          max vaddr.toNat (n * 4096) := by omega
      have hpage : max vaddr.toNat (n * 4096) / 4096 = n := by omega
      rw [hadd] at hbyte
      have hmapped := page_of_loadByte hs₂ (by simp [Machine.setRam, hproc₁]) (by omega) hbyte
      rwa [hpage] at hmapped
    · refine hnew i b ?_
      rw [hbytes, List.getElem?_take, if_pos hi, List.getElem?_drop]
      exact hb

/-- A process may have the tables for some pages already, and any byte in front of them. -/
theorem exists_filled {u n : ℕ} (hlo : userVaddrStart + pgSize ≤ u) (hle : u / 4096 ≤ n)
    (hhi : n < 0xc0000) (b : UInt8) : ∃ z, memoryCalls.Reachable z ∧
      (z.machine.tasks z.machine.running).pgdir ≠ none ∧
      present (z.machine.ram z.machine.cr3 (u / 4096 / 1024)) ∧
      present (z.machine.ram z.machine.cr3 (n / 1024)) ∧ z.machine.loadByte u = .ok b := by
  unfold userVaddrStart pgSize at hlo
  obtain ⟨z, hz, huser⟩ := @exists_started_user 256 [0x69, 0x6e, 0x69, 0x74] 0x400000 rfl (by decide)
  obtain ⟨pid, pgdir, bits, htask⟩ := hz.task
  have hkernel := hz.kernel
  rw [bitmapPgCnt_eq] at hkernel
  have htwo : 8 * ((allFreePages 0x400000 - allFreePages 0x400000 / 2) / 8) = 256 := rfl
  rw [htwo] at huser
  obtain ⟨z₁, hz₁, hproc₁, -, hlast₁, -, hroom₁⟩ := exists_paged hz.reachable (n := n)
    (by simp [htask]) (by omega) hhi (by omega) (by omega)
  have hu₁ := hroom₁ .user
  have hk₁ := hroom₁ .kernel
  obtain ⟨z₂, hz₂, hproc₂, hwalk₂, hfirst₂, hkept₂, -⟩ := exists_paged hz₁ (n := u / 4096) hproc₁
    (by omega) (by omega) (by omega) (by omega)
  obtain ⟨G, hs⟩ := memoryCalls_sound hz₂
  have hspace := (hs.running_space hproc₂).1
  obtain ⟨w, m', hstore, hstep⟩ := hs.store_byte hproc₂ (by omega) hwalk₂ b
  obtain ⟨ram, rfl, hframe, hbytes⟩ := hs.coherent.storeByte hspace (by omega) hstore
  have hdir : ∀ e, ram z₂.machine.cr3 e = z₂.machine.ram z₂.machine.cr3 e :=
    hframe _ (Or.inl hs.cr3_mem)
  refine ⟨_, hz₂.step hstep, hproc₂, ?_, ?_, ?_⟩
  · change present (ram z₂.machine.cr3 _)
    rw [hdir]
    exact hfirst₂
  · change present (ram z₂.machine.cr3 _)
    rw [hdir]
    exact hkept₂ _ hlast₁
  · rw [hbytes u (by omega), if_pos rfl]

/-- Where a buffer of the read is missing the memory stays as it is, and 1 is returned. -/
theorem segmentLoad_unread (h : FileSystem.RegularFile s g f a x)
    (hfd : FileSystem.fdLocal2Global s fd = .ok g)
    (hheap : ¬ (s.heap 0 = true ∧ s.heap 1 = true)) (hpos : 0 < filesz.toNat)
    (hin : offset.toNat + filesz.toNat ≤ x.iSize.toNat)
    (hlo : userVaddrStart + pgSize ≤ vaddr.toNat) {m : Machine}
    (hmap : mapSegment (occupyPages filesz vaddr).toNat (vaddr &&& 0xfffff000).toNat m =
      .ok (true, m)) : ∃ t, segmentLoad s m fd offset filesz vaddr = .ok (true, t, m) := by
  have hmoved := h.moved s.heap offset
  have hlt : FileSystem.File.fdPos { f with fdPos := offset } < x.iSize := by
    rw [UInt32.lt_iff_toNat_lt]
    change offset.toNat < _
    omega
  obtain ⟨t, hread⟩ := hmoved.fileRead_none (UInt32.lt_iff_toNat_lt.mp hlt) hheap zeros filesz
  have hne : vaddr.toNat ≠ 0 := by
    unfold userVaddrStart at hlo
    omega
  refine ⟨t, ?_⟩
  unfold segmentLoad
  dsimp only
  rw [hmap, ok_bind]
  dsimp only
  rw [sysLseek_eq h hfd (by omega), ok_bind]
  dsimp only
  unfold sysRead
  rw [ensure_of hne, ok_bind]
  change (FileSystem.fdLocal2Global s fd >>= _) >>= _ = _
  rw [hfd, ok_bind]
  rw [hread]
  rfl

/-- Without the buffers some process gets 1 for a segment that is not in memory. -/
theorem exists_not_loadsSegment (h : FileSystem.RegularFile s g f a x)
    (hfd : FileSystem.fdLocal2Global s fd = .ok g)
    (hheap : ¬ (s.heap 0 = true ∧ s.heap 1 = true)) (hpos : 0 < filesz.toNat)
    (hin : offset.toNat + filesz.toNat ≤ x.iSize.toNat)
    (hlo : userVaddrStart + pgSize ≤ vaddr.toNat)
    (hhi : vaddr.toNat + filesz.toNat ≤ 0xc0000000) :
    ∃ z, memoryCalls.Reachable z ∧ (z.machine.tasks z.machine.running).pgdir ≠ none ∧
      ¬ LoadsSegment s x z.machine fd offset filesz vaddr := by
  have hsize := h.size_le
  obtain ⟨hfirst, hpages⟩ := segment_pages hpos hhi
  obtain ⟨b, hb⟩ : ∃ b, (s.contents x)[offset.toNat]? = some b :=
    ⟨_, FileSystem.getElem?_contents s x (by omega)⟩
  -- another byte is where the first byte of the segment belongs
  obtain ⟨z, hz, hproc, hpde, hpde', hbyte⟩ := exists_filled hlo
    (n := (vaddr.toNat + filesz.toNat - 1) / 4096) (by omega) (by omega) (b + 1)
  obtain ⟨G, hs⟩ := memoryCalls_sound hz
  have hmap : mapSegment (occupyPages filesz vaddr).toNat (vaddr &&& 0xfffff000).toNat
      z.machine = .ok (true, z.machine) := by
    rw [hfirst]
    refine mapSegment_present _ (hs.coherent.encoded.selfMapped _ hs.cr3_mem) (by omega)
      fun i hi => ?_
    obtain heq | heq : (vaddr.toNat / 4096 + i) / 1024 = vaddr.toNat / 4096 / 1024 ∨
        (vaddr.toNat / 4096 + i) / 1024 = (vaddr.toNat + filesz.toNat - 1) / 4096 / 1024 := by
      omega
    · rwa [heq]
    · rwa [heq]
  obtain ⟨t, hrun⟩ := segmentLoad_unread h hfd hheap hpos hin hlo hmap
  refine ⟨z, hz, hproc, fun hloads => ?_⟩
  have hloaded := (hloads t _ hrun).2 0 b hpos hb
  rw [Nat.add_zero, hbyte] at hloaded
  have hsame := Except.ok.inj hloaded
  simp at hsame

/-- A program of two bytes, open as descriptor 3. -/
def openProgram (heap : ℕ → Bool) : FileSystem.State := { FileSystem.twoBytes with
  heap := heap
  tasks := fun _ => some ⟨#v[0, 1, 2, 3, -1, -1, -1, -1]⟩ }

theorem openProgram_regular (heap : ℕ → Bool) :
    FileSystem.RegularFile (openProgram heap) 3 ⟨1, 1, some 0⟩ 0 FileSystem.twoBytesInode where
  slot := rfl
  pointer := rfl
  inode := rfl
  size_le := FileSystem.twoBytes_regular.size_le
  empty := FileSystem.twoBytes_regular.empty
  blocks := by
    obtain ⟨f, own, hlayout, hown⟩ := FileSystem.twoBytes_regular.blocks
    exact ⟨f, own, hlayout.transfer rfl (fun _ => rfl) fun h => absurd h (by decide), hown⟩

end Loading

end X86System.Loader
