import X86System.Backing
import Mathlib.Data.Finset.Prod

/-!
# Counting descriptors

For a pipe `fd_pos` counts the descriptors of its slot. Which descriptors are still
counted is a finite set for each slot: in between calls it is all that name the slot,
in the middle of an exit it is less. Dropping, sharing and taking a slot change the
set and the count alike.
-/
namespace X86System.FileSystem
open Bytes Exec Transition

variable {s t : State} {x y u : Session} {a : InodePtr} {g : ℕ} {f : File} {page : ℕ}
  {N N' : ℕ → Finset (ℕ × ℕ)} {d : ℕ × ℕ} {H : Multiset InodePtr}

/-- There are 1024 pids and 8 descriptors in a table. -/
@[irreducible] def allDescriptors : Finset (ℕ × ℕ) := Finset.range 1024 ×ˢ Finset.range 8

/-- The descriptors that name a slot. -/
@[irreducible] def State.naming (s : State) (g : ℕ) : Finset (ℕ × ℕ) :=
  allDescriptors.filter fun d => (s.tasks d.1).any fun task => task.fd d.2 = some (g : ℤ)

theorem mem_allDescriptors : d ∈ allDescriptors ↔ d.1 < 1024 ∧ d.2 < 8 := by
  unfold allDescriptors
  rw [Finset.mem_product, Finset.mem_range, Finset.mem_range]

theorem card_allDescriptors : allDescriptors.card = 8192 := by
  unfold allDescriptors
  rw [Finset.card_product, Finset.card_range, Finset.card_range]

theorem mem_naming : d ∈ s.naming g ↔ d.1 < 1024 ∧ s.names d.1 d.2 g := by
  unfold State.naming
  simp only [State.names, Finset.mem_filter, mem_allDescriptors, Option.any_eq_true,
    decide_eq_true_eq]
  constructor
  · rintro ⟨⟨hp, -⟩, task, htask, hfd⟩
    exact ⟨hp, task, htask, hfd⟩
  · rintro ⟨hp, task, htask, hfd⟩
    exact ⟨⟨hp, (Vector.getElem?_eq_some_iff.mp hfd).1⟩, task, htask, hfd⟩

theorem naming_subset (s : State) (g : ℕ) : s.naming g ⊆ allDescriptors := by
  unfold State.naming
  exact Finset.filter_subset ..

theorem naming_card_le (s : State) (g : ℕ) : (s.naming g).card ≤ 8192 :=
  card_allDescriptors ▸ Finset.card_le_card (naming_subset s g)

/-- A slot that is or was that of a pipe. -/
def State.pipeSlot (s : State) (g : ℕ) : Prop :=
  ∃ f, s.fileTable[g]? = some f ∧ f.fdFlag = pipeFlag

/-- A slot whose pipe has this page. -/
def State.ringAt (s : State) (g page : ℕ) : Prop :=
  ∃ f, s.fileTable[g]? = some f ∧ f.fdFlag = pipeFlag ∧ f.fdInode = some page

/-- The slots agree with the sets of descriptors that are counted, and the pages with the
slots. -/
structure Counted (x : Session) (N : ℕ → Finset (ℕ × ℕ)) : Prop where
  streams : ∀ g < 3, ∃ f, x.fs.fileTable[g]? = some f ∧ f.fdInode = none ∧ f.fdFlag ≠ pipeFlag
  named : ∀ g, 3 ≤ g → (N g).Nonempty →
    ∃ f a, x.fs.fileTable[g]? = some f ∧ f.fdInode = some a
  counts : ∀ g f, x.fs.fileTable[g]? = some f → f.fdFlag = pipeFlag →
    f.fdPos.toNat = (N g).card ∧ (f.fdInode = none ↔ N g = ∅)
  pages : ∀ page, page ∈ x.ringPages ↔ ∃ g, x.fs.ringAt g page
  distinct : ∀ g g' page, x.fs.ringAt g page → x.fs.ringAt g' page → g = g'
  used : ∀ page ∈ x.ringPages, page < x.fs.nextInode
  small : ∀ g, (N g).card ≤ 8192

/-- Slots with the same key have the same position if they are pipes. -/
theorem SameTables.pipe (ht : SameTables s t) (hf : t.fileTable[g]? = some f) :
    ∃ f', s.fileTable[g]? = some f' ∧ f'.fdFlag = f.fdFlag ∧ f'.fdInode = f.fdInode ∧
      (f.fdFlag = pipeFlag → f'.fdPos = f.fdPos) := by
  have hkey := ht.slots g
  rw [hf] at hkey
  cases hf' : s.fileTable[g]? with
  | none => simp [hf'] at hkey
  | some f' =>
    rw [hf'] at hkey
    have hkey := (Option.some.inj hkey).symm
    have hflag : f'.fdFlag = f.fdFlag := congrArg (·.1) hkey
    refine ⟨f', rfl, hflag, congrArg (·.2.1) hkey, fun hpipe => ?_⟩
    have hpos := congrArg (·.2.2) hkey
    simpa [File.key, hpipe, hflag] using hpos

theorem SameTables.ringAt (ht : SameTables s t) : t.ringAt g page ↔ s.ringAt g page := by
  have hsub : ∀ {s t : State}, SameTables s t → t.ringAt g page → s.ringAt g page := by
    rintro s t ht ⟨f, hf, hflag, hpage⟩
    obtain ⟨f', hf', hflag', hpage'⟩ := ht.slot hf
    exact ⟨f', hf', hflag'.trans hflag, hpage'.trans hpage⟩
  exact ⟨hsub ht, hsub ht.symm⟩

/-- The tables and the pages stay. -/
theorem Counted.tables (hx : Counted x N) (ht : SameTables x.fs y.fs)
    (hpages : y.ringPages = x.ringPages) (hnext : x.fs.nextInode ≤ y.fs.nextInode) :
    Counted y N where
  streams g hg := by
    obtain ⟨f, hf, hnone, hflag⟩ := hx.streams g hg
    obtain ⟨f', hf', hflag', hinode'⟩ := ht.symm.slot hf
    exact ⟨f', hf', hinode'.trans hnone, hflag' ▸ hflag⟩
  named g hg hne := by
    obtain ⟨f, a, hf, ha⟩ := hx.named g hg hne
    obtain ⟨f', hf', -, hinode'⟩ := ht.symm.slot hf
    exact ⟨f', a, hf', hinode'.trans ha⟩
  counts g f hf hpipe := by
    obtain ⟨f', hf', hflag', hinode', hpos⟩ := ht.pipe hf
    have hcounts := hx.counts g f' hf' (hflag'.trans hpipe)
    rw [hpos hpipe, hinode'] at hcounts
    exact hcounts
  pages page := by
    rw [hpages, hx.pages]
    exact exists_congr fun g => ht.ringAt.symm
  distinct g g' page hg hg' := hx.distinct g g' page (ht.ringAt.mp hg) (ht.ringAt.mp hg')
  used page hp := (hx.used page (hpages ▸ hp)).trans_le hnext
  small := hx.small

/-- Counting other descriptors is the same if pipes do not see it. -/
theorem Counted.recount (hx : Counted x N) (hpipe : ∀ g, x.fs.pipeSlot g → N' g = N g)
    (hnamed : ∀ g, 3 ≤ g → (N' g).Nonempty → (N g).Nonempty ∨
      ∃ f a, x.fs.fileTable[g]? = some f ∧ f.fdInode = some a)
    (hsmall : ∀ g, (N' g).card ≤ 8192) : Counted x N' where
  streams := hx.streams
  named g hg hne := (hnamed g hg hne).elim (hx.named g hg) id
  counts g f hf hflag := by
    rw [hpipe g ⟨f, hf, hflag⟩]
    exact hx.counts g f hf hflag
  pages := hx.pages
  distinct := hx.distinct
  used := hx.used
  small := hsmall

theorem Counted.setTask (hx : Counted x N) (p : ℕ) (task : Task) :
    Counted { x with fs := x.fs.setTask p task } N :=
  ⟨hx.streams, hx.named, hx.counts, hx.pages, hx.distinct, hx.used, hx.small⟩

/-- A free slot has no descriptors. -/
theorem Counted.empty_of_free (hx : Counted x N) (hg : 3 ≤ g) (hfree : x.fs.freeSlot g) :
    N g = ∅ := by
  by_contra hne
  obtain ⟨f, a, hf, ha⟩ := hx.named g hg (Finset.nonempty_iff_ne_empty.mpr hne)
  obtain ⟨f', hf', hnone⟩ := hfree
  obtain rfl : f = f' := Option.some.inj (hf.symm.trans hf')
  simp [ha] at hnone

theorem ringAt_setFile_of_ne {j : ℕ} (hj : j ≠ g) :
    (s.setFile g f).ringAt j page ↔ s.ringAt j page := by
  simp only [State.ringAt, setFile_of_ne hj]

theorem ringAt_setFile_self (hg : g < 32) :
    (s.setFile g f).ringAt g page ↔ f.fdFlag = pipeFlag ∧ f.fdInode = some page := by
  simp only [State.ringAt, setFile_self hg]
  exact ⟨fun ⟨f', hf', h⟩ => Option.some.inj hf' ▸ h, fun h => ⟨f, rfl, h⟩⟩

/-- A store to one slot, with the pages and the counted descriptors of that slot. -/
theorem Counted.setFile {P : Finset ℕ} (hx : Counted x N) (hg : 3 ≤ g) (hlt : g < 32)
    (hsame : ∀ j, j ≠ g → N' j = N j) (hsmall : (N' g).card ≤ 8192)
    (hnamed : (N' g).Nonempty → ∃ a, f.fdInode = some a)
    (hcounts : f.fdFlag = pipeFlag → f.fdPos.toNat = (N' g).card ∧ (f.fdInode = none ↔ N' g = ∅))
    (hpages : ∀ page, page ∈ P ↔ page ∈ x.ringPages ∧ ¬ x.fs.ringAt g page ∨
      f.fdFlag = pipeFlag ∧ f.fdInode = some page)
    (hnew : f.fdFlag = pipeFlag → ∀ page, f.fdInode = some page →
      page < x.fs.nextInode ∧ ∀ j, j ≠ g → ¬ x.fs.ringAt j page) :
    Counted { x with fs := x.fs.setFile g f, ringPages := P } N' := by
  have hat : ∀ j page, (x.fs.setFile g f).ringAt j page ↔
      if j = g then f.fdFlag = pipeFlag ∧ f.fdInode = some page else x.fs.ringAt j page := by
    intro j page
    by_cases hj : j = g
    · subst hj
      rw [if_pos rfl]
      exact ringAt_setFile_self hlt
    · rw [if_neg hj]
      exact ringAt_setFile_of_ne hj
  refine ⟨fun j hj => ?_, fun j hj hne => ?_, fun j f' hf' hflag => ?_, fun page => ?_,
    fun j j' page hj hj' => ?_, fun page hp => ?_, fun j => ?_⟩
  · have hjg : j ≠ g := by omega
    rw [setFile_of_ne hjg]
    exact hx.streams j hj
  · by_cases hjg : j = g
    · subst hjg
      obtain ⟨a, ha⟩ := hnamed hne
      exact ⟨f, a, setFile_self hlt, ha⟩
    · rw [setFile_of_ne hjg]
      exact hx.named j hj (hsame j hjg ▸ hne)
  · by_cases hjg : j = g
    · subst hjg
      rw [setFile_self hlt] at hf'
      obtain rfl := Option.some.inj hf'
      exact hcounts hflag
    · rw [setFile_of_ne hjg] at hf'
      rw [hsame j hjg]
      exact hx.counts j f' hf' hflag
  · rw [hpages, hx.pages]
    constructor
    · rintro (⟨⟨j, hj⟩, hnot⟩ | hring)
      · have hjg : j ≠ g := fun h => hnot (h ▸ hj)
        exact ⟨j, (hat j page).mpr (by rwa [if_neg hjg])⟩
      · exact ⟨g, (hat g page).mpr (by rwa [if_pos rfl])⟩
    · rintro ⟨j, hj⟩
      have hj := (hat j page).mp hj
      by_cases hjg : j = g
      · exact Or.inr (by rwa [if_pos hjg] at hj)
      · rw [if_neg hjg] at hj
        exact Or.inl ⟨⟨j, hj⟩, fun hring => hjg (hx.distinct j g page hj hring)⟩
  · have hj := (hat j page).mp hj
    have hj' := (hat j' page).mp hj'
    by_cases hjg : j = g <;> by_cases hjg' : j' = g
    · rw [hjg, hjg']
    · rw [if_pos hjg] at hj
      rw [if_neg hjg'] at hj'
      exact absurd hj' ((hnew hj.1 page hj.2).2 j' hjg')
    · rw [if_neg hjg] at hj
      rw [if_pos hjg'] at hj'
      exact absurd hj ((hnew hj'.1 page hj'.2).2 j hjg)
    · rw [if_neg hjg] at hj
      rw [if_neg hjg'] at hj'
      exact hx.distinct j j' page hj hj'
  · rcases (hpages page).mp hp with ⟨hold, -⟩ | hring
    · exact hx.used page hold
    · exact (hnew hring.1 page hring.2).1
  · by_cases hjg : j = g
    · exact hjg ▸ hsmall
    · exact hsame j hjg ▸ hx.small j

/-- A store to one slot that leaves its ring alone. -/
theorem Counted.setFile_same (hx : Counted x N) (hg : 3 ≤ g) (hlt : g < 32)
    (hsame : ∀ j, j ≠ g → N' j = N j) (hsmall : (N' g).card ≤ 8192)
    (hnamed : (N' g).Nonempty → ∃ a, f.fdInode = some a)
    (hcounts : f.fdFlag = pipeFlag → f.fdPos.toNat = (N' g).card ∧ (f.fdInode = none ↔ N' g = ∅))
    (hring : ∀ page, f.fdFlag = pipeFlag ∧ f.fdInode = some page ↔ x.fs.ringAt g page) :
    Counted { x with fs := x.fs.setFile g f } N' := by
  refine hx.setFile hg hlt hsame hsmall hnamed hcounts (fun page => ?_) fun hflag page hpage => ?_
  · rw [hring]
    have hold : x.fs.ringAt g page → page ∈ x.ringPages := fun h => (hx.pages page).mpr ⟨g, h⟩
    tauto
  · have hat : x.fs.ringAt g page := (hring page).mp ⟨hflag, hpage⟩
    refine ⟨hx.used page ((hx.pages page).mpr ⟨g, hat⟩), fun j hj hj' => ?_⟩
    exact hj (hx.distinct j g page hj' hat)

section Steps

/-- A descriptor goes. -/
theorem Dropped.counted (hd : Dropped x g u) (hx : Counted x N) (hg : 3 ≤ g) (hmem : d ∈ N g)
    (hother : ∀ j, j ≠ g → d ∉ N j) (halone : ¬ x.fs.pipeSlot g → N g = {d}) :
    Counted u fun j => (N j).erase d := by
  have hsame : ∀ j, j ≠ g → (N j).erase d = N j := fun j hj =>
    Finset.erase_eq_of_notMem (hother j hj)
  have hsmall : ((N g).erase d).card ≤ 8192 := (Finset.card_erase_le).trans (hx.small g)
  have hcard := Finset.card_erase_add_one hmem
  cases hd with
  | @file f a t hf hfile ha hshut =>
    have hnot : ¬ x.fs.pipeSlot g := by
      rintro ⟨f', hf', hpipe⟩
      obtain rfl : f = f' := Option.some.inj (hf.symm.trans hf')
      exact hfile hpipe
    have hnone : (N g).erase d = ∅ := by
      rw [halone hnot]
      exact Finset.erase_singleton d
    have ht : Counted { x with fs := t } N :=
      hx.tables hshut.tables rfl hshut.nextInode.ge
    refine ht.setFile_same hg (lt_of_slot hf) hsame hsmall (fun hne => ?_)
      (fun hpipe => absurd hpipe hfile) fun page => ?_
    · rw [hnone] at hne
      exact absurd hne (by simp)
    · rw [hshut.tables.ringAt]
      constructor
      · exact fun h => absurd h.1 hfile
      · exact fun ⟨f', hf', hpipe, _⟩ => absurd ⟨f', hf', hpipe⟩ hnot
  | @last f page hf hpipe hlast hpage =>
    obtain ⟨hpos, -⟩ := hx.counts g f hf hpipe
    have hone : f.fdPos = 1 := by
      have := congrArg (· + 1) hlast
      simpa using this
    have hempty : (N g).erase d = ∅ := by
      rw [hone] at hpos
      have hcard1 : (1 : UInt32).toNat = 1 := rfl
      rw [← Finset.card_eq_zero]
      omega
    refine hx.setFile hg (lt_of_slot hf) hsame hsmall (fun hne => ?_) (fun _ => ?_)
      (fun page' => ?_) fun _ page' hpage' => by simp at hpage'
    · rw [hempty] at hne
      exact absurd hne (by simp)
    · rw [hempty]
      simp
    · have hring : x.fs.ringAt g page' ↔ page' = page := by
        constructor
        · rintro ⟨f', hf', -, hpage'⟩
          obtain rfl : f = f' := Option.some.inj (hf.symm.trans hf')
          exact (Option.some.inj (hpage.symm.trans hpage')).symm
        · rintro rfl
          exact ⟨f, hf, hpipe, hpage⟩
      rw [hring]
      simp [and_comm]
  | @more f hf hpipe hmore =>
    obtain ⟨hpos, hocc⟩ := hx.counts g f hf hpipe
    have hval : (f.fdPos - 1).toNat = ((N g).erase d).card := by
      have hle : (1 : UInt32) ≤ f.fdPos := by
        rw [UInt32.le_iff_toNat_le, hpos]
        have hcard1 : (1 : UInt32).toNat = 1 := rfl
        omega
      rw [UInt32.toNat_sub_of_le _ _ hle, hpos]
      have hcard1 : (1 : UInt32).toNat = 1 := rfl
      omega
    have hne : (N g).erase d ≠ ∅ := by
      intro hempty
      rw [hempty, Finset.card_empty] at hval
      exact hmore (UInt32.toNat_inj.mp hval)
    have hsome : f.fdInode ≠ none := fun hnone => by
      rw [hocc.mp hnone] at hmem
      simp at hmem
    refine hx.setFile_same hg (lt_of_slot hf) hsame hsmall (fun _ => ?_) (fun _ => ⟨hval, ?_⟩) ?_
    · exact Option.ne_none_iff_exists'.mp hsome
    · simp [hsome, hne]
    · refine fun page => ⟨fun h => ⟨f, hf, h⟩, ?_⟩
      rintro ⟨f', hf', h⟩
      obtain rfl : f = f' := Option.some.inj (hf.symm.trans hf')
      exact h

/-- One more descriptor of a slot that has one. -/
theorem shareSlot_counted (hb : Backed x.fs H) (hx : Counted x N) (hg : 3 ≤ g)
    (hne : (N g).Nonempty) (hnot : d ∉ N g) (hlt : (N g).card < 8192) :
    Returns (shareSlot x.fs g) fun t =>
      Counted { x with fs := t } (Function.update N g (insert d (N g))) := by
  have hsame : ∀ j, j ≠ g → Function.update N g (insert d (N g)) j = N j := fun j hj =>
    Function.update_of_ne hj ..
  have hself : Function.update N g (insert d (N g)) g = insert d (N g) := Function.update_self ..
  have hcard := Finset.card_insert_of_notMem hnot
  have hsmall : (Function.update N g (insert d (N g)) g).card ≤ 8192 := by
    rw [hself]
    omega
  refine (shareSlot_spec hb g).mono fun t ht => ?_
  obtain ⟨f, hf, ⟨hpipe, rfl⟩ | ⟨hfile, a, ha, ho⟩⟩ := ht
  · obtain ⟨hpos, hocc⟩ := hx.counts g f hf hpipe
    have hsome : f.fdInode ≠ none := fun hnone => hne.ne_empty (hocc.mp hnone)
    have hval : (f.fdPos + 1).toNat = (insert d (N g)).card := by
      rw [UInt32.toNat_add, hpos, hcard]
      have hone : (1 : UInt32).toNat = 1 := rfl
      omega
    refine hx.setFile_same hg (lt_of_slot hf) hsame hsmall (fun _ => ?_) (fun _ => ?_) fun page => ?_
    · exact Option.ne_none_iff_exists'.mp hsome
    · rw [hself]
      exact ⟨hval, by simp [hsome]⟩
    · refine ⟨fun h => ⟨f, hf, h⟩, ?_⟩
      rintro ⟨f', hf', h⟩
      obtain rfl : f = f' := Option.some.inj (hf.symm.trans hf')
      exact h
  · have ht : Counted { x with fs := t } N := hx.tables ho.tables rfl ho.nextInode
    refine ht.recount (fun j hj => ?_) (fun j hj hj' => Or.inl ?_) fun j => ?_
    · refine hsame j fun hjg => ?_
      obtain ⟨f', hf', hpipe⟩ := hj
      obtain ⟨f₀, hf₀, hflag, -⟩ := ho.tables.slot hf'
      obtain rfl : f = f₀ := Option.some.inj (hf.symm.trans (hjg ▸ hf₀))
      exact hfile (hflag.trans hpipe)
    · by_cases hjg : j = g
      · exact hjg ▸ hne
      · exact hsame j hjg ▸ hj'
    · by_cases hjg : j = g
      · exact hjg ▸ hsmall
      · exact hsame j hjg ▸ hx.small j

end Steps

section Naming

theorem naming_congr (ht : t.tasks = s.tasks) : t.naming = s.naming := by
  unfold State.naming
  rw [ht]

theorem task_fd_setFd {task : Task} {fd fd' : ℕ} {v : ℤ} (hfd : fd < 8) :
    (task.setFd fd v).fd fd' = if fd' = fd then some v else task.fd fd' := by
  by_cases h : fd' = fd
  · subst h
    simp [Task.fd, Task.setFd, hfd]
  · simp [Task.fd, Task.setFd, h, Ne.symm h]

theorem names_setTask {p q fd j : ℕ} {task : Task} :
    (s.setTask p task).names q fd j ↔
      if q = p then task.fd fd = some (j : ℤ) else s.names q fd j := by
  by_cases hq : q = p
  · subst hq
    simp [State.names, State.setTask]
  · simp [State.names, State.setTask, hq]

/-- Storing an entry of a table. -/
theorem names_setFd {p q fd fd' j : ℕ} {task : Task} {v : ℤ} (htask : s.tasks p = some task)
    (hfd : fd < 8) : (s.setTask p (task.setFd fd v)).names q fd' j ↔
      if q = p ∧ fd' = fd then v = j else s.names q fd' j := by
  rw [names_setTask]
  by_cases hq : q = p
  · subst hq
    by_cases hfd' : fd' = fd
    · simp [task_fd_setFd hfd, hfd']
    · simp [task_fd_setFd hfd, hfd', State.names, htask]
  · simp [hq]

theorem naming_setFd {p fd j : ℕ} {task : Task} {v : ℤ} (htask : s.tasks p = some task)
    (hp : p < 1024) (hfd : fd < 8) : (s.setTask p (task.setFd fd v)).naming j =
      if v = j then insert (p, fd) (s.naming j) else (s.naming j).erase (p, fd) := by
  ext ⟨q, fd'⟩
  rw [mem_naming, names_setFd htask hfd]
  by_cases h : q = p ∧ fd' = fd
  · obtain ⟨rfl, rfl⟩ := h
    by_cases hv : v = j <;> simp [hv, hp]
  · rw [if_neg h]
    have hne : (q, fd') ≠ (p, fd) := by simpa using h
    by_cases hv : v = j <;> simp [hv, hne, mem_naming]

end Naming

section Sessions

/-- What holds of descriptors between calls: all are counted, the standard streams of a process
are not pipes, and pids are small. -/
structure DescriptorsOk (x : Session) : Prop where
  counted : Counted x x.fs.naming
  streams : ∀ p fd g, fd < 3 → x.fs.names p fd g → ¬ x.fs.pipeSlot g
  pids : ∀ p task, x.fs.tasks p = some task → p < 1024

theorem DescriptorsOk.namesMem {p fd : ℕ} (hx : DescriptorsOk x) (hn : x.fs.names p fd g) :
    (p, fd) ∈ x.fs.naming g := by
  obtain ⟨task, htask, hfd⟩ := hn
  exact mem_naming.mpr ⟨hx.pids p task htask, task, htask, hfd⟩

theorem lt_of_setTask {p q : ℕ} {task task' : Task}
    (hs : ∀ q task, s.tasks q = some task → q < 1024) (hp : p < 1024)
    (hq : (s.setTask p task).tasks q = some task') : q < 1024 := by
  by_cases hqp : q = p
  · exact hqp ▸ hp
  · simp only [State.setTask, Function.update_of_ne hqp] at hq
    exact hs q task' hq

/-- The descriptor is the only one of its slot, among those for which `stays` holds, if the slot
is that of a file. -/
def State.onlyOne (s : State) (p fd : ℕ) (stays : ℕ → ℕ → Prop) : Prop :=
  ∀ g, s.names p fd g → ¬ s.pipeSlot g → ∀ q fd', s.names q fd' g → stays q fd' →
    q = p ∧ fd' = fd

/-- Calls of process `p` that keep the counts: a descriptor of a file is given up only if it is
the only one of its slot, `sys_pipe` finds two free entries, and `sys_dup2` neither overwrites
nor copies a descriptor of a pipe. -/
def Orderly (x : Session) (p : ℕ) : Call → Prop
  | .close fd => 2 < fd → x.fs.onlyOne p fd.toNat fun _ _ => True
  | .exit => ∀ fd, 3 ≤ fd → x.fs.onlyOne p fd fun q fd' => q ≠ p ∨ 3 ≤ fd'
  | .pipe => ∀ task, x.fs.tasks p = some task → ∃ fd fd', 3 ≤ fd ∧ fd < fd' ∧
      task.fd fd = some (-1) ∧ task.fd fd' = some (-1)
  | .dup2 fd1 fd2 => ∀ g, x.fs.pipeSlot g →
      (3 ≤ fd1 ∧ x.fs.names p fd1 g ↔ x.fs.names p fd2 g) 
  | _ => True

theorem pipeSlot_tables (ht : SameTables s t) : t.pipeSlot g ↔ s.pipeSlot g := by
  have hsub : ∀ {s t : State}, SameTables s t → t.pipeSlot g → s.pipeSlot g := by
    rintro s t ht ⟨f, hf, hflag⟩
    obtain ⟨f', hf', hflag', -⟩ := ht.slot hf
    exact ⟨f', hf', hflag'.trans hflag⟩
  exact ⟨hsub ht, hsub ht.symm⟩

theorem names_congr {p fd j : ℕ} (ht : t.tasks = s.tasks) :
    t.names p fd j ↔ s.names p fd j := by
  unfold State.names
  rw [ht]

/-- The tables and the pages stay. -/
theorem DescriptorsOk.tables (hx : DescriptorsOk x) (ht : SameTables x.fs y.fs)
    (hpages : y.ringPages = x.ringPages) (hnext : x.fs.nextInode ≤ y.fs.nextInode) :
    DescriptorsOk y where
  counted := by
    rw [naming_congr ht.tasks]
    exact hx.counted.tables ht hpages hnext
  streams p fd g hfd hn := by
    rw [pipeSlot_tables ht]
    exact hx.streams p fd g hfd ((names_congr ht.tasks).mp hn)
  pids p task htask := hx.pids p task (ht.tasks ▸ htask)

theorem pipeSlot_setFile {j : ℕ} (hg : g < 32) : (s.setFile g f).pipeSlot j ↔
    if j = g then f.fdFlag = pipeFlag else s.pipeSlot j := by
  by_cases hj : j = g
  · subst hj
    simp [State.pipeSlot, setFile_self hg]
  · simp [State.pipeSlot, setFile_of_ne hj, hj]

theorem not_pipeSlot_of_free (hx : Counted x N) (hg : g < 3) : ¬ x.fs.pipeSlot g := by
  rintro ⟨f, hf, hpipe⟩
  obtain ⟨f', hf', -, hflag⟩ := hx.streams g hg
  obtain rfl : f = f' := Option.some.inj (hf.symm.trans hf')
  exact hflag hpipe

/-- A free slot gets a file or is cleared. -/
theorem Counted.take (hx : Counted x N) (hg : 3 ≤ g) (hfree : x.fs.freeSlot g)
    (hfile : f.fdFlag ≠ pipeFlag) (hsame : ∀ j, j ≠ g → N' j = N j) (hsmall : (N' g).card ≤ 8192)
    (hnamed : (N' g).Nonempty → ∃ a, f.fdInode = some a) :
    Counted { x with fs := x.fs.setFile g f } N' := by
  obtain ⟨f₀, hf₀, hnone⟩ := hfree
  refine hx.setFile_same hg (lt_of_slot hf₀) hsame hsmall hnamed
    (fun hpipe => absurd hpipe hfile) fun page => ⟨fun h => absurd h.1 hfile, ?_⟩
  rintro ⟨f', hf', -, hpage⟩
  obtain rfl : f₀ = f' := Option.some.inj (hf₀.symm.trans hf')
  simp [hnone] at hpage

/-- The streams after one slot got a flag that is not that of a pipe. -/
theorem DescriptorsOk.streams_setFile (hx : DescriptorsOk x) (hg : g < 32)
    (hfile : f.fdFlag ≠ pipeFlag) {q fd j : ℕ} (hfd : fd < 3) (hn : x.fs.names q fd j) :
    ¬ (x.fs.setFile g f).pipeSlot j := by
  rw [pipeSlot_setFile hg]
  split_ifs
  · exact hfile
  · exact hx.streams q fd j hfd hn

theorem DescriptorsOk.take (hx : DescriptorsOk x) (hg : 3 ≤ g) (hfree : x.fs.freeSlot g)
    (hfile : f.fdFlag ≠ pipeFlag) : DescriptorsOk { x with fs := x.fs.setFile g f } := by
  have hlt : g < 32 := by
    obtain ⟨f₀, hf₀, -⟩ := hfree
    exact lt_of_slot hf₀
  have hnaming : (x.fs.setFile g f).naming = x.fs.naming := naming_congr rfl
  refine ⟨?_, fun q fd j hfd hn => hx.streams_setFile hlt hfile hfd hn, hx.pids⟩
  refine hx.counted.take hg hfree hfile (fun _ _ => by rw [hnaming]) (naming_card_le ..) fun hne => ?_
  rw [hnaming, hx.counted.empty_of_free hg hfree] at hne
  exact absurd hne (by simp)

/-- A table entry gets a value. Pipes do not see it, and a slot it names is not free. -/
theorem DescriptorsOk.setFd {p fd : ℕ} {task : Task} {v : ℤ} (hx : DescriptorsOk x)
    (htask : x.fs.tasks p = some task) (hfd : fd < 8)
    (hpipe : ∀ j : ℕ, x.fs.pipeSlot j → (v = j ↔ x.fs.names p fd j))
    (hocc : ∀ j : ℕ, 3 ≤ j → v = j → (x.fs.naming j).Nonempty ∨
      ∃ f a, x.fs.fileTable[j]? = some f ∧ f.fdInode = some a) :
    DescriptorsOk { x with fs := x.fs.setTask p (task.setFd fd v) } := by
  have hp := hx.pids p task htask
  have hcounted : Counted x (x.fs.setTask p (task.setFd fd v)).naming := by
    refine hx.counted.recount (fun j hj => ?_) (fun j hj hne => ?_) fun j => naming_card_le ..
    · have hmem : (p, fd) ∈ x.fs.naming j ↔ x.fs.names p fd j := by simp [mem_naming, hp]
      rw [naming_setFd htask hp hfd]
      split_ifs with hv
      · exact Finset.insert_eq_of_mem (hmem.mpr ((hpipe j hj).mp hv))
      · exact Finset.erase_eq_of_notMem fun h => hv ((hpipe j hj).mpr (hmem.mp h))
    · rw [naming_setFd htask hp hfd] at hne
      split_ifs at hne with hv
      · exact hocc j hj hv
      · exact Or.inl (hne.mono (Finset.erase_subset _ _))
  refine ⟨hcounted.setTask _ _, fun q fd' j hfd' hn => ?_, fun q task' htask' => ?_⟩
  · intro hj
    have hnot : ¬ x.fs.names q fd' j := fun h => hx.streams q fd' j hfd' h hj
    have hnew := (names_setFd htask hfd).mp hn
    by_cases hsame : q = p ∧ fd' = fd
    · rw [if_pos hsame] at hnew
      obtain ⟨rfl, rfl⟩ := hsame
      exact hnot ((hpipe j hj).mp hnew)
    · rw [if_neg hsame] at hnew
      exact hnot hnew
  · exact lt_of_setTask hx.pids hp htask'

theorem TakesSlot.descriptorsOk {flag : UInt32} {o : Option InodePtr}
    (htake : TakesSlot x.fs flag o t) (hflag : flag ≠ pipeFlag) (hx : DescriptorsOk x) :
    DescriptorsOk { x with fs := t } := by
  cases htake with
  | none => exact hx
  | cleared hg hfree => exact hx.take hg hfree (by decide)
  | filled hg hfree => exact hx.take hg hfree hflag
  | @named g fd a task hg hfree htask hfd hnone =>
    have htaken := hx.take (f := ⟨0, flag, some a⟩) hg hfree hflag
    obtain ⟨f₀, hf₀, -⟩ := hfree
    have hself := setFile_self (s := x.fs) (f := ⟨0, flag, some a⟩) (lt_of_slot hf₀)
    refine htaken.setFd htask (Vector.getElem?_eq_some_iff.mp hnone).1 (fun j hj => ?_)
      fun j hj hv => Or.inr ?_
    · rw [pipeSlot_setFile (lt_of_slot hf₀)] at hj
      have hjg : j ≠ g := fun h => hflag (by rwa [if_pos h] at hj)
      refine ⟨fun hv => absurd hv (by exact_mod_cast Ne.symm hjg), ?_⟩
      rintro ⟨task', htask', hfd'⟩
      obtain rfl : task = task' := Option.some.inj (htask.symm.trans htask')
      rw [hnone] at hfd'
      exact absurd (Option.some.inj hfd') (by omega)
    · obtain rfl : g = j := by exact_mod_cast hv
      exact ⟨_, a, hself, rfl⟩

theorem Dropped.three_le (hd : Dropped x g u) (hx : Counted x N) : 3 ≤ g := by
  by_contra hlow
  have hg : g < 3 := Nat.not_le.mp hlow
  obtain ⟨f, hf, hnone, hfile⟩ := hx.streams g hg
  cases hd with
  | file hf' _ ha _ =>
    obtain rfl := Option.some.inj (hf.symm.trans hf')
    simp [ha] at hnone
  | last hf' hpipe _ _ =>
    obtain rfl := Option.some.inj (hf.symm.trans hf')
    exact hfile hpipe
  | more hf' hpipe _ =>
    obtain rfl := Option.some.inj (hf.symm.trans hf')
    exact hfile hpipe

/-- What a slot is does not change when a descriptor goes. -/
theorem Dropped.pipeSlot {j : ℕ} (hd : Dropped x g u) :
    u.fs.pipeSlot j ↔ x.fs.pipeSlot j := by
  have hstore : ∀ {s : State} {f : File} (f' : File), s.fileTable[g]? = some f →
      f'.fdFlag = f.fdFlag → ((s.setFile g f').pipeSlot j ↔ s.pipeSlot j) := by
    intro s f f' hf hflag
    rw [pipeSlot_setFile (lt_of_slot hf), hflag]
    by_cases hj : j = g
    · subst hj
      simp [State.pipeSlot, hf]
    · rw [if_neg hj]
  cases hd with
  | @file f a t hf _ _ hshut =>
    obtain ⟨f', hf', hflag, -⟩ := hshut.tables.symm.slot hf
    have hback := hstore { f with fdInode := none } hf' hflag.symm
    exact hback.trans (pipeSlot_tables hshut.tables)
  | last hf _ _ _ => exact hstore _ hf rfl
  | more hf _ _ => exact hstore _ hf rfl

theorem onlyOne_naming {p fd : ℕ} (hone : x.fs.onlyOne p fd fun _ _ => True)
    (hn : x.fs.names p fd g) (hp : p < 1024) (hfile : ¬ x.fs.pipeSlot g) :
    x.fs.naming g = {(p, fd)} := by
  ext ⟨q, fd'⟩
  rw [mem_naming, Finset.mem_singleton]
  constructor
  · rintro ⟨-, hq⟩
    obtain ⟨rfl, rfl⟩ := hone g hn hfile q fd' hq trivial
    rfl
  · intro h
    obtain ⟨rfl, rfl⟩ : q = p ∧ fd' = fd := by simpa using h
    exact ⟨hp, hn⟩

/-- `sys_close` of a descriptor that is the only one of its slot, or that of a pipe. -/
theorem Dropped.descriptorsOk {p fd : ℕ} {task : Task} (hd : Dropped x g u)
    (hx : DescriptorsOk x) (htask : x.fs.tasks p = some task) (hn : x.fs.names p fd g)
    (hfd : 3 ≤ fd) (hone : x.fs.onlyOne p fd fun _ _ => True) :
    DescriptorsOk { u with fs := u.fs.setTask p (task.setFd fd (-1)) } := by
  have hp := hx.pids p task htask
  have htask' : u.fs.tasks p = some task := by rw [hd.tasks, htask]
  have hlt : fd < 8 := by
    obtain ⟨task', -, hfd'⟩ := hn
    exact (Vector.getElem?_eq_some_iff.mp hfd').1
  have hcounted : Counted u fun j => (x.fs.naming j).erase (p, fd) := by
    refine hd.counted hx.counted (hd.three_le hx.counted) (mem_naming.mpr ⟨hp, hn⟩)
      (fun j hj hmem => ?_) fun hfile => onlyOne_naming hone hn hp hfile
    exact hj ((mem_naming.mp hmem).2.unique hn)
  have hnaming : (u.fs.setTask p (task.setFd fd (-1))).naming =
      fun j => (x.fs.naming j).erase (p, fd) := by
    funext j
    rw [naming_setFd htask' hp hlt, if_neg (by omega), naming_congr hd.tasks]
  refine ⟨?_, fun q fd' j hfd' hn' => ?_, fun q task' htask'' => ?_⟩
  · have hset := hcounted.setTask p (task.setFd fd (-1))
    rw [← hnaming] at hset
    exact hset
  · have hold : u.fs.names q fd' j := by
      have hnew := (names_setFd htask' hlt).mp hn'
      rwa [if_neg (by omega)] at hnew
    rw [names_congr hd.tasks] at hold
    exact fun hpipe => hx.streams q fd' j hfd' hold (hd.pipeSlot.mp hpipe)
  · exact lt_of_setTask (fun q task hq => hx.pids q task (hd.tasks ▸ hq)) hp htask''

theorem naming_of_not_free {p fd : ℕ} {task : Task} (htask : s.tasks p = some task)
    (hfree : task.fd fd = some (-1)) (j : ℕ) : (p, fd) ∉ s.naming j := by
  intro hmem
  obtain ⟨-, task', htask', hfd⟩ := mem_naming.mp hmem
  obtain rfl : task = task' := Option.some.inj (htask.symm.trans htask')
  rw [hfree] at hfd
  exact absurd (Option.some.inj hfd) (by omega)

/-- A descriptor is installed in an entry that is free. -/
theorem naming_install {p fd : ℕ} {task : Task} (htask : s.tasks p = some task) (hp : p < 1024)
    (hfree : task.fd fd = some (-1)) (g j : ℕ) : (s.setTask p (task.setFd fd g)).naming j =
      if j = g then insert (p, fd) (s.naming j) else s.naming j := by
  rw [naming_setFd htask hp (Vector.getElem?_eq_some_iff.mp hfree).1]
  by_cases hj : j = g
  · rw [if_pos hj, if_pos (by exact_mod_cast hj.symm)]
  · rw [if_neg hj, if_neg (by exact_mod_cast Ne.symm hj)]
    exact Finset.erase_eq_of_notMem (naming_of_not_free htask hfree j)

/-- The slot of a new pipe with both its descriptors. -/
theorem Counted.withPipe (hx : Counted x N) (hg : 3 ≤ g) (hfree : x.fs.freeSlot g)
    (hsame : ∀ j, j ≠ g → N' j = N j) (htwo : (N' g).card = 2) :
    Counted { x with
      fs := x.fs.withPipe g, ringPages := insert x.fs.nextInode x.ringPages } N' := by
  have hnext : Counted { x with fs := { x.fs with
      heap := fun k => x.fs.heap (k + 1), nextInode := x.fs.nextInode + 1 } } N :=
    hx.tables ⟨fun _ => rfl, rfl⟩ rfl (Nat.le_succ _)
  obtain ⟨f₀, hf₀, hnone⟩ := hfree
  have hring : ∀ page, ¬ x.fs.ringAt g page := by
    rintro page ⟨f', hf', -, hpage⟩
    obtain rfl : f₀ = f' := Option.some.inj (hf₀.symm.trans hf')
    simp [hnone] at hpage
  refine hnext.setFile hg (lt_of_slot hf₀) hsame (by omega) (fun _ => ⟨_, rfl⟩) (fun _ => ?_)
    (fun page => ?_) fun _ page hpage => ?_
  · have hne : N' g ≠ ∅ := by
      rw [Ne, ← Finset.card_eq_zero]
      omega
    exact ⟨htwo.symm, by simp [hne]⟩
  · have hnot : ¬ State.ringAt { x.fs with
        heap := fun k => x.fs.heap (k + 1), nextInode := x.fs.nextInode + 1 } g page := hring page
    simp [hnot, eq_comm, or_comm]
  · obtain rfl : x.fs.nextInode = page := Option.some.inj hpage
    refine ⟨Nat.lt_succ_self _, fun j _ hj => ?_⟩
    exact absurd (hx.used _ ((hx.pages _).mpr ⟨j, hj⟩)) (lt_irrefl _)

/-- With a free entry a descriptor is installed. -/
theorem pcbFdInstall_some {fd : Option ℕ} {p fd' : ℕ} {task : Task} (hp : s.cur = p)
    (htask : s.tasks p = some task) (hfd' : 3 ≤ fd') (hfree : task.fd fd' = some (-1))
    (hrun : pcbFdInstall s g = .ok (fd, t)) : ∃ k, 3 ≤ k ∧ task.fd k = some (-1) ∧
      t = s.setTask p (task.setFd k g) := by
  subst hp
  rcases (pcbFdInstall_spec s g).of_ok hrun with ⟨-, hnone⟩ | ⟨task', k, htask', hk, hkfree, heq⟩
  · exact absurd hfree (hnone task htask fd' hfd' (Vector.getElem?_eq_some_iff.mp hfree).1)
  · obtain rfl : task = task' := Option.some.inj (htask.symm.trans htask')
    exact ⟨k, hk, hkfree, congrArg Prod.snd heq⟩

theorem pipe_descriptorsOk {fd0 fd1 : Option ℕ} {s t : State} {task : Task} (hx : DescriptorsOk x)
    (hg : 3 ≤ g) (hfree : x.fs.freeSlot g) (htask : x.fs.tasks x.fs.cur = some task)
    (horder : Orderly x x.fs.cur .pipe)
    (h0 : pcbFdInstall (x.fs.withPipe g) g = .ok (fd0, s)) (h1 : pcbFdInstall s g = .ok (fd1, t)) :
    DescriptorsOk { x with fs := t, ringPages := insert x.fs.nextInode x.ringPages } := by
  obtain ⟨fd, fd', hfd, hlt, hnone, hnone'⟩ := horder task htask
  have hp := hx.pids _ _ htask
  have htask0 : (x.fs.withPipe g).tasks x.fs.cur = some task := htask
  obtain ⟨k, hk, hkfree, rfl⟩ := pcbFdInstall_some rfl htask0 hfd hnone h0
  have hk8 : k < 8 := (Vector.getElem?_eq_some_iff.mp hkfree).1
  -- one of the two entries is still free
  obtain ⟨e, he, hefree⟩ : ∃ e, 3 ≤ e ∧ (task.setFd k g).fd e = some (-1) := by
    by_cases hkfd : k = fd
    · refine ⟨fd', by omega, ?_⟩
      rw [task_fd_setFd hk8, if_neg (by omega)]
      exact hnone'
    · refine ⟨fd, hfd, ?_⟩
      rw [task_fd_setFd hk8, if_neg (Ne.symm hkfd)]
      exact hnone
  have htask1 : ((x.fs.withPipe g).setTask x.fs.cur (task.setFd k g)).tasks x.fs.cur =
      some (task.setFd k g) := by simp [State.setTask]
  obtain ⟨m, hm, hmfree, rfl⟩ := pcbFdInstall_some rfl htask1 he hefree h1
  have hmk : m ≠ k := by
    intro hmk
    rw [hmk, task_fd_setFd hk8, if_pos rfl] at hmfree
    exact absurd (Option.some.inj hmfree) (by omega)
  have hempty : x.fs.naming g = ∅ := hx.counted.empty_of_free hg hfree
  have hbase : (x.fs.withPipe g).naming = x.fs.naming := naming_congr rfl
  have hnaming : ∀ j, (((x.fs.withPipe g).setTask x.fs.cur (task.setFd k g)).setTask x.fs.cur
      ((task.setFd k g).setFd m g)).naming j =
        if j = g then {(x.fs.cur, m), (x.fs.cur, k)} else x.fs.naming j := by
    intro j
    rw [naming_install htask1 hp hmfree, naming_install htask0 hp hkfree, hbase]
    by_cases hj : j = g
    · rw [if_pos hj, if_pos hj, if_pos hj, hj, hempty]
      rfl
    · rw [if_neg hj, if_neg hj, if_neg hj]
  have hcounted : Counted _ fun j =>
      if j = g then {(x.fs.cur, m), (x.fs.cur, k)} else x.fs.naming j :=
    hx.counted.withPipe hg hfree (fun j hj => if_neg hj) (by simp [hmk])
  have hnames : ∀ {q fd'' j}, fd'' < 3 → State.names (((x.fs.withPipe g).setTask x.fs.cur
      (task.setFd k g)).setTask x.fs.cur ((task.setFd k g).setFd m g)) q fd'' j →
        x.fs.names q fd'' j := by
    intro q fd'' j hlow hn
    have hn := (names_setFd htask1 (Vector.getElem?_eq_some_iff.mp hmfree).1).mp hn
    rw [if_neg (by omega)] at hn
    have hn := (names_setFd htask0 hk8).mp hn
    rwa [if_neg (by omega)] at hn
  obtain ⟨f₀, hf₀, -⟩ := hfree
  refine ⟨?_, fun q fd'' j hlow hn => ?_, fun q task' htask' => ?_⟩
  · have hset := (hcounted.setTask x.fs.cur (task.setFd k g)).setTask x.fs.cur
      ((task.setFd k g).setFd m g)
    rwa [← funext hnaming] at hset
  · have hold := hnames hlow hn
    intro hpipe
    have hpipe' := (pipeSlot_setFile (lt_of_slot hf₀)).mp hpipe
    by_cases hj : j = g
    · have hmem := hx.namesMem hold
      rw [hj, hempty] at hmem
      simp at hmem
    · rw [if_neg hj] at hpipe'
      exact hx.streams q fd'' j hlow hold hpipe'
  · exact lt_of_setTask (fun q task hq => lt_of_setTask hx.pids hp hq) hp htask'

end Sessions

end X86System.FileSystem
