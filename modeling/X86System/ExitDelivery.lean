import X86System.SchedulerRuns

/-!
# Delivery of exit statuses

The history of a run is the list of its events. One invariant says that pids and
serials name a process each, who has exited and with which argument, and that a
reaped process is gone. Another says who is whose parent: a process that has not
exited, and that forked the child or is init.
-/
namespace X86System.Thread
open Exec Transition

variable {s t : Kernel} {tr : List Event} {L : Tid → Prop}

def Event.isReapOf (child : ℕ) : Event → Bool
  | .reaped _ c _ _ => c = child
  | _ => false

/-- A thread, or the child of an unfinished fork. -/
def Kernel.Live (s : Kernel) (u : Tid) : Prop :=
  u ∈ s.threadAllList ∨ ∃ v ∈ s.threadAllList, s.point v = .fork u

/-- The history and the names of the processes that satisfy `L`. -/
structure Names (tr : List Event) (s : Kernel) (L : Tid → Prop) : Prop where
  pid_bit : ∀ u, L u → ∃ bit : ℕ, (s.task u).pid = (bit : ℤ) + 1 ∧
    bitmapScanTest s.pidBitmap bit = true
  pid_unique : ∀ u v, L u → L v → (s.task u).pid = (s.task v).pid → u = v
  serial_lt : ∀ u, L u → s.serial u < s.created
  serial_unique : ∀ u v, L u → L v → s.serial u = s.serial v → u = v
  exiting : ∀ u, L u → (s.point u = .exiting ↔ ∃ arg, .exited (s.serial u) arg ∈ tr)
  exit_status : ∀ u, L u → ∀ arg, .exited (s.serial u) arg ∈ tr →
    (s.task u).exitStatus = arg.toInt8
  forked_lt : ∀ f c, .forked f c ∈ tr → c < s.created
  exited_lt : ∀ c arg, .exited c arg ∈ tr → c < s.created
  reaped_gone : ∀ p c pid st, .reaped p c pid st ∈ tr →
    c < s.created ∧ ∀ u, L u → s.serial u ≠ c
  reaped_once : ∀ c, tr.countP (Event.isReapOf c) ≤ 1

/-- Every process that forked the child is the parent, or it has exited and the parent
is init. -/
def ForkedBy (tr : List Event) (parent child : ℕ) : Prop :=
  (∃ f, .forked f child ∈ tr) ∧
  ∀ f, .forked f child ∈ tr → f = parent ∨ (parent = 0 ∧ ∃ arg, .exited f arg ∈ tr)

/-- Parents have not exited, and what hangs has. -/
structure Family (tr : List Event) (s : Kernel) : Prop where
  init : ∃ i ∈ s.threadAllList, (s.task i).pid = 1 ∧ (s.task i).parentPid = -1 ∧
    s.serial i = 0 ∧ s.point i ≠ .exiting
  parent : ∀ c ∈ s.threadAllList, (s.task c).parentPid ≠ -1 →
    ∃ p ∈ s.threadAllList, (s.task p).pid = (s.task c).parentPid ∧ s.point p ≠ .exiting ∧
      ForkedBy tr (s.serial p) (s.serial c)
  pending : ∀ u ∈ s.threadAllList, ∀ c, s.point u = .fork c →
    (s.task c).parentPid = (s.task u).pid ∧ ∀ f, .forked f (s.serial c) ∉ tr
  hanging : ∀ u ∈ s.threadAllList, s.status u = .hanging → s.point u = .exiting

/-- The whole invariant. -/
structure Delivery (tr : List Event) (s : Kernel) : Prop where
  scheduled : s.Scheduled
  names : Names tr s s.Live
  family : Family tr s

/-- The names of the same processes in a state that agrees on their PCBs. -/
theorem Names.congr (h : Names tr s L)
    (htask : ∀ u, L u → (t.task u).pid = (s.task u).pid ∧ t.serial u = s.serial u ∧
      (t.task u).exitStatus = (s.task u).exitStatus ∧
      (t.point u = .exiting ↔ s.point u = .exiting))
    (hbitmap : t.pidBitmap = s.pidBitmap) (hcreated : t.created = s.created) :
    Names tr t L where
  pid_bit u hu := by
    rw [(htask u hu).1, hbitmap]
    exact h.pid_bit u hu
  pid_unique u v hu hv he := by
    rw [(htask u hu).1, (htask v hv).1] at he
    exact h.pid_unique u v hu hv he
  serial_lt u hu := by
    rw [(htask u hu).2.1, hcreated]
    exact h.serial_lt u hu
  serial_unique u v hu hv he := by
    rw [(htask u hu).2.1, (htask v hv).2.1] at he
    exact h.serial_unique u v hu hv he
  exiting u hu := by
    rw [(htask u hu).2.2.2, (htask u hu).2.1]
    exact h.exiting u hu
  exit_status u hu := by
    rw [(htask u hu).2.2.1, (htask u hu).2.1]
    exact h.exit_status u hu
  forked_lt := by rw [hcreated]; exact h.forked_lt
  exited_lt := by rw [hcreated]; exact h.exited_lt
  reaped_gone p c pid st hr := by
    obtain ⟨h1, h2⟩ := h.reaped_gone p c pid st hr
    refine ⟨by rwa [hcreated], fun u hu => ?_⟩
    rw [(htask u hu).2.1]
    exact h2 u hu
  reaped_once := h.reaped_once

/-- Fewer processes. -/
theorem Names.mono (h : Names tr s L) {L' : Tid → Prop} (hL : ∀ u, L' u → L u) :
    Names tr s L' where
  pid_bit u hu := h.pid_bit u (hL u hu)
  pid_unique u v hu hv := h.pid_unique u v (hL u hu) (hL v hv)
  serial_lt u hu := h.serial_lt u (hL u hu)
  serial_unique u v hu hv := h.serial_unique u v (hL u hu) (hL v hv)
  exiting u hu := h.exiting u (hL u hu)
  exit_status u hu := h.exit_status u (hL u hu)
  forked_lt := h.forked_lt
  exited_lt := h.exited_lt
  reaped_gone p c pid st hr :=
    ⟨(h.reaped_gone p c pid st hr).1, fun u hu => (h.reaped_gone p c pid st hr).2 u (hL u hu)⟩
  reaped_once := h.reaped_once

/-- A process with a fresh pid and a fresh serial. -/
theorem Names.birth (h : Names tr s L) {thread : Tid} {bit : ℕ} {p : TaskStruct}
    (hL : ¬ L thread) (hbit : bit ∈ s.pidBitmap.free) (hpid : p.pid = (bit : ℤ) + 1)
    (hserial : p.serial = s.created) (htask : t.task = Function.update s.task thread p)
    (hbitmap : t.pidBitmap = bitmapSet s.pidBitmap bit true)
    (hcreated : t.created = s.created + 1)
    (hpoint : ∀ u, L u → (t.point u = .exiting ↔ s.point u = .exiting))
    (huser : t.point thread ≠ .exiting) : Names tr t (fun u => L u ∨ u = thread) := by
  have hold : ∀ u, L u → t.task u = s.task u := by
    intro u hu
    have hne : u ≠ thread := fun he => hL (he ▸ hu)
    simp [htask, hne]
  have hnew : t.task thread = p := by simp [htask]
  have hser : ∀ u, L u → t.serial u = s.serial u := fun u hu => by
    rw [Kernel.serial, hold u hu, Kernel.serial]
  have hsernew : t.serial thread = s.created := by rw [Kernel.serial, hnew, hserial]
  have hnopid : ∀ u, L u → (s.task u).pid ≠ (bit : ℤ) + 1 := by
    intro u hu he
    obtain ⟨b, hb, hset⟩ := h.pid_bit u hu
    have hbb : b = bit := by omega
    have hclear := ((Bitmap.mem_free _ _).mp hbit).2
    rw [← hbb, hset] at hclear
    exact absurd hclear (by decide)
  have hnoexit : ∀ arg, Event.exited s.created arg ∉ tr := fun arg hmem =>
    absurd (h.exited_lt _ _ hmem) (lt_irrefl _)
  constructor
  · rintro u (hu | rfl)
    · obtain ⟨b, hb, hset⟩ := h.pid_bit u hu
      refine ⟨b, by rw [hold u hu, hb], ?_⟩
      rw [hbitmap, bitmapScanTest_set, hset]
      split_ifs <;> rfl
    · exact ⟨bit, by rw [hnew, hpid], by simp [hbitmap]⟩
  · rintro u v (hu | rfl) (hv | rfl) he
    · rw [hold u hu, hold v hv] at he
      exact h.pid_unique u v hu hv he
    · rw [hold u hu, hnew, hpid] at he
      exact absurd he (hnopid u hu)
    · rw [hold v hv, hnew, hpid] at he
      exact absurd he.symm (hnopid v hv)
    · rfl
  · rintro u (hu | rfl)
    · have := h.serial_lt u hu
      rw [hser u hu, hcreated]
      omega
    · rw [hsernew, hcreated]
      omega
  · rintro u v (hu | rfl) (hv | rfl) he
    · rw [hser u hu, hser v hv] at he
      exact h.serial_unique u v hu hv he
    · rw [hser u hu, hsernew] at he
      exact absurd he (h.serial_lt u hu).ne
    · rw [hser v hv, hsernew] at he
      exact absurd he.symm (h.serial_lt v hv).ne
    · rfl
  · rintro u (hu | rfl)
    · rw [hpoint u hu, hser u hu]
      exact h.exiting u hu
    · rw [hsernew]
      exact ⟨fun he => absurd he huser, fun ⟨arg, he⟩ => absurd he (hnoexit arg)⟩
  · rintro u (hu | rfl) arg he
    · rw [hser u hu] at he
      rw [hold u hu]
      exact h.exit_status u hu arg he
    · rw [hsernew] at he
      exact absurd he (hnoexit arg)
  · intro f c hf
    have := h.forked_lt f c hf
    omega
  · intro c arg he
    have := h.exited_lt c arg he
    omega
  · intro q c pid st hr
    obtain ⟨h1, h2⟩ := h.reaped_gone q c pid st hr
    refine ⟨by omega, ?_⟩
    rintro u (hu | rfl)
    · rw [hser u hu]
      exact h2 u hu
    · rw [hsernew]
      omega
  · exact h.reaped_once

/-- Events that say nothing about a process. -/
def Event.Silent (e : Event) : Prop := e = .quiet ∨ ∃ p, e = .noChild p

theorem Names.silent (h : Names tr s L) {e : Event} (he : e.Silent) : Names (tr ++ [e]) s L := by
  rcases he with rfl | ⟨p, rfl⟩ <;>
  · constructor
    · exact h.pid_bit
    · exact h.pid_unique
    · exact h.serial_lt
    · exact h.serial_unique
    · simpa using h.exiting
    · simpa using h.exit_status
    · simpa using h.forked_lt
    · simpa using h.exited_lt
    · simpa using h.reaped_gone
    · simpa [List.countP_append, Event.isReapOf] using h.reaped_once

theorem Names.forked (h : Names tr s L) {f c : ℕ} (hc : c < s.created) :
    Names (tr ++ [.forked f c]) s L := by
  constructor
  · exact h.pid_bit
  · exact h.pid_unique
  · exact h.serial_lt
  · exact h.serial_unique
  · simpa using h.exiting
  · simpa using h.exit_status
  · intro g d hmem
    rcases List.mem_append.mp hmem with hmem | hmem
    · exact h.forked_lt g d hmem
    · obtain ⟨rfl, rfl⟩ : g = f ∧ d = c := by simpa using hmem
      exact hc
  · simpa using h.exited_lt
  · simpa using h.reaped_gone
  · simpa [List.countP_append, Event.isReapOf] using h.reaped_once

/-- A process that has not exited does so, and its PCB keeps the argument. -/
theorem Names.exited (h : Names tr s L) {x : Tid} (hx : L x) (huser : s.point x ≠ .exiting)
    {arg : Int32} (hstatus : (t.task x).exitStatus = arg.toInt8)
    (htask : ∀ u, L u → (t.task u).pid = (s.task u).pid ∧ t.serial u = s.serial u ∧
      (u ≠ x → (t.task u).exitStatus = (s.task u).exitStatus ∧ t.point u = s.point u))
    (hpoint : t.point x = .exiting) (hbitmap : t.pidBitmap = s.pidBitmap)
    (hcreated : t.created = s.created) : Names (tr ++ [.exited (s.serial x) arg]) t L := by
  have hmem (c : ℕ) (a : Int32) : .exited c a ∈ tr ++ [.exited (s.serial x) arg] ↔
      .exited c a ∈ tr ∨ (c = s.serial x ∧ a = arg) := by simp
  have hnone : ∀ a, .exited (s.serial x) a ∉ tr := fun a ha =>
    huser ((h.exiting x hx).mpr ⟨a, ha⟩)
  have hother : ∀ u, L u → u ≠ x → s.serial u ≠ s.serial x := fun u hu hne he =>
    hne (h.serial_unique u x hu hx he)
  constructor
  · intro u hu
    rw [(htask u hu).1, hbitmap]
    exact h.pid_bit u hu
  · intro u v hu hv he
    rw [(htask u hu).1, (htask v hv).1] at he
    exact h.pid_unique u v hu hv he
  · intro u hu
    rw [(htask u hu).2.1, hcreated]
    exact h.serial_lt u hu
  · intro u v hu hv he
    rw [(htask u hu).2.1, (htask v hv).2.1] at he
    exact h.serial_unique u v hu hv he
  · intro u hu
    simp only [(htask u hu).2.1, hmem]
    by_cases hux : u = x
    · subst hux
      simp [hpoint]
    · rw [((htask u hu).2.2 hux).2, h.exiting u hu]
      simp [hother u hu hux]
  · intro u hu a ha
    rw [(htask u hu).2.1, hmem] at ha
    by_cases hux : u = x
    · subst hux
      rcases ha with ha | ⟨-, rfl⟩
      · exact absurd ha (hnone a)
      · exact hstatus
    · rw [((htask u hu).2.2 hux).1]
      rcases ha with ha | ⟨he, -⟩
      · exact h.exit_status u hu a ha
      · exact absurd he (hother u hu hux)
  · intro f c hf
    rw [hcreated]
    exact h.forked_lt f c (by simpa using hf)
  · intro c a ha
    rw [hcreated]
    rcases (hmem c a).mp ha with ha | ⟨rfl, -⟩
    · exact h.exited_lt c a ha
    · exact h.serial_lt x hx
  · intro p c pid st hr
    obtain ⟨h1, h2⟩ := h.reaped_gone p c pid st (by simpa using hr)
    refine ⟨by rwa [hcreated], fun u hu => ?_⟩
    rw [(htask u hu).2.1]
    exact h2 u hu
  · simpa [List.countP_append, Event.isReapOf] using h.reaped_once

/-- A process is reaped: it had not been reaped before, and it is gone afterwards. -/
theorem Names.reaped (h : Names tr s L) {x : Tid} (hx : L x) {L' : Tid → Prop}
    (hL : ∀ u, L' u → L u ∧ u ≠ x) (parent : ℕ) (pid : ℤ) (st : Int32)
    (htask : ∀ u, u ≠ x → t.task u = s.task u) (hpoint : t.point = s.point)
    (hbitmap : t.pidBitmap = bitmapSet s.pidBitmap ((s.task x).pid - 1).toNat false)
    (hcreated : t.created = s.created) :
    Names (tr ++ [.reaped parent (s.serial x) pid st]) t L' := by
  have hser : ∀ u, u ≠ x → t.serial u = s.serial u := fun u hu => by
    rw [Kernel.serial, htask u hu, Kernel.serial]
  have hfirst : ∀ q pid st, .reaped q (s.serial x) pid st ∉ tr := fun q pid st hr =>
    (h.reaped_gone q _ pid st hr).2 x hx rfl
  constructor
  · intro u hu
    obtain ⟨hu, hne⟩ := hL u hu
    obtain ⟨b, hb, hset⟩ := h.pid_bit u hu
    obtain ⟨b', hb', -⟩ := h.pid_bit x hx
    have hbb : b' ≠ b := by
      rintro rfl
      exact hne (h.pid_unique u x hu hx (by rw [hb, hb']))
    have hnat : ((s.task x).pid - 1).toNat = b' := by rw [hb']; simp
    refine ⟨b, by rw [htask u hne, hb], ?_⟩
    rw [hbitmap, hnat, bitmapScanTest_set, if_neg hbb, hset]
  · intro u v hu hv he
    obtain ⟨hu, hune⟩ := hL u hu
    obtain ⟨hv, hvne⟩ := hL v hv
    rw [htask u hune, htask v hvne] at he
    exact h.pid_unique u v hu hv he
  · intro u hu
    obtain ⟨hu, hne⟩ := hL u hu
    rw [hser u hne, hcreated]
    exact h.serial_lt u hu
  · intro u v hu hv he
    obtain ⟨hu, hune⟩ := hL u hu
    obtain ⟨hv, hvne⟩ := hL v hv
    rw [hser u hune, hser v hvne] at he
    exact h.serial_unique u v hu hv he
  · intro u hu
    obtain ⟨hu, hne⟩ := hL u hu
    rw [hser u hne, hpoint]
    simpa using h.exiting u hu
  · intro u hu a ha
    obtain ⟨hu, hne⟩ := hL u hu
    rw [hser u hne] at ha
    rw [htask u hne]
    exact h.exit_status u hu a (by simpa using ha)
  · intro f c hf
    rw [hcreated]
    exact h.forked_lt f c (by simpa using hf)
  · intro c a ha
    rw [hcreated]
    exact h.exited_lt c a (by simpa using ha)
  · intro q c pid' st' hr
    rcases List.mem_append.mp hr with hr | hr
    · obtain ⟨h1, h2⟩ := h.reaped_gone q c pid' st' hr
      refine ⟨by rwa [hcreated], fun u hu => ?_⟩
      obtain ⟨hu, hne⟩ := hL u hu
      rw [hser u hne]
      exact h2 u hu
    · obtain ⟨-, rfl, -, -⟩ : q = parent ∧ c = s.serial x ∧ pid' = pid ∧ st' = st := by
        simpa using hr
      refine ⟨by rw [hcreated]; exact h.serial_lt x hx, fun u hu he => ?_⟩
      obtain ⟨hu, hne⟩ := hL u hu
      rw [hser u hne] at he
      exact hne (h.serial_unique u x hu hx he)
  · intro c
    have hc := h.reaped_once c
    by_cases hcx : s.serial x = c
    · have hzero : tr.countP (Event.isReapOf c) = 0 := by
        rw [List.countP_eq_zero]
        rintro (_ | _ | _ | ⟨q, c', pid', st'⟩ | _) hmem <;> simp only [Event.isReapOf] <;>
          try exact Bool.false_ne_true
        simp only [decide_eq_true_eq]
        rintro rfl
        exact hfirst q pid' st' (hcx ▸ hmem)
      simp [List.countP_append, hzero, Event.isReapOf, hcx]
    · simpa [List.countP_append, Event.isReapOf, hcx] using hc

section Frame

variable (hf : s.Frame t) (u : Tid)
include hf

theorem Kernel.Frame.pid : (t.task u).pid = (s.task u).pid := by rw [hf.task u]

theorem Kernel.Frame.parentPid : (t.task u).parentPid = (s.task u).parentPid := by rw [hf.task u]

theorem Kernel.Frame.exitStatus : (t.task u).exitStatus = (s.task u).exitStatus := by
  rw [hf.task u]

theorem Kernel.Frame.serial : t.serial u = s.serial u := by
  rw [Kernel.serial, hf.task u, Kernel.serial]

theorem Kernel.Frame.live : t.Live u ↔ s.Live u := by
  rw [Kernel.Live, Kernel.Live, hf.all, hf.point]

end Frame

/-- The family only reads pids, parents, serials and points. -/
theorem Family.congr (h : Family tr s) (hall : t.threadAllList = s.threadAllList)
    (htask : ∀ u, (t.task u).pid = (s.task u).pid ∧ (t.task u).parentPid = (s.task u).parentPid ∧
      t.serial u = s.serial u)
    (hpoint : t.point = s.point)
    (hhang : ∀ u ∈ s.threadAllList, t.status u = .hanging → s.point u = .exiting) :
    Family tr t where
  init := by simpa only [hall, (htask _).1, (htask _).2.1, (htask _).2.2, hpoint] using h.init
  parent := by
    simpa only [hall, (htask _).1, (htask _).2.1, (htask _).2.2, hpoint] using h.parent
  pending := by
    simpa only [hall, (htask _).1, (htask _).2.1, (htask _).2.2, hpoint] using h.pending
  hanging u hu hstat := by
    rw [hall] at hu
    rw [hpoint]
    exact hhang u hu hstat

theorem Family.silent (h : Family tr s) {e : Event} (he : e.Silent) : Family (tr ++ [e]) s := by
  have hfork (f c : ℕ) : .forked f c ∈ tr ++ [e] ↔ .forked f c ∈ tr := by
    rcases he with rfl | ⟨p, rfl⟩ <;> simp
  have hexit (c : ℕ) (arg : Int32) : .exited c arg ∈ tr ++ [e] ↔ .exited c arg ∈ tr := by
    rcases he with rfl | ⟨p, rfl⟩ <;> simp
  refine ⟨h.init, ?_, ?_, h.hanging⟩
  · simpa only [ForkedBy, hfork, hexit] using h.parent
  · simpa only [hfork] using h.pending

theorem Names.frame (h : Names tr s s.Live) (hf : s.Frame t) : Names tr t t.Live := by
  have hn := h.mono (fun u hu => (hf.live u).mp hu)
  exact hn.congr (fun u _ => ⟨hf.pid u, hf.serial u, hf.exitStatus u, by rw [hf.point]⟩)
    hf.pidBitmap hf.created

theorem Family.frame (h : Family tr s) (hf : s.Frame t) : Family tr t :=
  h.congr hf.all (fun u => ⟨hf.pid u, hf.parentPid u, hf.serial u⟩) hf.point
    (fun u hu hhang => h.hanging u hu (hf.hanging u hhang))

/-- The scheduler's actions do not touch what the history speaks of. -/
theorem Delivery.frame (h : Delivery tr s) {e : Event} (he : e.Silent) (ht : t.queues.Settled)
    (hf : s.Frame t) : Delivery (tr ++ [e]) t where
  scheduled := h.scheduled.frame ht hf
  names := (h.names.silent he).frame hf
  family := (h.family.silent he).frame hf

/-- A field that an update of a PCB keeps. -/
theorem setTask_field {α : Type} (g : TaskStruct → α) {f : TaskStruct → TaskStruct}
    (hf : ∀ p, g (f p) = g p) (c u : Tid) : g ((s.setTask c f).task u) = g (s.task u) := by
  by_cases hu : u = c
  · subst hu
    simp [Kernel.setTask, hf]
  · simp [Kernel.setTask, hu]

/-- Hanging changes nothing for a process that has exited. -/
theorem Delivery.hang (h : Delivery tr s) (hexit : s.point s.runningThread = .exiting)
    (ht : t.queues.Settled) (hf : (s.setStatus s.runningThread .hanging).Frame t) :
    Delivery (tr ++ [.quiet]) t := by
  have hkeep {α : Type} (g : TaskStruct → α)
      (hg : ∀ p : TaskStruct, g { p with status := .hanging } = g p) (u : Tid) :
      g ((s.setStatus s.runningThread .hanging).task u) = g (s.task u) :=
    setTask_field g hg _ u
  have hnames : Names (tr ++ [.quiet]) (s.setStatus s.runningThread .hanging) s.Live :=
    (h.names.silent (Or.inl rfl)).congr (fun u _ => ⟨hkeep TaskStruct.pid (fun _ => rfl) u,
      hkeep TaskStruct.serial (fun _ => rfl) u, hkeep TaskStruct.exitStatus (fun _ => rfl) u,
      Iff.rfl⟩) rfl rfl
  have hfamily : Family (tr ++ [.quiet]) (s.setStatus s.runningThread .hanging) := by
    refine (h.family.silent (Or.inl rfl)).congr rfl (fun u => ⟨hkeep TaskStruct.pid (fun _ => rfl) u,
      hkeep TaskStruct.parentPid (fun _ => rfl) u, hkeep TaskStruct.serial (fun _ => rfl) u⟩) rfl ?_
    intro u hu hhang
    by_cases hur : u = s.runningThread
    · rw [hur, hexit]
    · refine h.family.hanging u hu ?_
      simpa [Kernel.status, Kernel.setStatus, Kernel.setTask, hur] using hhang
  exact ⟨h.scheduled.frameStatus .hanging ht hf, hnames.frame hf, hfamily.frame hf⟩

/-- A new kernel thread has no parent. -/
theorem Delivery.threadStart (h : Delivery tr s) {thread : Tid} (hfree : s.PageFree thread)
    {bit : ℕ} (hbit : bit ∈ s.pidBitmap.free) (name : List UInt8) (prio : UInt8)
    (ht : t.Scheduled) (he : t = s.withStarted bit thread name prio) :
    Delivery (tr ++ [.quiet]) t := by
  obtain ⟨hmem, -, hfork⟩ := hfree
  have hnl : ¬ s.Live thread := by
    rintro (hl | ⟨v, hv, hl⟩)
    · exact hmem hl
    · exact hfork v hv hl
  have hne : ∀ u ∈ s.threadAllList, u ≠ thread := fun u hu heq => hmem (heq ▸ hu)
  have hpoint : ∀ u, u ≠ thread → t.point u = s.point u := by
    intro u hu
    simp [he, Kernel.withStarted, Kernel.withThread, hu]
  have htask : ∀ u, u ≠ thread → t.task u = s.task u := by
    intro u hu
    simp [he, Kernel.withStarted, Kernel.withThread, hu]
  have huser : t.point thread = .user := by simp [he, Kernel.withStarted, Kernel.withThread]
  have hall : ∀ u, u ∈ t.threadAllList ↔ u ∈ s.threadAllList ∨ u = thread := by simp [he, Kernel.withStarted]
  have hser : ∀ u, u ≠ thread → t.serial u = s.serial u := fun u hu => by
    rw [Kernel.serial, htask u hu, Kernel.serial]
  refine ⟨ht, ?_, ?_⟩
  · have hbirth := (h.names.silent (e := .quiet) (Or.inl rfl)).birth (t := t)
      (p := newPcb (bit + 1) .ready name prio s.created) hnl hbit rfl rfl
      (by simp [he, Kernel.withStarted, Kernel.withThread]) (by simp [he, Kernel.withStarted, Kernel.withThread])
      (by simp [he, Kernel.withStarted, Kernel.withThread]) (fun u hu => by
        rw [hpoint u (fun heq => hnl (heq ▸ hu))]) (by simp [huser])
    refine hbirth.mono ?_
    rintro u (hu | ⟨v, hv, hu⟩)
    · rcases (hall u).mp hu with hu | rfl
      · exact Or.inl (Or.inl hu)
      · exact Or.inr rfl
    · rcases (hall v).mp hv with hv | rfl
      · rw [hpoint v (hne v hv)] at hu
        exact Or.inl (Or.inr ⟨v, hv, hu⟩)
      · simp [huser] at hu
  · have hfam := h.family.silent (e := .quiet) (Or.inl rfl)
    constructor
    · obtain ⟨i, hi, h1, h2, h3, h4⟩ := hfam.init
      have hit := hne i hi
      exact ⟨i, (hall i).mpr (Or.inl hi), by rw [htask i hit, h1], by rw [htask i hit, h2],
        by rw [hser i hit, h3], by rwa [hpoint i hit]⟩
    · intro c hc hp
      rcases (hall c).mp hc with hc | rfl
      · have hct := hne c hc
        rw [htask c hct] at hp ⊢
        obtain ⟨p, hpm, h1, h2, h3⟩ := hfam.parent c hc hp
        have hpt := hne p hpm
        exact ⟨p, (hall p).mpr (Or.inl hpm), by rw [htask p hpt, h1], by rwa [hpoint p hpt],
          by rwa [hser p hpt, hser c hct]⟩
      · simp [he, Kernel.withStarted, Kernel.withThread, newPcb] at hp
    · intro u hu c hc
      rcases (hall u).mp hu with hu | rfl
      · have hut := hne u hu
        rw [hpoint u hut] at hc
        have hct : c ≠ thread := fun heq => hfork u hu (heq ▸ hc)
        rw [htask u hut, htask c hct, hser c hct]
        exact hfam.pending u hu c hc
      · simp [huser] at hc
    · intro u hu hhang
      rcases (hall u).mp hu with hu | rfl
      · have hut := hne u hu
        rw [hpoint u hut]
        refine hfam.hanging u hu ?_
        rwa [Kernel.status, htask u hut] at hhang
      · simp [he, Kernel.status, Kernel.withStarted, Kernel.withThread, newPcb] at hhang

/-- The child of a fork gets its pid, its parent and its serial. -/
theorem Delivery.forkCopy (h : Delivery tr s) {child : Tid} (hfree : s.PageFree child)
    (huser : s.point s.runningThread = .user) {bit : ℕ} (hbit : bit ∈ s.pidBitmap.free)
    (ht : t.Scheduled) (he : t = s.withCopy bit child) :
    Delivery (tr ++ [.quiet]) t := by
  obtain ⟨hmem, -, hfork⟩ := hfree
  have hnl : ¬ s.Live child := by
    rintro (hl | ⟨v, hv, hl⟩)
    · exact hmem hl
    · exact hfork v hv hl
  have hne : ∀ u ∈ s.threadAllList, u ≠ child := fun u hu heq => hmem (heq ▸ hu)
  have hcur := hne _ h.scheduled.current_mem
  have hpoint : ∀ u, u ≠ child → u ≠ s.runningThread → t.point u = s.point u := by
    intro u hu hur
    simp [he, Kernel.withCopy, Kernel.setPoint, Kernel.withThread, hu, hur]
  have hpcur : t.point s.runningThread = .fork child := by
    simp [he, Kernel.withCopy, Kernel.setPoint, Kernel.withThread]
  have hpchild : t.point child = .user := by
    simp [he, Kernel.withCopy, Kernel.setPoint, Kernel.withThread, Ne.symm hcur]
  have htask : ∀ u, u ≠ child → t.task u = s.task u := by
    intro u hu
    simp [he, Kernel.withCopy, Kernel.setPoint, Kernel.withThread, hu]
  have htchild : t.task child = copyPcb (s.task s.runningThread) (bit + 1) s.created := by
    simp [he, Kernel.withCopy, Kernel.setPoint, Kernel.withThread]
  have hser : ∀ u, u ≠ child → t.serial u = s.serial u := fun u hu => by
    rw [Kernel.serial, htask u hu, Kernel.serial]
  have hall : t.threadAllList = s.threadAllList := by rw [he]; rfl
  have hexit : ∀ u, u ≠ child → (t.point u = .exiting ↔ s.point u = .exiting) := by
    intro u hu
    by_cases hur : u = s.runningThread
    · subst hur
      simp [hpcur, huser]
    · rw [hpoint u hu hur]
  refine ⟨ht, ?_, ?_⟩
  · have hbirth := (h.names.silent (e := .quiet) (Or.inl rfl)).birth (t := t)
      (p := copyPcb (s.task s.runningThread) (bit + 1) s.created) hnl hbit rfl rfl
      (by simp [he, Kernel.withCopy, Kernel.setPoint, Kernel.withThread])
      (by simp [he, Kernel.withCopy, Kernel.setPoint, Kernel.withThread])
      (by simp [he, Kernel.withCopy, Kernel.setPoint, Kernel.withThread])
      (fun u hu => hexit u (fun heq => hnl (heq ▸ hu))) (by simp [hpchild])
    refine hbirth.mono ?_
    rintro u (hu | ⟨v, hv, hu⟩)
    · exact Or.inl (Or.inl (hall ▸ hu))
    · rw [hall] at hv
      by_cases hvr : v = s.runningThread
      · rw [hvr, hpcur] at hu
        exact Or.inr (Point.fork.inj hu).symm
      · rw [hpoint v (hne v hv) hvr] at hu
        exact Or.inl (Or.inr ⟨v, hv, hu⟩)
  · have hfam := h.family.silent (e := .quiet) (Or.inl rfl)
    constructor
    · obtain ⟨i, hi, h1, h2, h3, h4⟩ := hfam.init
      have hit := hne i hi
      exact ⟨i, hall ▸ hi, by rw [htask i hit, h1], by rw [htask i hit, h2],
        by rw [hser i hit, h3], fun hx => h4 ((hexit i hit).mp hx)⟩
    · intro c hc hp
      rw [hall] at hc
      have hct := hne c hc
      rw [htask c hct] at hp ⊢
      obtain ⟨p, hpm, h1, h2, h3⟩ := hfam.parent c hc hp
      have hpt := hne p hpm
      exact ⟨p, hall ▸ hpm, by rw [htask p hpt, h1], fun hx => h2 ((hexit p hpt).mp hx),
        by rwa [hser p hpt, hser c hct]⟩
    · intro u hu c hc
      rw [hall] at hu
      have hut := hne u hu
      by_cases hur : u = s.runningThread
      · rw [hur, hpcur] at hc
        obtain rfl := Point.fork.inj hc
        rw [hur, htask _ hcur, htchild, Kernel.serial, htchild]
        refine ⟨rfl, fun f hf => ?_⟩
        have hold : Event.forked f s.created ∈ tr := by simpa [copyPcb] using hf
        exact absurd (h.names.forked_lt f _ hold) (lt_irrefl _)
      · rw [hpoint u hut hur] at hc
        have hct : c ≠ child := fun heq => hfork u hu (heq ▸ hc)
        rw [htask u hut, htask c hct, hser c hct]
        exact hfam.pending u hu c hc
    · intro u hu hhang
      rw [hall] at hu
      have hut := hne u hu
      refine (hexit u hut).mpr (hfam.hanging u hu ?_)
      rwa [Kernel.status, htask u hut] at hhang

theorem point_of_scheduled (h : s.Scheduled) {child : Tid}
    (hpoint : s.point s.runningThread = .fork child) :
    ∀ u ∈ s.threadAllList, u ≠ s.runningThread → s.point u ≠ .fork child :=
  fun u hu hne hc => hne (h.pending_unique u hu _ h.current_mem child hc hpoint)

/-- A fork that could not get its pages leaves nothing on the lists. -/
theorem Delivery.forkFail (h : Delivery tr s) {child : Tid}
    (hfork : s.point s.runningThread = .fork child) (ht : (s.setPoint .user).Scheduled) :
    Delivery (tr ++ [.quiet]) (s.setPoint .user) := by
  have hpoint : ∀ u, u ≠ s.runningThread → (s.setPoint .user).point u = s.point u := by
    intro u hu
    simp [Kernel.setPoint, hu]
  have hpcur : (s.setPoint .user).point s.runningThread = .user := by simp [Kernel.setPoint]
  have hexit : ∀ u, (s.setPoint .user).point u = .exiting ↔ s.point u = .exiting := by
    intro u
    by_cases hur : u = s.runningThread
    · subst hur
      simp [hpcur, hfork]
    · rw [hpoint u hur]
  have hlive : ∀ u, (s.setPoint .user).Live u → s.Live u := by
    rintro u (hu | ⟨v, hv, hu⟩)
    · exact Or.inl hu
    · by_cases hvr : v = s.runningThread
      · simp [hvr, hpcur] at hu
      · exact Or.inr ⟨v, hv, (hpoint v hvr).symm.trans hu⟩
  have hfam := h.family.silent (e := .quiet) (Or.inl rfl)
  refine ⟨ht, ?_, ?_, ?_, ?_, ?_⟩
  · exact ((h.names.silent (Or.inl rfl)).mono hlive).congr
      (fun u _ => ⟨rfl, rfl, rfl, hexit u⟩) rfl rfl
  · obtain ⟨i, hi, h1, h2, h3, h4⟩ := hfam.init
    exact ⟨i, hi, h1, h2, h3, fun hx => h4 ((hexit i).mp hx)⟩
  · intro c hc hp
    obtain ⟨p, hpm, h1, h2, h3⟩ := hfam.parent c hc hp
    exact ⟨p, hpm, h1, fun hx => h2 ((hexit p).mp hx), h3⟩
  · intro u hu c hc
    by_cases hur : u = s.runningThread
    · simp [hur, hpcur] at hc
    · exact hfam.pending u hu c ((hpoint u hur).symm.trans hc)
  · exact fun u hu hhang => (hexit u).mpr (hfam.hanging u hu hhang)

/-- The child of a finished fork has its parent for a parent. -/
theorem Delivery.forkDone (h : Delivery tr s) {child : Tid}
    (hfork : s.point s.runningThread = .fork child) (ht : t.Scheduled)
    (he : t = s.withChild child) :
    Delivery (tr ++ [.forked (s.serial s.runningThread) (s.serial child)]) t := by
  have hcur := h.scheduled.current_mem
  obtain ⟨hmem, hready, huser⟩ := h.scheduled.pending _ hcur child hfork
  obtain ⟨hparent, hnofork⟩ := h.family.pending _ hcur child hfork
  have hlivechild : s.Live child := Or.inr ⟨_, hcur, hfork⟩
  have hkeep {α : Type} (g : TaskStruct → α)
      (hg : ∀ p : TaskStruct, g { p with name := forkName p.name } = g p) (u : Tid) :
      g (t.task u) = g (s.task u) := by
    rw [he]
    exact setTask_field (s := s.setPoint .user) g hg child u
  have htask : ∀ u, (t.task u).pid = (s.task u).pid ∧
      (t.task u).parentPid = (s.task u).parentPid ∧ t.serial u = s.serial u ∧
      (t.task u).exitStatus = (s.task u).exitStatus ∧ t.status u = s.status u := fun u =>
    ⟨hkeep TaskStruct.pid (fun _ => rfl) u, hkeep TaskStruct.parentPid (fun _ => rfl) u,
      hkeep TaskStruct.serial (fun _ => rfl) u, hkeep TaskStruct.exitStatus (fun _ => rfl) u,
      hkeep TaskStruct.status (fun _ => rfl) u⟩
  have hall : t.threadAllList = s.threadAllList ++ [child] := by rw [he]; rfl
  have hpt : t.point = (s.setPoint .user).point := by rw [he]; rfl
  have hbitmap : t.pidBitmap = s.pidBitmap := by rw [he]; rfl
  have hcreated : t.created = s.created := by rw [he]; rfl
  have hpoint : ∀ u, u ≠ s.runningThread → t.point u = s.point u := by
    intro u hu
    simp [hpt, Kernel.setPoint, hu]
  have hpcur : t.point s.runningThread = .user := by simp [hpt, Kernel.setPoint]
  have hexit : ∀ u, t.point u = .exiting ↔ s.point u = .exiting := by
    intro u
    by_cases hur : u = s.runningThread
    · subst hur
      simp [hpcur, hfork]
    · rw [hpoint u hur]
  have hin : ∀ u, u ∈ t.threadAllList ↔ u ∈ s.threadAllList ∨ u = child := by simp [hall]
  have hpchild : t.point child = .user := by
    have hne : child ≠ s.runningThread := fun heq => hmem (heq ▸ hcur)
    rw [hpoint child hne, huser]
  have hlive : ∀ u, t.Live u → s.Live u := by
    rintro u (hu | ⟨v, hv, hu⟩)
    · rcases (hin u).mp hu with hu | rfl
      · exact Or.inl hu
      · exact hlivechild
    · rcases (hin v).mp hv with hv | rfl
      · by_cases hvr : v = s.runningThread
        · simp [hvr, hpcur] at hu
        · exact Or.inr ⟨v, hv, (hpoint v hvr).symm.trans hu⟩
      · simp [hpchild] at hu
  have hmemfork (f c : ℕ) : .forked f c ∈ tr ++ [.forked (s.serial s.runningThread)
      (s.serial child)] ↔ .forked f c ∈ tr ∨ (f = s.serial s.runningThread ∧
        c = s.serial child) := by simp
  have hother : ∀ c, s.Live c → c ≠ child → s.serial c ≠ s.serial child := fun c hc hne heq =>
    hne (h.names.serial_unique c child hc hlivechild heq)
  refine ⟨ht, ?_, ?_, ?_, ?_, ?_⟩
  · refine ((h.names.forked (h.names.serial_lt child hlivechild)).mono hlive).congr
      (fun u _ => ?_) hbitmap hcreated
    obtain ⟨h1, -, h3, h4, -⟩ := htask u
    exact ⟨h1, h3, h4, hexit u⟩
  · obtain ⟨i, hi, h1, h2, h3, h4⟩ := h.family.init
    obtain ⟨g1, g2, g3, -⟩ := htask i
    exact ⟨i, (hin i).mpr (Or.inl hi), g1.trans h1, g2.trans h2, g3.trans h3,
      fun hx => h4 ((hexit i).mp hx)⟩
  · intro c hc hp
    rw [(htask c).2.1] at hp ⊢
    rw [(htask c).2.2.1]
    rcases (hin c).mp hc with hc | rfl
    · obtain ⟨p, hpm, h1, h2, ⟨f, hf⟩, h4⟩ := h.family.parent c hc hp
      have hne : c ≠ child := fun heq => hmem (heq ▸ hc)
      refine ⟨p, (hin p).mpr (Or.inl hpm), (htask p).1.trans h1, fun hx => h2 ((hexit p).mp hx),
        ⟨f, List.mem_append_left _ hf⟩, fun g hg => ?_⟩
      rw [(htask p).2.2.1]
      rcases (hmemfork g _).mp hg with hg | ⟨-, hg⟩
      · simpa using h4 g hg
      · exact absurd hg (hother c (Or.inl hc) hne)
    · refine ⟨s.runningThread, (hin _).mpr (Or.inl hcur), (htask _).1.trans hparent.symm,
        by simp [hpcur], ⟨_, (hmemfork _ _).mpr (Or.inr ⟨rfl, rfl⟩)⟩, fun g hg => ?_⟩
      rw [(htask _).2.2.1]
      rcases (hmemfork g _).mp hg with hg | ⟨hg, -⟩
      · exact absurd hg (hnofork g)
      · exact Or.inl hg
  · intro u hu c hc
    rw [(htask c).2.1, (htask u).1, (htask c).2.2.1]
    rcases (hin u).mp hu with hu | rfl
    · by_cases hur : u = s.runningThread
      · simp [hur, hpcur] at hc
      · rw [hpoint u hur] at hc
        obtain ⟨h1, h2⟩ := h.family.pending u hu c hc
        have hne : c ≠ child := by
          rintro rfl
          exact point_of_scheduled h.scheduled hfork u hu hur hc
        refine ⟨h1, fun f hf => ?_⟩
        rcases (hmemfork f _).mp hf with hf | ⟨-, hf⟩
        · exact h2 f hf
        · exact hother c (Or.inr ⟨u, hu, hc⟩) hne hf
    · simp [hpchild] at hc
  · intro u hu hhang
    rw [(htask u).2.2.2.2] at hhang
    rcases (hin u).mp hu with hu | rfl
    · exact (hexit u).mpr (h.family.hanging u hu hhang)
    · simp [hready] at hhang

theorem adaptChildren_task (s : Kernel) (ppid : ℤ) (u : Tid) :
    ((adaptChildren s ppid).task u).pid = (s.task u).pid ∧
    (adaptChildren s ppid).serial u = s.serial u ∧
    ((adaptChildren s ppid).task u).exitStatus = (s.task u).exitStatus ∧
    ((adaptChildren s ppid).task u).parentPid =
      if u ∈ s.threadAllList ∧ (s.task u).parentPid = ppid then 1 else (s.task u).parentPid := by
  simp only [adaptChildren, initAdaptAChild, Kernel.serial]
  by_cases h1 : u ∈ s.threadAllList <;> by_cases h2 : (s.task u).parentPid = ppid <;>
    simp [h1, h2]

/-- A process exits: its children go to init, who has not exited. -/
theorem Delivery.exit (h : Delivery tr s) (huser : s.point s.runningThread = .user)
    (arg : Int32) (hparent : (s.task s.runningThread).parentPid ≠ -1)
    (ht : t.Scheduled) (he : t = s.withExit arg) :
    Delivery (tr ++ [.exited (s.serial s.runningThread) arg]) t := by
  have hcur := h.scheduled.current_mem
  set s₁ := s.setTask s.runningThread (fun p => { p with exitStatus := arg.toInt8 }) with hs₁
  have hkeep {α : Type} (g : TaskStruct → α)
      (hg : ∀ p : TaskStruct, g { p with exitStatus := arg.toInt8 } = g p) (u : Tid) :
      g (s₁.task u) = g (s.task u) := setTask_field g hg _ u
  have hpid : ∀ u, (t.task u).pid = (s.task u).pid := fun u => by
    rw [he]
    exact (adaptChildren_task s₁ _ u).1.trans (hkeep TaskStruct.pid (fun _ => rfl) u)
  have hser : ∀ u, t.serial u = s.serial u := fun u => by
    rw [he]
    exact (adaptChildren_task s₁ _ u).2.1.trans (hkeep TaskStruct.serial (fun _ => rfl) u)
  have hpp : ∀ u, (t.task u).parentPid =
      if u ∈ s.threadAllList ∧ (s.task u).parentPid = (s.task s.runningThread).pid then 1
      else (s.task u).parentPid := fun u => by
    rw [he]
    have := (adaptChildren_task s₁ (s.task s.runningThread).pid u).2.2.2
    rwa [hkeep TaskStruct.parentPid (fun _ => rfl) u] at this
  have hstatus : ∀ u, t.status u = s.status u := fun u => by
    rw [he]
    exact (adaptChildren_status s₁ _ u).trans (hkeep TaskStruct.status (fun _ => rfl) u)
  have hxcur : (t.task s.runningThread).exitStatus = arg.toInt8 := by
    rw [he]
    refine (adaptChildren_task s₁ _ _).2.2.1.trans ?_
    simp [hs₁, Kernel.setTask]
  have hxother : ∀ u, u ≠ s.runningThread → (t.task u).exitStatus = (s.task u).exitStatus := by
    intro u hu
    rw [he]
    refine (adaptChildren_task s₁ _ _).2.2.1.trans ?_
    simp [hs₁, Kernel.setTask, hu]
  have hpoint : ∀ u, u ≠ s.runningThread → t.point u = s.point u := by
    intro u hu
    rw [he]
    exact Function.update_of_ne hu _ _
  have hpcur : t.point s.runningThread = .exiting := by
    rw [he]
    exact Function.update_self _ _ _
  have hall : t.threadAllList = s.threadAllList := by rw [he]; rfl
  have hbitmap : t.pidBitmap = s.pidBitmap := by rw [he]; rfl
  have hcreated : t.created = s.created := by rw [he]; rfl
  have hlive : ∀ u, t.Live u → s.Live u := by
    rintro u (hu | ⟨v, hv, hu⟩)
    · exact Or.inl (hall ▸ hu)
    · have hvr : v ≠ s.runningThread := by
        rintro rfl
        simp [hpcur] at hu
      exact Or.inr ⟨v, hall ▸ hv, (hpoint v hvr).symm.trans hu⟩
  obtain ⟨bit, hbit, -⟩ := h.names.pid_bit _ (Or.inl hcur)
  have hforkmem (f c : ℕ) : .forked f c ∈ tr ++ [.exited (s.serial s.runningThread) arg] ↔
      .forked f c ∈ tr := by simp
  obtain ⟨i, hi, hi1, hi2, hi3, hi4⟩ := h.family.init
  have hicur : i ≠ s.runningThread := by
    rintro rfl
    exact hparent hi2
  refine ⟨ht, ?_, ?_, ?_, ?_, ?_⟩
  · refine (h.names.exited (Or.inl hcur) (by simp [huser]) hxcur (fun u _ => ⟨hpid u, hser u,
      fun hu => ⟨hxother u hu, hpoint u hu⟩⟩) hpcur hbitmap hcreated).mono hlive
  · refine ⟨i, hall ▸ hi, (hpid i).trans hi1, ?_, (hser i).trans hi3, by rwa [hpoint i hicur]⟩
    rw [hpp i, if_neg (fun hx => by omega), hi2]
  · intro c hc hp
    rw [hall] at hc
    rw [hser c]
    by_cases hadopt : (s.task c).parentPid = (s.task s.runningThread).pid
    · obtain ⟨p, hpm, h1, -, ⟨f, hf⟩, h4⟩ := h.family.parent c hc (by omega)
      have hpc : p = s.runningThread :=
        h.names.pid_unique p _ (Or.inl hpm) (Or.inl hcur) (h1.trans hadopt)
      refine ⟨i, hall ▸ hi, ?_, by rwa [hpoint i hicur], ⟨f, (hforkmem _ _).mpr hf⟩, ?_⟩
      · rw [hpid, hpp c, if_pos ⟨hc, hadopt⟩, hi1]
      · intro g hg
        refine Or.inr ⟨(hser i).trans hi3, ?_⟩
        rcases h4 g ((hforkmem _ _).mp hg) with rfl | ⟨-, a, ha⟩
        · exact ⟨arg, by simp [hpc]⟩
        · exact ⟨a, List.mem_append_left _ ha⟩
    · rw [hpp c, if_neg (fun hx => hadopt hx.2)] at hp ⊢
      obtain ⟨p, hpm, h1, h2, ⟨f, hf⟩, h4⟩ := h.family.parent c hc hp
      have hpr : p ≠ s.runningThread := by
        rintro rfl
        exact hadopt h1.symm
      refine ⟨p, hall ▸ hpm, (hpid p).trans h1, by rwa [hpoint p hpr],
        ⟨f, (hforkmem _ _).mpr hf⟩, fun g hg => ?_⟩
      rw [hser p]
      rcases h4 g ((hforkmem _ _).mp hg) with hg | ⟨h0, a, ha⟩
      · exact Or.inl hg
      · exact Or.inr ⟨h0, a, List.mem_append_left _ ha⟩
  · intro u hu c hc
    rw [hall] at hu
    have hur : u ≠ s.runningThread := by
      rintro rfl
      simp [hpcur] at hc
    rw [hpoint u hur] at hc
    obtain ⟨hc1, -, -⟩ := h.scheduled.pending u hu c hc
    obtain ⟨h1, h2⟩ := h.family.pending u hu c hc
    rw [hpp c, if_neg (fun hx => hc1 hx.1), hpid u, hser c]
    exact ⟨h1, fun f hf => h2 f ((hforkmem _ _).mp hf)⟩
  · intro u hu hhang
    rw [hall] at hu
    rw [hstatus u] at hhang
    by_cases hur : u = s.runningThread
    · rw [hur, hpcur]
    · rw [hpoint u hur]
      exact h.family.hanging u hu hhang

/-- A hanging child is reaped by its parent. -/
theorem Delivery.reap (h : Delivery tr s) {c : Tid} (hc : c ∈ s.threadAllList)
    (hhang : s.status c = .hanging) (parent : ℕ) (pid : ℤ) (st : Int32) :
    Delivery (tr ++ [.reaped parent (s.serial c) pid st]) (threadExit s c) := by
  have hall : (threadExit s c).threadAllList = s.threadAllList.erase c := rfl
  have hnodup := h.scheduled.settled.all_nodup
  have hmem : ∀ u, u ∈ (threadExit s c).threadAllList ↔ u ≠ c ∧ u ∈ s.threadAllList :=
    fun u => hnodup.mem_erase_iff
  have htask : ∀ u, u ≠ c → (threadExit s c).task u = s.task u := by
    intro u hu
    simp [threadExit, releasePid, Kernel.setStatus, Kernel.setTask, hu]
  have hpid : ((threadExit s c).task c).pid = (s.task c).pid := by
    simp [threadExit, releasePid, Kernel.setStatus, Kernel.setTask]
  have hser : ∀ u, u ≠ c → (threadExit s c).serial u = s.serial u := fun u hu => by
    rw [Kernel.serial, htask u hu, Kernel.serial]
  have hpoint : (threadExit s c).point = s.point := rfl
  have hlive : ∀ u, (threadExit s c).Live u → s.Live u ∧ u ≠ c := by
    rintro u (hu | ⟨v, hv, hu⟩)
    · obtain ⟨h1, h2⟩ := (hmem u).mp hu
      exact ⟨Or.inl h2, h1⟩
    · obtain ⟨h1, h2⟩ := (hmem v).mp hv
      refine ⟨Or.inr ⟨v, h2, hu⟩, ?_⟩
      rintro rfl
      exact (h.scheduled.pending v h2 u hu).1 hc
  have hexiting := h.family.hanging c hc hhang
  have hforkmem (f d : ℕ) : .forked f d ∈ tr ++ [.reaped parent (s.serial c) pid st] ↔
      .forked f d ∈ tr := by simp
  have hexitmem (d : ℕ) (a : Int32) : .exited d a ∈ tr ++ [.reaped parent (s.serial c) pid st] ↔
      .exited d a ∈ tr := by simp
  refine ⟨threadExit_scheduled h.scheduled hc hhang, ?_, ?_, ?_, ?_, ?_⟩
  · refine h.names.reaped (Or.inl hc) hlive parent pid st htask hpoint ?_ rfl
    simp [threadExit, releasePid, Kernel.setStatus, Kernel.setTask]
  · obtain ⟨i, hi, h1, h2, h3, h4⟩ := h.family.init
    have hic : i ≠ c := by
      rintro rfl
      exact h4 hexiting
    exact ⟨i, (hmem i).mpr ⟨hic, hi⟩, by rw [htask i hic, h1], by rw [htask i hic, h2],
      by rw [hser i hic, h3], h4⟩
  · intro d hd hp
    obtain ⟨hdc, hd⟩ := (hmem d).mp hd
    rw [htask d hdc] at hp ⊢
    obtain ⟨p, hpm, h1, h2, h3⟩ := h.family.parent d hd hp
    have hpc : p ≠ c := by
      rintro rfl
      exact h2 hexiting
    refine ⟨p, (hmem p).mpr ⟨hpc, hpm⟩, by rw [htask p hpc, h1], h2, ?_⟩
    rw [hser p hpc, hser d hdc]
    simpa only [ForkedBy, hforkmem, hexitmem] using h3
  · intro u hu d hd
    obtain ⟨huc, hmemu⟩ := (hmem u).mp hu
    have hdc : d ≠ c := by
      rintro rfl
      exact (h.scheduled.pending u hmemu d hd).1 hc
    rw [htask u huc, htask d hdc, hser d hdc]
    obtain ⟨h1, h2⟩ := h.family.pending u hmemu d hd
    exact ⟨h1, fun f hf => h2 f ((hforkmem _ _).mp hf)⟩
  · intro u hu hst
    obtain ⟨huc, hu⟩ := (hmem u).mp hu
    refine h.family.hanging u hu ?_
    rwa [Kernel.status, htask u huc] at hst

/-- The outcome of an action with its event put on the history. -/
def Delivers (tr : List Event) (r : Except Site (Kernel × Event)) : Prop :=
  Outcome r (fun x => Delivery (tr ++ [x.2]) x.1) (fun _ => True)

theorem Quiet.delivers {r : Except Site Kernel} (h : Delivery tr s) (hr : Quiet s r) :
    Delivers tr (quietly r) :=
  Outcome.bind (hr.mono (fun _ ht => ht) (fun _ _ => trivial))
    (fun _ ht => h.frame (Or.inl rfl) ht.1 ht.2)

/-- Every action keeps the invariant, with its event put on the history. -/
theorem perform_delivers (h : Delivery tr s) {a : Action} (ha : a.Enabled s) (on : Bool) :
    Delivers tr (perform { s with intrOn := on } a) := by
  have hset (b : Bool) : Delivery tr { s with intrOn := b } :=
    ⟨⟨h.scheduled.settled, h.scheduled.pending, h.scheduled.pending_unique⟩,
      ⟨h.names.pid_bit, h.names.pid_unique, h.names.serial_lt, h.names.serial_unique,
        h.names.exiting, h.names.exit_status, h.names.forked_lt, h.names.exited_lt,
        h.names.reaped_gone, h.names.reaped_once⟩,
      ⟨h.family.init, h.family.parent, h.family.pending, h.family.hanging⟩⟩
  have hoff := hset false
  have hany := hset on
  cases a with
  | timer => exact (intrTimerHandler_quiet hoff.scheduled.settled rfl).delivers hoff
  | idle => exact (idle_quiet hany.scheduled.settled).delivers hany
  | threadYield => exact (threadYield_quiet hany.scheduled.settled).delivers hany
  | threadStart t name prio =>
    refine Outcome.bind ((threadStart_outcome hany.scheduled ha.2.2 name prio).mono
      (fun _ ht => ht) (fun _ _ => trivial)) ?_
    rintro t ⟨ht, bit, hbit, he⟩
    exact hany.threadStart ha.2.2 hbit name prio ht he
  | semaDown i => exact (semaDown_quiet hany.scheduled.settled ha i).delivers hany
  | semaUp i => exact (semaUp_quiet hany.scheduled.settled i).delivers hany
  | ioqWait w => exact (ioqWait_quiet hoff.scheduled.settled ha w).delivers hoff
  | wakeup w => exact (wakeup_quiet hoff.scheduled.settled w).delivers hoff
  | forkCopy c =>
    refine Outcome.bind ((forkCopy_outcome hoff.scheduled ha.2.2).mono
      (fun _ ht => ht) (fun _ _ => trivial)) ?_
    rintro t ⟨ht, bit, hbit, he⟩
    exact hoff.forkCopy ha.2.2 ha.2.1 hbit ht he
  | forkFinish ok =>
    obtain ⟨-, c, hc⟩ := ha
    simp only [perform, performFinish, hc]
    refine Outcome.bind ((forkFinish_outcome hoff.scheduled ok hc).mono
      (fun _ ht => ht) (fun _ _ => trivial)) ?_
    rintro t ⟨ht, he⟩
    cases ok with
    | false =>
      rw [if_neg (by decide)] at he
      subst he
      exact hoff.forkFail hc ht
    | true => exact hoff.forkDone hc ht he
  | exit status =>
    refine Outcome.bind ((sysExit_outcome hoff.scheduled status).mono
      (fun _ ht => ht) (fun _ _ => trivial)) ?_
    rintro t ⟨ht, hp, he⟩
    exact hoff.exit ha.2 status hp ht he
  | exitHang =>
    refine Outcome.bind ((sysExitHang_outcome hoff.scheduled.settled ha.1).mono
      (fun _ ht => ht) (fun _ _ => trivial)) ?_
    exact fun t ht => hoff.hang ha.2 ht.1 ht.2
  | wait =>
    refine Outcome.bind ((sysWait_outcome hoff.scheduled.settled ha.1).mono
      (fun _ ht => ht) (fun _ _ => trivial)) ?_
    rintro ⟨t, pass⟩ (⟨c, hmem, -, hhang, he⟩ | ⟨he, -⟩ | ⟨hb, hs, hf⟩)
    · obtain ⟨rfl, rfl⟩ := Prod.mk.inj he
      exact hoff.reap hmem hhang _ _ _
    · obtain ⟨rfl, rfl⟩ := Prod.mk.inj he
      exact hoff.frame (Or.inr ⟨_, rfl⟩) hoff.scheduled.settled (Kernel.Frame.refl _)
    · obtain rfl : pass = .blocked := hb
      exact hoff.frame (Or.inl rfl) hs hf

theorem Kernel.AtBoot.delivery {init main idle : Tid} (h : s.AtBoot init main idle)
    (him : init ≠ main) (hid : init ≠ idle) (hmd : main ≠ idle) : Delivery [] s := by
  have hmem : ∀ u, s.Live u → u = init ∨ u = main ∨ u = idle := by
    rintro u (hu | ⟨v, -, hv⟩)
    · simpa [h.all] using hu
    · simp [h.point] at hv
  have hpid : (s.task init).pid = 1 ∧ (s.task main).pid = 2 ∧ (s.task idle).pid = 3 := by
    simp [h.init_task, h.main_task, h.idle_task, newPcb]
  have hser : s.serial init = 0 ∧ s.serial main = 1 ∧ s.serial idle = 2 := by
    simp [Kernel.serial, h.init_task, h.main_task, h.idle_task, newPcb]
  have hparent : ∀ u, s.Live u → (s.task u).parentPid = -1 := by
    intro u hu
    rcases hmem u hu with rfl | rfl | rfl <;>
      simp [h.init_task, h.main_task, h.idle_task, newPcb]
  have hbit : ∀ i, i < 3 → bitmapScanTest s.pidBitmap i = true := by
    intro i hi
    rw [h.pidBitmap]
    interval_cases i <;> rfl
  obtain ⟨hp0, hp1, hp2⟩ := hpid
  obtain ⟨hs0, hs1, hs2⟩ := hser
  refine ⟨h.scheduled him hid hmd, ?_, ?_⟩
  · constructor
    · intro u hu
      rcases hmem u hu with rfl | rfl | rfl
      · exact ⟨0, by rw [hp0]; rfl, hbit 0 (by decide)⟩
      · exact ⟨1, by rw [hp1]; rfl, hbit 1 (by decide)⟩
      · exact ⟨2, by rw [hp2]; rfl, hbit 2 (by decide)⟩
    · intro u v hu hv
      rcases hmem u hu with rfl | rfl | rfl <;> rcases hmem v hv with rfl | rfl | rfl <;>
        simp [hp0, hp1, hp2]
    · intro u hu
      rcases hmem u hu with rfl | rfl | rfl <;> simp [hs0, hs1, hs2, h.created]
    · intro u v hu hv
      rcases hmem u hu with rfl | rfl | rfl <;> rcases hmem v hv with rfl | rfl | rfl <;>
        simp [hs0, hs1, hs2]
    · simp [h.point]
    · simp
    · simp
    · simp
    · simp
    · simp
  · constructor
    · exact ⟨init, by simp [h.all], hp0, hparent init (Or.inl (by simp [h.all])), hs0,
        by simp [h.point]⟩
    · intro c hc hp
      exact absurd (hparent c (Or.inl hc)) hp
    · simp [h.point]
    · intro u hu hhang
      rcases hmem u (Or.inl hu) with rfl | rfl | rfl <;>
        simp [Kernel.status, h.init_task, h.main_task, h.idle_task, newPcb] at hhang

theorem run_delivery {s₀ : Kernel} (hboot : kernel.start s₀) (hrun : kernel.Run s₀ tr s) :
    Delivery tr s := by
  obtain ⟨init, main, idle, value, him, hid, hmd, hinit⟩ := hboot
  refine hrun.history ?_ ((threadInit_atBoot him hid hmd hinit).delivery him hid hmd)
  rintro tr s e t hs ⟨on, a, ha, hstep⟩
  exact (perform_delivers hs ha on).of_ok hstep

theorem quietly_event {r : Except Site Kernel} {e : Event} (h : quietly r = .ok (t, e)) :
    e = .quiet := by
  cases r with
  | error site => exact absurd h (by simp [quietly])
  | ok u => exact (Prod.mk.inj (Except.ok.inj h)).2.symm

/-- Only `sys_wait` returns something to a parent. -/
theorem perform_event {a : Action} {e : Event} (hstep : perform s a = .ok (t, e))
    (ha : a ≠ .wait) : (∀ parent child pid status, e ≠ .reaped parent child pid status) ∧
      ∀ parent, e ≠ .noChild parent := by
  cases a with
  | wait => exact absurd rfl ha
  | forkFinish ok =>
    simp only [perform, performFinish] at hstep
    split at hstep
    · next child _ =>
      cases hr : forkFinish { s with intrOn := false } child ok with
      | error site => simp [hr] at hstep
      | ok u =>
        simp only [hr, ok_bind, pure_eq_ok, Except.ok.injEq, Prod.mk.injEq] at hstep
        rw [← hstep.2]
        cases ok <;> simp
    · exact absurd hstep (by simp)
  | exit status =>
    simp only [perform] at hstep
    cases hr : sysExit { s with intrOn := false } status with
    | error site => simp [hr] at hstep
    | ok u =>
      simp only [hr, ok_bind, pure_eq_ok, Except.ok.injEq, Prod.mk.injEq] at hstep
      rw [← hstep.2]
      simp
  | _ =>
    rw [quietly_event hstep]
    simp

/-- What a `sys_wait` that returns has found. -/
theorem performWait_event (h : s.queues.Settled) (hidle : s.runningThread ≠ s.idleThread)
    {e : Event} (hstep : performWait s = .ok (t, e)) :
    (∃ c ∈ s.threadAllList, (s.task c).parentPid = (s.task s.runningThread).pid ∧
      s.status c = .hanging ∧ e = .reaped (s.serial s.runningThread) (s.serial c)
        (s.task c).pid (s.task c).exitStatus.toInt32) ∨
    (e = .noChild (s.serial s.runningThread) ∧
      ∀ c ∈ s.threadAllList, (s.task c).parentPid ≠ (s.task s.runningThread).pid) ∨
    e = .quiet := by
  have hout := sysWait_outcome h hidle
  cases hr : sysWait s with
  | error site => simp [performWait, hr] at hstep
  | ok r =>
    obtain ⟨u, pass⟩ := r
    rcases hout.of_ok hr with ⟨c, hmem, hp, hhang, he⟩ | ⟨he, hnone⟩ | ⟨hb, -, -⟩
    · obtain ⟨rfl, rfl⟩ := Prod.mk.inj he
      simp only [performWait, hr, ok_bind, pure_eq_ok, Except.ok.injEq, Prod.mk.injEq] at hstep
      exact Or.inl ⟨c, hmem, hp, hhang, hstep.2.symm⟩
    · obtain ⟨rfl, rfl⟩ := Prod.mk.inj he
      simp only [performWait, hr, ok_bind, pure_eq_ok, Except.ok.injEq, Prod.mk.injEq] at hstep
      exact Or.inr (Or.inl ⟨hstep.2.symm, hnone⟩)
    · obtain rfl : pass = .blocked := hb
      simp only [performWait, hr, ok_bind, pure_eq_ok, Except.ok.injEq, Prod.mk.injEq] at hstep
      exact Or.inr (Or.inr hstep.2.symm)

/-- In every run each process is reaped at most once. Whenever a `sys_wait` returns a
child, the child hangs, its `parent_pid` is the caller's pid, the pid and the status are
the child's own, and the caller forked it or is init and its forker has exited. A
`sys_wait` returns -1 only to a caller without children. -/
theorem exit_status_delivery {s₀ : Kernel} (hboot : kernel.start s₀)
    (hrun : kernel.Run s₀ tr s) :
    (∀ child, tr.countP (Event.isReapOf child) ≤ 1) ∧
    (∀ parent child pid status t, kernel.step s (.reaped parent child pid status) t →
      s.serial s.runningThread = parent ∧
      ∃ c ∈ s.threadAllList, s.serial c = child ∧ s.status c = .hanging ∧
        (s.task c).parentPid = (s.task s.runningThread).pid ∧ (s.task c).pid = pid ∧
        (∃ arg, .exited child arg ∈ tr) ∧
        (∀ arg, .exited child arg ∈ tr → status = arg.toInt8.toInt32) ∧
        (∃ f, .forked f child ∈ tr) ∧
        (∀ f, .forked f child ∈ tr → f = parent ∨
          (parent = 0 ∧ ∃ arg, .exited f arg ∈ tr))) ∧
    (∀ parent t, kernel.step s (.noChild parent) t → s.serial s.runningThread = parent ∧
      ∀ c ∈ s.threadAllList, (s.task c).parentPid ≠ (s.task s.runningThread).pid) := by
  have h := run_delivery hboot hrun
  have hwait {e : Event} {t : Kernel} {on : Bool} {a : Action} (ha : a.Enabled s)
      (hstep : perform { s with intrOn := on } a = .ok (t, e)) (hne : a = .wait) :=
    performWait_event (s := { s with intrOn := false }) (t := t) (e := e) h.scheduled.settled
      (by subst hne; exact ha.1) (by subst hne; exact hstep)
  refine ⟨h.names.reaped_once, ?_, ?_⟩
  · rintro parent child pid status t ⟨on, a, ha, hstep⟩
    have hne : a = .wait := by
      by_contra hx
      exact (perform_event hstep hx).1 _ _ _ _ rfl
    rcases hwait ha hstep hne with ⟨c, hc, hp, hhang, he⟩ | ⟨he, -⟩ | he
    · obtain ⟨rfl, rfl, rfl, rfl⟩ := Event.reaped.inj he
      have hexiting := h.family.hanging c hc hhang
      have hpid : (s.task c).parentPid ≠ -1 := by
        obtain ⟨bit, hb, -⟩ := h.names.pid_bit _ (Or.inl h.scheduled.current_mem)
        have hp' : (s.task c).parentPid = (s.task s.runningThread).pid := hp
        omega
      obtain ⟨p, hpm, hpp, -, hf⟩ := h.family.parent c hc hpid
      have hpr : p = s.runningThread :=
        h.names.pid_unique p _ (Or.inl hpm) (Or.inl h.scheduled.current_mem) (hpp.trans hp)
      subst hpr
      refine ⟨rfl, c, hc, rfl, hhang, hp, rfl, (h.names.exiting c (Or.inl hc)).mp hexiting, ?_,
        hf.1, hf.2⟩
      intro arg harg
      exact congrArg Int8.toInt32 (h.names.exit_status c (Or.inl hc) arg harg)
    · exact absurd he (by simp)
    · exact absurd he (by simp)
  · rintro parent t ⟨on, a, ha, hstep⟩
    have hne : a = .wait := by
      by_contra hx
      exact (perform_event hstep hx).2 _ rfl
    rcases hwait ha hstep hne with ⟨c, -, -, -, he⟩ | ⟨he, hnone⟩ | he
    · exact absurd he (by simp)
    · exact ⟨(Event.noChild.inj he).symm, hnone⟩
    · exact absurd he (by simp)

/-- init forks a child and waits; the child exits with 300, and init is told 44. -/
theorem exit_status_delivery_fork : ∃ s₀ s tr t,
    threadInit 1 2 3 (fun _ => 1) = .ok s₀ ∧
    performAll s₀ [.threadYield, .forkCopy 4, .forkFinish true, .wait, .idle, .threadYield,
      .exit 300, .exitHang] = some (s, tr) ∧
    perform { s with intrOn := false } .wait = .ok (t, .reaped 0 3 4 44) ∧
    .exited 3 300 ∈ tr ∧ tr.countP (Event.isReapOf 3) ≤ 1 ∧
    ∃ c ∈ s.threadAllList, s.serial c = 3 ∧
      (s.task c).parentPid = (s.task s.runningThread).pid ∧
      (44 : Int32) = (300 : Int32).toInt8.toInt32 := by
  obtain ⟨s₀, h₀, ⟨s, tr⟩, h₁, ⟨t, e⟩, h₂, rfl, hexit, hen⟩ :
      ∃ s₀, threadInit 1 2 3 (fun _ => 1) = .ok s₀ ∧
        ∃ v ∈ performAll s₀ [.threadYield, .forkCopy 4, .forkFinish true, .wait, .idle,
          .threadYield, .exit 300, .exitHang],
          ∃ w, perform { v.1 with intrOn := false } .wait = .ok w ∧
            w.2 = .reaped 0 3 4 44 ∧ .exited 3 300 ∈ v.2 ∧ Action.wait.Enabled v.1 := by
    decide
  have h := exit_status_delivery ⟨1, 2, 3, fun _ => 1, by decide, by decide, by decide, h₀⟩
    (performAll_run h₁)
  obtain ⟨-, c, hc, hser, -, hp, -, -, hst, -⟩ :=
    h.2.1 0 3 4 44 t ⟨false, .wait, hen, h₂⟩
  exact ⟨s₀, s, tr, t, h₀, h₁, h₂, hexit, h.1 3, c, hc, hser, hp, hst 300 hexit⟩

end X86System.Thread
