import X86System.Library.StackMachine

/-!
# switch_to and the interrupt stubs

The assembly of `switch.S` and `intr_entry.S`, instruction by instruction, and the C functions
that lay out a kernel stack: `thread_create`, `build_child_stack` and `start_process`. A thread
is named by the address of its PCB, the first word of which is `self_kstack`; its kernel stack
is the upper end of the same page.
-/
namespace X86System.Context
open StackMachine

inductive Reg
  | eax | ecx | edx | ebx | esp | ebp | esi | edi
  | eip | eflags
  | cs | ss | ds | es | fs | gs
  deriving DecidableEq, Repr

abbrev Cpu := Machine Reg

section Instructions

/-- The instructions that the code uses. `call` is the push of the return address only: what
is called is the code that follows. -/
inductive Instr
  | push (r : Reg)
  | pushImm (n : ℕ)
  | pushad
  | call (back : ℕ)
  | pop (r : Reg)
  | popad
  /-- `mov dst, [base + disp]` -/
  | load (dst base : Reg) (disp : ℕ)
  /-- `mov [base + disp], src` -/
  | store (base : Reg) (disp : ℕ) (src : Reg)
  | movAl (n : ℕ)
  | addEsp (n : ℕ)
  | ret
  | iretd
  deriving Repr

/-- `add esp, n` -/
def addEsp (n : ℕ) (c : Cpu) : Cpu := c.set .esp (c.reg .esp + n)

/-- `iretd` takes the stack of the outer level from the frame, if it returns to one. -/
def iretd (c : Cpu) : Cpu :=
  let sp := c.reg .esp
  let back := ((c.set .eip (c.mem sp)).set .cs (c.mem (sp + 4))).set .eflags (c.mem (sp + 8))
  if c.mem (sp + 4) % 4 = 3 then (back.set .esp (c.mem (sp + 12))).set .ss (c.mem (sp + 16))
  else back.set .esp (sp + 12)

def Instr.exec : Instr → Cpu → Cpu
  | .push r, c => StackMachine.push .esp (c.reg r) c
  | .pushImm n, c => StackMachine.push .esp n c
  | .pushad, c => pushAll .esp ([.eax, .ecx, .edx, .ebx, .esp, .ebp, .esi, .edi].map c.reg) c
  | .call back, c => StackMachine.push .esp back c
  | .pop r, c => StackMachine.pop .esp r c
  | .popad, c => popAll .esp [.ebx, .edx, .ecx, .eax]
      (Context.addEsp 4 (popAll .esp [.edi, .esi, .ebp] c))
  | .load dst base disp, c => c.set dst (c.mem (c.reg base + disp))
  | .store base disp src, c =>
    { c with mem := Function.update c.mem (c.reg base + disp) (c.reg src) }
  | .movAl n, c => c.set .eax (c.reg .eax / 256 * 256 + n)
  | .addEsp n, c => Context.addEsp n c
  | .ret, c => StackMachine.pop .esp .eip c
  | .iretd, c => Context.iretd c

def run (code : List Instr) (c : Cpu) : Cpu := code.foldl (fun c i => i.exec c) c

@[simp] theorem run_nil (c : Cpu) : run [] c = c := rfl

@[simp] theorem run_cons (i : Instr) (code : List Instr) (c : Cpu) :
    run (i :: code) c = run code (i.exec c) := rfl

theorem run_append (code code' : List Instr) (c : Cpu) :
    run (code ++ code') c = run code' (run code c) := List.foldl_append

end Instructions

section Code

/-- `switch_to`, from its entry on. -/
def switchTo : List Instr :=
  [.push .esi, .push .edi, .push .ebx, .push .ebp,
    .load .eax .esp 20, .store .eax 0 .esp,
    .load .eax .esp 24, .load .esp .eax 0,
    .pop .ebp, .pop .ebx, .pop .edi, .pop .esi, .ret]

/-- The call `switch_to(cur, next)` in `schedule`, which goes on at `back`. -/
def callSwitchTo (cur next back : ℕ) : List Instr :=
  [.pushImm next, .pushImm cur, .call back] ++ switchTo

/-- `intr_exit` -/
def intrExit : List Instr :=
  [.addEsp 4, .popad, .pop .gs, .pop .fs, .pop .es, .pop .ds, .addEsp 4, .iretd]

/-- `movl sp, %esp; jmp intr_exit`, with the memory `m` -/
def jumpIntrExit (sp : ℕ) (m : ℕ → ℕ) (c : Cpu) : Cpu :=
  run intrExit { reg := Function.update c.reg .esp sp, mem := m }

/-- The stub of an interrupt of a device, up to the call of its handler. -/
def intrEntry (vec : ℕ) : List Instr :=
  [.pushImm 0, .push .ds, .push .es, .push .fs, .push .gs, .pushad, .movAl 0x20, .pushImm vec]

/-- `syscall_handler` up to the call of the function from the table. -/
def syscallEntry : List Instr :=
  [.pushImm 0, .push .ds, .push .es, .push .fs, .push .gs, .pushad, .pushImm 0x80,
    .push .edx, .push .ecx, .push .ebx]

/-- The end of `syscall_handler`, once the function has returned. -/
def syscallReturn : List Instr := [.addEsp 12, .store .esp 32 .eax] ++ intrExit

def selectorKCode : ℕ := 8
def selectorKStack : ℕ := 16
def selectorUCode : ℕ := 43
def selectorUData : ℕ := 51

/-- What the processor does on an interrupt in user mode, before the first instruction of the
stub at `entry`: the stack is `esp0` of the TSS. -/
def enterKernel (esp0 entry : ℕ) (c : Cpu) : Cpu :=
  let inner : Cpu := (c.set .ss selectorKStack).set .esp esp0
  let framed := pushAll .esp ([.ss, .esp, .eflags, .cs, .eip].map c.reg) inner
  ((framed.set .cs selectorKCode).set .eip entry).set .eflags (c.reg .eflags &&& 0xfffffdff)

end Code

section Frames

/-- `struct intr_stack` -/
structure IntrStack where
  vecNo : ℕ
  edi : ℕ
  esi : ℕ
  ebp : ℕ
  espDummy : ℕ
  ebx : ℕ
  edx : ℕ
  ecx : ℕ
  eax : ℕ
  gs : ℕ
  fs : ℕ
  es : ℕ
  ds : ℕ
  errCode : ℕ
  eip : ℕ
  cs : ℕ
  eflags : ℕ
  esp : ℕ
  ss : ℕ
  deriving DecidableEq, Repr

def IntrStack.words (f : IntrStack) : List ℕ :=
  [f.vecNo, f.edi, f.esi, f.ebp, f.espDummy, f.ebx, f.edx, f.ecx, f.eax, f.gs, f.fs, f.es, f.ds,
    f.errCode, f.eip, f.cs, f.eflags, f.esp, f.ss]

/-- The registers that a frame stands for. -/
def IntrStack.reg (f : IntrStack) : Reg → ℕ
  | .eax => f.eax | .ecx => f.ecx | .edx => f.edx | .ebx => f.ebx
  | .esp => f.esp | .ebp => f.ebp | .esi => f.esi | .edi => f.edi
  | .eip => f.eip | .eflags => f.eflags
  | .cs => f.cs | .ss => f.ss | .ds => f.ds | .es => f.es | .fs => f.fs | .gs => f.gs

/-- The frame that an entry from user mode leaves. -/
def IntrStack.ofReg (reg : Reg → ℕ) (vec espDummy : ℕ) : IntrStack where
  vecNo := vec
  edi := reg .edi
  esi := reg .esi
  ebp := reg .ebp
  espDummy := espDummy
  ebx := reg .ebx
  edx := reg .edx
  ecx := reg .ecx
  eax := reg .eax
  gs := reg .gs
  fs := reg .fs
  es := reg .es
  ds := reg .ds
  errCode := 0
  eip := reg .eip
  cs := reg .cs
  eflags := reg .eflags
  esp := reg .esp
  ss := reg .ss

@[simp] theorem IntrStack.ofReg_reg (reg : Reg → ℕ) (vec espDummy : ℕ) :
    (IntrStack.ofReg reg vec espDummy).reg = reg := by
  funext r
  cases r <;> rfl

variable {c : Cpu} {f : IntrStack}

/-- Behind `intr_exit` the processor has the registers of the frame on the stack. -/
theorem run_intrExit (h : Holds c.mem (c.reg .esp) f.words) (hcs : f.cs % 4 = 3) :
    (run intrExit c).reg = f.reg := by
  simp only [IntrStack.words, holds_cons, Nat.add_assoc, Nat.reduceAdd] at h
  simp only [intrExit, run_cons, run_nil, Instr.exec, addEsp, popAll, List.foldl_cons,
    List.foldl_nil, iretd, pop_reg, pop_mem, Machine.set_reg, Machine.set_mem,
    Function.update_self, ne_eq, reduceCtorEq, not_false_eq_true, Function.update_of_ne, Nat.add_assoc, Nat.reduceAdd, h, hcs,
    if_true]
  funext r
  cases r <;> simp [IntrStack.reg]

theorem iretd_mem (c : Cpu) : (iretd c).mem = c.mem := by
  simp only [iretd]
  split <;> rfl

theorem run_intrExit_mem : (run intrExit c).mem = c.mem := by
  simp only [intrExit, run_cons, run_nil, Instr.exec, addEsp, popAll, List.foldl_cons,
    List.foldl_nil, iretd_mem, pop_mem, Machine.set_mem]

/-- The frame at an address. -/
def IntrStack.at (m : ℕ → ℕ) (a : ℕ) : IntrStack where
  vecNo := m a
  edi := m (a + 4)
  esi := m (a + 8)
  ebp := m (a + 12)
  espDummy := m (a + 16)
  ebx := m (a + 20)
  edx := m (a + 24)
  ecx := m (a + 28)
  eax := m (a + 32)
  gs := m (a + 36)
  fs := m (a + 40)
  es := m (a + 44)
  ds := m (a + 48)
  errCode := m (a + 52)
  eip := m (a + 56)
  cs := m (a + 60)
  eflags := m (a + 64)
  esp := m (a + 68)
  ss := m (a + 72)

theorem IntrStack.holds_at (m : ℕ → ℕ) (a : ℕ) : Holds m a (IntrStack.at m a).words := by
  simp [IntrStack.at, IntrStack.words, Nat.add_assoc]

theorem cs_of_holds {m : ℕ → ℕ} {a : ℕ} (h : Holds m a f.words) : m (a + 60) = f.cs := by
  simp only [IntrStack.words, holds_cons, Nat.add_assoc, Nat.reduceAdd] at h
  simp [h]

theorem run_intrExit_eq (c : Cpu) : run intrExit c = jumpIntrExit (c.reg .esp) c.mem c := by
  rw [jumpIntrExit, Function.update_eq_self]

theorem jumpIntrExit_mem (sp : ℕ) (m : ℕ → ℕ) (c : Cpu) : (jumpIntrExit sp m c).mem = m :=
  run_intrExit_mem

theorem jumpIntrExit_spec {sp : ℕ} {m : ℕ → ℕ} (h : Holds m sp f.words) (hcs : f.cs % 4 = 3) :
    (jumpIntrExit sp m c).reg = f.reg :=
  run_intrExit (by simpa using h) hcs

/-- The words that an entry pushes, in their order. -/
def entryWords (reg : Reg → ℕ) (esp0 vec : ℕ) : List ℕ :=
  (IntrStack.ofReg reg vec (esp0 - 40)).words.reverse

theorem length_entryWords (reg : Reg → ℕ) (esp0 vec : ℕ) :
    (entryWords reg esp0 vec).length = 19 := rfl

/-- What an entry leaves on the kernel's stack: the frame, and arguments below it. -/
structure Entered (c : Cpu) (esp0 vec : ℕ) (args : List ℕ) (c' : Cpu) : Prop where
  frame : Holds c'.mem (esp0 - 76) (IntrStack.ofReg c.reg vec (esp0 - 40)).words
  below : Holds c'.mem (esp0 - 76 - 4 * args.length) args
  sp : c'.reg .esp = esp0 - 76 - 4 * args.length
  cs : c'.reg .cs = selectorKCode
  rest : ∀ x, x < esp0 - 76 - 4 * args.length ∨ esp0 ≤ x → c'.mem x = c.mem x

theorem Entered.of_pushAll {c' : Cpu} {esp0 vec : ℕ} {args : List ℕ}
    (hroom : 76 + 4 * args.length ≤ esp0)
    (hmem : c'.mem =
      (pushAll .esp (entryWords c.reg esp0 vec ++ args.reverse) (c.set .esp esp0)).mem)
    (hsp : c'.reg .esp = esp0 - 76 - 4 * args.length) (hcs : c'.reg .cs = selectorKCode) :
    Entered c esp0 vec args c' := by
  have hesp : (c.set .esp esp0).reg .esp = esp0 := by simp
  have hlen : (entryWords c.reg esp0 vec ++ args.reverse).length = 19 + args.length := by
    rw [List.length_append, length_entryWords, List.length_reverse]
  have hlow : esp0 - 4 * (19 + args.length) = esp0 - 76 - 4 * args.length := by omega
  have hup : esp0 - 76 - 4 * args.length + 4 * args.length = esp0 - 76 := by omega
  have hholds := pushAll_holds (entryWords c.reg esp0 vec ++ args.reverse) (c.set .esp esp0)
    (show _ ≤ (c.set .esp esp0).reg .esp by rw [hlen, hesp]; omega)
  rw [hlen, hesp, hlow, ← hmem, List.reverse_append, List.reverse_reverse, holds_append,
    hup, entryWords, List.reverse_reverse] at hholds
  refine ⟨hholds.2, hholds.1, hsp, hcs, fun x hx => ?_⟩
  rw [hmem]
  exact pushAll_mem_of_ne (by rw [hlen, hesp]; omega) (by rw [hlen, hesp]; omega)

/-- The frame that the processor and a stub lay down, from the top of the kernel's stack. -/
theorem run_intrEntry (c : Cpu) {esp0 : ℕ} (entry vec : ℕ) (hroom : 76 ≤ esp0) :
    Entered c esp0 vec [] (run (intrEntry vec) (enterKernel esp0 entry c)) := by
  refine .of_pushAll (by simpa using hroom) ?_ ?_ ?_
  · simp [intrEntry, enterKernel, entryWords, IntrStack.words, IntrStack.ofReg, Instr.exec,
      pushAll, Nat.sub_sub]
  · simp [intrEntry, enterKernel, Instr.exec, pushAll, Nat.sub_sub]
  · simp [intrEntry, enterKernel, Instr.exec, pushAll]

theorem run_syscallEntry (c : Cpu) {esp0 : ℕ} (entry : ℕ) (hroom : 88 ≤ esp0) :
    Entered c esp0 0x80 [c.reg .ebx, c.reg .ecx, c.reg .edx]
      (run syscallEntry (enterKernel esp0 entry c)) := by
  refine .of_pushAll (by simpa using hroom) ?_ ?_ ?_
  · simp [syscallEntry, enterKernel, entryWords, IntrStack.words, IntrStack.ofReg, Instr.exec,
      pushAll, Nat.sub_sub]
  · simp [syscallEntry, enterKernel, Instr.exec, pushAll, Nat.sub_sub]
  · simp [syscallEntry, enterKernel, Instr.exec, pushAll]

theorem run_syscallReturn (c : Cpu) : run syscallReturn c =
    jumpIntrExit (c.reg .esp + 12) (Function.update c.mem (c.reg .esp + 44) (c.reg .eax)) c := by
  simp [jumpIntrExit, syscallReturn, Instr.exec, addEsp, Machine.set, Nat.add_assoc]

/-- Behind a system call the program has its registers back, but for the result. -/
theorem run_syscallReturn_reg (h : Holds c.mem (c.reg .esp + 12) f.words) (hcs : f.cs % 4 = 3) :
    (run syscallReturn c).reg = Function.update f.reg .eax (c.reg .eax) := by
  have hframe : Holds (Function.update c.mem (c.reg .esp + 12 + 4 * 8) (c.reg .eax))
      (c.reg .esp + 12) ({ f with eax := c.reg .eax } : IntrStack).words :=
    h.set 8 (by simp [IntrStack.words])
  have hreg : ({ f with eax := c.reg .eax } : IntrStack).reg =
      Function.update f.reg .eax (c.reg .eax) := by
    funext r
    cases r <;> rfl
  rw [run_syscallReturn, ← hreg]
  exact jumpIntrExit_spec hframe hcs

end Frames

section Switching

variable {c : Cpu} {cur : ℕ}

/-- The processor as `switch_to` has saved it. -/
structure Saved (c : Cpu) (cur next back : ℕ) (m : ℕ → ℕ) : Prop where
  kstack : m cur = c.reg .esp - 28
  words : Holds m (c.reg .esp - 28)
    [c.reg .ebp, c.reg .ebx, c.reg .edi, c.reg .esi, back, cur, next]
  rest : ∀ x, x ≠ cur → x < c.reg .esp - 28 ∨ c.reg .esp ≤ x → m x = c.mem x

/-- The processor has taken `next` from where its `self_kstack` points. -/
structure Taken (c : Cpu) (next : ℕ) : Prop where
  ebp : c.reg .ebp = c.mem (c.mem next)
  ebx : c.reg .ebx = c.mem (c.mem next + 4)
  edi : c.reg .edi = c.mem (c.mem next + 8)
  esi : c.reg .esi = c.mem (c.mem next + 12)
  eip : c.reg .eip = c.mem (c.mem next + 16)
  esp : c.reg .esp = c.mem next + 20

theorem run_callSwitchTo (next back : ℕ) (hroom : cur + 32 ≤ c.reg .esp) :
    Saved c cur next back (run (callSwitchTo cur next back) c).mem ∧
    Taken (run (callSwitchTo cur next back) c) next ∧
    (run (callSwitchTo cur next back) c).reg .cs = c.reg .cs := by
  let ws := [c.reg .ebp, c.reg .ebx, c.reg .edi, c.reg .esi, back, cur, next]
  let pushed := pushAll .esp ws.reverse c
  let m := Function.update pushed.mem cur (c.reg .esp - 28)
  have hpushed : Holds pushed.mem (c.reg .esp - 28) ws :=
    pushAll_holds ws.reverse c (by simp [ws]; omega)
  have hsaved : Holds m (c.reg .esp - 28) ws := hpushed.store (Or.inl (by omega))
  have hesp : pushed.reg .esp = c.reg .esp - 28 := by simp [pushed, pushAll_reg, ws]
  have hcur : pushed.mem (c.reg .esp - 28 + 20) = cur := hpushed.2.2.2.2.2.1
  have hnext : m (c.reg .esp - 28 + 24) = next := hsaved.2.2.2.2.2.2.1
  have hcall : run ([.pushImm next, .pushImm cur, .call back, .push .esi, .push .edi, .push .ebx,
      .push .ebp]) c = pushed := by
    simp [pushed, ws, Instr.exec, pushAll]
  let switched : Cpu :=
    { reg := Function.update (Function.update pushed.reg .eax next) .esp (m next)
      mem := m }
  have hswitched : run [.load .eax .esp 20, .store .eax 0 .esp, .load .eax .esp 24,
      .load .esp .eax 0] pushed = switched := by
    simp [switched, Instr.exec, Machine.set, hesp, hcur, hnext, m]
  have hrun : run (callSwitchTo cur next back) c =
      run [.pop .ebp, .pop .ebx, .pop .edi, .pop .esi, .ret] switched := by
    rw [← hswitched, ← hcall]
    rfl
  rw [hrun]
  refine ⟨⟨Function.update_self _ _ _, hsaved, fun x hx hout => ?_⟩, ?_, ?_⟩
  · exact (Function.update_of_ne hx _ _).trans
      (pushAll_mem_of_ne (by simpa [ws] using hout) (by simp [ws]; omega))
  · constructor <;> simp [Instr.exec, switched]
  · simp [Instr.exec, switched, pushed, pushAll_reg]

end Switching

section Layout

/-- `init_thread` as far as the stack goes: it is empty. -/
def initKstack (t : ℕ) (m : ℕ → ℕ) : ℕ → ℕ := Function.update m t (t + 4096)

/-- `thread_create`. `self_kstack` points to words, so the sizes of the two structures count four
times. -/
def threadCreate (kernelThread t function arg : ℕ) (m : ℕ → ℕ) : ℕ → ℕ :=
  let sp := m t - 4 * 76 - 4 * 32
  storeAll [(t, sp), (sp + 16, kernelThread), (sp + 24, function), (sp + 28, arg),
    (sp + 8, 0), (sp + 12, 0), (sp + 4, 0), (sp, 0)] m

/-- `copy_pcb_vaddrbitmap_stack0` as far as the stack goes: the page of the parent is copied. -/
def copyStack0 (child parent : ℕ) (m : ℕ → ℕ) : ℕ → ℕ := fun x =>
  if child ≤ x ∧ x < child + 4096 then m (parent + (x - child)) else m x

/-- `build_child_stack` -/
def buildChildStack (intrExitAt child : ℕ) (m : ℕ → ℕ) : ℕ → ℕ :=
  let frame := child + 4096 - 76
  storeAll [(frame + 32, 0), (frame - 4, intrExitAt), (frame - 20, 0), (frame - 16, 0),
    (frame - 12, 0), (frame - 8, 0), (child, frame - 20)] m

/-- `start_process` up to the jump to `intr_exit`. The fields `vec_no` and `err_code` keep what is
there. -/
def startProcess (cur function : ℕ) (m : ℕ → ℕ) : ℕ → ℕ :=
  let sp := m cur + 4 * 32
  storeAll [(cur, sp), (sp + 4, 0), (sp + 8, 0), (sp + 12, 0), (sp + 16, 0), (sp + 20, 0),
    (sp + 24, 0), (sp + 28, 0), (sp + 32, 0), (sp + 36, 0), (sp + 48, selectorUData),
    (sp + 44, selectorUData), (sp + 40, selectorUData), (sp + 56, function),
    (sp + 60, selectorUCode), (sp + 64, 0x202), (sp + 68, 0xc0000000), (sp + 72, selectorUData)] m

/-- `sys_execv` from where the program is loaded up to the jump to `intr_exit`. -/
def execv (cur argv argc entry : ℕ) (m : ℕ → ℕ) : ℕ → ℕ :=
  let frame := cur + 4096 - 76
  storeAll [(frame + 20, argv), (frame + 28, argc), (frame + 56, entry),
    (frame + 68, 0xc0000000)] m

/-- The registers that a new program starts with. -/
def startReg (function : ℕ) : Reg → ℕ
  | .eip => function
  | .cs => selectorUCode
  | .eflags => 0x202
  | .esp => 0xc0000000
  | .ss | .ds | .es | .fs => selectorUData
  | _ => 0

variable {m : ℕ → ℕ} {t x : ℕ}

/-- The stores of `thread_create` behind `init_thread`, place by place. -/
theorem threadCreate_initKstack (kernelThread t function arg : ℕ) (m : ℕ → ℕ) :
    threadCreate kernelThread t function arg (initKstack t m) =
    storeAll [(t, t + 4096), (t, t + 3664), (t + 3680, kernelThread), (t + 3688, function),
      (t + 3692, arg), (t + 3672, 0), (t + 3676, 0), (t + 3668, 0), (t + 3664, 0)] m := by
  simp [threadCreate, initKstack, Nat.add_assoc]

theorem threadCreate_kstack (kernelThread t function arg : ℕ) (m : ℕ → ℕ) :
    threadCreate kernelThread t function arg (initKstack t m) t = t + 3664 := by
  simp [threadCreate_initKstack]

theorem threadCreate_holds (kernelThread t function arg : ℕ) (m : ℕ → ℕ) :
    ∃ w, Holds (threadCreate kernelThread t function arg (initKstack t m)) (t + 3664)
      [0, 0, 0, 0, kernelThread, w, function, arg] :=
  ⟨m (t + 3684), by simp [threadCreate_initKstack, Nat.add_assoc]⟩

theorem threadCreate_of_not_mem (kernelThread function arg : ℕ) (hx : x < t ∨ t + 4096 ≤ x) :
    threadCreate kernelThread t function arg (initKstack t m) x = m x := by
  rw [threadCreate_initKstack]
  refine storeAll_of_forall_ne fun w hw => ?_
  simp only [List.mem_cons, List.not_mem_nil, or_false] at hw
  rcases hw with rfl | rfl | rfl | rfl | rfl | rfl | rfl | rfl | rfl <;> dsimp only <;> omega

variable {child parent intrExitAt : ℕ} {f : IntrStack}

/-- The stores of `build_child_stack`, place by place. -/
theorem buildChildStack_eq : buildChildStack intrExitAt child m =
    storeAll [(child + 4016, intrExitAt), (child + 4000, 0), (child + 4004, 0), (child + 4008, 0),
      (child + 4012, 0), (child, child + 4000)] (Function.update m (child + 4052) 0) := by
  simp only [buildChildStack, storeAll_cons, storeAll_nil, Nat.add_sub_assoc, Nat.reduceLeDiff,
    Nat.reduceSub, Nat.add_assoc, Nat.reduceAdd]

theorem buildChildStack_kstack : buildChildStack intrExitAt child m child = child + 4000 := by
  simp [buildChildStack_eq]

theorem copyStack0_of_not_mem (hx : x < child ∨ child + 4096 ≤ x) :
    copyStack0 child parent m x = m x := if_neg (by omega)

theorem buildChildStack_of_not_mem (hx : x < child ∨ child + 4096 ≤ x) :
    buildChildStack intrExitAt child m x = m x := by
  rw [buildChildStack_eq, storeAll_of_forall_ne]
  · exact Function.update_of_ne (by omega) _ _
  · intro w hw
    simp only [List.mem_cons, List.not_mem_nil, or_false] at hw
    rcases hw with rfl | rfl | rfl | rfl | rfl | rfl <;> dsimp only <;> omega

/-- Under the words that `switch_to` pops lies the parent's frame, with another result. -/
theorem buildChildStack_holds (h : Holds m (parent + 4020) f.words) :
    Holds (buildChildStack intrExitAt child (copyStack0 child parent m)) (child + 4000)
      ([0, 0, 0, 0, intrExitAt] ++ ({ f with eax := 0 } : IntrStack).words) := by
  have hcopy : Holds (copyStack0 child parent m) (child + 4020) f.words := by
    refine h.shift fun i hi => ?_
    have hi : i < 76 := hi
    have hplace : parent + (child + 4020 + i - child) = parent + 4020 + i := by omega
    rw [copyStack0, if_pos (by omega), hplace]
  have hframe : Holds (Function.update (copyStack0 child parent m) (child + 4020 + 4 * 8) 0)
      (child + 4020) ({ f with eax := 0 } : IntrStack).words :=
    hcopy.set 8 (by simp [IntrStack.words])
  rw [buildChildStack_eq, holds_append]
  constructor
  · simp [Nat.add_assoc]
  · refine hframe.storeAll fun w hw => Or.inl ?_
    simp only [List.mem_cons, List.not_mem_nil, or_false] at hw
    rcases hw with rfl | rfl | rfl | rfl | rfl | rfl <;> dsimp only <;> omega

variable {cur : ℕ}

theorem startProcess_holds (function : ℕ) (hsp : cur < m cur + 128) :
    ∃ f : IntrStack, f.reg = startReg function ∧
    Holds (startProcess cur function m) (m cur + 128) f.words := by
  refine ⟨{ IntrStack.ofReg (startReg function) (m (m cur + 128)) 0 with
    errCode := m (m cur + 180) }, ?_, ?_⟩
  · funext r
    cases r <;> rfl
  · have hvec : m cur + 128 ≠ cur := by omega
    have herr : m cur + 180 ≠ cur := by omega
    simp [startProcess, IntrStack.words, IntrStack.ofReg, startReg, Nat.add_assoc, hvec, herr]

theorem startProcess_of_not_mem (function : ℕ) (hx : x ≠ cur)
    (hout : x < m cur + 128 ∨ m cur + 204 ≤ x) :
    startProcess cur function m x = m x := by
  refine storeAll_of_forall_ne fun w hw => ?_
  simp only [List.mem_cons, List.not_mem_nil, or_false] at hw
  rcases hw with rfl | rfl | rfl | rfl | rfl | rfl | rfl | rfl | rfl | rfl | rfl | rfl | rfl | rfl |
    rfl | rfl | rfl | rfl <;> dsimp only <;> omega

/-- The registers that `execv` leaves to the program, from those of its caller. -/
def execReg (reg : Reg → ℕ) (argv argc entry : ℕ) : Reg → ℕ
  | .ebx => argv
  | .ecx => argc
  | .eip => entry
  | .esp => 0xc0000000
  | r => reg r

theorem execv_holds (argv argc entry : ℕ) (h : Holds m (cur + 4020) f.words) : ∃ f' : IntrStack,
    f'.reg = execReg f.reg argv argc entry ∧ f'.cs = f.cs ∧
    Holds (execv cur argv argc entry m) (cur + 4020) f'.words := by
  refine ⟨{ f with ebx := argv, ecx := argc, eip := entry, esp := 0xc0000000 }, ?_, rfl, ?_⟩
  · funext r
    cases r <;> rfl
  · have hset := (((h.set (v := argv) 5 (by simp [IntrStack.words])).set (v := argc) 7
      (by simp [IntrStack.words])).set (v := entry) 14 (by simp [IntrStack.words])).set
      (v := 0xc0000000) 17 (by simp [IntrStack.words])
    have hplace : cur + 4096 - 76 = cur + 4020 := rfl
    rw [execv, hplace]
    exact hset

theorem execv_of_not_mem (argv argc entry : ℕ) (hx : x < cur + 4020 ∨ cur + 4096 ≤ x) :
    execv cur argv argc entry m x = m x := by
  refine storeAll_of_forall_ne fun w hw => ?_
  simp only [List.mem_cons, List.not_mem_nil, or_false] at hw
  rcases hw with rfl | rfl | rfl | rfl <;> dsimp only <;> omega

end Layout

end X86System.Context
