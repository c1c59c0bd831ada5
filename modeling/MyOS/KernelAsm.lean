import MyOS.Const
import MyOS.Lib.Stack
import MyOS.Lib.Run

/-!
# Interrupts and system calls

`save`, `restart`, `sys_call` and the `hwint`s of `kernel/kernel.asm`, instruction by instruction,
over the registers, the memory and what the processor and the interrupt controllers are told. All
segments are flat. What a process runs between two interrupts is any code, and so is the C code
that `irq_table` and `sys_call_table` point to, as long as it keeps to the calling convention: it
returns with the stack pointer, `ebx`, `esi`, `edi` and `ebp` as they were, and writes neither to
the stack behind its arguments nor to the saved registers.
-/

namespace MyOS

open Memory

structure Cpu where
  gs : BitVec 16
  fs : BitVec 16
  es : BitVec 16
  ds : BitVec 16
  edi : BitVec 32
  esi : BitVec 32
  ebp : BitVec 32
  ebx : BitVec 32
  edx : BitVec 32
  ecx : BitVec 32
  eax : BitVec 32
  eip : Addr
  cs : BitVec 16
  eflags : BitVec 32
  esp : Addr
  ss : BitVec 16
  deriving DecidableEq, Inhabited

def selectorKernelCs : BitVec 16 := 0x08
def selectorKernelDs : BitVec 16 := 0x10

/-- `IF`, in `eflags` -/
def interruptFlag : BitVec 32 := 0x200

/-- The code of a process runs, not that of the kernel: the privilege in `cs` is not 0. -/
def Cpu.InUser (c : Cpu) : Prop := c.cs &&& 3 ≠ 0

instance (c : Cpu) : Decidable c.InUser := inferInstanceAs (Decidable (_ ≠ _))

/-- `struct stackframe`, of these registers. -/
def Cpu.stackframe (c : Cpu) (kernelEsp retaddr : BitVec 32) : List (BitVec 32) :=
  [c.gs.setWidth 32, c.fs.setWidth 32, c.es.setWidth 32, c.ds.setWidth 32, c.edi, c.esi, c.ebp,
    kernelEsp, c.ebx, c.edx, c.ecx, c.eax, retaddr, c.eip, c.cs.setWidth 32, c.eflags, c.esp,
    c.ss.setWidth 32]

/-- What has called a handler: the line of an interrupt, or a trap. -/
inductive AsmEntry
  | hwint (irq : Fin 16)
  | sysCall
  deriving DecidableEq

/-- A call of C code: what has to be in the registers when it returns. `esp` points to its return
address. -/
structure Call where
  entry : AsmEntry
  esp : Addr
  ebx : BitVec 32
  esi : BitVec 32
  edi : BitVec 32
  ebp : BitVec 32

def nrSysCall : ℕ := 2
def stackSpace : ℕ := 2 * 1024
def retadr : ℕ := 48
def eaxreg : ℕ := 44
def pStacktop : ℕ := 72
def pLdtSel : ℕ := 72

/-- Where things are: the labels of the code, the kernel's stack, and `proc_table`, whose entries
start with the saved registers and the selector of the LDT. -/
structure AsmLayout where
  restart : Addr
  restartReenter : Addr
  /-- behind `call save` -/
  hwintSaved : Fin 16 → Addr
  sysCallSaved : Addr
  /-- behind the call of the handler -/
  hwintRet : Fin 16 → Addr
  sysCallRet : Addr
  sysCallTable : Fin nrSysCall → Addr
  stackTop : Addr
  procTable : Addr
  sizeofProc : ℕ
  restart_ne : restart ≠ restartReenter
  sizeofProc_le : pLdtSel + 2 ≤ sizeofProc
  procTable_le : (nrTasks + nrProcs) * sizeofProc ≤ 2 ^ 32
  apart : Apart (stackTop - BitVec.ofNat 32 stackSpace) stackSpace procTable
    ((nrTasks + nrProcs) * sizeofProc)

/-- `&proc_table[p].regs` -/
def AsmLayout.regs (l : AsmLayout) (p : Slot) : Addr :=
  l.procTable + BitVec.ofNat 32 (p.val * l.sizeofProc)

/-- How much of the kernel's stack is used above an address. -/
def AsmLayout.used (l : AsmLayout) (a : Addr) : ℕ := (l.stackTop - a).toNat

/-- `intMCtlmask` and `intSCtlmask` are the masks in the interrupt controllers, `sp0` is that of the
TSS. No code reads `calls`, the calls of C code that have not returned, newest first. -/
structure Machine where
  cpu : Cpu
  mem : Mem
  kReenter : BitVec 32
  pProcReady : Addr
  sp0 : Addr
  ldtr : BitVec 16
  intMCtlmask : Byte
  intSCtlmask : Byte
  irqTable : Fin 16 → Addr
  calls : List Call

namespace Machine

def push (m : Machine) (v : BitVec 32) : Machine :=
  { m with
    mem := store32 m.mem (m.cpu.esp - 4) v
    cpu := { m.cpu with esp := m.cpu.esp - 4 } }

def pop (m : Machine) (put : Cpu → BitVec 32 → Cpu) : Machine :=
  { m with cpu := put { m.cpu with esp := m.cpu.esp + 4 } (load32 m.mem m.cpu.esp) }

def pushad (m : Machine) : Machine :=
  let c := m.cpu
  ((((((((m.push c.eax).push c.ecx).push c.edx).push c.ebx).push c.esp).push c.ebp).push
    c.esi).push c.edi)

/-- The stack pointer that `pushad` has pushed is left out. -/
def popad (m : Machine) : Machine :=
  let esp := m.cpu.esp
  { m with
    cpu := { m.cpu with
      edi := load32 m.mem esp
      esi := load32 m.mem (esp + 4)
      ebp := load32 m.mem (esp + 8)
      ebx := load32 m.mem (esp + 16)
      edx := load32 m.mem (esp + 20)
      ecx := load32 m.mem (esp + 24)
      eax := load32 m.mem (esp + 28)
      esp := esp + 32 } }

def cli (m : Machine) : Machine :=
  { m with cpu := { m.cpu with eflags := m.cpu.eflags &&& ~~~interruptFlag } }

def sti (m : Machine) : Machine :=
  { m with cpu := { m.cpu with eflags := m.cpu.eflags ||| interruptFlag } }

def setAl (m : Machine) (v : Byte) : Machine :=
  { m with cpu := { m.cpu with eax := (m.cpu.eax >>> 8).setWidth 24 ++ v } }

/-- The processor goes through an interrupt gate: from a process to the stack of the TSS. -/
def gate (m : Machine) : Machine :=
  let c := m.cpu
  let cpu := { c with
    cs := selectorKernelCs
    eflags := c.eflags &&& ~~~interruptFlag }
  let m :=
    if c.InUser then
      let m := { m with cpu := { cpu with esp := m.sp0, ss := selectorKernelDs } }
      (m.push (c.ss.setWidth 32)).push c.esp
    else { m with cpu }
  ((m.push c.eflags).push (c.cs.setWidth 32)).push c.eip

/-- To a process, the stack is that which it had. -/
def iretd (m : Machine) : Machine :=
  let m := m.pop fun c v => { c with eip := v }
  let m := m.pop fun c v => { c with cs := v.setWidth 16 }
  let m := m.pop fun c v => { c with eflags := v }
  if m.cpu.InUser then
    { m with
      cpu := { m.cpu with
        esp := load32 m.mem m.cpu.esp
        ss := (load32 m.mem (m.cpu.esp + 4)).setWidth 16 } }
  else m

/-- The mask with the bit of a line, of one controller or the other. -/
def ctlmask (m : Machine) (irq : Fin 16) : Byte :=
  if irq.val < 8 then m.intMCtlmask else m.intSCtlmask

def setCtlmask (m : Machine) (irq : Fin 16) (v : Byte) : Machine :=
  if irq.val < 8 then { m with intMCtlmask := v } else { m with intSCtlmask := v }

end Machine

/-- `1 << %1`, at the slave `1 << (%1 - 8)` -/
def irqBit (irq : Fin 16) : Byte := 1 <<< (irq.val % 8)

def eoi : Byte := 0x20

variable (l : AsmLayout)

/-- `save` up to its last `push` of a register -/
def pushRegs (m : Machine) : Machine :=
  let c := m.cpu
  (((m.pushad.push (c.ds.setWidth 32)).push (c.es.setWidth 32)).push
    (c.fs.setWidth 32)).push (c.gs.setWidth 32)

/-- The rest of `save` ends at the address that it finds in the frame. -/
def saveRegs (m : Machine) : Machine :=
  let m := pushRegs m
  -- `dx` is taken for `ss` and put back
  let m := { m with
    kReenter := m.kReenter + 1
    cpu := { m.cpu with ds := m.cpu.ss, es := m.cpu.ss, esi := m.cpu.esp } }
  let m :=
    if m.kReenter = 0 then
      ({ m with cpu := { m.cpu with esp := l.stackTop } }).push l.restart
    else m.push l.restartReenter
  { m with cpu := { m.cpu with eip := load32 m.mem (m.cpu.esi + BitVec.ofNat 32 retadr) } }

/-- `call save` -/
def callSave (ret : Addr) (m : Machine) : Except Fault Machine :=
  let m := saveRegs l (m.push ret)
  if m.cpu.eip = ret then .ok m else .error .wild

/-- The arguments are pushed, and C code is called. -/
def callC (entry : AsmEntry) (handler ret : Addr) (m : Machine) : Machine :=
  let m := m.push ret
  { m with
    cpu := { m.cpu with eip := handler }
    calls := ⟨entry, m.cpu.esp, m.cpu.ebx, m.cpu.esi, m.cpu.edi, m.cpu.ebp⟩ :: m.calls }

/-- `hwint_master` and `hwint_slave`, up to the handler: the line is masked before other interrupts
are let in. -/
def hwint (irq : Fin 16) (m : Machine) : Except Fault Machine := do
  let m ← callSave l (l.hwintSaved irq) m.gate
  let m := (m.setCtlmask irq (m.ctlmask irq ||| irqBit irq)).setAl eoi
  let m := m.sti
  let m := m.push (BitVec.ofNat 32 irq)
  .ok (callC (.hwint irq) (m.irqTable irq) (l.hwintRet irq) m)

/-- A number that is not in the table is not looked at before the call. -/
def sysCall (m : Machine) : Except Fault Machine := do
  let m ← callSave l l.sysCallSaved m.gate
  let m := m.push m.pProcReady
  let m := m.sti
  let m := m.push m.cpu.edx
  let m := m.push m.cpu.ecx
  let m := m.push m.cpu.ebx
  if h : m.cpu.eax.toNat < nrSysCall then
    .ok (callC .sysCall (l.sysCallTable ⟨m.cpu.eax.toNat, h⟩) l.sysCallRet m)
  else .error .wild

def restartReenter (m : Machine) : Machine :=
  let m := { m with kReenter := m.kReenter - 1 }
  let m := m.pop fun c v => { c with gs := v.setWidth 16 }
  let m := m.pop fun c v => { c with fs := v.setWidth 16 }
  let m := m.pop fun c v => { c with es := v.setWidth 16 }
  let m := m.pop fun c v => { c with ds := v.setWidth 16 }
  let m := m.popad
  ({ m with cpu := { m.cpu with esp := m.cpu.esp + 4 } }).iretd

def restartProc (m : Machine) : Machine :=
  let m := { m with cpu := { m.cpu with esp := m.pProcReady } }
  let m := { m with ldtr := load16 m.mem (m.cpu.esp + BitVec.ofNat 32 pLdtSel) }
  let m := { m with
    cpu := { m.cpu with eax := m.cpu.esp + BitVec.ofNat 32 pStacktop }
    sp0 := m.cpu.esp + BitVec.ofNat 32 pStacktop }
  restartReenter m

/-- `ret`, to one of the two addresses that `save` pushes. -/
def retRestart (m : Machine) : Except Fault Machine :=
  let m := m.pop fun c v => { c with eip := v }
  if m.cpu.eip = l.restart then .ok (restartProc m)
  else if m.cpu.eip = l.restartReenter then .ok (restartReenter m)
  else .error .wild

/-- What comes behind the call of the handler. -/
def finish (m : Machine) : AsmEntry → Except Fault Machine
  | .hwint irq =>
    let m := m.pop fun c v => { c with ecx := v }
    let m := m.cli
    let m := m.setAl (m.ctlmask irq &&& ~~~irqBit irq)
    let m := m.setCtlmask irq (m.ctlmask irq &&& ~~~irqBit irq)
    retRestart l m
  | .sysCall =>
    let m := { m with cpu := { m.cpu with esp := m.cpu.esp + BitVec.ofNat 32 (4 * 4) } }
    let m := { m with mem := store32 m.mem (m.cpu.esi + BitVec.ofNat 32 eaxreg) m.cpu.eax }
    retRestart l m.cli

/-! ## Runs -/

def AsmEntry.args : AsmEntry → ℕ
  | .hwint _ => 1
  | .sysCall => 4

/-- Behind the arguments of a call. -/
def Call.top (c : Call) : Addr := c.esp + BitVec.ofNat 32 (4 + 4 * c.entry.args)

/-- The calling convention, where C code returns. -/
structure Call.Returns (c : Call) (cpu : Cpu) : Prop where
  esp : cpu.esp = c.esp
  ebx : cpu.ebx = c.ebx
  esi : cpu.esi = c.esi
  edi : cpu.edi = c.edi
  ebp : cpu.ebp = c.ebp

/-- An interrupt of the line is let in. The slave is at line 2 of the master. -/
structure Machine.Lets (m : Machine) (irq : Fin 16) : Prop where
  flag : m.cpu.eflags &&& interruptFlag ≠ 0
  line : m.ctlmask irq &&& irqBit irq = 0
  cascade : 8 ≤ irq.val → m.intMCtlmask &&& irqBit 2 = 0

/-- There is room on the kernel's stack for another handler. -/
def Machine.Room (m : Machine) : Prop := m.cpu.InUser ∨ l.used m.cpu.esp + 100 ≤ stackSpace

/-- The bytes that are saved for a process. -/
def AsmLayout.Saved (x : Addr) : Prop := ∃ p : Slot, Within x (l.regs p) (pLdtSel + 2)

/-- At an address there is the frame of these registers. -/
def HoldsRegs (mem : Mem) (a : Addr) (c : Cpu) : Prop :=
  ∃ kernelEsp retaddr, WordsAt mem a (c.stackframe kernelEsp retaddr)

inductive KAct
  /-- A process has run on. -/
  | user (cpu : Cpu)
  /-- `task_mm` has written the registers of a process: in `do_fork`, or in `do_exec`. -/
  | setRegs (p : Slot) (regs : Cpu)
  | interrupt (irq : Fin 16)
  | trap
  /-- What runs from `sti` to `cli`, C code for the most part, has run on, and `p_proc_ready` is
  this process. -/
  | code (cpu : Cpu) (ready : Slot)
  | ret

/-- What happens next. From `sti` to `cli` other interrupts are let in: the arguments are pushed, C
code runs, and they are dropped, with the stack pointer anywhere below the frame of the handler. All
of that is `code`, and the rest of `kernel.asm`, where none is let in, is one step. What a system
call returns is stored in the frame before `cli`; no handler in between has to do with it, so that
it is stored with the `ret`. -/
inductive KStep : Machine → KAct → Machine → Prop
  | user {m : Machine} {cpu : Cpu} {mem : Mem} {irqTable : Fin 16 → Addr}
    {intMCtlmask intSCtlmask : Byte} : m.cpu.InUser → cpu.InUser →
      (∀ x, l.Saved x → mem x = m.mem x) →
        KStep m (.user cpu) { m with cpu, mem, irqTable, intMCtlmask, intSCtlmask }
  | setRegs {m : Machine} {p : Slot} {regs : Cpu} {mem : Mem} : m.cpu.InUser →
      m.pProcReady ≠ l.regs p → HoldsRegs mem (l.regs p) regs →
        (∀ x, l.Saved x → ¬ Within x (l.regs p) pLdtSel → mem x = m.mem x) →
          KStep m (.setRegs p regs) { m with mem }
  | interrupt {m m' : Machine} {irq : Fin 16} : m.Lets irq → m.Room l →
      hwint l irq m = .ok m' → KStep m (.interrupt irq) m'
  | trap {m m' : Machine} : m.Room l → sysCall l m = .ok m' → KStep m .trap m'
  | code {m : Machine} {c : Call} {cs : List Call} {cpu : Cpu} {mem : Mem} {ready : Slot} :
      m.calls = c :: cs → cpu.cs = m.cpu.cs → cpu.ss = m.cpu.ss →
        l.used c.top ≤ l.used cpu.esp → l.used cpu.esp ≤ stackSpace →
          (∀ x, Within x c.top (l.used c.top) ∨ l.Saved x → mem x = m.mem x) →
            (∃ regs : Cpu, regs.InUser ∧ HoldsRegs mem (l.regs ready) regs) →
              KStep m (.code cpu ready) { m with cpu, mem, pProcReady := l.regs ready }
  | ret {m m' : Machine} {c : Call} {cs : List Call} : m.calls = c :: cs → c.Returns m.cpu →
      finish l { m with calls := cs, cpu := { m.cpu with esp := m.cpu.esp + 4 } } c.entry = .ok m' →
        KStep m .ret m'

/-- The end of `kernel_main`: the registers of the processes and their LDTs have been set up, and
`restart` is called for the first of them. -/
inductive KStart (sel : Slot → BitVec 16) (regs : Slot → Cpu) : Machine → Prop
  | restart {m : Machine} : m.calls = [] → m.kReenter = 0 → m.pProcReady = l.regs 0 →
      (∀ p, HoldsRegs m.mem (l.regs p) (regs p) ∧
        load16 m.mem (l.regs p + BitVec.ofNat 32 pLdtSel) = sel p) →
          (regs 0).InUser → KStart sel regs (restartProc m)

def KAct.entry : KAct → Option AsmEntry
  | .interrupt irq => some (.hwint irq)
  | .trap => some .sysCall
  | _ => none

/-- What happens in a handler: C code goes on, and other handlers are called and return. Newest
first. -/
inductive Handled : List KAct → Prop
  | nil : Handled []
  | code {t : List KAct} {cpu : Cpu} {ready : Slot} : Handled t → Handled (.code cpu ready :: t)
  | handler {t t' : List KAct} {act : KAct} {entry : AsmEntry} : Handled t → act.entry =
    some entry →
      Handled t' → Handled (.ret :: (t' ++ act :: t))

def AsmEntry.line : AsmEntry → Option (Fin 16)
  | .hwint irq => some irq
  | .sysCall => none

/-- The lines whose handlers have not ended, newest first. -/
def Machine.lines (m : Machine) : List (Fin 16) := m.calls.filterMap fun c => c.entry.line

/-! ## What is saved -/

/-- Who has been interrupted: a process, or the kernel with these registers. -/
inductive Origin
  | proc (p : Slot)
  | kernel (cpu : Cpu)

/-- The registers of what runs, those each process goes on with, the process that runs when the
kernel is left, and the handlers that have not ended, newest first, with what they have
interrupted. -/
structure Contexts where
  cpu : Cpu
  procs : Slot → Cpu
  ready : Slot
  nest : List (AsmEntry × Origin)

/-- The value a handler returns is for those who have asked for it. -/
def AsmEntry.result : AsmEntry → BitVec 32 → Cpu → Cpu
  | .hwint _, _, c => c
  | .sysCall, v, c => { c with eax := v }

/-- A handler has been called, and its registers are `cpu`. -/
def Contexts.enter (s : Contexts) (entry : AsmEntry) (cpu : Cpu) : Contexts :=
  match s.nest with
  | [] => { s with
      cpu
      procs := Function.update s.procs s.ready s.cpu
      nest := [(entry, .proc s.ready)] }
  | _ :: _ => { s with cpu, nest := (entry, .kernel s.cpu) :: s.nest }

/-- A handler has returned: what it has interrupted goes on, or the process that is ready. -/
def Contexts.leave (s : Contexts) : Contexts :=
  match s.nest with
  | [] => s
  | (entry, .kernel cpu) :: nest => { s with cpu := entry.result s.cpu.eax cpu, nest }
  | (entry, .proc p) :: nest =>
    let procs := Function.update s.procs p (entry.result s.cpu.eax (s.procs p))
    { s with cpu := procs s.ready, procs, nest }

/-- Contexts are saved and restored as a whole. -/
inductive ContextStep : Contexts → KAct → Contexts → Prop
  | user {s : Contexts} {cpu : Cpu} : s.nest = [] → ContextStep s (.user cpu) { s with cpu }
  | setRegs {s : Contexts} {p : Slot} {regs : Cpu} : s.nest = [] → p ≠ s.ready →
      ContextStep s (.setRegs p regs) { s with procs := Function.update s.procs p regs }
  | interrupt {s : Contexts} {irq : Fin 16} {cpu : Cpu} :
      ContextStep s (.interrupt irq) (s.enter (.hwint irq) cpu)
  | trap {s : Contexts} {cpu : Cpu} : ContextStep s .trap (s.enter .sysCall cpu)
  | code {s : Contexts} {cpu : Cpu} {ready : Slot} : s.nest ≠ [] →
      ContextStep s (.code cpu ready) { s with cpu, ready }
  | ret {s : Contexts} : s.nest ≠ [] → ContextStep s .ret s.leave

inductive ContextStart (regs : Slot → Cpu) : Contexts → Prop
  | start : ContextStart regs ⟨regs 0, regs, 0, []⟩

end MyOS
