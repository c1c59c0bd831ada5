import MyOS.KernelAsm

/-!
# Interrupts and system calls go on where they were
-/

namespace MyOS

open Memory

variable {l : AsmLayout} {m m' : Machine} {ret : Addr}

namespace Machine

/-- Words pushed one after the other. -/
def pushes (m : Machine) (vs : List (BitVec 32)) : Machine :=
  { m with
    mem := pushAll m.mem m.cpu.esp vs
    cpu := { m.cpu with esp := m.cpu.esp - BitVec.ofNat 32 (4 * vs.length) } }

theorem push_eq (m : Machine) (v : BitVec 32) : m.push v = m.pushes [v] := rfl

theorem push_pushes (m : Machine) (v : BitVec 32) (vs : List (BitVec 32)) :
    (m.push v).pushes vs = m.pushes (v :: vs) := by
  unfold push pushes
  rw [List.length_cons, ofNat_four_succ, ← BitVec.sub_sub]
  rfl

theorem sti_pushes (m : Machine) (vs : List (BitVec 32)) :
    (m.pushes vs).sti = m.sti.pushes vs := rfl

theorem pushes_pushes (m : Machine) (vs ws : List (BitVec 32)) :
    (m.pushes vs).pushes ws = m.pushes (vs ++ ws) := by
  unfold pushes
  rw [List.length_append, Nat.mul_add, BitVec.ofNat_add, ← BitVec.sub_sub, pushAll_append]

@[simp] theorem pushes_mem (m : Machine) (vs : List (BitVec 32)) :
    (m.pushes vs).mem = pushAll m.mem m.cpu.esp vs := rfl

@[simp] theorem pushes_cpu (m : Machine) (vs : List (BitVec 32)) : (m.pushes vs).cpu =
    { m.cpu with esp := m.cpu.esp - BitVec.ofNat 32 (4 * vs.length) } := rfl

end Machine

/-- What `save` pushes behind the frame of the processor and its own return address. -/
def Cpu.pushed (c : Cpu) (esp : BitVec 32) : List (BitVec 32) :=
  [c.eax, c.ecx, c.edx, c.ebx, esp, c.ebp, c.esi, c.edi, c.ds.setWidth 32, c.es.setWidth 32,
    c.fs.setWidth 32, c.gs.setWidth 32]

theorem pushRegs_eq (m : Machine) : pushRegs m = m.pushes (m.cpu.pushed m.cpu.esp) := by
  unfold pushRegs Machine.pushad
  dsimp only
  rw [Machine.push_eq]
  simp only [Machine.push_pushes]
  rfl

theorem saveRegs_first (hk : m.kReenter + 1 = 0) : saveRegs l m =
    let mem := store32 (pushAll m.mem m.cpu.esp (m.cpu.pushed m.cpu.esp)) (l.stackTop - 4) l.restart
    { m with
      mem
      kReenter := 0
      cpu := { m.cpu with
        esp := l.stackTop - 4
        ds := m.cpu.ss
        es := m.cpu.ss
        esi := m.cpu.esp - 48
        eip := load32 mem (m.cpu.esp - 48 + 48) } } := by
  unfold saveRegs
  rw [pushRegs_eq]
  simp only [Machine.pushes, hk, if_pos]
  rfl

theorem saveRegs_again (hk : m.kReenter + 1 ≠ 0) : saveRegs l m =
    let mem := store32 (pushAll m.mem m.cpu.esp (m.cpu.pushed m.cpu.esp)) (m.cpu.esp - 48 - 4)
      l.restartReenter
    { m with
      mem
      kReenter := m.kReenter + 1
      cpu := { m.cpu with
        esp := m.cpu.esp - 48 - 4
        ds := m.cpu.ss
        es := m.cpu.ss
        esi := m.cpu.esp - 48
        eip := load32 mem (m.cpu.esp - 48 + 48) } } := by
  unfold saveRegs
  rw [pushRegs_eq]
  simp only [Machine.pushes, hk, if_false]
  rfl

/-- `save` has put a frame of `n` words at `a`, and an address to return to at the top of the stack
of the kernel. -/
structure SaveDone (m m₁ : Machine) (n : ℕ) (ret a label top : Addr) : Prop where
  frame : ∃ kernelEsp, WordsAt m₁.mem a ((m.cpu.stackframe kernelEsp ret).take n)
  label : load32 m₁.mem top = label
  mem : ∀ x, ¬ Within x a (4 * n) → ¬ Within x top 4 → m₁.mem x = m.mem x
  rest : m₁ = { m with mem := m₁.mem, cpu := m₁.cpu, kReenter := m.kReenter + 1 }
  esp : m₁.cpu.esp = top
  esi : m₁.cpu.esi = a
  cs : m₁.cpu.cs = selectorKernelCs
  ss : m₁.cpu.ss = selectorKernelDs
  args : m₁.cpu.eax = m.cpu.eax ∧ m₁.cpu.ebx = m.cpu.ebx ∧ m₁.cpu.ecx = m.cpu.ecx ∧
    m₁.cpu.edx = m.cpu.edx

theorem gate_user (hu : m.cpu.InUser) (ret : Addr) : m.gate.push ret =
    ({ m with
      cpu := { m.cpu with
        cs := selectorKernelCs
        eflags := m.cpu.eflags &&& ~~~interruptFlag
        esp := m.sp0
        ss := selectorKernelDs } } : Machine).pushes
      [m.cpu.ss.setWidth 32, m.cpu.esp, m.cpu.eflags, m.cpu.cs.setWidth 32, m.cpu.eip, ret] := by
  unfold Machine.gate
  dsimp only
  rw [if_pos hu, Machine.push_eq]
  simp only [Machine.push_pushes]

theorem gate_kernel (hu : ¬ m.cpu.InUser) (ret : Addr) : m.gate.push ret =
    ({ m with
      cpu := { m.cpu with
        cs := selectorKernelCs
        eflags := m.cpu.eflags &&& ~~~interruptFlag } } : Machine).pushes
      [m.cpu.eflags, m.cpu.cs.setWidth 32, m.cpu.eip, ret] := by
  unfold Machine.gate
  dsimp only
  rw [if_neg hu, Machine.push_eq]
  simp only [Machine.push_pushes]

/-- From a process: the frame is that of the TSS, and the kernel's stack is empty. -/
theorem save_user (hu : m.cpu.InUser) (hk : m.kReenter + 1 = 0) :
    saveRegs l (m.gate.push ret) =
      let mem := store32 (pushAll m.mem m.sp0 (m.cpu.stackframe (m.sp0 - 24) ret).reverse)
        (l.stackTop - 4) l.restart
      { m with
        mem
        kReenter := 0
        cpu := { m.cpu with
          cs := selectorKernelCs
          eflags := m.cpu.eflags &&& ~~~interruptFlag
          esp := l.stackTop - 4
          ds := selectorKernelDs
          es := selectorKernelDs
          ss := selectorKernelDs
          esi := m.sp0 - 72
          eip := load32 mem (m.sp0 - 72 + 48) } } := by
  have hmem : pushAll (pushAll m.mem m.sp0 [m.cpu.ss.setWidth 32, m.cpu.esp, m.cpu.eflags,
      m.cpu.cs.setWidth 32, m.cpu.eip, ret]) (m.sp0 - 24) (m.cpu.pushed (m.sp0 - 24)) =
      pushAll m.mem m.sp0 (m.cpu.stackframe (m.sp0 - 24) ret).reverse := pushAll_append.symm
  have hesi : m.sp0 - 24 - 48 = m.sp0 - 72 := by bv_omega
  have hk' : (m.gate.push ret).kReenter + 1 = 0 := by
    rw [gate_user hu]
    exact hk
  rw [saveRegs_first hk', gate_user hu, ← hmem, ← hesi]
  rfl

/-- From the kernel: the frame is on its stack, without a stack pointer. -/
theorem save_kernel (hu : ¬ m.cpu.InUser) (hk : m.kReenter + 1 ≠ 0) :
    saveRegs l (m.gate.push ret) =
      let mem := pushAll m.mem m.cpu.esp
        (l.restartReenter :: (m.cpu.stackframe (m.cpu.esp - 16) ret).take 16).reverse
      { m with
        mem
        kReenter := m.kReenter + 1
        cpu := { m.cpu with
          cs := selectorKernelCs
          eflags := m.cpu.eflags &&& ~~~interruptFlag
          esp := m.cpu.esp - 68
          ds := m.cpu.ss
          es := m.cpu.ss
          esi := m.cpu.esp - 64
          eip := load32 mem (m.cpu.esp - 64 + 48) } } := by
  have hmem : store32 (pushAll (pushAll m.mem m.cpu.esp [m.cpu.eflags, m.cpu.cs.setWidth 32,
      m.cpu.eip, ret]) (m.cpu.esp - 16) (m.cpu.pushed (m.cpu.esp - 16))) (m.cpu.esp - 16 - 48 - 4)
        l.restartReenter =
      pushAll m.mem m.cpu.esp
        (l.restartReenter :: (m.cpu.stackframe (m.cpu.esp - 16) ret).take 16).reverse := by
    rw [List.reverse_cons, pushAll_append, show m.cpu.esp - 16 - 48 = m.cpu.esp - 64 by bv_omega]
    exact congrArg (store32 · _ _) pushAll_append.symm
  have hesi : m.cpu.esp - 16 - 48 = m.cpu.esp - 64 := by bv_omega
  have hesp : m.cpu.esp - 16 - 48 - 4 = m.cpu.esp - 68 := by bv_omega
  have hk' : (m.gate.push ret).kReenter + 1 ≠ 0 := by
    rw [gate_kernel hu]
    exact hk
  rw [saveRegs_again hk', gate_kernel hu, ← hmem, ← hesp, ← hesi]
  rfl

theorem callSave_user (hu : m.cpu.InUser) (hk : m.kReenter + 1 = 0)
    (hfree : Apart (m.sp0 - 72) 72 (l.stackTop - 4) 4) : ∃ m₁, callSave l ret m.gate = .ok m₁ ∧
      SaveDone m m₁ 18 ret (m.sp0 - 72) l.restart (l.stackTop - 4) := by
  have hframe := pushAll_wordsAt (m.cpu.stackframe (m.sp0 - 24) ret).reverse [] m.mem m.sp0
    (by simp [Cpu.stackframe]) trivial
  rw [List.reverse_reverse, List.append_nil] at hframe
  have hstored : WordsAt (store32 _ (l.stackTop - 4) l.restart) (m.sp0 - 72)
      (m.cpu.stackframe (m.sp0 - 24) ret) :=
    hframe.congr (by simp [Cpu.stackframe]) fun x hx => poke_of_not_within (hfree x hx)
  have hret := hstored.load (i := 12) (by simp [Cpu.stackframe])
  have hcall : callSave l ret m.gate = .ok (saveRegs l (m.gate.push ret)) := by
    unfold callSave
    refine if_pos ?_
    rw [save_user hu hk]
    exact hret
  refine ⟨_, hcall, ?_⟩
  rw [save_user hu hk]
  refine ⟨⟨_, hstored⟩, load32_store32 .., fun x hx hx' => ?_, ?_, rfl, rfl, rfl, rfl,
    rfl, rfl, rfl, rfl⟩
  · exact (poke_of_not_within hx').trans (pushAll_of_not_within (by simp [Cpu.stackframe]) hx)
  · rw [hk]

theorem callSave_kernel (hu : ¬ m.cpu.InUser) (hk : m.kReenter + 1 ≠ 0)
    (hss : m.cpu.ss = selectorKernelDs) : ∃ m₁, callSave l ret m.gate = .ok m₁ ∧
      SaveDone m m₁ 16 ret (m.cpu.esp - 64) l.restartReenter (m.cpu.esp - 68) := by
  have hframe := pushAll_wordsAt
    (l.restartReenter :: (m.cpu.stackframe (m.cpu.esp - 16) ret).take 16).reverse [] m.mem m.cpu.esp
    (by simp [Cpu.stackframe]) trivial
  rw [List.reverse_reverse, List.append_nil, wordsAt_cons] at hframe
  change _ ∧ WordsAt _ (m.cpu.esp - 68 + 4) _ at hframe
  rw [show m.cpu.esp - 68 + 4 = m.cpu.esp - 64 by bv_omega] at hframe
  have hret := hframe.2.load (i := 12) (by simp [Cpu.stackframe])
  have hcall : callSave l ret m.gate = .ok (saveRegs l (m.gate.push ret)) := by
    unfold callSave
    refine if_pos ?_
    rw [save_kernel hu hk]
    exact hret
  refine ⟨_, hcall, ?_⟩
  rw [save_kernel hu hk]
  refine ⟨⟨_, hframe.2⟩, hframe.1, fun x hx hx' => ?_, rfl, rfl, rfl, rfl, hss,
    rfl, rfl, rfl, rfl⟩
  refine pushAll_of_not_within (by simp [Cpu.stackframe]) fun h => ?_
  change Within x (m.cpu.esp - 68) 68 at h
  unfold Within at h hx hx'
  bv_omega

/-! ## The masks -/

/-- What the interrupt controllers have been told. -/
def Machine.masks (m : Machine) : Byte × Byte := (m.intMCtlmask, m.intSCtlmask)

/-- The mask with the bit of a line set. -/
def maskLine (irq : Fin 16) (p : Byte × Byte) : Byte × Byte :=
  if irq.val < 8 then (p.1 ||| irqBit irq, p.2) else (p.1, p.2 ||| irqBit irq)

def unmaskLine (irq : Fin 16) (p : Byte × Byte) : Byte × Byte :=
  if irq.val < 8 then (p.1 &&& ~~~irqBit irq, p.2) else (p.1, p.2 &&& ~~~irqBit irq)

def AsmEntry.mask : AsmEntry → Byte × Byte → Byte × Byte
  | .hwint irq, p => maskLine irq p
  | .sysCall, p => p

def AsmEntry.unmask : AsmEntry → Byte × Byte → Byte × Byte
  | .hwint irq, p => unmaskLine irq p
  | .sysCall, p => p

theorem masks_setCtlmask_or (m : Machine) (irq : Fin 16) :
    (m.setCtlmask irq (m.ctlmask irq ||| irqBit irq)).masks = maskLine irq m.masks := by
  unfold Machine.setCtlmask Machine.ctlmask maskLine
  split_ifs
  · rfl
  · rfl

theorem masks_setCtlmask_and (m : Machine) (irq : Fin 16) :
    (m.setCtlmask irq (m.ctlmask irq &&& ~~~irqBit irq)).masks = unmaskLine irq m.masks := by
  unfold Machine.setCtlmask Machine.ctlmask unmaskLine
  split_ifs
  · rfl
  · rfl

/-! ## The call of a handler -/

/-- Everything but the memory, the registers, the masks and the calls. -/
structure SameTask (m m' : Machine) : Prop where
  kReenter : m'.kReenter = m.kReenter
  pProcReady : m'.pProcReady = m.pProcReady
  sp0 : m'.sp0 = m.sp0
  ldtr : m'.ldtr = m.ldtr
  irqTable : m'.irqTable = m.irqTable

/-- A handler has been called with these arguments, the first one first. -/
structure Called (m m' : Machine) (entry : AsmEntry) (args : List (BitVec 32)) : Prop where
  words : WordsAt m'.mem (m'.cpu.esp + 4) args
  mem : ∀ x, ¬ Within x m'.cpu.esp (4 + 4 * args.length) → m'.mem x = m.mem x
  esp : m'.cpu.esp = m.cpu.esp - BitVec.ofNat 32 (4 + 4 * args.length)
  cs : m'.cpu.cs = m.cpu.cs
  ss : m'.cpu.ss = m.cpu.ss
  calls : m'.calls = ⟨entry, m'.cpu.esp, m.cpu.ebx, m.cpu.esi, m.cpu.edi, m.cpu.ebp⟩ :: m.calls
  task : SameTask m m'

theorem callC_called (m : Machine) (entry : AsmEntry) (handler ret : Addr) (vs : List (BitVec 32))
    (hn : 4 + 4 * vs.length ≤ 2 ^ 32) :
    Called m (callC entry handler ret (m.pushes vs)) entry vs.reverse := by
  have hwords := pushAll_wordsAt (vs ++ [ret]) [] m.mem m.cpu.esp (by simp; omega) trivial
  have hlen : 4 * (vs ++ [ret]).length = 4 + 4 * vs.length := by
    rw [List.length_append, List.length_singleton, Nat.mul_add, Nat.add_comm]
  rw [hlen, List.reverse_append, List.append_nil] at hwords
  have hmem : ∀ x, ¬ Within x (m.cpu.esp - BitVec.ofNat 32 (4 + 4 * vs.length))
      (4 + 4 * vs.length) → pushAll m.mem m.cpu.esp (vs ++ [ret]) x = m.mem x := fun x hx =>
    pushAll_of_not_within (by rw [hlen]; exact hn) (by rw [hlen]; exact hx)
  have hcall : callC entry handler ret (m.pushes vs) =
      { m with
        mem := pushAll m.mem m.cpu.esp (vs ++ [ret])
        cpu := { m.cpu with
          esp := m.cpu.esp - BitVec.ofNat 32 (4 + 4 * vs.length)
          eip := handler }
        calls := ⟨entry, m.cpu.esp - BitVec.ofNat 32 (4 + 4 * vs.length), m.cpu.ebx, m.cpu.esi,
          m.cpu.edi, m.cpu.ebp⟩ :: m.calls } := by
    rw [callC, Machine.push_eq, Machine.pushes_pushes, Machine.pushes, hlen]
  rw [hcall]
  refine ⟨hwords.2, ?_, ?_, rfl, rfl, rfl, rfl, rfl, rfl, rfl, rfl⟩
  all_goals rw [List.length_reverse]
  exact hmem

/-- Before the arguments are pushed, interrupts are let in, and a mask may have been set. -/
theorem Called.of_before {m₁ : Machine} {entry : AsmEntry} {args : List (BitVec 32)}
    (h : Called m₁ m' entry args) (hmem : m₁.mem = m.mem) (hesp : m₁.cpu.esp = m.cpu.esp)
    (hcs : m₁.cpu.cs = m.cpu.cs) (hss : m₁.cpu.ss = m.cpu.ss) (hcalls : m₁.calls = m.calls)
    (hregs : m₁.cpu.ebx = m.cpu.ebx ∧ m₁.cpu.esi = m.cpu.esi ∧ m₁.cpu.edi = m.cpu.edi ∧
      m₁.cpu.ebp = m.cpu.ebp) (htask : SameTask m m₁) : Called m m' entry args where
  words := h.words
  mem := hmem ▸ h.mem
  esp := hesp ▸ h.esp
  cs := h.cs.trans hcs
  ss := h.ss.trans hss
  calls := by rw [h.calls, hcalls, hregs.1, hregs.2.1, hregs.2.2.1, hregs.2.2.2]
  task := ⟨h.task.1.trans htask.1, h.task.2.trans htask.2, h.task.3.trans htask.3,
    h.task.4.trans htask.4, h.task.5.trans htask.5⟩

theorem setCtlmask_exists (m : Machine) (irq : Fin 16) (v : Byte) : ∃ intMCtlmask intSCtlmask,
    m.setCtlmask irq v = { m with intMCtlmask, intSCtlmask } := by
  unfold Machine.setCtlmask
  split_ifs
  · exact ⟨_, _, rfl⟩
  · exact ⟨_, _, rfl⟩

theorem hwint_eq {irq : Fin 16} {m₁ : Machine}
    (h : callSave l (l.hwintSaved irq) m.gate = .ok m₁) : hwint l irq m =
      let m₂ := m₁.setCtlmask irq (m₁.ctlmask irq ||| irqBit irq)
      .ok (callC (.hwint irq) (m₂.irqTable irq) (l.hwintRet irq)
        ((m₂.setAl eoi).sti.pushes [BitVec.ofNat 32 irq])) := by
  unfold hwint
  rw [h]
  rfl

theorem hwint_called {irq : Fin 16} {m₁ : Machine}
    (h : callSave l (l.hwintSaved irq) m.gate = .ok m₁) :
    ∃ m', hwint l irq m = .ok m' ∧ m'.cpu.eip = m₁.irqTable irq ∧
      m'.masks = maskLine irq m₁.masks ∧ Called m₁ m' (.hwint irq) [BitVec.ofNat 32 irq] := by
  obtain ⟨intMCtlmask, intSCtlmask, hmask⟩ :=
    setCtlmask_exists m₁ irq (m₁.ctlmask irq ||| irqBit irq)
  have hcall := hwint_eq h
  have hmasks : (intMCtlmask, intSCtlmask) = maskLine irq m₁.masks := by
    rw [← masks_setCtlmask_or, hmask]
    rfl
  rw [hmask] at hcall
  have hcalled := callC_called (({ m₁ with intMCtlmask, intSCtlmask } : Machine).setAl eoi).sti
    (.hwint irq) (m₁.irqTable irq) (l.hwintRet irq) [BitVec.ofNat 32 irq] (by simp)
  exact ⟨_, hcall, rfl, hmasks, hcalled.of_before rfl rfl rfl rfl rfl ⟨rfl, rfl, rfl, rfl⟩
    ⟨rfl, rfl, rfl, rfl, rfl⟩⟩

theorem sysCall_eq {m₁ : Machine} (h : callSave l l.sysCallSaved m.gate = .ok m₁) :
    sysCall l m =
      let m₂ := m₁.sti.pushes [m₁.pProcReady, m₁.cpu.edx, m₁.cpu.ecx, m₁.cpu.ebx]
      if h : m₁.cpu.eax.toNat < nrSysCall then
        .ok (callC .sysCall (l.sysCallTable ⟨m₁.cpu.eax.toNat, h⟩) l.sysCallRet m₂)
      else .error .wild := by
  unfold sysCall
  rw [h]
  dsimp only [bind, Except.bind]
  simp only [Machine.push_eq, Machine.sti_pushes, Machine.pushes_pushes, Machine.pushes_cpu,
    List.cons_append, List.nil_append]
  rfl

/-- The arguments of a system call are the registers of the one who has asked for it. -/
theorem sysCall_called {m₁ : Machine} (h : callSave l l.sysCallSaved m.gate = .ok m₁)
    (hnr : m₁.cpu.eax.toNat < nrSysCall) : ∃ m', sysCall l m = .ok m' ∧
      m'.cpu.eip = l.sysCallTable ⟨m₁.cpu.eax.toNat, hnr⟩ ∧ m'.masks = m₁.masks ∧
        Called m₁ m' .sysCall [m₁.cpu.ebx, m₁.cpu.ecx, m₁.cpu.edx, m₁.pProcReady] := by
  have hcalled := callC_called m₁.sti .sysCall (l.sysCallTable ⟨m₁.cpu.eax.toNat, hnr⟩)
    l.sysCallRet [m₁.pProcReady, m₁.cpu.edx, m₁.cpu.ecx, m₁.cpu.ebx] (by simp)
  refine ⟨_, (sysCall_eq h).trans (dif_pos hnr), rfl, rfl, hcalled.of_before rfl rfl rfl rfl rfl
    ⟨rfl, rfl, rfl, rfl⟩ ⟨rfl, rfl, rfl, rfl, rfl⟩⟩

theorem sysCall_wild {m₁ : Machine} (h : callSave l l.sysCallSaved m.gate = .ok m₁)
    (hnr : ¬ m₁.cpu.eax.toNat < nrSysCall) : sysCall l m = .error .wild :=
  (sysCall_eq h).trans (dif_neg hnr)

/-! ## The return to what has been interrupted -/

/-- What a handler stores for those who have asked for it. -/
def AsmEntry.stored : AsmEntry → Cpu → Mem → Mem
  | .hwint _, _, mem => mem
  | .sysCall, c, mem => store32 mem (c.esi + BitVec.ofNat 32 eaxreg) c.eax

/-- Behind the call of a handler its arguments are dropped. -/
structure Dropped (m m₁ : Machine) (entry : AsmEntry) : Prop where
  mem : m₁.mem = entry.stored m.cpu m.mem
  esp : m₁.cpu.esp = m.cpu.esp + BitVec.ofNat 32 (4 * entry.args)
  cs : m₁.cpu.cs = m.cpu.cs
  ss : m₁.cpu.ss = m.cpu.ss
  calls : m₁.calls = m.calls
  masks : m₁.masks = entry.unmask m.masks
  task : SameTask m m₁

theorem finish_dropped (m : Machine) : ∀ entry : AsmEntry,
    ∃ m₁, finish l m entry = retRestart l m₁ ∧ Dropped m m₁ entry
  | .sysCall => ⟨_, rfl, rfl, rfl, rfl, rfl, rfl, rfl, rfl, rfl, rfl, rfl, rfl⟩
  | .hwint irq => by
    unfold finish
    dsimp only
    generalize hm₁ : ((m.pop fun c v => { c with ecx := v }).cli.setAl _) = m₁
    obtain ⟨intMCtlmask, intSCtlmask, hmask⟩ :=
      setCtlmask_exists m₁ irq (m₁.ctlmask irq &&& ~~~irqBit irq)
    have hmasks : (intMCtlmask, intSCtlmask) = unmaskLine irq m₁.masks := by
      rw [← masks_setCtlmask_and, hmask]
      rfl
    rw [hmask]
    subst hm₁
    exact ⟨_, rfl, rfl, rfl, rfl, rfl, rfl, hmasks, rfl, rfl, rfl, rfl, rfl⟩

theorem retRestart_restart (h : load32 m.mem m.cpu.esp = l.restart) :
    retRestart l m = .ok (restartProc
      { m with cpu := { m.cpu with eip := l.restart, esp := m.cpu.esp + 4 } }) := by
  unfold retRestart Machine.pop
  rw [h]
  exact if_pos rfl

theorem retRestart_reenter (h : load32 m.mem m.cpu.esp = l.restartReenter) :
    retRestart l m = .ok (restartReenter
      { m with cpu := { m.cpu with eip := l.restartReenter, esp := m.cpu.esp + 4 } }) := by
  unfold retRestart Machine.pop
  rw [h]
  exact (if_neg (Ne.symm l.restart_ne)).trans (if_pos rfl)

/-- A process goes on with what is in its frame. -/
theorem restartReenter_user {c : Cpu} {kernelEsp : BitVec 32}
    (h : WordsAt m.mem m.cpu.esp (c.stackframe kernelEsp ret)) (hu : c.InUser) :
    restartReenter m = { m with kReenter := m.kReenter - 1, cpu := c } := by
  simp only [Cpu.stackframe, wordsAt_cons, BitVec.add_assoc, BitVec.ofNat_eq_ofNat,
    BitVec.reduceAdd] at h
  have hcs : ¬ c.cs &&& 3#16 = 0#16 := hu
  simp [restartReenter, Machine.pop, Machine.popad, Machine.iretd, BitVec.add_assoc, Cpu.InUser,
    h, hcs]

/-- The kernel goes on where it was, on the stack that it has never left. -/
theorem restartReenter_kernel {c : Cpu} {kernelEsp : BitVec 32}
    (h : WordsAt m.mem m.cpu.esp ((c.stackframe kernelEsp ret).take 16)) (hu : ¬ c.InUser)
    (hesp : m.cpu.esp + 64 = c.esp) (hss : m.cpu.ss = c.ss) :
    restartReenter m = { m with kReenter := m.kReenter - 1, cpu := c } := by
  simp only [Cpu.stackframe, List.take_succ_cons, wordsAt_cons, BitVec.add_assoc,
    BitVec.ofNat_eq_ofNat, BitVec.reduceAdd] at h
  have hcs : c.cs &&& 3#16 = 0#16 := not_not.mp hu
  have hback : ({ c with esp := m.cpu.esp + 64, ss := m.cpu.ss } : Cpu) = c := by
    rw [hesp, hss]
  simpa [restartReenter, Machine.pop, Machine.popad, Machine.iretd, BitVec.add_assoc, Cpu.InUser,
    h, hcs] using hback

end MyOS
