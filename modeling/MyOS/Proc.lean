import MyOS.Message
import MyOS.Protect
import MyOS.Lib.Chain

/-!
# Processes and their messages

`kernel/proc.c` over the process table: `sys_sendrec` with `msg_send` and `msg_receive`, and
`inform_int`. A pointer into the table is a slot, a null pointer `none`; `p_msg` is the address a
process gave, null at zero.
-/

namespace MyOS

open Memory Pointer

/-- `struct proc`, without what only the scheduler and the file system use. -/
structure Proc where
  ldts : Fin 2 → Descriptor
  pName : List Char
  pFlags : BitVec 32
  pMsg : Addr
  pRecvfrom : Int
  pSendto : Int
  hasIntMsg : Bool
  qSending : Option Slot
  nextSending : Option Slot
  pParent : Int
  exitStatus : BitVec 32

/-- What a run has done with messages: a `SEND` made, a message copied from its sender to its
destination, an interrupt announced to a task, a `HARD_INT` message handed to a process. -/
inductive Event
  | call (sender : Slot) (dest : Slot) (m : Message)
  | copied (sender : Slot) (dest : Slot) (m : Message)
  | informed (taskNr : Slot)
  | hardInt (p : Slot) (m : Message)

/-- The state of the kernel. No code reads `log`, the events so far, newest first. -/
structure Kernel where
  procTable : Slot → Proc
  mem : Mem
  kReenter : Int
  log : List Event

namespace Kernel

/-- A write to the fields of one process. -/
def set (k : Kernel) (p : Slot) (f : Proc → Proc) : Kernel :=
  { k with procTable := Function.update k.procTable p (f (k.procTable p)) }

def note (k : Kernel) (e : Event) : Kernel :=
  { k with log := e :: k.log }

@[simp] theorem set_procTable (k : Kernel) (p q : Slot) (f : Proc → Proc) :
    (k.set p f).procTable q = if q = p then f (k.procTable p) else k.procTable q := by
  simp [set, Function.update_apply]

@[simp] theorem set_mem (k : Kernel) (p : Slot) (f : Proc → Proc) : (k.set p f).mem = k.mem := rfl

@[simp] theorem set_log (k : Kernel) (p : Slot) (f : Proc → Proc) : (k.set p f).log = k.log := rfl

@[simp] theorem set_kReenter (k : Kernel) (p : Slot) (f : Proc → Proc) :
    (k.set p f).kReenter = k.kReenter := rfl

@[simp] theorem note_procTable (k : Kernel) (e : Event) : (k.note e).procTable = k.procTable := rfl

@[simp] theorem note_mem (k : Kernel) (e : Event) : (k.note e).mem = k.mem := rfl

@[simp] theorem note_log (k : Kernel) (e : Event) : (k.note e).log = e :: k.log := rfl

@[simp] theorem note_kReenter (k : Kernel) (e : Event) : (k.note e).kReenter = k.kReenter := rfl

end Kernel

/-- `proc2pid` -/
def proc2pid (p : Slot) : Int := p.val

/-- `proc_table + pid`, followed: outside the table it is no process. -/
def procAt (pid : Int) : Except Fault Slot :=
  if h : 0 ≤ pid ∧ pid.toNat < nrTasks + nrProcs then .ok ⟨pid.toNat, h.2⟩ else .error .wild

/-- `ldt_seg_linear` of the process's data segment, and the address in it. -/
def va2la (k : Kernel) (pid : Slot) (va : Addr) : Except Fault Addr :=
  let la := ((k.procTable pid).ldts 1).linear + va
  if pid.val < nrTasks + nrNativeProcs then do
    assert (la = va)
    .ok la
  else .ok la

/-- The trap into the kernel counts itself, -/
def save (k : Kernel) : Kernel := { k with kReenter := k.kReenter + 1 }

/-- and the way out of it counts down. -/
def restart (k : Kernel) : Kernel := { k with kReenter := k.kReenter - 1 }

/-- `printf` asks the file system for a `write` by `sendrec`. From inside the kernel that is a
second trap, and `sys_sendrec` starts with an assertion that there is none. -/
def printf (k : Kernel) : Except Fault Unit := assert ((save k).kReenter = 0)

/-- `assert(p->p_flags); schedule();` Which ready process runs next is left to the run. -/
def block (k : Kernel) (p : Slot) : Except Fault Unit := assert ((k.procTable p).pFlags ≠ 0)

def unblock (k : Kernel) (p : Slot) : Except Fault Unit := assert ((k.procTable p).pFlags = 0)

/-- The `do` loop that prints the cycle found, from `p` back to `src`. -/
def printCycle (k : Kernel) (src : Slot) : ℕ → Slot → Except Fault Unit
  | 0, _ => .error .spin
  | n + 1, p => do
    assert ((k.procTable p).pMsg ≠ 0)
    let p ← procAt (k.procTable p).pSendto
    printf k
    if p = src then .ok () else printCycle k src n p

/-- The loop of `deadlock`. A walk of as many steps as there are processes that has not stopped
never stops. -/
def deadlockLoop (k : Kernel) (src dest : Slot) : ℕ → Slot → Except Fault Bool
  | 0, _ => .error .spin
  | n + 1, p =>
    if (k.procTable p).pFlags &&& sending ≠ 0 then
      if (k.procTable p).pSendto = proc2pid src then do
        printCycle k src (nrTasks + nrProcs) dest
        printf k
        .ok true
      else do
        let p ← procAt (k.procTable p).pSendto
        deadlockLoop k src dest n p
    else .ok false

def deadlock (k : Kernel) (src dest : Slot) : Except Fault Bool :=
  deadlockLoop k src dest (nrTasks + nrProcs) dest

/-- `phys_copy` of the message at `va` of `p` to `va'` of `dest`. -/
def physCopy (k : Kernel) (dest : Slot) (va' : Addr) (p : Slot) (va : Addr) :
    Except Fault Kernel := do
  let dst ← va2la k dest va'
  let src ← va2la k p va
  let k := { k with mem := memcpy k.mem dst src Message.size }
  .ok (k.note (.copied p dest (Message.load k.mem dst)))

/-- The sender is linked behind the last process of the queue. -/
def enqueue (k : Kernel) (pDest sender : Slot) : Except Fault Kernel :=
  match (k.procTable pDest).qSending with
  | some q =>
    match lastFrom (fun p => (k.procTable p).nextSending) (nrTasks + nrProcs) q with
    | some p => .ok ((k.set p fun x => { x with nextSending := some sender }).set sender
        fun x => { x with nextSending := none })
    | none => .error .spin
  | none => .ok ((k.set pDest fun x => { x with qSending := some sender }).set sender
      fun x => { x with nextSending := none })

/-- `msg_send` where the destination waits for the message. -/
def deliver (k : Kernel) (sender pDest : Slot) (m : Addr) : Except Fault Kernel := do
  assert ((k.procTable pDest).pMsg ≠ 0)
  assert (m ≠ 0)
  let k ← physCopy k pDest (k.procTable pDest).pMsg sender m
  let k := k.set pDest fun p =>
    { p with pMsg := 0, pFlags := p.pFlags &&& ~~~receiving, pRecvfrom := noTask }
  unblock k pDest
  assert ((k.procTable pDest).pFlags = 0)
  assert ((k.procTable pDest).pMsg = 0)
  assert ((k.procTable pDest).pRecvfrom = noTask)
  assert ((k.procTable pDest).pSendto = noTask)
  assert ((k.procTable sender).pFlags = 0)
  assert ((k.procTable sender).pMsg = 0)
  assert ((k.procTable sender).pRecvfrom = noTask)
  assert ((k.procTable sender).pSendto = noTask)
  .ok k

/-- `msg_send` where it does not. -/
def blockSending (k : Kernel) (sender pDest : Slot) (m : Addr) : Except Fault Kernel := do
  let k := k.set sender fun p => { p with pFlags := p.pFlags ||| sending }
  assert ((k.procTable sender).pFlags = sending)
  let k := k.set sender fun p => { p with pSendto := proc2pid pDest, pMsg := m }
  let k ← enqueue k pDest sender
  block k sender
  assert ((k.procTable sender).pFlags = sending)
  assert ((k.procTable sender).pMsg ≠ 0)
  assert ((k.procTable sender).pRecvfrom = noTask)
  assert ((k.procTable sender).pSendto = proc2pid pDest)
  .ok k

def msgSend (k : Kernel) (sender : Slot) (dest : Int) (m : Addr) : Except Fault Kernel := do
  let pDest ← procAt dest
  assert (proc2pid sender ≠ dest)
  let k := k.note (.call sender pDest
    (Message.load k.mem (((k.procTable sender).ldts 1).linear + m)))
  let d ← deadlock k sender pDest
  if d then .error .panic
  else if (k.procTable pDest).pFlags &&& receiving ≠ 0 ∧
      ((k.procTable pDest).pRecvfrom = proc2pid sender ∨ (k.procTable pDest).pRecvfrom = any) then
    deliver k sender pDest m
  else blockSending k sender pDest m

/-- What `msg_receive` asserts of a receiver and of the queued sender it has chosen. -/
def assertRendezvous (k : Kernel) (p from_ : Slot) : Except Fault Unit := do
  assert ((k.procTable p).pFlags = 0)
  assert ((k.procTable p).pMsg = 0)
  assert ((k.procTable p).pRecvfrom = noTask)
  assert ((k.procTable p).pSendto = noTask)
  assert ((k.procTable p).qSending ≠ none)
  assert ((k.procTable from_).pFlags = sending)
  assert ((k.procTable from_).pMsg ≠ 0)
  assert ((k.procTable from_).pRecvfrom = noTask)
  assert ((k.procTable from_).pSendto = proc2pid p)

/-- The sender `msg_receive` takes a message from (`p_from` where `copyok`), and `prev`, the
process before it in the queue. -/
def chooseSender (k : Kernel) (p : Slot) (src : Int) :
    Except Fault (Option (Slot × Option Slot)) := do
  if src = any then
    match (k.procTable p).qSending with
    | some from_ => do
      assertRendezvous k p from_
      .ok (some (from_, none))
    | none => .ok none
  else if 0 ≤ src ∧ src < nrTasks + nrProcs then do
    let from_ ← procAt src
    if (k.procTable from_).pFlags &&& sending ≠ 0 ∧ (k.procTable from_).pSendto = proc2pid p then do
      assert ((k.procTable p).qSending ≠ none)
      match findPrev (fun q => (k.procTable q).nextSending) from_ (nrTasks + nrProcs) none
          (k.procTable p).qSending with
      | none => .error .spin
      | some (prev, _) => do
        assertRendezvous k p from_
        .ok (some (from_, prev))
    else .ok none
  else .ok none

/-- The chosen sender is taken out of the queue. -/
def unlink (k : Kernel) (p from_ : Slot) (prev : Option Slot) : Except Fault Kernel :=
  let next := (k.procTable from_).nextSending
  if some from_ = (k.procTable p).qSending then do
    assert (prev = none)
    .ok ((k.set p fun x => { x with qSending := next }).set from_
      fun x => { x with nextSending := none })
  else
    match prev with
    | none => .error .assertion
    | some prev => .ok ((k.set prev fun x => { x with nextSending := next }).set from_
        fun x => { x with nextSending := none })

/-- `msg_receive` where there is a sender to take a message from; the sender runs again. -/
def takeMessage (k : Kernel) (p from_ : Slot) (prev : Option Slot) (m : Addr) :
    Except Fault Kernel := do
  let k ← unlink k p from_ prev
  assert (m ≠ 0)
  assert ((k.procTable from_).pMsg ≠ 0)
  let k ← physCopy k p m from_ (k.procTable from_).pMsg
  let k := k.set from_ fun x =>
    { x with pMsg := 0, pSendto := noTask, pFlags := x.pFlags &&& ~~~sending }
  unblock k from_
  .ok k

/-- The message of a hardware interrupt. -/
def hardIntMsg : Message :=
  { Message.reset with source := BitVec.ofInt 32 interrupt, type := MsgType.hardInt.code }

/-- `msg_receive` where an interrupt is pending. -/
def receiveInterrupt (k : Kernel) (p : Slot) (m : Addr) : Except Fault Kernel := do
  assert (m ≠ 0)
  let dst ← va2la k p m
  let k := { k with mem := Message.store k.mem dst hardIntMsg }
  let k := (k.note (.hardInt p (Message.load k.mem dst))).set p
    fun x => { x with hasIntMsg := false }
  assert ((k.procTable p).pFlags = 0)
  assert ((k.procTable p).pMsg = 0)
  assert ((k.procTable p).pSendto = noTask)
  assert ((k.procTable p).hasIntMsg = false)
  .ok k

/-- `msg_receive` where there is nothing to take. -/
def blockReceiving (k : Kernel) (p : Slot) (src : Int) (m : Addr) : Except Fault Kernel := do
  let k := k.set p fun x =>
    { x with pFlags := x.pFlags ||| receiving, pMsg := m, pRecvfrom := src }
  block k p
  -- the first of the assertions assigns: `p_flags = RECEIVING`
  let k := k.set p fun x => { x with pFlags := receiving }
  assert ((k.procTable p).pMsg ≠ 0)
  assert ((k.procTable p).pRecvfrom ≠ noTask)
  assert ((k.procTable p).pSendto = noTask)
  assert ((k.procTable p).hasIntMsg = false)
  .ok k

def msgReceive (k : Kernel) (p : Slot) (src : Int) (m : Addr) : Except Fault Kernel := do
  assert (proc2pid p ≠ src)
  if (k.procTable p).hasIntMsg = true ∧ (src = any ∨ src = interrupt) then receiveInterrupt k p m
  else do
    match ← chooseSender k p src with
    | some (from_, prev) => takeMessage k p from_ prev m
    | none => blockReceiving k p src m

def sysSendrec (k : Kernel) (function : Function) (srcDest : Int) (m : Addr) (p : Slot) :
    Except Fault Kernel := do
  assert (k.kReenter = 0)
  assert ((0 ≤ srcDest ∧ srcDest < nrTasks + nrProcs) ∨ srcDest = any ∨ srcDest = interrupt)
  let mla ← va2la k p m
  let k := { k with mem := Message.setSource k.mem mla (BitVec.ofInt 32 (proc2pid p)) }
  assert ((Message.load k.mem mla).source ≠ BitVec.ofInt 32 srcDest)
  match function with
  | .send => msgSend k p srcDest m
  | .receive => msgReceive k p srcDest m
  | .other => .error .panic

/-- The trap of a process that calls `sendrec`. -/
def sendrec (k : Kernel) (p : Slot) (function : Function) (srcDest : Int) (m : Addr) :
    Except Fault Kernel := do
  let k ← sysSendrec (save k) function srcDest m p
  .ok (restart k)

/-- The message is written through `p_msg` as it stands, in the kernel's own segment. -/
def informInt (k : Kernel) (taskNr : Slot) : Except Fault Kernel := do
  let k := k.note (.informed taskNr)
  let p := k.procTable taskNr
  if p.pFlags &&& receiving ≠ 0 ∧ (p.pRecvfrom = interrupt ∨ p.pRecvfrom = any) then do
    let mem := Message.setType (Message.setSource k.mem p.pMsg (BitVec.ofInt 32 interrupt)) p.pMsg
      MsgType.hardInt.code
    let k := { k with mem := mem }
    let k := (k.note (.hardInt taskNr (Message.load k.mem p.pMsg))).set taskNr fun x =>
      { x with
        pMsg := 0, hasIntMsg := false, pFlags := x.pFlags &&& ~~~receiving, pRecvfrom := noTask }
    assert ((k.procTable taskNr).pFlags = 0)
    unblock k taskNr
    assert ((k.procTable taskNr).pFlags = 0)
    assert ((k.procTable taskNr).pMsg = 0)
    assert ((k.procTable taskNr).pRecvfrom = noTask)
    assert ((k.procTable taskNr).pSendto = noTask)
    .ok k
  else .ok (k.set taskNr fun x => { x with hasIntMsg := true })

end MyOS
