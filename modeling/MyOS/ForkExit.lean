import MyOS.Main

/-!
# fork, exit and wait

`mm/forkexit.c` and what it uses of `mm/main.c`. The memory manager writes to the process table
itself and reports by messages; each function is cut into the writes between two messages, which
is where other processes come in. What the file system does with the message it gets at a fork or
an exit does not touch the table.
-/

namespace MyOS

open Memory

def procsBase : BitVec 32 := 0xA00000
def procImageSizeDefault : BitVec 32 := 0x100000

/-- The size of `p_name`. -/
def nameSize : ℕ := 16

/-- What the memory manager has beside the table: `memory_size`, its `mm_msg`, and the stack
address of the message a function of it builds. -/
structure MmEnv where
  memorySize : BitVec 32
  mmMsg : Addr
  msg : Addr
  mmMsg_ne : mmMsg ≠ 0
  msg_ne : msg ≠ 0

/-- The size of the segment of a process that `do_fork` computes. -/
def segSize (limit : BitVec 32) (d : Descriptor) : BitVec 32 :=
  (limit + 1) * if d.limit4k then 4096 else 1

def allocMem (mm : MmEnv) (pid : Slot) (memsize : BitVec 32) : Except Fault (BitVec 32) := do
  assert (nrTasks + nrNativeProcs ≤ pid.val)
  if procImageSizeDefault.toInt < memsize.toInt then .error .panic
  else
    let base := procsBase +
      (BitVec.ofNat 32 pid.val - BitVec.ofNat 32 (nrTasks + nrNativeProcs)) * procImageSizeDefault
    if mm.memorySize.toInt ≤ (base + memsize).toInt then .error .panic else .ok base

/-- The first free entry of the table. -/
def findFree (k : Kernel) : Option Slot :=
  (List.finRange (nrTasks + nrProcs)).find? fun p => (k.procTable p).pFlags = freeSlot

/-- `sprintf(p->p_name, "%s_%d", ..)`. Behind `p_name` stands `p_flags`: a name that does not fit
with its null is written into the flags, and what happens then is not followed. -/
def childName (parent : List Char) (child : Slot) : Except Fault (List Char) :=
  let name := parent ++ '_' :: Nat.toDigits 10 child.val
  if name.length < nameSize then .ok name else .error .wild

/-- The entry of a child: a copy of the parent's, but for these. -/
def childProc (parent : Proc) (pid : Slot) (name : List Char) (ldts : Fin 2 → Descriptor) : Proc :=
  { parent with pParent := proc2pid pid, pName := name, ldts }

/-- `do_fork` up to its message to the file system: the child it made, none where the table is
full. -/
def forkProc (mm : MmEnv) (k : Kernel) (pid : Slot) : Except Fault (Option Slot × Kernel) :=
  match findFree k with
  | none => .ok (none, k)
  | some p => do
    assert (nrTasks + nrNativeProcs ≤ p.val)
    let parent := k.procTable pid
    let name ← childName parent.pName p
    let callerTBase := (parent.ldts 0).linear
    let callerTLimit := (parent.ldts 0).limit
    let callerTSize := segSize callerTLimit (parent.ldts 0)
    let callerDSBase := (parent.ldts 1).linear
    let callerDSLimit := (parent.ldts 1).limit
    let callerDSSize := segSize callerTLimit (parent.ldts 1)
    assert (callerTBase = callerDSBase ∧ callerTLimit = callerDSLimit ∧
      callerTSize = callerDSSize)
    let childBase ← allocMem mm p callerTSize
    let attr := daLimit4k ||| da32 ||| daDpl privilegeUser
    let limit := (procImageSizeDefault - 1) >>> limit4kShift
    let k := { k with mem := memcpy k.mem childBase callerTBase callerTSize.toNat }
    .ok (some p, k.set p fun _ => childProc parent pid name
      ![initDescriptor childBase limit (attr ||| daC),
        initDescriptor childBase limit (attr ||| daDrw)])

/-- `do_exit` after its exchange with the file system, up to the first `cleanup`: whether the
parent waits, so that the process is to be cleaned up. -/
def exitProc (k : Kernel) (pid : Slot) (status : BitVec 32) : Except Fault (Bool × Kernel) := do
  let parent ← procAt (k.procTable pid).pParent
  let k := k.set pid fun p => { p with exitStatus := status }
  if (k.procTable parent).pFlags &&& waiting ≠ 0 then
    .ok (true, k.set parent fun p => { p with pFlags := p.pFlags &&& ~~~waiting })
  else .ok (false, k.set pid fun p => { p with pFlags := p.pFlags ||| hanging })

/-- One turn of the loop of `do_exit`: a child of `pid` becomes a child of `INIT`, and is to be
cleaned up where it hangs and `INIT` waits. -/
def adopt (k : Kernel) (pid i : Slot) : Bool × Kernel :=
  if (k.procTable i).pParent = proc2pid pid then
    let k := k.set i fun p => { p with pParent := proc2pid init }
    if (k.procTable init).pFlags &&& waiting ≠ 0 ∧ (k.procTable i).pFlags &&& hanging ≠ 0 then
      -- the flags of `INIT` are set to the mask that would take WAITING out of them
      (true, k.set init fun p => { p with pFlags := ~~~waiting })
    else (false, k)
  else (false, k)

/-- The end of `cleanup`. -/
def freeProc (k : Kernel) (p : Slot) : Kernel :=
  k.set p fun x => { x with pFlags := freeSlot }

/-- The loop of `do_wait`, up to the first child that hangs: that child, and whether there are
children. -/
def findHanging (k : Kernel) (pid : Slot) : Option Slot × Bool :=
  ((List.finRange (nrTasks + nrProcs)).find? fun p =>
      (k.procTable p).pParent = proc2pid pid ∧ (k.procTable p).pFlags &&& hanging ≠ 0,
    (List.finRange (nrTasks + nrProcs)).any fun p => (k.procTable p).pParent = proc2pid pid)

/-- The end of `do_wait` where there are children and none hangs. -/
def waitProc (k : Kernel) (pid : Slot) : Kernel :=
  k.set pid fun p => { p with pFlags := p.pFlags ||| waiting }

/-- A message from the memory manager: it fills in some fields of what the address held before. -/
def mmSend (k : Kernel) (dest : Int) (a : Addr) (f : Message → Message) : Except Fault Kernel :=
  sendrec { k with mem := Message.store k.mem a (f (Message.load k.mem a)) } taskMm .send dest a

/-- What `cleanup` tells a parent. -/
structure Report where
  child : Slot
  parent : Int
  status : BitVec 32
  deriving DecidableEq, Repr

/-- The message of a report. -/
def Report.fill (r : Report) (m : Message) : Message :=
  { m with
    type := MsgType.syscallRet.code
    m3i2 := BitVec.ofInt 32 (proc2pid r.child)
    m3i1 := r.status }

def cleanup (mm : MmEnv) (k : Kernel) (p : Slot) : Except Fault (Report × Kernel) := do
  let r := ⟨p, (k.procTable p).pParent, (k.procTable p).exitStatus⟩
  let k ← mmSend k r.parent mm.msg r.fill
  .ok (r, freeProc k p)

/-- `do_fork` and the reply of `task_mm`, to `pid`; the message to `FS` comes in between. -/
def doFork (mm : MmEnv) (k : Kernel) (pid : Slot) : Except Fault (Option Slot × Kernel) := do
  let (child, k) ← forkProc mm k pid
  match child with
  | some p => do
    let k ← mmSend k (proc2pid p) mm.msg fun m =>
      { m with type := MsgType.syscallRet.code, m3i1 := 0, m3i2 := 0 }
    let k ← mmSend k (proc2pid pid) mm.mmMsg fun m =>
      { m with
        type := MsgType.syscallRet.code
        m3i1 := 0
        m3i2 := BitVec.ofInt 32 (proc2pid p) }
    .ok (some p, k)
  | none => do
    let k ← mmSend k (proc2pid pid) mm.mmMsg fun m =>
      { m with type := MsgType.syscallRet.code, m3i1 := -1 }
    .ok (none, k)

/-- The loop of `do_exit`, over the entries left. -/
def adoptAll (mm : MmEnv) (pid : Slot) : List Slot → Kernel → Except Fault (List Report × Kernel)
  | [], k => .ok ([], k)
  | i :: l, k =>
    match adopt k pid i with
    | (true, k) => do
      let (r, k) ← cleanup mm k i
      let (rs, k) ← adoptAll mm pid l k
      .ok (r :: rs, k)
    | (false, k) => adoptAll mm pid l k

def doExit (mm : MmEnv) (k : Kernel) (pid : Slot) (status : BitVec 32) :
    Except Fault (List Report × Kernel) := do
  match ← exitProc k pid status with
  | (true, k) => do
    let (r, k) ← cleanup mm k pid
    let (rs, k) ← adoptAll mm pid (List.finRange _) k
    .ok (r :: rs, k)
  | (false, k) => adoptAll mm pid (List.finRange _) k

def doWait (mm : MmEnv) (k : Kernel) (pid : Slot) : Except Fault (List Report × Kernel) :=
  match findHanging k pid with
  | (some p, _) => do
    let (r, k) ← cleanup mm k p
    .ok ([r], k)
  | (none, true) => .ok ([], waitProc k pid)
  | (none, false) => do
    let k ← mmSend k (proc2pid pid) mm.msg fun m =>
      { m with type := MsgType.syscallRet.code, m3i2 := BitVec.ofInt 32 noTask }
    .ok ([], k)

/-! ## The memory manager among other processes -/

/-- What the memory manager does between two of its messages; the messages themselves are traps
like any other. -/
inductive MmAct
  | kernel (a : Act)
  | fork (pid : Slot)
  | exit (pid : Slot) (status : BitVec 32)
  | adopt (pid i : Slot)
  | free (p : Slot)
  | wait (pid : Slot)

/-- The memory manager writes to the table only while it runs. -/
def mmStep (mm : MmEnv) (k : Kernel) : MmAct → Option Kernel
  | .kernel a => step k a
  | .fork pid =>
    if (k.procTable taskMm).pFlags = 0 then (forkProc mm k pid).toOption.map Prod.snd else none
  | .exit pid status =>
    if (k.procTable taskMm).pFlags = 0 then (exitProc k pid status).toOption.map Prod.snd else none
  | .adopt pid i => if (k.procTable taskMm).pFlags = 0 then some (adopt k pid i).2 else none
  | .free p => if (k.procTable taskMm).pFlags = 0 then some (freeProc k p) else none
  | .wait pid => if (k.procTable taskMm).pFlags = 0 then some (waitProc k pid) else none

def MmStep (mm : MmEnv) (k : Kernel) (a : MmAct) (k' : Kernel) : Prop := mmStep mm k a = some k'

end MyOS
