import MyOS.TaskTty
import MyOS.HdRdwt

/-!
# The file system and the terminals

`task_fs` of `fs/main.c` with `do_rdwt` of `fs/read_write.c`, beside `task_tty` and the processes
whose `read` and `write` for a terminal go through both. A trap is one step, and so is what a server
does between two traps. The two servers send to each other: `do_rdwt` forwards a request, and
`tty_dev_write` announces a line.
-/

namespace MyOS

open Memory

/-- Where `task_fs` is. -/
inductive FsPlace
  /-- `send_recv(RECEIVE, ANY, &fs_msg)` -/
  | receive
  /-- and behind it -/
  | received
  /-- the `SEND` of `send_recv(BOTH, dd_map[MAJOR(dev)].driver_nr, &fs_msg)`, in `do_rdwt` with
  `src` and `len` -/
  | forward (src : Int) (len : BitVec 32)
  /-- its `RECEIVE` -/
  | await (src : Int) (len : BitVec 32)
  /-- and behind it -/
  | answered (src : Int) (len : BitVec 32)
  /-- `send_recv(SEND, src, &fs_msg)` -/
  | reply (src : Int)
  deriving DecidableEq

/-- The system with `task_tty`, where `task_fs` is, and the processes that have made the `SEND` of
their `send_recv(BOTH, TASK_FS, &msg)` and not yet its `RECEIVE`. -/
structure Servers where
  tty : TtySys
  fsPlace : FsPlace
  asked : Slot → Option Addr

/-- The message at `a` is in memory of `p`. -/
def OwnsMsg (owner : Addr → Slot) (p : Slot) (a : Addr) : Prop :=
  ∀ i < Message.size, owner (a + BitVec.ofNat 32 i) = p

instance (owner : Addr → Slot) (p : Slot) (a : Addr) : Decidable (OwnsMsg owner p a) :=
  inferInstanceAs (Decidable (∀ i < Message.size, _))

/-- Whose memory a byte is in, and where the messages of the servers are. -/
structure ServerLayout where
  owner : Addr → Slot
  stack : TtyStack
  fsMsg : Addr
  fsMsg_owns : OwnsMsg owner taskFs fsMsg
  msg_owns : OwnsMsg owner taskTty stack.msg
  resumeMsg_owns : OwnsMsg owner taskTty stack.resumeMsg

/-- The request is a `READ` or a `WRITE` through a descriptor for a terminal, or through one that
`do_rdwt` refuses. -/
def AsksTerminal (fs : Fs) (p : Slot) (msg : Message) : Prop :=
  (msg.type = MsgType.read.code ∨ msg.type = MsgType.write.code) ∧
    ∀ di ∈ (rdwtDesc fs p msg.fd).toOption.join,
      (fs.inodeTable di.2).iMode &&& iTypeMask = iCharSpecial

instance (fs : Fs) (p : Slot) (msg : Message) : Decidable (AsksTerminal fs p msg) :=
  @instDecidableAnd _ _ inferInstance (Option.decidableForallMem _)

/-- The linear address of `a` of process `p`. -/
def Kernel.la (k : Kernel) (p : Slot) (a : Addr) : Addr := ((k.procTable p).ldts 1).linear + a

def Kernel.msgAt (k : Kernel) (p : Slot) (a : Addr) : Message := Message.load k.mem (k.la p a)

namespace Servers

abbrev kernel (s : Servers) : Kernel := s.tty.kernel

def setKernel (s : Servers) (kernel : Kernel) : Servers := { s with tty := { s.tty with kernel } }

def goFs (s : Servers) (fsPlace : FsPlace) : Servers := { s with fsPlace }

variable (fs : Fs) (l : ServerLayout)

/-- A write to `fs_msg`. -/
def setFsMsg (s : Servers) (msg : Message) : Servers :=
  { s with tty := s.tty.setMem (Message.store s.kernel.mem (s.kernel.la taskFs l.fsMsg) msg) }

/-- The end of the loop of `task_fs`, for `src`. -/
def fsAnswer (s : Servers) (src : Int) (msg : Message) : Servers :=
  if msg.type ≠ MsgType.suspendProc.code then
    (s.setFsMsg l { msg with type := MsgType.syscallRet.code }).goFs (.reply src)
  else (s.setFsMsg l msg).goFs .receive

/-- `do_rdwt` for a terminal, up to the driver: `dd_map` has `TASK_TTY` for it. -/
def forwardRdwt (s : Servers) (msg : Message) (p : Entry) : Except Fault Servers := do
  let dev := (fs.inodeTable p).iStartSect
  assert (major dev = devCharTty)
  let t := if msg.type = MsgType.read.code then MsgType.devRead else MsgType.devWrite
  .ok ((s.setFsMsg l
    { msg with type := t.code, m3i4 := minor dev, m3i3 := msg.source }).goFs
      (.forward msg.source.toInt msg.cnt))

/-- The `switch` over the message. A request for a file asks the disk driver; that and the other
requests are left out. -/
def fsDispatch (s : Servers) : Option Servers :=
  let msg := s.kernel.msgAt taskFs l.fsMsg
  let src := msg.source.toInt
  if msg.type = MsgType.read.code ∨ msg.type = MsgType.write.code then
    match (procAt src >>= fun pcaller => rdwtDesc fs pcaller msg.fd) with
    | .error _ => none
    | .ok none => some (s.fsAnswer l src { msg with m3i2 := -1 })
    | .ok (some (_, p)) =>
      if (fs.inodeTable p).iMode &&& iTypeMask = iCharSpecial then
        (s.forwardRdwt fs l msg p).toOption
      else none
  else if msg.type = MsgType.resumeProc.code then some (s.fsAnswer l msg.procNr.toInt msg)
  else none

/-- A step of `task_fs`. -/
def taskFsStep (s : Servers) : Option Servers :=
  match s.fsPlace with
  | .receive =>
    -- `send_recv` clears the message for a `RECEIVE`
    let s := s.setFsMsg l Message.reset
    (sendrec s.kernel taskFs .receive any l.fsMsg).toOption.map fun k =>
      (s.setKernel k).goFs .received
  | .received => s.fsDispatch fs l
  | .forward src len =>
    (sendrec s.kernel taskFs .send (proc2pid taskTty) l.fsMsg).toOption.map fun k =>
      (s.setKernel k).goFs (.await src len)
  | .await src len =>
    (sendrec s.kernel taskFs .receive (proc2pid taskTty) l.fsMsg).toOption.map fun k =>
      (s.setKernel k).goFs (.answered src len)
  | .answered src len =>
    let msg := s.kernel.msgAt taskFs l.fsMsg
    if msg.cnt = len then some (s.fsAnswer l src msg) else none
  | .reply src =>
    (sendrec s.kernel taskFs .send src l.fsMsg).toOption.map fun k =>
      (s.setKernel k).goFs .receive

end Servers

inductive SrvAct
  | keyboard (scanCode : Byte)
  | clock
  | tty
  | fs
  /-- `p` makes the `SEND` of a request, -/
  | ask (p : Slot) (m : Addr)
  /-- and the `RECEIVE`. -/
  | await (p : Slot)
  /-- `p` writes a byte of its memory. -/
  | write (p : Slot) (a : Addr) (v : Byte)

def srvStep (fs : Fs) (l : ServerLayout) (s : Servers) : SrvAct → Option Servers
  | .keyboard scanCode => (ttySysStep l.stack s.tty (.keyboard scanCode)).map fun tty =>
    { s with tty }
  | .clock => (ttySysStep l.stack s.tty .clock).map fun tty => { s with tty }
  | .tty => (ttySysStep l.stack s.tty .tty).map fun tty => { s with tty }
  | .fs => if (s.kernel.procTable taskFs).pFlags = 0 then s.taskFsStep fs l else none
  | .ask p m =>
    if nrTasks ≤ p.val ∧ s.asked p = none ∧ OwnsMsg l.owner p (s.kernel.la p m) ∧
        AsksTerminal fs p (s.kernel.msgAt p m) then
      (step s.kernel (.sendrec p .send (proc2pid taskFs) m)).map fun k =>
        { s.setKernel k with asked := Function.update s.asked p (some m) }
    else none
  | .await p =>
    if nrTasks ≤ p.val then
      (s.asked p).bind fun m =>
        (step s.kernel (.sendrec p .receive (proc2pid taskFs) m)).map fun k =>
          { s.setKernel k with asked := Function.update s.asked p none }
    else none
  | .write p a v =>
    if nrTasks ≤ p.val ∧ (s.kernel.procTable p).pFlags = 0 ∧ l.owner a = p then
      some { s with tty := s.tty.setMem (Function.update s.kernel.mem a v) }
    else none

def SrvStep (fs : Fs) (l : ServerLayout) (s : Servers) (a : SrvAct) (s' : Servers) : Prop :=
  srvStep fs l s a = some s'

/-- The tasks and any number of processes run, and nothing has been sent yet. -/
structure Calm (k : Kernel) : Prop where
  kReenter : k.kReenter = -1
  native : ∀ p : Slot, p.val < nrTasks + nrNativeProcs → ((k.procTable p).ldts 1).linear = 0
  tasks : ∀ p : Slot, p.val < nrTasks → (k.procTable p).pFlags = 0
  proc : ∀ p, (k.procTable p).pFlags = freeSlot ∨ (k.procTable p).pFlags = 0 ∧
    (k.procTable p).pMsg = 0 ∧ (k.procTable p).pRecvfrom = noTask ∧
      (k.procTable p).pSendto = noTask
  queues : ∀ p, (k.procTable p).qSending = none ∧ (k.procTable p).nextSending = none ∧
    (k.procTable p).hasIntMsg = false

/-- `task_fs` has set up the file system, and `task_tty` the terminals. -/
def initServers (kernel : Kernel) : Servers where
  tty := { initTtySys kernel.mem 0 with kernel }
  fsPlace := .receive
  asked := fun _ => none

def SrvStart (s : Servers) : Prop := ∃ k, Calm k ∧ s = initServers k

end MyOS
