import MyOS.Clock
import MyOS.Lib.Calls
import MyOS.Servers

/-!
# The system task

`task_sys` of `kernel/systask.c`, beside the processes that ask it: `getpid` and `get_ticks`, which
go through `send_recv(BOTH, TASK_SYS, &msg)`, two traps. Whatever else the processes do with
messages, they leave it out, but for the clock and the interrupts of other tasks.
-/

namespace MyOS

open Memory

/-- What a process asks `task_sys` for. -/
inductive SysRequest
  | getTicks
  | getPid
  deriving DecidableEq

def SysRequest.type : SysRequest → MsgType
  | .getTicks => .getTicks
  | .getPid => .getPid

/-- Where `task_sys` is. -/
inductive SysPlace
  /-- `send_recv(RECEIVE, ANY, &msg)` -/
  | receive
  /-- and behind it -/
  | received
  /-- `send_recv(SEND, src, &msg)` -/
  | reply (src : Int)
  deriving DecidableEq

/-- Where a process is in a call, with its `msg`. -/
inductive CallPlace
  | home
  /-- before the `SEND` of `send_recv` -/
  | send (m : Addr) (r : SysRequest)
  /-- before its `RECEIVE` -/
  | receive (m : Addr) (r : SysRequest)
  /-- and behind it -/
  | back (m : Addr) (r : SysRequest)
  deriving DecidableEq

abbrev SysEvent := Calls.Event Int SysRequest (BitVec 32) Int

/-- No code reads `log`: the calls, whom `task_sys` has answered and at which tick, and what has
been returned, newest first. -/
structure SysServer where
  kernel : Kernel
  ticks : Int
  place : SysPlace
  calls : Slot → CallPlace
  log : List SysEvent

/-- Whose memory a byte is in, and where the message of `task_sys` is. -/
structure SysLayout where
  owner : Addr → Slot
  msg : Addr
  msg_ne : msg ≠ 0
  msg_owns : OwnsMsg owner taskSys msg

namespace SysServer

variable (l : SysLayout)

def setMsg (s : SysServer) (a : Addr) (msg : Message) : SysServer :=
  { s with kernel := { s.kernel with mem := Message.store s.kernel.mem a msg } }

/-- The `switch` over the message. -/
def sysDispatch (s : SysServer) : Option SysServer :=
  let msg := s.kernel.msgAt taskSys l.msg
  let src := msg.source.toInt
  let answered := { s with place := .reply src, log := .serve src s.ticks :: s.log }
  if msg.type = MsgType.getTicks.code then
    some (answered.setMsg (s.kernel.la taskSys l.msg) { msg with m3i1 := BitVec.ofInt 32 s.ticks })
  else if msg.type = MsgType.getPid.code then
    some (answered.setMsg (s.kernel.la taskSys l.msg)
      { msg with type := MsgType.syscallRet.code, m3i2 := BitVec.ofInt 32 src })
  else none

/-- A step of `task_sys`. -/
def taskSysStep (s : SysServer) : Option SysServer :=
  match s.place with
  | .receive =>
    let s := s.setMsg (s.kernel.la taskSys l.msg) Message.reset
    (sendrec s.kernel taskSys .receive any l.msg).toOption.map fun kernel =>
      { s with kernel, place := .received }
  | .received => s.sysDispatch l
  | .reply src =>
    (sendrec s.kernel taskSys .send src l.msg).toOption.map fun kernel =>
      { s with kernel, place := .receive }

/-- A process fills in its message: `get_ticks` clears it before, `getpid` does not. -/
def fillRequest (msg : Message) (r : SysRequest) : Message :=
  match r with
  | .getTicks => { Message.reset with type := r.type.code }
  | .getPid => { msg with type := r.type.code }

/-- What a call returns; `getpid` asserts the type. -/
def returned (msg : Message) : SysRequest → Option (BitVec 32)
  | .getTicks => some msg.retval
  | .getPid => if msg.type = MsgType.syscallRet.code then some msg.pid else none

def goCall (s : SysServer) (p : Slot) (place : CallPlace) : SysServer :=
  { s with calls := Function.update s.calls p place }

end SysServer

inductive SysAct
  | sys
  | clock
  | informInt (t : Slot)
  /-- `p` is to make a call, -/
  | call (p : Slot) (m : Addr) (r : SysRequest)
  /-- makes the first trap of it, -/
  | send (p : Slot)
  /-- the second, -/
  | receive (p : Slot)
  /-- and gets the result. -/
  | ret (p : Slot)
  /-- `p` makes a trap of another kind. -/
  | trap (p : Slot) (function : Function) (srcDest : Int) (m : Addr)
  /-- `p` writes a byte of its memory. -/
  | write (p : Slot) (a : Addr) (v : Byte)

/-- The process runs and makes no call. -/
def SysServer.AtHome (s : SysServer) (p : Slot) : Prop :=
  p ≠ taskSys ∧ (s.kernel.procTable p).pFlags = 0 ∧ s.calls p = .home

instance (s : SysServer) (p : Slot) : Decidable (s.AtHome p) :=
  inferInstanceAs (Decidable (_ ∧ _ ∧ _))

/-- A step of the system: `task_sys` runs on, the clock ticks, an interrupt is told to a process, or
a process takes the next step of a call of `getpid` or `get_ticks`. Its other traps and its writes
leave the message of a call alone, and send nothing to `task_sys`. -/
def sysStep (l : SysLayout) (s : SysServer) : SysAct → Option SysServer
  | .sys => if (s.kernel.procTable taskSys).pFlags = 0 then s.taskSysStep l else none
  | .clock => some { s with ticks := nextTicks s.ticks }
  | .informInt t =>
    if t ≠ taskSys ∧ t.val < nrTasks then
      (step s.kernel (.informInt t)).map fun kernel => { s with kernel }
    else none
  | .call p m r =>
    if s.AtHome p ∧ m ≠ 0 ∧ OwnsMsg l.owner p (s.kernel.la p m) then
      some { (s.setMsg (s.kernel.la p m)
        (SysServer.fillRequest (s.kernel.msgAt p m) r)).goCall p (.send m r) with
          log := .call (proc2pid p) r :: s.log }
    else none
  | .send p =>
    match s.calls p with
    | .send m r =>
      (step s.kernel (.sendrec p .send (proc2pid taskSys) m)).map fun kernel =>
        { s with kernel }.goCall p (.receive m r)
    | _ => none
  | .receive p =>
    match s.calls p with
    | .receive m r =>
      (step s.kernel (.sendrec p .receive (proc2pid taskSys) m)).map fun kernel =>
        { s with kernel }.goCall p (.back m r)
    | _ => none
  | .ret p =>
    match s.calls p with
    | .back m r =>
      if (s.kernel.procTable p).pFlags = 0 then
        (SysServer.returned (s.kernel.msgAt p m) r).map fun v =>
          { s.goCall p .home with log := .ret (proc2pid p) v :: s.log }
      else none
    | _ => none
  | .trap p function srcDest m =>
    if s.AtHome p ∧ srcDest ≠ proc2pid taskSys ∧ OwnsMsg l.owner p (s.kernel.la p m) then
      (step s.kernel (.sendrec p function srcDest m)).map fun kernel => { s with kernel }
    else none
  | .write p a v =>
    if s.AtHome p ∧ l.owner a = p then
      some { s with kernel := { s.kernel with mem := Function.update s.kernel.mem a v } }
    else none

def SysStep (l : SysLayout) (s : SysServer) (a : SysAct) (s' : SysServer) : Prop :=
  sysStep l s a = some s'

/-- The tasks and any number of processes run, and nothing has been sent yet. -/
def SysStart (s : SysServer) : Prop :=
  ∃ kernel ticks, Calm kernel ∧ s = ⟨kernel, ticks, .receive, fun _ => .home, []⟩

/-- What a call is to return, where `task_sys` answers it at a tick: a process its own number, or
the tick. -/
def sysAnswer (ticks : Int) (pid : Int) : SysRequest → BitVec 32
  | .getTicks => BitVec.ofInt 32 ticks
  | .getPid => BitVec.ofInt 32 pid

end MyOS
