import MyOS.Lib.Interrupt
import MyOS.Proc

/-!
# The message layer, statement by statement

`sys_call` lets interrupts in again before it calls `sys_sendrec`, so that `inform_int` may run
between two statements of `msg_send` and `msg_receive`. Here these are the statements of
`kernel/proc.c` in their order, each with the state it finds; what they compute without an interrupt
is what `msgSend` and `msgReceive` do. Statements on local variables alone are left out, for nothing
tells an interrupt before one of them from one behind it, and a call is one statement. To copy
through a null pointer is to stop.
-/

namespace MyOS

open Memory Pointer

/-- Where `msg_send` and `msg_receive` are. -/
inductive Pc
  | assertDest | ifDeadlock | ifReceiving
  -- the destination waits
  | assertDestMsg | assertM | copyToDest | clearMsg | clearReceiving | clearRecvfrom | delivered
  -- it does not
  | queueUp
  | assertSrc | ifIntMsg
  -- an interrupt is pending
  | assertIntM | copyIntMsg | clearInt | intTaken
  | choose | take
  -- there is nothing to take
  | setReceiving | setMsg | setRecvfrom | block | assignReceiving | assertMsg | assertRecvfrom
  | assertSendto | assertNoInt
  deriving DecidableEq

abbrev IpcCode : Type 1 := Code Pc Kernel Fault

namespace IpcCode

def check (pc : Pc) (c : Kernel → Prop) [DecidablePred c] (next : IpcCode) : IpcCode :=
  .stmt pc (fun k => assert (c k) >>= fun _ => .ok k) next

def write (pc : Pc) (p : Slot) (f : Proc → Proc) (next : IpcCode) : IpcCode :=
  .stmt pc (fun k => .ok (k.set p f)) next

def read {α : Type} (pc : Pc) (v : Kernel → α) (next : α → IpcCode) : IpcCode :=
  .load pc (fun k => .ok (v k)) next

/-- A pointer is read and followed. -/
def follow (pc : Pc) (v : Kernel → Option Slot) (next : Slot → IpcCode) : IpcCode :=
  .load pc (fun k => match v k with
    | some p => .ok p
    | none => .error .wild) next

def stop (pc : Pc) (e : Fault) : IpcCode := .stmt pc (fun _ => .error e) .done

end IpcCode

open IpcCode

/-- `phys_copy` of a message, without a note of it. -/
def copyMsg (dest : Slot) (va' : Addr) (p : Slot) (va : Addr) (k : Kernel) : Except Fault Kernel :=
  if va' = 0 ∨ va = 0 then .error .wild
  else do
    let dst ← va2la k dest va'
    let src ← va2la k p va
    .ok { k with mem := memcpy k.mem dst src Message.size }

/-! ## `msg_send` -/

def deliveredCode (sender pDest : Slot) : IpcCode :=
  check .delivered (fun k => (k.procTable pDest).pFlags = 0) <|
  check .delivered (fun k => (k.procTable pDest).pFlags = 0) <|
  check .delivered (fun k => (k.procTable pDest).pMsg = 0) <|
  check .delivered (fun k => (k.procTable pDest).pRecvfrom = noTask) <|
  check .delivered (fun k => (k.procTable pDest).pSendto = noTask) <|
  check .delivered (fun k => (k.procTable sender).pFlags = 0) <|
  check .delivered (fun k => (k.procTable sender).pMsg = 0) <|
  check .delivered (fun k => (k.procTable sender).pRecvfrom = noTask) <|
  check .delivered (fun k => (k.procTable sender).pSendto = noTask) .done

def deliverCode (sender pDest : Slot) (m : Addr) : IpcCode :=
  check .assertDestMsg (fun k => (k.procTable pDest).pMsg ≠ 0) <|
  check .assertM (fun _ => m ≠ 0) <|
  .stmt .copyToDest (fun k => copyMsg pDest (k.procTable pDest).pMsg sender m k) <|
  write .clearMsg pDest (fun x => { x with pMsg := 0 }) <|
  write .clearReceiving pDest (fun x => { x with pFlags := x.pFlags &&& ~~~receiving }) <|
  write .clearRecvfrom pDest (fun x => { x with pRecvfrom := noTask }) <|
  deliveredCode sender pDest

/-- The loop to the end of the queue, from `p` on. -/
def lastCode : ℕ → Slot → (Slot → IpcCode) → IpcCode
  | 0, _, _ => stop .queueUp .spin
  | n + 1, p, next =>
    read .queueUp (fun k => decide ((k.procTable p).nextSending ≠ none)) fun more =>
    if more then
      follow .queueUp (fun k => (k.procTable p).nextSending) fun p => lastCode n p next
    else next p

/-- The sender is linked behind the last process of the queue. -/
def enqueueCode (sender pDest : Slot) (next : IpcCode) : IpcCode :=
  read .queueUp (fun k => decide ((k.procTable pDest).qSending ≠ none)) fun queued =>
  if queued then
    follow .queueUp (fun k => (k.procTable pDest).qSending) fun p =>
    lastCode (nrTasks + nrProcs) p fun p =>
    write .queueUp p (fun x => { x with nextSending := some sender }) <|
    write .queueUp sender (fun x => { x with nextSending := none }) next
  else
    write .queueUp pDest (fun x => { x with qSending := some sender }) <|
    write .queueUp sender (fun x => { x with nextSending := none }) next

def queueUpCode (sender pDest : Slot) (m : Addr) : IpcCode :=
  write .queueUp sender (fun x => { x with pFlags := x.pFlags ||| sending }) <|
  check .queueUp (fun k => (k.procTable sender).pFlags = sending) <|
  write .queueUp sender (fun x => { x with pSendto := proc2pid pDest }) <|
  write .queueUp sender (fun x => { x with pMsg := m }) <|
  enqueueCode sender pDest <|
  check .queueUp (fun k => (k.procTable sender).pFlags ≠ 0) <|
  check .queueUp (fun k => (k.procTable sender).pFlags = sending) <|
  check .queueUp (fun k => (k.procTable sender).pMsg ≠ 0) <|
  check .queueUp (fun k => (k.procTable sender).pRecvfrom = noTask) <|
  check .queueUp (fun k => (k.procTable sender).pSendto = proc2pid pDest) .done

def sendCode (sender pDest : Slot) (m : Addr) : IpcCode :=
  check .assertDest (fun _ => proc2pid sender ≠ proc2pid pDest) <|
  .load .ifDeadlock (fun k => deadlock k sender pDest) fun d =>
  if d then stop .ifDeadlock .panic
  else
    read .ifReceiving (fun k => decide ((k.procTable pDest).pFlags &&& receiving ≠ 0 ∧
      ((k.procTable pDest).pRecvfrom = proc2pid sender ∨ (k.procTable pDest).pRecvfrom = any)))
    fun waits => if waits then deliverCode sender pDest m else queueUpCode sender pDest m

/-! ## `msg_receive` -/

def intTakenCode (p : Slot) : IpcCode :=
  check .intTaken (fun k => (k.procTable p).pFlags = 0) <|
  check .intTaken (fun k => (k.procTable p).pMsg = 0) <|
  check .intTaken (fun k => (k.procTable p).pSendto = noTask) <|
  check .intTaken (fun k => (k.procTable p).hasIntMsg = false) .done

def intCode (p : Slot) (m : Addr) : IpcCode :=
  check .assertIntM (fun _ => m ≠ 0) <|
  .stmt .copyIntMsg (fun k => do
    let dst ← va2la k p m
    .ok { k with mem := Message.store k.mem dst hardIntMsg }) <|
  write .clearInt p (fun x => { x with hasIntMsg := false }) <|
  intTakenCode p

def rendezvousCode (p from_ : Slot) (next : IpcCode) : IpcCode :=
  check .choose (fun k => (k.procTable p).pFlags = 0) <|
  check .choose (fun k => (k.procTable p).pMsg = 0) <|
  check .choose (fun k => (k.procTable p).pRecvfrom = noTask) <|
  check .choose (fun k => (k.procTable p).pSendto = noTask) <|
  check .choose (fun k => (k.procTable p).qSending ≠ none) <|
  check .choose (fun k => (k.procTable from_).pFlags = sending) <|
  check .choose (fun k => (k.procTable from_).pMsg ≠ 0) <|
  check .choose (fun k => (k.procTable from_).pRecvfrom = noTask) <|
  check .choose (fun k => (k.procTable from_).pSendto = proc2pid p) next

/-- The loop to `from_` in the queue, with the process before. -/
def findCode (from_ : Slot) : ℕ → Option Slot → Option Slot → (Option Slot → IpcCode) → IpcCode
  | _, prev, none, next => next prev
  | 0, _, some _, _ => stop .choose .spin
  | n + 1, prev, some q, next =>
    check .choose (fun k => (k.procTable from_).pFlags &&& sending ≠ 0) <|
    if q = from_ then next prev
    else read .choose (fun k => (k.procTable q).nextSending) fun q' =>
      findCode from_ n (some q) q' next

/-- What comes before `if(copyok)`: `p_from` and `prev`, if there is a sender. -/
def chooseCode (p : Slot) (src : Int) (next : Option (Slot × Option Slot) → IpcCode) : IpcCode :=
  if src = any then
    read .choose (fun k => decide ((k.procTable p).qSending ≠ none)) fun queued =>
    if queued then
      follow .choose (fun k => (k.procTable p).qSending) fun from_ =>
      rendezvousCode p from_ (next (some (from_, none)))
    else next none
  else
    match procAt src with
    | .ok from_ =>
      read .choose (fun k => decide ((k.procTable from_).pFlags &&& sending ≠ 0 ∧
        (k.procTable from_).pSendto = proc2pid p)) fun sends =>
      if sends then
        read .choose (fun k => (k.procTable p).qSending) fun q =>
        check .choose (fun _ => q ≠ none) <|
        findCode from_ (nrTasks + nrProcs) none q fun prev =>
        rendezvousCode p from_ (next (some (from_, prev)))
      else next none
    | .error _ => next none

def takeEnd (p from_ : Slot) (m : Addr) : IpcCode :=
  write .take from_ (fun x => { x with nextSending := none }) <|
  check .take (fun _ => m ≠ 0) <|
  check .take (fun k => (k.procTable from_).pMsg ≠ 0) <|
  .stmt .take (fun k => copyMsg p m from_ (k.procTable from_).pMsg k) <|
  write .take from_ (fun x => { x with pMsg := 0 }) <|
  write .take from_ (fun x => { x with pMsg := 0 }) <|
  write .take from_ (fun x => { x with pSendto := noTask }) <|
  write .take from_ (fun x => { x with pFlags := x.pFlags &&& ~~~sending }) <|
  check .take (fun k => (k.procTable from_).pFlags = 0) .done

/-- The chosen sender is unlinked and its message taken. -/
def takeCode (p from_ : Slot) (prev : Option Slot) (m : Addr) : IpcCode :=
  read .take (fun k => decide (some from_ = (k.procTable p).qSending)) fun first =>
  if first then
    check .take (fun _ => prev = none) <|
    .stmt .take (fun k => .ok (k.set p fun x =>
      { x with qSending := (k.procTable from_).nextSending })) <|
    takeEnd p from_ m
  else
    match prev with
    | none => stop .take .assertion
    | some prev =>
      .stmt .take (fun k => .ok (k.set prev fun x =>
        { x with nextSending := (k.procTable from_).nextSending })) <|
      takeEnd p from_ m

/-- What comes behind the three writes. -/
def blockedCode (p : Slot) : IpcCode :=
  check .block (fun k => (k.procTable p).pFlags ≠ 0) <|
  -- `assert(p_who_wanna_recv->p_flags = RECEIVING)`
  write .assignReceiving p (fun x => { x with pFlags := receiving }) <|
  check .assertMsg (fun k => (k.procTable p).pMsg ≠ 0) <|
  check .assertRecvfrom (fun k => (k.procTable p).pRecvfrom ≠ noTask) <|
  check .assertSendto (fun k => (k.procTable p).pSendto = noTask) <|
  check .assertNoInt (fun k => (k.procTable p).hasIntMsg = false) .done

def blockCode (p : Slot) (src : Int) (m : Addr) : IpcCode :=
  write .setReceiving p (fun x => { x with pFlags := x.pFlags ||| receiving }) <|
  write .setMsg p (fun x => { x with pMsg := m }) <|
  write .setRecvfrom p (fun x => { x with pRecvfrom := src }) <|
  blockedCode p

/-- `if(copyok)` -/
def copyCode (p : Slot) (src : Int) (m : Addr) : Option (Slot × Option Slot) → IpcCode
  | some (from_, prev) => takeCode p from_ prev m
  | none => blockCode p src m

def receiveCode (p : Slot) (src : Int) (m : Addr) : IpcCode :=
  check .assertSrc (fun _ => proc2pid p ≠ src) <|
  read .ifIntMsg (fun k => decide ((k.procTable p).hasIntMsg = true ∧
    (src = any ∨ src = interrupt))) fun pending =>
  if pending then intCode p m
  else chooseCode p src (copyCode p src m)

/-- `inform_int` between two statements. -/
def informIntAt (taskNr : Slot) (k : Kernel) : Except Fault Kernel :=
  if (k.procTable taskNr).pFlags &&& receiving ≠ 0 ∧
      ((k.procTable taskNr).pRecvfrom = interrupt ∨ (k.procTable taskNr).pRecvfrom = any) ∧
      (k.procTable taskNr).pMsg = 0 then .error .wild
  else informInt k taskNr

end MyOS
