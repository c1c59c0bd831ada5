import MyOS.Keyboard
import MyOS.Main

/-!
# The terminal task and the interrupts

`task_tty` of `kernel/tty.c` between the interrupts of the keyboard, whose handler sets
`key_pressed`, and those of the clock, whose handler announces the keys with `inform_int`. A trap is
one step, and so is what the task does between two statements that an interrupt can tell apart.
What goes to the screen is left out.
-/

namespace MyOS

open Memory

/-- Where `task_tty` is, in the loop over the terminals or behind it. -/
inductive TtyPlace
  /-- `tty_dev_read(p_tty)` -/
  | read (tty : Minor)
  /-- `get_byte_from_kbuf()` in `keyboard_read` -/
  | scan (tty : Minor) (s : Scan)
  /-- `tty_dev_write(p_tty)` -/
  | write (tty : Minor)
  /-- `while(p_tty->inbuf_count)` -/
  | again (tty : Minor)
  /-- `send_recv(SEND, ..)`, back to `tty_dev_write` or to the loop from the start -/
  | send (dest : Int) (m : Addr) (back : Option Minor)
  /-- `send_recv(RECEIVE, ANY, &msg)` -/
  | receive
  /-- and behind it -/
  | received

/-- The kernel with `kb_in`, `key_pressed` and the terminals. -/
structure TtySys where
  kernel : Kernel
  kbIn : KbInput
  keyPressed : Bool
  held : Held
  ttyTable : Minor → Tty
  nrCurrentConsole : Minor
  place : TtyPlace

/-- Where the stack of the task has `msg` of `task_tty` and `msg` of `tty_dev_write`. -/
structure TtyStack where
  msg : Addr
  resumeMsg : Addr

namespace TtySys

/-- The task's own memory. -/
def la (s : TtySys) (a : Addr) : Addr := ((s.kernel.procTable taskTty).ldts 1).linear + a

def setMem (s : TtySys) (mem : Mem) : TtySys := { s with kernel := { s.kernel with mem } }

def go (s : TtySys) (place : TtyPlace) : TtySys := { s with place }

/-- The end of `keyboard_read` for a key. -/
def endKey (s : TtySys) (tty : Minor) (scanCode : Byte) (codeWithE0 : Bool) : TtySys :=
  match decodeKey s.held scanCode codeWithE0 with
  | (held, none) => { s with held }
  | (held, some key) =>
    let (t, nrConsole) := inProcess (s.ttyTable tty) key
    { s with
      held
      ttyTable := Function.update s.ttyTable tty t
      nrCurrentConsole := match nrConsole with
        | none => s.nrCurrentConsole
        | some n => selectConsole s.nrCurrentConsole n }

/-- A code is read, or none is there yet. -/
def scan (s : TtySys) (tty : Minor) (sc : Scan) : TtySys :=
  if s.kbIn.count = 0 then s
  else
    let (b, kbIn) := getByteFromKbuf s.kbIn
    let s := { s with kbIn }
    match scanByte sc b with
    | .more sc => s.go (.scan tty sc)
    | .key scanCode codeWithE0 => (s.endKey tty scanCode codeWithE0).go (.write tty)
    | .special => s.go (.write tty)

/-- What a character makes the task do: the byte goes to the reader, and a line that is complete is
announced with `RESUME_PROC`. -/
def emit (stack : TtyStack) (tty : Minor) (s : TtySys) : TtyEvent → TtySys
  | .outChar _ => s
  | .store la ch => s.setMem (Function.update s.kernel.mem la ch)
  | .resume caller procNr cnt =>
    let msg := { Message.load s.kernel.mem (s.la stack.resumeMsg) with
      type := MsgType.resumeProc.code
      m3i3 := BitVec.ofInt 32 procNr
      m3i2 := cnt }
    (s.setMem (Message.store s.kernel.mem (s.la stack.resumeMsg) msg)).go
      (.send caller stack.resumeMsg (some tty))

/-- A turn of the loop of `tty_dev_write`. -/
def writeChar (stack : TtyStack) (s : TtySys) (tty : Minor) : Except Fault TtySys := do
  let (ch, t) := nextChar (s.ttyTable tty)
  let (t, ev) ← takeChar t ch
  let s := { s with ttyTable := Function.update s.ttyTable tty t }
  .ok (ev.foldl (emit stack tty) s)

/-- `&tty_table[msg.DEVICE]`, followed. -/
def ttyAt (device : BitVec 32) : Except Fault Minor :=
  if h : device.toNat < 3 then .ok ⟨device.toNat, h⟩ else .error .wild

/-- The answer goes back in `msg`. -/
def answer (stack : TtyStack) (s : TtySys) (dest : Int) (msg : Message) : TtySys :=
  (s.setMem (Message.store s.kernel.mem (s.la stack.msg) msg)).go (.send dest stack.msg none)

/-- The `switch` over the message. -/
def dispatch (stack : TtyStack) (s : TtySys) : Except Fault TtySys := do
  let msg := Message.load s.kernel.mem (s.la stack.msg)
  let src := msg.source.toInt
  assert (src ≠ proc2pid taskTty)
  if msg.type = MsgType.devOpen.code then
    .ok (s.answer stack src { Message.reset with type := MsgType.syscallRet.code })
  else if msg.type = MsgType.devRead.code then do
    let tty ← ttyAt msg.device
    let reader ← procAt msg.procNr.toInt
    let la ← va2la s.kernel reader msg.buf
    let (t, msg) := ttyServe (s.ttyTable tty) la msg
    let s := { s with ttyTable := Function.update s.ttyTable tty t }
    .ok (s.answer stack t.ttyCaller msg)
  else if msg.type = MsgType.devWrite.code then do
    let tty ← ttyAt msg.device
    let writer ← procAt msg.procNr.toInt
    let la ← va2la s.kernel writer msg.buf
    .ok (s.answer stack src (ttyServe (s.ttyTable tty) la msg).2)
  else if msg.type = MsgType.hardInt.code then
    .ok ({ s with keyPressed := false }.go (.read 0))
  else .ok (s.go (.read 0))

/-- A step of the task. -/
def taskTtyStep (stack : TtyStack) (s : TtySys) : Except Fault TtySys :=
  match s.place with
  | .read tty =>
    if tty = s.nrCurrentConsole ∧ 0 < s.kbIn.count then .ok (s.go (.scan tty .start))
    else .ok (s.go (.write tty))
  | .scan tty sc => .ok (s.scan tty sc)
  | .write tty =>
    if (s.ttyTable tty).inbufCount ≠ 0 then s.writeChar stack tty else .ok (s.go (.again tty))
  | .again tty =>
    if (s.ttyTable tty).inbufCount ≠ 0 then .ok (s.go (.read tty))
    else if h : tty.val + 1 < 3 then .ok (s.go (.read ⟨tty.val + 1, h⟩))
    else .ok (s.go .receive)
  | .send dest m back => do
    let kernel ← sendrec s.kernel taskTty .send dest m
    .ok ({ s with kernel }.go (match back with
      | some tty => .write tty
      | none => .read 0))
  | .receive => do
    let kernel ← sendrec s.kernel taskTty .receive any stack.msg
    .ok ({ s with kernel }.go .received)
  | .received => s.dispatch stack

/-- `clock_handler` -/
def clockHandler (s : TtySys) : Except Fault TtySys :=
  if s.keyPressed then do
    let kernel ← informInt s.kernel taskTty
    .ok { s with kernel }
  else .ok s

end TtySys

inductive TtySysAct
  | keyboard (scanCode : Byte)
  | clock
  /-- a step of the other processes or an interrupt for another task -/
  | kernel (a : Act)
  | tty

/-- Whether a step of the kernel is one of the terminal task or an interrupt for it. -/
def Act.ofTty : Act → Bool
  | .sendrec p _ _ _ => p = taskTty
  | .informInt t => t = taskTty
  | .user _ => false

def ttySysStep (stack : TtyStack) (s : TtySys) : TtySysAct → Option TtySys
  | .keyboard scanCode =>
    some { s with kbIn := keyboardHandler s.kbIn scanCode, keyPressed := true }
  | .clock => s.clockHandler.toOption
  | .kernel a => if a.ofTty then none else (step s.kernel a).map fun kernel => { s with kernel }
  | .tty =>
    if (s.kernel.procTable taskTty).pFlags = 0 then (s.taskTtyStep stack).toOption else none

def TtySysStep (stack : TtyStack) (s : TtySys) (a : TtySysAct) (s' : TtySys) : Prop :=
  ttySysStep stack s a = some s'

/-- The kernel has been set up, and `task_tty` the keyboard and the terminals. -/
def initTtySys (mem : Mem) (limit : BitVec 32) : TtySys where
  kernel := kernelMain mem limit
  kbIn := { buf := fun _ => 0, head := 0, tail := 0, count := 0 }
  keyPressed := false
  held := initHeld
  ttyTable := fun _ => initTty
  nrCurrentConsole := 0
  place := .read 0

def TtySysStart (s : TtySys) : Prop := ∃ mem limit, s = initTtySys mem limit

end MyOS
