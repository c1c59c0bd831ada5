import MyOS.Tty
import MyOS.Proc
import MyOS.Fs.State

/-!
# Readers of the terminals

A request for a terminal goes from a process through `do_rdwt` of `fs/read_write.c` to `task_tty`
of `kernel/tty.c`. The terminal answers a read with `SUSPEND_PROC`, upon which `task_fs` keeps the
reply back, and lets it go with `RESUME_PROC` when a line is there.
-/

namespace MyOS

open Memory

/-- A terminal, by its minor device number. -/
abbrev Minor := Fin 3

/-- `tty_table` with `nr_current_console`, and the processes whose replies `task_fs` has kept back,
with the terminals they read. -/
structure Terminals where
  ttyTable : Minor → Tty
  nrCurrentConsole : Minor
  suspended : Slot → Option Minor

/-- The message `do_rdwt` sends to a terminal for the request `msg` of `src`, as it arrives. -/
def devMsg (src : Slot) (isRead : Bool) (dev : Minor) (msg : Message) : Message :=
  { msg with
    source := BitVec.ofInt 32 (proc2pid taskFs)
    type := (if isRead then MsgType.devRead else MsgType.devWrite).code
    m3i4 := BitVec.ofNat 32 dev
    m3i3 := BitVec.ofInt 32 (proc2pid src) }

/-- What `task_tty` does with a `DEV_READ` or a `DEV_WRITE` whose buffer is at `la`: the terminal,
and the answer. Of the bytes written it keeps nothing. -/
def ttyServe (t : Tty) (la : Addr) (msg : Message) : Tty × Message :=
  if msg.type = MsgType.devRead.code then
    let t := ttyDoRead t msg.source.toInt la msg
    (t, { msg with type := MsgType.suspendProc.code, m3i2 := t.ttyLeftCnt })
  else (t, { msg with type := MsgType.syscallRet.code })

/-- A request for a terminal: `task_fs` replies to `src`, or not. -/
def ttyRdwt (s : Terminals) (src : Slot) (isRead : Bool) (dev : Minor) (la : Addr)
    (msg : Message) : Except Fault Terminals := do
  let (t, answer) := ttyServe (s.ttyTable dev) la (devMsg src isRead dev msg)
  assert (answer.cnt = msg.cnt)
  .ok { s with
    ttyTable := Function.update s.ttyTable dev t
    suspended :=
      if answer.type ≠ MsgType.suspendProc.code then s.suspended
      else Function.update s.suspended src (some dev) }

/-- A message of a terminal to `task_fs`, which replies to `PROC_NR`. -/
def resumeProc (suspended : Slot → Option Minor) : TtyEvent → Slot → Option Minor
  | .resume caller procNr _ => fun p =>
    if caller = proc2pid taskFs ∧ procNr = proc2pid p then none else suspended p
  | _ => suspended

def selectConsole (current : Minor) (nrConsole : Int) : Minor :=
  if nrConsole < 0 ∨ nrConsole ≥ nrConsoles then current else Fin.ofNat 3 nrConsole.toNat

/-- A key, which `tty_dev_read` takes for the terminal of the current console. -/
def ttyDevRead (s : Terminals) (key : BitVec 32) : Terminals :=
  let (t, nrConsole) := inProcess (s.ttyTable s.nrCurrentConsole) key
  { s with
    ttyTable := Function.update s.ttyTable s.nrCurrentConsole t
    nrCurrentConsole := match nrConsole with
      | none => s.nrCurrentConsole
      | some n => selectConsole s.nrCurrentConsole n }

/-- A turn of `tty_dev_write` for the terminal `dev`. -/
def ttyDevWrite (s : Terminals) (dev : Minor) : Except Fault Terminals := do
  let (ch, t) := nextChar (s.ttyTable dev)
  let (t, ev) ← takeChar t ch
  .ok { s with
    ttyTable := Function.update s.ttyTable dev t
    suspended := ev.foldl resumeProc s.suspended }

inductive TtyAct
  /-- `src`, which waits for nothing, asks for a read or a write of its buffer at `la`. -/
  | rdwt (src : Slot) (isRead : Bool) (dev : Minor) (la : Addr) (msg : Message)
  | key (key : BitVec 32)
  | char (dev : Minor)

def ttyStep (s : Terminals) : TtyAct → Option Terminals
  | .rdwt src isRead dev la msg =>
    if s.suspended src = none ∧ 0 ≤ msg.cnt.toInt then
      (ttyRdwt s src isRead dev la msg).toOption
    else none
  | .key key => some (ttyDevRead s key)
  | .char dev =>
    if (s.ttyTable dev).inbufCount ≠ 0 then (ttyDevWrite s dev).toOption else none

def TtyStep (s : Terminals) (a : TtyAct) (s' : Terminals) : Prop := ttyStep s a = some s'

/-- The terminals as `task_tty` sets them up. -/
def initTerminals : Terminals where
  ttyTable := fun _ => initTty
  nrCurrentConsole := 0
  suspended := fun _ => none

def TtyStart (s : Terminals) : Prop := s = initTerminals

end MyOS
