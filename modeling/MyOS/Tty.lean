import MyOS.Const
import MyOS.Message
import Mathlib.Logic.Function.Basic

/-!
# Terminals

The part of `kernel/tty.c` between the keyboard and the processes that read: the ring of typed
characters, the one request a terminal keeps, and what a character does to it.
-/

namespace MyOS

open Memory

def ttyInBytes : ℕ := 256
def ttyOutBufLen : ℕ := 2

/-- `TTY`, without its console. -/
structure Tty where
  inBuf : Fin 256 → BitVec 32
  inbufHead : Fin 256
  inbufTail : Fin 256
  inbufCount : ℕ
  ttyCaller : Int
  ttyProcnr : Int
  ttyReqBuf : Addr
  ttyLeftCnt : BitVec 32
  ttyTransCnt : BitVec 32

/-- What a character makes a terminal do. -/
inductive TtyEvent
  | outChar (ch : Byte)
  | store (la : Addr) (ch : Byte)
  | resume (caller procNr : Int) (cnt : BitVec 32)
  deriving DecidableEq, Repr

def initTty : Tty where
  inBuf := fun _ => 0
  inbufHead := 0
  inbufTail := 0
  inbufCount := 0
  ttyCaller := noTask
  ttyProcnr := noTask
  ttyReqBuf := 0
  ttyLeftCnt := 0
  ttyTransCnt := 0

def putKey (t : Tty) (key : BitVec 32) : Tty :=
  if t.inbufCount < ttyInBytes then
    { t with
      inBuf := Function.update t.inBuf t.inbufHead key
      inbufHead := t.inbufHead + 1
      inbufCount := t.inbufCount + 1 }
  else t

/-! ## Keys -/

def flagExt : BitVec 32 := 0x100
def flagCtrlL : BitVec 32 := 0x800
def flagCtrlR : BitVec 32 := 0x1000
def maskRaw : BitVec 32 := 0x1FF

def keyEnter : BitVec 32 := 0x03 + flagExt
def keyBackspace : BitVec 32 := 0x04 + flagExt
def keyF1 : BitVec 32 := 0x11 + flagExt
def keyF12 : BitVec 32 := 0x1C + flagExt

/-- `in_process`: the terminal after a key, and the console the key selects. What scrolls the
screen is left out. -/
def inProcess (t : Tty) (key : BitVec 32) : Tty × Option Int :=
  if key &&& flagExt = 0 then (putKey t key, none)
  else
    let rawCode := key &&& maskRaw
    if rawCode = keyEnter then (putKey t 0x0A, none)
    else if rawCode = keyBackspace then (putKey t 0x08, none)
    else if keyF1 ≤ rawCode ∧ rawCode ≤ keyF12 ∧
        (key &&& flagCtrlL ≠ 0 ∨ key &&& flagCtrlR ≠ 0) then
      (t, some (rawCode - keyF1).toInt)
    else (t, none)

/-! ## Characters -/

def space : Byte := 0x20
def tilde : Byte := 0x7E
def newline : Byte := 0x0A
def backspace : Byte := 0x08

/-- The editing of the line: what `tty_dev_write` does with a character of a request that is not
complete, up to the question whether it is. -/
def editLine (t : Tty) (ch : Byte) : Except Fault (Tty × List TtyEvent) :=
  if space.toInt ≤ ch.toInt ∧ ch.toInt ≤ tilde.toInt then do
    assert (t.ttyReqBuf ≠ 0)
    .ok ({ t with ttyTransCnt := t.ttyTransCnt + 1, ttyLeftCnt := t.ttyLeftCnt - 1 },
      [.outChar ch, .store (t.ttyReqBuf + t.ttyTransCnt) ch])
  else if ch = backspace ∧ t.ttyTransCnt ≠ 0 then
    .ok ({ t with ttyTransCnt := t.ttyTransCnt - 1, ttyLeftCnt := t.ttyLeftCnt + 1 }, [.outChar ch])
  else .ok (t, [])

/-- What `tty_dev_write` does with a character. -/
def takeChar (t : Tty) (ch : Byte) : Except Fault (Tty × List TtyEvent) :=
  if t.ttyLeftCnt ≠ 0 then do
    let (t, ev) ← editLine t ch
    if ch = newline ∨ t.ttyLeftCnt = 0 then do
      assert (t.ttyProcnr ≠ noTask)
      .ok ({ t with ttyLeftCnt := 0 },
        ev ++ [.outChar newline, .resume t.ttyCaller t.ttyProcnr t.ttyTransCnt])
    else .ok (t, ev)
  else .ok (t, [])

/-- The next typed character, taken out of the ring. -/
def nextChar (t : Tty) : Byte × Tty :=
  ((t.inBuf t.inbufTail).setWidth 8,
    { t with inbufTail := t.inbufTail + 1, inbufCount := t.inbufCount - 1 })

/-- The request a terminal keeps from a `DEV_READ`; `la` is the buffer's linear address. -/
def ttyDoRead (t : Tty) (source : Int) (la : Addr) (msg : Message) : Tty :=
  { t with
    ttyCaller := source
    ttyProcnr := msg.procNr.toInt
    ttyReqBuf := la
    ttyLeftCnt := msg.cnt
    ttyTransCnt := 0 }

/-- The pieces in which a `DEV_WRITE` is fetched: their place in the buffer and their length. The
loop ends when nothing is left, in `fuel` turns at most. -/
def ttyDoWriteLoop : ℕ → Addr → Int → List (Addr × Int)
  | 0, _, _ => []
  | fuel + 1, p, i =>
    if i = 0 then []
    else
      let bytes := min (ttyOutBufLen : Int) i
      (p, bytes) :: ttyDoWriteLoop fuel (p + BitVec.ofInt 32 bytes) (i - bytes)

def ttyDoWrite (la : Addr) (msg : Message) : List (Addr × Int) :=
  ttyDoWriteLoop msg.cnt.toInt.natAbs la msg.cnt.toInt

end MyOS
