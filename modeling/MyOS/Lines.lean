import MyOS.Proc
import MyOS.Tty
import MyOS.Lib.Run

/-!
# Lines

A terminal between the `DEV_READ` it has accepted and the next one: keys come into its ring, and
`tty_dev_write` takes them out again, a few at a time, edits the line where it lies in the memory of
the reader and reports it. Beside that stands what a line is.
-/

namespace MyOS

open Memory

/-! ## What a line is -/

def Printable (ch : Byte) : Prop := space ≤ ch ∧ ch ≤ tilde

instance (ch : Byte) : Decidable (Printable ch) := inferInstanceAs (Decidable (_ ∧ _))

/-- The text behind a character. -/
def retyped (text : List Byte) (ch : Byte) : List Byte :=
  if Printable ch then text ++ [ch] else if ch = backspace then text.dropLast else text

/-- A line as far as it has been typed. -/
structure Line where
  text : List Byte
  complete : Bool
  deriving DecidableEq, Repr

/-- A character ends a line of at most `n` where it is a newline or the last there is room for. -/
def Line.type (n : ℕ) (l : Line) (ch : Byte) : Line :=
  if l.complete then l
  else ⟨retyped l.text ch, ch = newline ∨ (retyped l.text ch).length = n⟩

/-- The line that the characters make, those behind its end left out. -/
def edited (n : ℕ) (chs : List Byte) : Line := chs.foldl (Line.type n) ⟨[], false⟩

/-! ## The terminal and its reader -/

/-- A `RESUME_PROC`. -/
structure Resumed where
  dest : Int
  procNr : Int
  cnt : BitVec 32
  deriving DecidableEq, Repr

/-- A terminal, the memory, and the messages the terminal has sent, newest first. -/
structure LineSys where
  tty : Tty
  mem : Mem
  sent : List Resumed

/-- What `tty_dev_write` does to the memory and with messages. -/
def LineSys.emit (s : LineSys) : TtyEvent → LineSys
  | .outChar _ => s
  | .store la ch => { s with mem := Function.update s.mem la ch }
  | .resume caller procNr cnt => { s with sent := ⟨caller, procNr, cnt⟩ :: s.sent }

inductive LineAct
  /-- `put_key` -/
  | key (key : BitVec 32)
  /-- A turn of the loop of `tty_dev_write`, with the character it takes out of the ring. -/
  | char (ch : Byte)

/-- The loop ends where the ring is empty. -/
def lineStep (s : LineSys) : LineAct → Option LineSys
  | .key key => some { s with tty := putKey s.tty key }
  | .char ch =>
    let (c, t) := nextChar s.tty
    if s.tty.inbufCount ≠ 0 ∧ c = ch then
      match takeChar t ch with
      | .ok (t, ev) => some (ev.foldl LineSys.emit { s with tty := t })
      | .error _ => none
    else none

def LineStep (s : LineSys) (a : LineAct) (s' : LineSys) : Prop := lineStep s a = some s'

/-- The characters that have reached `tty_dev_write`, the oldest first. -/
def charsOf (acts : List LineAct) : List Byte :=
  acts.reverse.filterMap fun
    | .char ch => some ch
    | .key _ => none

/-- The terminal has accepted the `DEV_READ` in `msg`: the reader's buffer is at `la`. -/
structure Accepted (k : Kernel) (msg : Message) (la : Addr) (t : Tty) (mem : Mem) (s : LineSys) :
    Prop where
  reader : ∃ reader, procAt msg.procNr.toInt = .ok reader ∧ va2la k reader msg.buf = .ok la
  state : s = ⟨ttyDoRead t msg.source.toInt la msg, mem, []⟩

end MyOS
