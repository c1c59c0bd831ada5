import MyOS.Keyboard
import MyOS.Lib.RingBuf
import Mathlib.Data.BitVec

/-!
# The rings of the input, by their pointers

`kb_in` of `kernel/keyboard.c` and the keys of a terminal of `kernel/tty.c` are kept in the same
way: a pointer into a buffer goes up by one and back to the start where it meets the end, and a
counter on the side tells the full ring from the empty one. A pointer is an offset here, and an
access through one that has left its buffer is a fault.
-/

namespace MyOS

open Memory

variable {α : Type}

/-- A store at the head, where there is room. -/
def ringPut (n : ℕ) (r : RingBuf α) (v : α) : Except Fault (RingBuf α) :=
  if r.count < n then
    if r.head < n then .ok (r.push n v) else .error .wild
  else .ok r

/-- A load at the tail. -/
def ringGet (n : ℕ) (r : RingBuf α) : Except Fault (α × RingBuf α) :=
  if r.tail < n then .ok (r.cell r.tail, r.pop n) else .error .wild

namespace ByPtr

/-- `keyboard_handler` -/
def keyboardHandler (kbIn : RingBuf Byte) (scanCode : Byte) : Except Fault (RingBuf Byte) :=
  ringPut kbInBytes kbIn scanCode

/-- `get_byte_from_kbuf`, once there is a byte. -/
def getByteFromKbuf (kbIn : RingBuf Byte) : Except Fault (Byte × RingBuf Byte) :=
  ringGet kbInBytes kbIn

/-- `put_key` -/
def putKey (t : RingBuf (BitVec 32)) (key : BitVec 32) : Except Fault (RingBuf (BitVec 32)) :=
  ringPut ttyInBytes t key

/-- What a turn of `tty_dev_write` takes out of the ring, before it is cut to a character. -/
def nextKey (t : RingBuf (BitVec 32)) : Except Fault (BitVec 32 × RingBuf (BitVec 32)) :=
  ringGet ttyInBytes t

end ByPtr

/-- A step of the producer, whose value is in the ring or is not, or one of the consumer, who waits
for a value. -/
def RingStep (put : RingBuf α → α → Except Fault (RingBuf α))
    (get : RingBuf α → Except Fault (α × RingBuf α)) (r : RingBuf α) :
    RingBuf.Event α → RingBuf α → Prop
  | .accepted v, r' => put r v = .ok r' ∧ r'.count = r.count + 1
  | .dropped v, r' => put r v = .ok r' ∧ r' = r
  | .taken v, r' => 0 < r.count ∧ get r = .ok (v, r')

/-- As `init_keyboard` and `init_tty` leave a ring. -/
def RingStart (r : RingBuf α) : Prop := ∃ cell, r = ⟨cell, 0, 0, 0⟩

abbrev KbRun := Run RingStart (RingStep ByPtr.keyboardHandler ByPtr.getByteFromKbuf)

abbrev KeyRun := Run RingStart (RingStep ByPtr.putKey ByPtr.nextKey)

/-- The ring of scan codes. -/
def KbInput.ring (kb : KbInput) : RingBuf Byte := .ofFin kb.buf kb.head kb.tail kb.count

/-- The ring of a terminal. -/
def Tty.ring (t : Tty) : RingBuf (BitVec 32) := .ofFin t.inBuf t.inbufHead t.inbufTail t.inbufCount

end MyOS
