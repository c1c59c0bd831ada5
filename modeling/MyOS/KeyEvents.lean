import MyOS.Keyboard
import MyOS.Lib.Run

/-!
# Keys that are pressed and let go

What the keyboard sends for a key in scan code set 1, and `keyboard_read` of `kernel/keyboard.c` as
a whole, for the codes of one key after the other.
-/

namespace MyOS

open Memory

/-- The code of a key that sends no prefix. With the break bit it is no prefix itself. -/
abbrev PlainCode := { c : Byte // c &&& flagBreak = 0 ∧ c ≠ 0x60 ∧ c ≠ 0x61 }

/-- The code of a key behind the prefix `E0`. The codes of `PrintScreen` are no others' codes. -/
abbrev ExtCode := { c : Byte // c &&& flagBreak = 0 ∧ c ≠ 0x2A ∧ c ≠ 0x37 }

/-- A key is pressed or let go. `Pause` sends nothing when it is let go. -/
inductive KeyEvent
  | plain (code : PlainCode) (make : Bool)
  | ext (code : ExtCode) (make : Bool)
  | printScreen (make : Bool)
  | pause

/-- The break code is the make code with the break bit. -/
def breakOf (code : Byte) (make : Bool) : Byte := if make then code else code ||| flagBreak

def KeyEvent.codes : KeyEvent → List Byte
  | .plain code make => [breakOf code make]
  | .ext code make => [0xE0, breakOf code make]
  | .printScreen true => [0xE0, 0x2A, 0xE0, 0x37]
  | .printScreen false => [0xE0, 0xB7, 0xE0, 0xAA]
  | .pause => pausebrkScode

/-- `keyboard_read` from where it has read some codes of a key, if as many as it reads are in the
buffer: the keys held, and the argument of `in_process`, if that is called. -/
def keyboardReadFrom (held : Held) : ℕ → KbInput → Scan →
    Option (KbInput × Held × Option (BitVec 32))
  | 0, _, _ => none
  | n + 1, kb, sc =>
    let (b, kb) := getByteFromKbuf kb
    match scanByte sc b with
    | .more sc => keyboardReadFrom held n kb sc
    | .key scanCode codeWithE0 => some (kb, decodeKey held scanCode codeWithE0)
    | .special => some (kb, held, none)

def keyboardRead (held : Held) (kb : KbInput) : Option (KbInput × Held × Option (BitVec 32)) :=
  keyboardReadFrom held kb.count kb .start

/-- The keyboard, and what the last call of `keyboard_read` has passed to `in_process`. -/
structure KeySys where
  kbIn : KbInput
  held : Held
  passed : Option (BitVec 32)

/-- The codes of a key reach the buffer one by one, and `keyboard_read` is called. -/
def keyStep (s : KeySys) (e : KeyEvent) : Option KeySys :=
  (keyboardRead s.held (e.codes.foldl keyboardHandler s.kbIn)).map fun (kbIn, held, passed) =>
    { kbIn, held, passed }

def KeyStep (s : KeySys) (e : KeyEvent) (s' : KeySys) : Prop := keyStep s e = some s'

/-- `init_keyboard` has emptied the buffer. -/
def KeyStart (s : KeySys) : Prop :=
  s.kbIn.count = 0 ∧ s.kbIn.head = 0 ∧ s.kbIn.tail = 0 ∧ s.held = initHeld ∧ s.passed = none

end MyOS
