import MyOS.TtyFs

/-!
# The keyboard

`kernel/keyboard.c`: the ring of scan codes that the interrupt handler fills, and how
`keyboard_read` takes the codes of one key out of it and makes them a key. The lights of the
keyboard are left out.
-/

namespace MyOS

open Memory

/-! ## Scan codes -/

def kbInBytes : ℕ := 32

/-- `KB_INPUT` -/
structure KbInput where
  buf : Fin 32 → Byte
  head : Fin 32
  tail : Fin 32
  count : ℕ

/-- `keyboard_handler`, but for `key_pressed`. Where the buffer is full the code is lost. -/
def keyboardHandler (kb : KbInput) (scanCode : Byte) : KbInput :=
  if kb.count < kbInBytes then
    { buf := Function.update kb.buf kb.head scanCode
      head := kb.head + 1
      tail := kb.tail
      count := kb.count + 1 }
  else kb

/-- `get_byte_from_kbuf`, once there is a byte. -/
def getByteFromKbuf (kb : KbInput) : Byte × KbInput :=
  (kb.buf kb.tail, { kb with tail := kb.tail + 1, count := kb.count - 1 })

def pausebrkScode : List Byte := [0xE1, 0x1D, 0x45, 0xE1, 0x9D, 0xC5]

/-- Which codes of a key `keyboard_read` has read. -/
inductive Scan
  | start
  /-- the first `i` of `Pause` -/
  | pause (i : ℕ)
  | e0
  | e02A
  | e02AE0
  | e0B7
  | e0B7E0
  deriving DecidableEq

/-- What a code leads to: another code is read, a key is there with `code_with_E0`, or it was
`Pause` or `PrintScreen`, for which nothing is done. -/
inductive Scanned
  | more (s : Scan)
  | key (scanCode : Byte) (codeWithE0 : Bool)
  | special
  deriving DecidableEq

def scanByte : Scan → Byte → Scanned
  | .start, b => if b = 0xE1 then .more (.pause 1) else if b = 0xE0 then .more .e0 else .key b false
  | .pause i, b =>
    if b ≠ pausebrkScode.getD i 0 then .key 0xE1 false
    else if i + 1 < 6 then .more (.pause (i + 1))
    else .special
  | .e0, b => if b = 0x2A then .more .e02A else if b = 0xB7 then .more .e0B7 else .key b true
  | .e02A, b => if b = 0xE0 then .more .e02AE0 else .key 0x2A true
  | .e02AE0, b => if b = 0x37 then .special else .key 0x2A true
  | .e0B7, b => if b = 0xE0 then .more .e0B7E0 else .key 0xB7 true
  | .e0B7E0, b => if b = 0xAA then .special else .key 0xB7 true

/-! ## Keys -/

def chr (c : Char) : BitVec 32 := BitVec.ofNat 32 c.toNat

/-- The keys that are no characters. -/
def keyExt (n : ℕ) : BitVec 32 := BitVec.ofNat 32 n + flagExt

def keyEsc := keyExt 0x01
def keyTab := keyExt 0x02
def keyGuiL := keyExt 0x05
def keyGuiR := keyExt 0x06
def keyApps := keyExt 0x07
def keyShiftL := keyExt 0x08
def keyShiftR := keyExt 0x09
def keyCtrlL := keyExt 0x0A
def keyCtrlR := keyExt 0x0B
def keyAltL := keyExt 0x0C
def keyAltR := keyExt 0x0D
def keyCapsLock := keyExt 0x0E
def keyNumLock := keyExt 0x0F
def keyScrollLock := keyExt 0x10
/-- `F1` to `F12` -/
def keyF (n : ℕ) := keyExt (0x10 + n)
def keyInsert := keyExt 0x1F
def keyDelete := keyExt 0x20
def keyHome := keyExt 0x21
def keyEnd := keyExt 0x22
def keyPageup := keyExt 0x23
def keyPagedown := keyExt 0x24
def keyUp := keyExt 0x25
def keyDown := keyExt 0x26
def keyLeft := keyExt 0x27
def keyRight := keyExt 0x28
def keyPadSlash := keyExt 0x2C
def keyPadStar := keyExt 0x2D
def keyPadMinus := keyExt 0x2E
def keyPadPlus := keyExt 0x2F
def keyPadEnter := keyExt 0x30
def keyPadDot := keyExt 0x31
/-- `PAD_0` to `PAD_9`, which are `PAD_INS`, `PAD_END` and so on as well. -/
def keyPad (n : ℕ) := keyExt (0x32 + n)

/-- The rows of `keymap` up to the last that is not zero. -/
def keymap : List (BitVec 32 × BitVec 32 × BitVec 32) :=
  [(0, 0, 0), (keyEsc, keyEsc, 0), (chr '1', chr '!', 0), (chr '2', chr '@', 0),
   (chr '3', chr '#', 0), (chr '4', chr '$', 0), (chr '5', chr '%', 0), (chr '6', chr '^', 0),
   (chr '7', chr '&', 0), (chr '8', chr '*', 0), (chr '9', chr '(', 0), (chr '0', chr ')', 0),
   (chr '-', chr '_', 0), (chr '=', chr '+', 0), (keyBackspace, keyBackspace, 0),
   (keyTab, keyTab, 0), (chr 'q', chr 'Q', 0), (chr 'w', chr 'W', 0), (chr 'e', chr 'E', 0),
   (chr 'r', chr 'R', 0), (chr 't', chr 'T', 0), (chr 'y', chr 'Y', 0), (chr 'u', chr 'U', 0),
   (chr 'i', chr 'I', 0), (chr 'o', chr 'O', 0), (chr 'p', chr 'P', 0), (chr '[', 0x7B, 0),
   (chr ']', 0x7D, 0), (keyEnter, keyEnter, keyPadEnter), (keyCtrlL, keyCtrlL, keyCtrlR),
   (chr 'a', chr 'A', 0), (chr 's', chr 'S', 0), (chr 'd', chr 'D', 0), (chr 'f', chr 'F', 0),
   (chr 'g', chr 'G', 0), (chr 'h', chr 'H', 0), (chr 'j', chr 'J', 0), (chr 'k', chr 'K', 0),
   (chr 'l', chr 'L', 0), (chr ';', chr ':', 0), (0x27, 0x22, 0), (0x60, chr '~', 0),
   (keyShiftL, keyShiftL, 0), (0x5C, chr '|', 0), (chr 'z', chr 'Z', 0), (chr 'x', chr 'X', 0),
   (chr 'c', chr 'C', 0), (chr 'v', chr 'V', 0), (chr 'b', chr 'B', 0), (chr 'n', chr 'N', 0),
   (chr 'm', chr 'M', 0), (chr ',', chr '<', 0), (chr '.', chr '>', 0),
   (chr '/', chr '?', keyPadSlash), (keyShiftR, keyShiftR, 0), (chr '*', chr '*', 0),
   (keyAltL, keyAltL, keyAltR), (chr ' ', chr ' ', 0), (keyCapsLock, keyCapsLock, 0),
   (keyF 1, keyF 1, 0), (keyF 2, keyF 2, 0), (keyF 3, keyF 3, 0), (keyF 4, keyF 4, 0),
   (keyF 5, keyF 5, 0), (keyF 6, keyF 6, 0), (keyF 7, keyF 7, 0), (keyF 8, keyF 8, 0),
   (keyF 9, keyF 9, 0), (keyF 10, keyF 10, 0), (keyNumLock, keyNumLock, 0),
   (keyScrollLock, keyScrollLock, 0), (keyPad 7, chr '7', keyHome), (keyPad 8, chr '8', keyUp),
   (keyPad 9, chr '9', keyPageup), (keyPadMinus, chr '-', 0), (keyPad 4, chr '4', keyLeft),
   (keyPad 5, chr '5', 0), (keyPad 6, chr '6', keyRight), (keyPadPlus, chr '+', 0),
   (keyPad 1, chr '1', keyEnd), (keyPad 2, chr '2', keyDown), (keyPad 3, chr '3', keyPagedown),
   (keyPad 0, chr '0', keyInsert), (keyPadDot, chr '.', keyDelete), (0, 0, 0), (0, 0, 0),
   (0, 0, 0), (keyF 11, keyF 11, 0), (keyF 12, keyF 12, 0), (0, 0, 0), (0, 0, 0), (0, 0, keyGuiL),
   (0, 0, keyGuiR), (0, 0, keyApps)]

/-- The keys that are held or locked. -/
structure Held where
  shiftL : Bool
  shiftR : Bool
  altL : Bool
  altR : Bool
  ctrlL : Bool
  ctrlR : Bool
  capsLock : Bool
  numLock : Bool

/-- As `init_keyboard` sets them. -/
def initHeld : Held := ⟨false, false, false, false, false, false, false, true⟩

/-- What a key of the pad means. -/
def padKey (held : Held) (key : BitVec 32) : BitVec 32 :=
  if key = keyPadSlash then chr '/'
  else if key = keyPadStar then chr '*'
  else if key = keyPadMinus then chr '-'
  else if key = keyPadPlus then chr '+'
  else if key = keyPadEnter then keyEnter
  else if held.numLock ∧ keyPad 0 ≤ key ∧ key ≤ keyPad 9 then key - keyPad 0 + chr '0'
  else if held.numLock ∧ key = keyPadDot then chr '.'
  else if key = keyPad 7 then keyHome
  else if key = keyPad 1 then keyEnd
  else if key = keyPad 9 then keyPageup
  else if key = keyPad 3 then keyPagedown
  else if key = keyPad 0 then keyInsert
  else if key = keyPad 8 then keyUp
  else if key = keyPad 2 then keyDown
  else if key = keyPad 4 then keyLeft
  else if key = keyPad 6 then keyRight
  else if key = keyPadDot then keyDelete
  else key

def flagBreak : Byte := 0x80
def flagShiftL : BitVec 32 := 0x0200
def flagShiftR : BitVec 32 := 0x0400
def flagAltL : BitVec 32 := 0x2000
def flagAltR : BitVec 32 := 0x4000
def flagPad : BitVec 32 := 0x8000

/-- A key that is pressed or let go, if it is one of those that are held. -/
def holdKey (held : Held) (key : BitVec 32) (make : Bool) : Held :=
  if key = keyShiftL then { held with shiftL := make }
  else if key = keyShiftR then { held with shiftR := make }
  else if key = keyCtrlL then { held with ctrlL := make }
  else if key = keyCtrlR then { held with ctrlR := make }
  else if key = keyAltL then { held with altL := make }
  else if key = keyAltR then { held with altL := make }
  else if key = keyCapsLock ∧ make then { held with capsLock := !held.capsLock }
  else if key = keyNumLock ∧ make then { held with numLock := !held.numLock }
  else held

/-- The entry of `keymap` that counts. -/
def keyOf (held : Held) (scanCode : Byte) (codeWithE0 : Bool) : BitVec 32 :=
  let keyrow := keymap.getD (scanCode &&& 0x7F).toNat (0, 0, 0)
  let caps := held.shiftL || held.shiftR
  let caps := if held.capsLock ∧ chr 'a' ≤ keyrow.1 ∧ keyrow.1 ≤ chr 'z' then !caps else caps
  if codeWithE0 then keyrow.2.2
  else if caps then keyrow.2.1
  else keyrow.1

/-- What `keyboard_read` makes of a key: the keys held, and the argument of `in_process`, which is
not called for a key let go. -/
def decodeKey (held : Held) (scanCode : Byte) (codeWithE0 : Bool) : Held × Option (BitVec 32) :=
  let make := decide (scanCode &&& flagBreak = 0)
  let key := keyOf held scanCode codeWithE0
  let held := holdKey held key make
  if make then
    let pad := decide (keyPadSlash ≤ key ∧ key ≤ keyPad 9)
    let key := if pad then padKey held key else key
    (held, some (key ||| (if held.shiftL then flagShiftL else 0) |||
      (if held.shiftR then flagShiftR else 0) ||| (if held.ctrlL then flagCtrlL else 0) |||
      (if held.ctrlR then flagCtrlR else 0) ||| (if held.altL then flagAltL else 0) |||
      (if held.altR then flagAltR else 0) ||| if pad then flagPad else 0))
  else (held, none)

end MyOS
