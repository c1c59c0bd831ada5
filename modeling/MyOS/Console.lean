import MyOS.TtyFs
import MyOS.Lib.Run

/-!
# Consoles

`kernel/console.c`: the three consoles share the memory of the screen, of which each has a third of
the cells, and the screen shows a window of the current one.
-/

namespace MyOS

open Memory

def vMemBase : Addr := 0xB8000
def vMemSize : BitVec 32 := 0x8000
def screenSize : BitVec 32 := 80 * 25
def screenWidth : BitVec 32 := 80
/-- `MAKE_COLOR(BLACK, WHITE)` -/
def defaultCharColor : Byte := 0x0 ||| 0x7
def scrUp : Int := 1
def scrDn : Int := -1

/-- `CONSOLE` -/
structure Console where
  currentStartAddr : BitVec 32
  originalAddr : BitVec 32
  vMemLimit : BitVec 32
  cursor : BitVec 32

/-- The registers of the screen: where the cursor is and where the window starts. -/
structure Crtc where
  cursorH : Byte
  cursorL : Byte
  startAddrH : Byte
  startAddrL : Byte

structure Screen where
  consoleTable : Minor → Console
  nrCurrentConsole : Minor
  crtc : Crtc
  mem : Mem
  dispPos : BitVec 32

/-- The `switch` of `out_char`: the console, and the bytes that are written. -/
def Console.put (con : Console) (ch : Byte) : Console × List (Addr × Byte) :=
  let pVmem := vMemBase + con.cursor * 2
  if ch = newline then
    if con.cursor < con.originalAddr + con.vMemLimit - screenWidth then
      ({ con with
        cursor := con.originalAddr +
          screenWidth * ((con.cursor - con.originalAddr) / screenWidth + 1) }, [])
    else (con, [])
  else if ch = backspace then
    if con.cursor > con.originalAddr then
      ({ con with cursor := con.cursor - 1 }, [(pVmem - 2, space), (pVmem - 1, defaultCharColor)])
    else (con, [])
  else if con.cursor < con.originalAddr + con.vMemLimit - 1 then
    ({ con with cursor := con.cursor + 1 }, [(pVmem, ch), (pVmem + 1, defaultCharColor)])
  else (con, [])

/-- What `scroll_screen` does to the console. -/
def Console.scroll (con : Console) (direction : Int) : Console :=
  if direction = scrUp then
    if con.currentStartAddr > con.originalAddr then
      { con with currentStartAddr := con.currentStartAddr - screenWidth }
    else con
  else if direction = scrDn then
    if con.currentStartAddr + screenSize < con.originalAddr + con.vMemLimit then
      { con with currentStartAddr := con.currentStartAddr + screenWidth }
    else con
  else con

namespace Screen

def setCursor (s : Screen) (position : BitVec 32) : Screen :=
  { s with
    crtc := { s.crtc with
      cursorH := (position >>> 8 &&& 0xFF).setWidth 8
      cursorL := (position &&& 0xFF).setWidth 8 } }

def setVideoStartAddr (s : Screen) (addr : BitVec 32) : Screen :=
  { s with
    crtc := { s.crtc with
      startAddrH := (addr >>> 8 &&& 0xFF).setWidth 8
      startAddrL := (addr &&& 0xFF).setWidth 8 } }

def setConsole (s : Screen) (n : Minor) (con : Console) : Screen :=
  { s with consoleTable := Function.update s.consoleTable n con }

def flush (s : Screen) (n : Minor) : Screen :=
  if n = s.nrCurrentConsole then
    (s.setCursor (s.consoleTable n).cursor).setVideoStartAddr (s.consoleTable n).currentStartAddr
  else s

def scrollScreen (s : Screen) (n : Minor) (direction : Int) : Screen :=
  (s.setConsole n ((s.consoleTable n).scroll direction)).flush n

/-- The `while` loop of `out_char`, in `fuel` turns at most. -/
def scrollOn (n : Minor) : ℕ → Screen → Except Fault Screen
  | 0, _ => .error .spin
  | fuel + 1, s =>
    if (s.consoleTable n).cursor ≥ (s.consoleTable n).currentStartAddr + screenSize then
      scrollOn n fuel (s.scrollScreen n scrDn)
    else .ok s

def write (s : Screen) (writes : List (Addr × Byte)) : Screen :=
  { s with mem := writes.foldl (fun mem w => Function.update mem w.1 w.2) s.mem }

/-- A turn of the loop moves the window by a row or never ends, so there are not more turns than the
console has cells. -/
def outChar (s : Screen) (n : Minor) (ch : Byte) : Except Fault Screen := do
  let (con, writes) := (s.consoleTable n).put ch
  let s ← scrollOn n con.vMemLimit.toNat ((s.setConsole n con).write writes)
  .ok (s.flush n)

def selectConsole (s : Screen) (nrConsole : Int) : Screen :=
  if nrConsole < 0 ∨ nrConsole ≥ nrConsoles then s
  else
    let n := MyOS.selectConsole s.nrCurrentConsole nrConsole
    { s with nrCurrentConsole := n }.flush n

def initScreen (s : Screen) (nrTty : Minor) : Except Fault Screen := do
  let vMemSize := vMemSize >>> 1
  let conVMemSize := vMemSize / BitVec.ofNat 32 nrConsoles
  let originalAddr := BitVec.ofNat 32 nrTty * conVMemSize
  let s := s.setConsole nrTty
    { currentStartAddr := originalAddr, originalAddr, vMemLimit := conVMemSize
      cursor := originalAddr }
  let s ← if nrTty = 0 then
      .ok { s.setConsole nrTty { s.consoleTable nrTty with cursor := s.dispPos.sdiv 2 } with
        dispPos := 0 }
    else do
      let s ← s.outChar nrTty (BitVec.ofNat 8 nrTty + 0x30)
      s.outChar nrTty 0x23
  .ok (s.setCursor (s.consoleTable nrTty).cursor)

/-- What `task_tty` does to the screen before its loop. -/
def initScreens (s : Screen) : Except Fault Screen := do
  let s ← s.initScreen 0
  let s ← s.initScreen 1
  let s ← s.initScreen 2
  .ok (s.selectConsole 0)

end Screen

inductive ScreenAct
  | outChar (n : Minor) (ch : Byte)
  | scrollScreen (n : Minor) (direction : Int)
  | selectConsole (nrConsole : Int)

def screenStep (s : Screen) : ScreenAct → Option Screen
  | .outChar n ch => (s.outChar n ch).toOption
  | .scrollScreen n direction => some (s.scrollScreen n direction)
  | .selectConsole nrConsole => some (s.selectConsole nrConsole)

def ScreenStep (s : Screen) (a : ScreenAct) (s' : Screen) : Prop := screenStep s a = some s'

/-- The consoles have been set up, after the boot has left the position inside the first one. -/
def ScreenStart (s : Screen) : Prop :=
  ∃ s₀ : Screen, 0 ≤ (s₀.dispPos.sdiv 2).toInt ∧
    (s₀.dispPos.sdiv 2).toInt < (vMemSize >>> 1 / BitVec.ofNat 32 nrConsoles).toInt ∧
      s₀.initScreens = .ok s

end MyOS
