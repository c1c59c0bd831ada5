import MyOS.KernelAsm
import MyOS.Lib.Loop

/-!
# The string functions

`memcpy`, `memset`, `strcpy` and `strlen` of `lib/string.asm`, instruction by instruction. All
segments are flat.
-/

namespace MyOS

open Memory

namespace Machine

def al (m : Machine) : Byte := m.cpu.eax.setWidth 8

/-- `push ebp` and `mov ebp, esp` -/
def frame (m : Machine) : Machine :=
  let m := m.push m.cpu.ebp
  { m with cpu := { m.cpu with ebp := m.cpu.esp } }

/-- A word at an offset to `ebp`. -/
def arg (m : Machine) (i : ℕ) : BitVec 32 := load32 m.mem (m.cpu.ebp + BitVec.ofNat 32 i)

/-- `pop ebp` and `ret` -/
def leave (m : Machine) : Machine :=
  (m.pop fun c v => { c with ebp := v }).pop fun c v => { c with eip := v }

/-- `esi`, `edi` and `ecx` are pushed, -/
def saveIndex (m : Machine) : Machine := ((m.push m.cpu.esi).push m.cpu.edi).push m.cpu.ecx

/-- and popped, and the stack is that of the caller again. -/
def restoreIndex (m : Machine) : Machine :=
  let m := m.pop fun c v => { c with ecx := v }
  let m := m.pop fun c v => { c with edi := v }
  let m := m.pop fun c v => { c with esi := v }
  { m with cpu := { m.cpu with esp := m.cpu.ebp } }

/-- A byte goes to where `edi` points, which goes on. -/
def storeByte (m : Machine) (v : Byte) : Machine :=
  { m with
    mem := Function.update m.mem m.cpu.edi v
    cpu := { m.cpu with edi := m.cpu.edi + 1 } }

/-- The byte where `esi` points goes to `al`. -/
def loadByte (m : Machine) : Machine :=
  let m := m.setAl (m.mem m.cpu.esi)
  { m with cpu := { m.cpu with esi := m.cpu.esi + 1 } }

def decEcx (m : Machine) : Machine := { m with cpu := { m.cpu with ecx := m.cpu.ecx - 1 } }

def ecxZero (m : Machine) : Bool := m.cpu.ecx = 0

/-- A turn of the loop of `memcpy`, -/
def memcpyTurn (m : Machine) : Machine :=
  let m := m.loadByte
  (m.storeByte m.al).decEcx

def memcpy (fuel : ℕ) (m : Machine) : Option Machine :=
  let m := m.frame.saveIndex
  let m := { m with cpu := { m.cpu with edi := m.arg 8, esi := m.arg 12, ecx := m.arg 16 } }
  (Loop.exec ecxZero memcpyTurn fuel m).map fun m =>
    let m := { m with cpu := { m.cpu with eax := m.arg 8 } }
    m.restoreIndex.leave

/-- of `memset`, -/
def memsetTurn (m : Machine) : Machine := (m.storeByte (m.cpu.edx.setWidth 8)).decEcx

def memset (fuel : ℕ) (m : Machine) : Option Machine :=
  let m := m.frame.saveIndex
  let m := { m with cpu := { m.cpu with edi := m.arg 8, edx := m.arg 12, ecx := m.arg 16 } }
  (Loop.exec ecxZero memsetTurn fuel m).map fun m => m.restoreIndex.leave

/-- of `strcpy`, whose test comes behind it, -/
def strcpyTurn (m : Machine) : Machine :=
  let m := m.loadByte
  m.storeByte m.al

def strcpy (fuel : ℕ) (m : Machine) : Option Machine :=
  let m := m.frame
  let m := { m with cpu := { m.cpu with esi := m.arg 12, edi := m.arg 8 } }
  (Loop.exec (fun m => m.al = 0) strcpyTurn fuel m.strcpyTurn).map fun m =>
    let m := { m with cpu := { m.cpu with eax := m.arg 8 } }
    m.leave

/-- and of `strlen`. -/
def strlenTurn (m : Machine) : Machine :=
  { m with cpu := { m.cpu with esi := m.cpu.esi + 1, eax := m.cpu.eax + 1 } }

def strlen (fuel : ℕ) (m : Machine) : Option Machine :=
  let m := m.frame
  let m := { m with cpu := { m.cpu with eax := 0, esi := m.arg 8 } }
  (Loop.exec (fun m => m.mem m.cpu.esi = 0) strlenTurn fuel m).map fun m => m.leave

end Machine

/-- A string of `n` bytes and its null. -/
def StringAt (mem : Mem) (a : Addr) (n : ℕ) : Prop :=
  (∀ i < n, mem (a + BitVec.ofNat 32 i) ≠ 0) ∧ mem (a + BitVec.ofNat 32 n) = 0

/-- What the string functions do for a caller that has pushed its arguments: the result, and the
registers it finds. The stack below the arguments is used for what is saved. -/
structure StringFunctions (m : Machine) (ret : Addr) : Prop where
  /-- The bytes are copied upwards, also where the blocks overlap, -/
  memcpy : ∀ dst src size fuel, WordsAt m.mem m.cpu.esp [ret, dst, src, size] →
    Apart dst size.toNat (m.cpu.esp - 16) 32 → Apart src size.toNat (m.cpu.esp - 16) 16 →
      size.toNat < fuel → ∃ mem, m.memcpy fuel = some { m with
        mem
        cpu := { m.cpu with eax := dst, eip := ret, esp := m.cpu.esp + 4 } } ∧
          ∀ x, ¬ Within x (m.cpu.esp - 16) 16 →
            mem x = Memory.memcpy m.mem dst src size.toNat x
  /-- or all are the same; what `eax` held is returned, and `edx` is not saved. -/
  memset : ∀ dst ch size fuel, WordsAt m.mem m.cpu.esp [ret, dst, ch, size] →
    Apart dst size.toNat (m.cpu.esp - 16) 32 → size.toNat < fuel →
      ∃ mem, m.memset fuel = some { m with
        mem
        cpu := { m.cpu with edx := ch, eip := ret, esp := m.cpu.esp + 4 } } ∧
          ∀ x, ¬ Within x (m.cpu.esp - 16) 16 →
            mem x = poke m.mem dst size.toNat (fun _ => ch.setWidth 8) x
  /-- `esi` and `edi` are not saved: they end behind the string and its copy, -/
  strcpy : ∀ dst src n fuel, WordsAt m.mem m.cpu.esp [ret, dst, src] → StringAt m.mem src n →
    n < 2 ^ 32 → Apart dst (n + 1) (m.cpu.esp - 4) 16 → Apart src (n + 1) (m.cpu.esp - 4) 4 →
      Apart dst (n + 1) src (n + 1) → n < fuel → ∃ mem, m.strcpy fuel = some { m with
        mem
        cpu := { m.cpu with
          eax := dst
          esi := src + BitVec.ofNat 32 (n + 1)
          edi := dst + BitVec.ofNat 32 (n + 1)
          eip := ret
          esp := m.cpu.esp + 4 } } ∧
          ∀ x, ¬ Within x (m.cpu.esp - 4) 4 → mem x =
            poke m.mem dst (n + 1) (fun i => m.mem (src + BitVec.ofNat 32 i)) x
  /-- and here `esi` at the null. -/
  strlen : ∀ src n fuel, WordsAt m.mem m.cpu.esp [ret, src] → StringAt m.mem src n → n < 2 ^ 32 →
    Apart src (n + 1) (m.cpu.esp - 4) 4 → n < fuel → m.strlen fuel = some { m with
      mem := store32 m.mem (m.cpu.esp - 4) m.cpu.ebp
      cpu := { m.cpu with
        eax := BitVec.ofNat 32 n
        esi := src + BitVec.ofNat 32 n
        eip := ret
        esp := m.cpu.esp + 4 } }
  /-- Without a null, the loop does not end. -/
  endless : ∀ src, WordsAt m.mem m.cpu.esp [ret, src] →
    ((∃ fuel m', m.strlen fuel = some m') ↔
      ∃ x, store32 m.mem (m.cpu.esp - 4) m.cpu.ebp x = 0)

end MyOS
