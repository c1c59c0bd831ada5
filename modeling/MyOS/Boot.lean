import MyOS.Const
import MyOS.Lib.Block

/-!
# Loading a file from the floppy disk

`ReadSector`, `GetFATEntry` and the loading loop of `boot/boot.asm` and `boot/loader.asm`, from
`LABEL_FILENAME_FOUND` on. The registers have sixteen bits; the variables in the boot sector and
the stack are apart from the memory that is read into. The dots on the screen are left out. What
`int 13h` does is a parameter.
-/

namespace MyOS

open Memory Block

def rootDirSectors : BitVec 16 := 14
def deltaSectorNo : BitVec 16 := 17
def sectorNoOfFAT1 : BitVec 16 := 1
def bpbBytsPerSec : BitVec 16 := 512
def bpbSecPerTrk : Byte := 18
def bsDrvNum : Byte := 0

def loaderSeg : BitVec 16 := 0x9000
def loaderOff : BitVec 16 := 0x100
def kernelFileSeg : BitVec 16 := 0x5000
def kernelFileOff : BitVec 16 := 0
def kernelValidSpace : BitVec 32 := 0x40000

/-- What `int 13h` is asked to read: `ah` is 2, and these are the other registers. -/
structure DiskRead where
  al : Byte
  ch : Byte
  cl : Byte
  dh : Byte
  dl : Byte
  es : BitVec 16
  bx : BitVec 16

def linearAddr (seg off : BitVec 16) : ℕ := seg.toNat * 16 + off.toNat

/-- The carry flag and the memory after `int 13h`, by how often the same has been asked before. -/
abbrev Bios := ℕ → DiskRead → Bytes → Bool × Bytes

structure Boot where
  ax : BitVec 16
  bx : BitVec 16
  cx : BitVec 16
  dx : BitVec 16
  es : BitVec 16
  stack : List (BitVec 16)
  bOdd : Byte
  mem : Bytes
  /-- What has been read. -/
  reads : List DiskRead

/-- `word [a]` -/
def word16 (mem : Bytes) (a : ℕ) : BitVec 16 := mem (a + 1) ++ mem a

namespace Boot

variable (m : Boot)

def push (v : BitVec 16) : Boot := { m with stack := v :: m.stack }

def pop : Except Fault (BitVec 16 × Boot) :=
  match m.stack with
  | [] => .error .wild
  | v :: stack => .ok (v, { m with stack })

/-- `mov cl, v` -/
def setCl (v : Byte) : Boot := { m with cx := (m.cx >>> 8).setWidth 8 ++ v }

/-- `mul bx` -/
def mulBx : Boot :=
  let p := m.ax.toNat * m.bx.toNat
  { m with ax := BitVec.ofNat 16 p, dx := BitVec.ofNat 16 (p / 0x10000) }

/-- `div bx`, which traps where the quotient does not fit. -/
def divBx : Except Fault Boot :=
  let p := m.dx.toNat * 0x10000 + m.ax.toNat
  if m.bx = 0 ∨ 0x10000 ≤ p / m.bx.toNat then .error .panic
  else .ok { m with ax := BitVec.ofNat 16 (p / m.bx.toNat), dx := BitVec.ofNat 16 (p % m.bx.toNat) }

end Boot

/-- `.GoOnReading`, with `n` tries at most. -/
def goOnReading (bios : Bios) (r : DiskRead) : ℕ → ℕ → Bytes → Except Fault Bytes
  | 0, _, _ => .error .spin
  | n + 1, k, mem =>
    let (carry, mem) := bios k r mem
    if carry then goOnReading bios r n (k + 1) mem else .ok mem

/-- `ReadSector`. `int 13h` leaves the number of sectors in `ax`. -/
def readSector (bios : Bios) (n : ℕ) (m : Boot) : Except Fault Boot := do
  let count := m.cx.setWidth 8
  let bl := bpbSecPerTrk.setWidth 16
  if 0x100 ≤ (m.ax / bl).toNat then .error .panic
  else do
    let al := (m.ax / bl).setWidth 8
    let ah := (m.ax % bl).setWidth 8
    let cl := ah + 1
    let ch := al >>> 1
    let dh := al &&& 1
    let dl := bsDrvNum
    let r : DiskRead := { al := count, ch, cl, dh, dl, es := m.es, bx := m.bx }
    let mem ← goOnReading bios r n 0 m.mem
    .ok { m with ax := count.setWidth 16, cx := ch ++ cl, dx := dh ++ dl, mem,
                 reads := m.reads ++ [r] }

/-- `GetFATEntry` up to the sector of the entry; the file is loaded to the segment `seg`. -/
def locateEntry (seg : BitVec 16) (m : Boot) : Except Fault Boot := do
  let m := ((m.push m.es).push m.bx).push m.ax
  let m := { m with ax := seg }
  let m := { m with ax := m.ax - 0x100 }
  let m := { m with es := m.ax }
  let (ax, m) ← m.pop
  let m := { m with ax, bOdd := 0 }
  let m := { m with bx := 3 }
  let m := m.mulBx
  let m := { m with bx := 2 }
  let m ← m.divBx
  let m := if m.dx = 0 then m else { m with bOdd := 1 }
  let m := { m with dx := 0 }
  let m := { m with bx := bpbBytsPerSec }
  let m ← m.divBx
  let m := m.push m.dx
  let m := { m with bx := 0 }
  let m := { m with ax := m.ax + sectorNoOfFAT1 }
  .ok (m.setCl 2)

/-- `GetFATEntry` from there on. -/
def takeEntry (m : Boot) : Except Fault Boot := do
  let (dx, m) ← m.pop
  let m := { m with dx }
  let m := { m with bx := m.bx + m.dx }
  let m := { m with ax := word16 m.mem (linearAddr m.es m.bx) }
  let m : Boot := if m.bOdd = (1 : Byte) then { m with ax := m.ax >>> 4 } else m
  let m := { m with ax := m.ax &&& 0xFFF }
  let (bx, m) ← m.pop
  let m := { m with bx }
  let (es, m) ← m.pop
  .ok { m with es }

def getFATEntry (bios : Bios) (n : ℕ) (seg : BitVec 16) (m : Boot) : Except Fault Boot := do
  let m ← locateEntry seg m
  let m ← readSector bios n m
  takeEntry m

/-- The sector of a cluster, in `ax`. -/
def nextSector (m : Boot) : Boot :=
  let m := m.push m.ax
  let m := { m with dx := rootDirSectors }
  let m := { m with ax := m.ax + m.dx }
  { m with ax := m.ax + deltaSectorNo }

/-- `add bx, [BPB_BytsPerSec]` in the boot sector. -/
def addBxBoot (m : Boot) : Boot := { m with bx := m.bx + bpbBytsPerSec }

/-- The same in the loader, which goes on to the next segment. -/
def addBxLoader (m : Boot) : Boot :=
  let carry := 0x10000 ≤ m.bx.toNat + bpbBytsPerSec.toNat
  let m := { m with bx := m.bx + bpbBytsPerSec }
  if carry then { m with es := m.es + 0x1000 } else m

/-- `LABEL_GOON_LOADING_FILE`, in `n` turns at most and as many tries. -/
def goonLoadingFile (bios : Bios) (tries : ℕ) (seg : BitVec 16) (addBx : Boot → Boot) :
    ℕ → Boot → Except Fault Boot
  | 0, _ => .error .spin
  | n + 1, m => do
    let m ← readSector bios tries (m.setCl 1)
    let (ax, m) ← m.pop
    let m ← getFATEntry bios tries seg { m with ax }
    if m.ax = 0xFFF then .ok m
    else goonLoadingFile bios tries seg addBx n (addBx (nextSector m))

/-- From the directory entry on, whose first cluster is `[es:di]`. -/
def startLoading (seg off di : BitVec 16) (m : Boot) : Boot :=
  let m := { m with ax := rootDirSectors }
  let m := { m with cx := word16 m.mem (linearAddr m.es di) }
  let m := m.push m.cx
  let m := { m with cx := m.cx + m.ax }
  let m := { m with cx := m.cx + deltaSectorNo }
  let m := { m with ax := seg }
  let m := { m with es := m.ax }
  let m := { m with bx := off }
  { m with ax := m.cx }

/-- `LABEL_FILENAME_FOUND` of the boot sector. -/
def loadLoader (bios : Bios) (n : ℕ) (di : BitVec 16) (m : Boot) : Except Fault Boot :=
  let di := di &&& 0xFFE0
  let di := di + 0x1A
  goonLoadingFile bios n loaderSeg addBxBoot n (startLoading loaderSeg loaderOff di m)

/-- `LABEL_FILENAME_FOUND` of the loader. A file that is too large is not loaded. -/
def loadKernel (bios : Bios) (n : ℕ) (di : BitVec 16) (m : Boot) : Except Fault Boot :=
  let di := di &&& 0xFFF0
  let dwKernelSize := word m.mem (linearAddr m.es (di + 0x1C))
  if kernelValidSpace < dwKernelSize then .error .spin
  else
    let di := di + 0x1A
    goonLoadingFile bios n kernelFileSeg addBxLoader n
      (startLoading kernelFileSeg kernelFileOff di m)

end MyOS
