import MyOS.Boot
import MyOS.Exec

/-!
# The rest of the loader

What `boot/boot.asm` and `boot/loader.asm` do before a file is loaded: the search in the root
directory; and what the loader does in protected mode behind it: `DispMemInfo`, `SetupPaging`,
`InitKernel` and the parameters for the kernel. The variables and the stack of the loader are apart
from the memory that is written, and what is shown on the screen is left out.
-/

namespace MyOS

open Memory Block

/-! ## The root directory -/

def sectorNoOfRootDirectory : BitVec 16 := 19

/-- `LABEL_CMP_FILENAME`: whether the rest of the name is the same, and `di`. -/
def cmpFilename (mem : Bytes) (es : BitVec 16) : List Byte → BitVec 16 → Bool × BitVec 16
  | [], di => (true, di)
  | al :: name, di =>
    if al = mem (linearAddr es di) then cmpFilename mem es name (di + 1) else (false, di)

/-- `LABEL_SEARCH_FOR_LOADERBIN`, with `dx` entries left in the sector: `di` where the name has been
found. -/
def searchForFile (mem : Bytes) (es : BitVec 16) (name : List Byte) :
    ℕ → BitVec 16 → Option (BitVec 16)
  | 0, _ => none
  | dx + 1, di =>
    let (same, di) := cmpFilename mem es name di
    if same then some di
    else
      let di := di &&& 0xFFE0
      searchForFile mem es name dx (di + 0x20)

/-- `LABEL_SEARCH_IN_ROOT_DIR_BEGIN`, with `left` sectors left. Behind them there is no way on. -/
def searchInRootDir (bios : Bios) (tries : ℕ) (seg off : BitVec 16) (name : List Byte) :
    ℕ → BitVec 16 → Boot → Except Fault (BitVec 16 × Boot)
  | 0, _, _ => .error .spin
  | left + 1, wSectorNo, m => do
    let m := { m with ax := seg }
    let m := { m with es := m.ax }
    let m := { m with bx := off }
    let m := { m with ax := wSectorNo }
    let m ← readSector bios tries (m.setCl 1)
    match searchForFile m.mem m.es name 0x10 off with
    | some di => .ok (di, m)
    | none => searchInRootDir bios tries seg off name left (wSectorNo + 1) m

/-- "LOADER  BIN" -/
def loaderFileName : List Byte :=
  [0x4C, 0x4F, 0x41, 0x44, 0x45, 0x52, 0x20, 0x20, 0x42, 0x49, 0x4E]

/-- "KERNEL  BIN" -/
def kernelFileName : List Byte :=
  [0x4B, 0x45, 0x52, 0x4E, 0x45, 0x4C, 0x20, 0x20, 0x42, 0x49, 0x4E]

/-- The boot sector, up to the jump to the loader. -/
def bootSector (bios : Bios) (n : ℕ) (m : Boot) : Except Fault Boot := do
  let (di, m) ← searchInRootDir bios n loaderSeg loaderOff loaderFileName
    rootDirSectors.toNat sectorNoOfRootDirectory m
  loadLoader bios n di m

/-- The loader, up to protected mode. -/
def loaderReal (bios : Bios) (n : ℕ) (m : Boot) : Except Fault Boot := do
  let (di, m) ← searchInRootDir bios n kernelFileSeg kernelFileOff kernelFileName
    rootDirSectors.toNat sectorNoOfRootDirectory m
  loadKernel bios n di m

/-! ## Protected mode -/

def pageDirBase : Addr := 0x100000
def pageTblBase : Addr := 0x101000
def kernelFilePhyAddr : Addr := 0x50000
def bootParamBase : Addr := 0x900

/-- `PG_P | PG_USU | PG_RWW` -/
def pgFlags : BitVec 32 := 1 ||| 4 ||| 2

/-- How often `loop`, and `dec ecx` with `jnz`, go round. -/
def loopCount (ecx : BitVec 32) : ℕ := if ecx = 0 then 2 ^ 32 else ecx.toNat

/-- `struct ARDS`, the entries of which are one behind the other. `dwMemSize` is the end of the
highest range of type 1. -/
def dispMemInfo (mem : Mem) : ℕ → Addr → BitVec 32 → BitVec 32
  | 0, _, dwMemSize => dwMemSize
  | n + 1, esi, dwMemSize =>
    let dwBaseAddrLow := load32 mem esi
    let dwLengthLow := load32 mem (esi + 8)
    let dwType := load32 mem (esi + 16)
    let dwMemSize :=
      if dwType = 1 then
        let eax := dwBaseAddrLow + dwLengthLow
        if eax < dwMemSize then dwMemSize else eax
      else dwMemSize
    dispMemInfo mem n (esi + 20) dwMemSize

/-- `stosd`, and the next page. -/
def stosPages : ℕ → Addr → BitVec 32 → Mem → Mem
  | 0, _, _, mem => mem
  | n + 1, edi, eax, mem => stosPages n (edi + 4) (eax + 4096) (store32 mem edi eax)

/-- How many tables there are. -/
def pageTables (dwMemSize : BitVec 32) : BitVec 32 :=
  let eax := dwMemSize / 0x400000
  let edx := dwMemSize % 0x400000
  if edx = 0 then eax else eax + 1

def setupPaging (dwMemSize : BitVec 32) (mem : Mem) : Mem :=
  let ecx := pageTables dwMemSize
  let mem := stosPages (loopCount ecx) pageDirBase (pageTblBase ||| pgFlags) mem
  let ecx := ecx * 1024
  stosPages (loopCount ecx) pageTblBase pgFlags mem

/-- `InitKernel`, from a program header on. -/
def initKernelLoop : ℕ → Addr → Mem → Mem
  | 0, _, mem => mem
  | n + 1, esi, mem =>
    let mem :=
      if load32 mem esi = 0 then mem
      else memcpy mem (load32 mem (esi + 8)) (load32 mem (esi + 4) + kernelFilePhyAddr)
        (load32 mem (esi + 0x10)).toNat
    initKernelLoop n (esi + 0x20) mem

def initKernel (mem : Mem) : Mem :=
  let ecx := (load16 mem (kernelFilePhyAddr + 0x2C)).setWidth 32
  initKernelLoop (loopCount ecx) (load32 mem (kernelFilePhyAddr + 0x1C) + kernelFilePhyAddr) mem

def fillBootParam (dwMemSize : BitVec 32) (mem : Mem) : Mem :=
  let mem := store32 mem bootParamBase 0xB007
  let mem := store32 mem (bootParamBase + 4) dwMemSize
  store32 mem (bootParamBase + 8) kernelFilePhyAddr

/-- `LABEL_PM_START`, up to the jump to the kernel. -/
def pmStart (dwMCRNumber : BitVec 32) (memChkBuf : Addr) (mem : Mem) : Mem :=
  let dwMemSize := dispMemInfo mem (loopCount dwMCRNumber) memChkBuf 0
  let mem := setupPaging dwMemSize mem
  let mem := initKernel mem
  fillBootParam dwMemSize mem

/-- The page that an entry, or `cr3`, is about. -/
def pageOf (entry : BitVec 32) : Addr := entry &&& 0xFFFFF000

/-- What the processor makes of a linear address: the physical one, where the page is there, with
the bits that let user code and writes through. -/
def walk (mem : Mem) (cr3 la : Addr) : Option (Addr × BitVec 32) :=
  let pde := load32 mem (pageOf cr3 + (la >>> 22) * 4)
  if pde &&& 1 = 0 then none
  else
    let pte := load32 mem (pageOf pde + ((la >>> 12) &&& 0x3FF) * 4)
    if pte &&& 1 = 0 then none
    else some (pageOf pte + (la &&& 0xFFF), pde &&& pte &&& 6)

end MyOS
