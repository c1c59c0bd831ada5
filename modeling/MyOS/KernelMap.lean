import MyOS.ProcRuns

/-!
# The map of the kernel

`get_boot_params` and `get_kernel_map` of `kernel/klib.c`, which walk the section headers of the
kernel file where the loader has left it, and the table that `kernel_main` builds with the result:
the segments of `INIT` are to hold the kernel.
-/

namespace MyOS

open Memory Block

def bootParamAddr : Addr := 0x900
def bootParamMagic : BitVec 32 := 0xB007

def biMag : ℕ := 0
def biMemSize : ℕ := 1
def biKernelFile : ℕ := 2

def elfmag : List Byte := [0x7F, 0x45, 0x4C, 0x46]
def shfAlloc : BitVec 32 := 0x2

structure BootParams where
  memSize : BitVec 32
  kernelFile : Addr
  deriving DecidableEq, Repr

/-- `memcmp(s1, ELFMAG, SELFMAG) == 0`. A null pointer never compares equal. -/
def HasElfmag (mem : Mem) (s1 : Addr) : Prop :=
  s1 ≠ 0 ∧ (List.range elfmag.length).map (bytesAt mem s1) = elfmag

instance (mem : Mem) (s1 : Addr) : Decidable (HasElfmag mem s1) :=
  inferInstanceAs (Decidable (_ ∧ _))

def getBootParams (mem : Mem) : Except Fault BootParams := do
  let p := bytesAt mem bootParamAddr
  assert (word p (4 * biMag) = bootParamMagic)
  let pbp := ⟨word p (4 * biMemSize), word p (4 * biKernelFile)⟩
  assert (HasElfmag mem pbp.kernelFile)
  .ok pbp

def eShoff (f : Bytes) : BitVec 32 := word f 32
def eShentsize (f : Bytes) : BitVec 16 := half f 46
def eShnum (f : Bytes) : BitVec 16 := half f 48

structure SectHdr where
  shFlags : BitVec 32
  shAddr : BitVec 32
  shSize : BitVec 32
  deriving DecidableEq, Repr

def sectHdr (f : Bytes) (i : ℕ) : SectHdr :=
  let a := (eShoff f).toNat + i * (eShentsize f).toNat
  ⟨word f (a + 8), word f (a + 12), word f (a + 20)⟩

/-- Whether a section is in memory when the kernel runs. -/
def SectHdr.Alloc (h : SectHdr) : Prop := h.shFlags &&& shfAlloc ≠ 0

instance (h : SectHdr) : Decidable h.Alloc := inferInstanceAs (Decidable (_ ≠ _))

/-- The loop over the section headers from number `i` on, of which there are `left`: `*b` and `t`.
`bottom` and `top` are signed, but are compared with what is not. -/
def mapLoop (f : Bytes) : ℕ → ℕ → BitVec 32 → BitVec 32 → BitVec 32 × BitVec 32
  | 0, _, b, t => (b, t)
  | left + 1, i, b, t =>
    let h := sectHdr f i
    if h.Alloc then
      let bottom := h.shAddr
      let top := h.shAddr + h.shSize
      mapLoop f left (i + 1) (if bottom < b then bottom else b) (if t < top then top else t)
    else mapLoop f left (i + 1) b t

/-- `*b` and `*l`, none where -1 is returned. -/
def getKernelMap (mem : Mem) : Except Fault (Option (BitVec 32 × BitVec 32)) := do
  let bp ← getBootParams mem
  if HasElfmag mem bp.kernelFile then
    let f := bytesAt mem bp.kernelFile
    let (b, t) := mapLoop f (eShnum f).toNat 0 (~~~0) 0
    assert (b < t)
    .ok (some (b, t - b - 1))
  else .ok none

/-- `kernel_main`, with the limit for `INIT` from the kernel file. -/
def kernelMainMap (mem : Mem) : Except Fault Kernel := do
  match ← getKernelMap mem with
  | some (kBase, kLimit) => .ok (kernelMain mem (kBase + kLimit))
  | none => .error .assertion

end MyOS
