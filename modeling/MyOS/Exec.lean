import MyOS.Fs.Misc

/-!
# exec

The copies `do_exec` of `mm/exec.c` makes from and to the memory of its caller. `mmbuf` is the file
as it has been read; its headers are laid out as in any ELF file of 32 bits.
-/

namespace MyOS

open Memory Block

def mmbufSize : ℕ := 0x100000
def procOriginStack : ℕ := 0x400
def ptLoad : BitVec 32 := 1

/-- A copy from or to the memory of a process: where, as the process addresses it, and how many
bytes, as the copy counts them down. -/
structure UserCopy where
  va : Addr
  n : BitVec 32
  deriving DecidableEq, Repr

def half (f : Bytes) (a : ℕ) : BitVec 16 := f (a + 1) ++ f a

def ePhoff (mmbuf : Bytes) : BitVec 32 := word mmbuf 28
def ePhentsize (mmbuf : Bytes) : BitVec 16 := half mmbuf 42
def ePhnum (mmbuf : Bytes) : BitVec 16 := half mmbuf 44

structure ProgHdr where
  pType : BitVec 32
  pOffset : BitVec 32
  pVaddr : BitVec 32
  pFilesz : BitVec 32
  pMemsz : BitVec 32
  deriving DecidableEq, Repr

def progHdr (mmbuf : Bytes) (i : ℕ) : ProgHdr :=
  let a := (ePhoff mmbuf).toNat + i * (ePhentsize mmbuf).toNat
  ⟨word mmbuf a, word mmbuf (a + 4), word mmbuf (a + 8), word mmbuf (a + 16), word mmbuf (a + 20)⟩

/-- The sum is one of words, which may wrap. -/
def ProgHdr.Fits (h : ProgHdr) (imageSize : BitVec 32) : Prop :=
  (h.pVaddr + h.pMemsz).toNat < imageSize.toNat

instance (h : ProgHdr) (imageSize : BitVec 32) : Decidable (h.Fits imageSize) :=
  inferInstanceAs (Decidable (_ < _))

/-- The loop over the program headers from number `i` on, of which there are `left`: the copies,
and whether every assertion held. The headers are those of the file: a copy that
changes one of them is itself outside of the caller's image. -/
def loadLoop (mmbuf : Bytes) (imageSize : BitVec 32) : ℕ → ℕ → List UserCopy × Bool
  | 0, _ => ([], true)
  | left + 1, i =>
    let h := progHdr mmbuf i
    if h.pType = ptLoad then
      if h.Fits imageSize then
        let (copies, ok) := loadLoop mmbuf imageSize left (i + 1)
        (⟨h.pVaddr, h.pFilesz⟩ :: copies, ok)
      else ([], false)
    else loadLoop mmbuf imageSize left (i + 1)

/-- What the memory manager gets from the file system on the way: the status of the file, the
descriptor, and the bytes read. -/
structure ExecFile where
  stat : Option Stat
  fd : Int
  mmbuf : Bytes

/-- The copies of `do_exec`, in order. The relocation of the argument pointers, between the last
two, is in the memory manager's own memory. -/
def doExecCopies (file : ExecFile) (imageSize : BitVec 32) (msg : Message) : List UserCopy :=
  if maxPath ≤ msg.nameLen.toInt then []
  else
    let path := ⟨msg.pathname, msg.nameLen⟩
    match file.stat with
    | none => [path]
    | some s =>
      if file.fd = -1 then [path]
      else if mmbufSize ≤ s.stSize.toInt then [path]
      else
        let (segments, ok) := loadLoop file.mmbuf imageSize (ePhnum file.mmbuf).toNat 0
        if ok then path :: segments ++ [⟨msg.buf, msg.bufLen⟩,
          ⟨imageSize - BitVec.ofNat 32 procOriginStack, msg.bufLen⟩]
        else path :: segments

end MyOS
