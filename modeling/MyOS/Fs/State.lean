import MyOS.Const
import MyOS.Message
import MyOS.Lib.Block

/-!
# What the file system keeps

The disk by byte position in the partition, the inode and descriptor tables, and the `filp` array
of every process; `rw_sector` and the inode functions of `fs/main.c` over them. There is one
device, so the device numbers of super blocks and inodes are left out; the disk driver does what it
is asked for.
-/

namespace MyOS

open Memory Block

def sectorSize : ℕ := 512
def maxPath : ℕ := 128
def maxFilenameLen : ℕ := 12
def dirEntrySize : ℕ := 16
def inodeSize : ℕ := 32
def fsbufSize : ℕ := 0x40000
def nrDefaultFileSects : ℕ := 512
def installStartSect : ℕ := 0x8000
def installNrSects : ℕ := 0x800
def nrSectsForLog : ℕ := nrDefaultFileSects
def nrConsoles : ℕ := 3

def rootInodeNr : ℕ := 1
def invalidInode : BitVec 32 := 0

def iTypeMask : BitVec 32 := 0xF000
def iRegular : BitVec 32 := 0x8000
def iDirectory : BitVec 32 := 0x4000
def iCharSpecial : BitVec 32 := 0x2000
def iBlockSpecial : BitVec 32 := 0x6000

def oCreat : BitVec 32 := 1
def oRdwr : BitVec 32 := 2

def noDev : BitVec 32 := 0
def devCharTty : BitVec 32 := 4
def makeDev (a b : BitVec 32) : BitVec 32 := a <<< 8 ||| b
def major (x : BitVec 32) : BitVec 32 := x >>> 8 &&& 0xFF

/-- An entry of `inode_table`, of `f_desc_table` or of `filp`: each has 64. -/
abbrev Entry := Fin 64

/-- `struct super_block`, as far as the code reads it. -/
structure SuperBlock where
  nrSects : ℕ
  nrImapSects : ℕ
  nrSmapSects : ℕ
  n1stSect : ℕ
  deriving DecidableEq, Repr

/-- The part of `struct inode` that is on the disk. -/
structure DiskInode where
  iMode : BitVec 32
  iSize : BitVec 32
  iStartSect : BitVec 32
  iNrSects : BitVec 32
  deriving DecidableEq, Repr, Inhabited

structure Inode extends DiskInode where
  iCnt : Int
  iNum : Int
  deriving DecidableEq, Repr, Inhabited

structure FileDesc where
  fdMode : BitVec 32
  fdPos : BitVec 32
  fdCnt : Int
  fdInode : Option Entry
  deriving DecidableEq, Repr, Inhabited

structure Fs where
  disk : Bytes
  sb : SuperBlock
  inodeTable : Entry → Inode
  fDescTable : Entry → FileDesc
  filp : Slot → Entry → Option Entry
  rootInode : Entry

namespace Fs

def setInode (fs : Fs) (p : Entry) (f : Inode → Inode) : Fs :=
  { fs with inodeTable := Function.update fs.inodeTable p (f (fs.inodeTable p)) }

def setDesc (fs : Fs) (d : Entry) (f : FileDesc → FileDesc) : Fs :=
  { fs with fDescTable := Function.update fs.fDescTable d (f (fs.fDescTable d)) }

def setFilp (fs : Fs) (p : Slot) (fd : Entry) (d : Option Entry) : Fs :=
  { fs with filp := Function.update fs.filp p (Function.update (fs.filp p) fd d) }

end Fs

/-! ## Sectors -/

/-- Where on the disk the driver finds sector `sect`: `rw_sector` gets the product of two `int`s as
a `u64`, and the driver shifts it back into a sector number of 32 bits. -/
def sectPos (sect : Int) : ℕ :=
  (((BitVec.ofInt 32 (sect * sectorSize)).signExtend 64 >>> 9).setWidth 32).toNat * sectorSize

/-- `RD_SECT`: the contents of `fsbuf` after it. -/
def rdSect (disk : Bytes) (sect : Int) : Bytes := from_ disk (sectPos sect)

/-- `WR_SECT` -/
def wrSect (disk : Bytes) (sect : Int) (fsbuf : Bytes) : Bytes :=
  blit disk (sectPos sect) sectorSize fsbuf

/-- The disk with the sectors written so far, the last one first. -/
structure Device where
  disk : Bytes
  written : List Int

def Device.wr (d : Device) (sect : Int) (fsbuf : Bytes) : Device :=
  ⟨wrSect d.disk sect fsbuf, sect :: d.written⟩

/-! ## Inodes -/

/-- The sector of an inode. -/
def inodeBlk (sb : SuperBlock) (num : Int) : Int :=
  1 + 1 + sb.nrImapSects + sb.nrSmapSects + (num - 1).tdiv (sectorSize / inodeSize : ℕ)

/-- Its place in the sector: before `fsbuf` for some numbers below 1. -/
def inodeOff (num : Int) : Int := (num - 1).tmod (sectorSize / inodeSize : ℕ) * inodeSize

def readInode (fsbuf : Bytes) (off : ℕ) : DiskInode :=
  ⟨word fsbuf off, word fsbuf (off + 4), word fsbuf (off + 8), word fsbuf (off + 12)⟩

def writeInode (fsbuf : Bytes) (off : ℕ) (x : DiskInode) : Bytes :=
  putWord (putWord (putWord (putWord fsbuf off x.iMode) (off + 4) x.iSize) (off + 8) x.iStartSect)
    (off + 12) x.iNrSects

/-- A null pointer for number 0. -/
def getInode (fs : Fs) (num : Int) : Except Fault (Option Entry × Fs) :=
  if num = 0 then .ok (none, fs)
  else
    match (List.finRange 64).find? fun p =>
      (fs.inodeTable p).iCnt ≠ 0 ∧ (fs.inodeTable p).iNum = num with
    | some p => .ok (some p, fs.setInode p fun x => { x with iCnt := x.iCnt + 1 })
    | none =>
      match (List.finRange 64).find? fun p => (fs.inodeTable p).iCnt = 0 with
      | none => .error .panic
      | some q =>
        if inodeOff num < 0 then .error .wild
        else
          let fsbuf := rdSect fs.disk (inodeBlk fs.sb num)
          .ok (some q, fs.setInode q fun _ =>
            { readInode fsbuf (inodeOff num).toNat with iCnt := 1, iNum := num })

def syncInode (fs : Fs) (p : Entry) : Except Fault Fs :=
  let x := fs.inodeTable p
  if inodeOff x.iNum < 0 then .error .wild
  else
    let blk := inodeBlk fs.sb x.iNum
    let fsbuf := writeInode (rdSect fs.disk blk) (inodeOff x.iNum).toNat x.toDiskInode
    .ok { fs with disk := wrSect fs.disk blk fsbuf }

def putInode (fs : Fs) (p : Entry) : Except Fault Fs := do
  assert (0 < (fs.inodeTable p).iCnt)
  .ok (fs.setInode p fun x => { x with iCnt := x.iCnt - 1 })

end MyOS
