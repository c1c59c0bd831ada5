import MyOS.Fs.Open
import Mathlib.Algebra.Ring.Int.Defs

/-!
# Reading and writing

`do_rdwt` of `fs/read_write.c`. `pos_end` is the smaller of two numbers without a sign; the sectors
up to that of `pos_end` are gone through in turns of at most `FSBUF_SIZE` bytes, and each turn moves
what is left of the request, up to the end of its sectors.
-/

namespace MyOS

open Memory Block

/-- A turn of the loop: its first sector, the place in it, what has been moved before and what is
moved in the turn. -/
structure RdwtTurn where
  sect : Int
  off : Int
  bytesRw : Int
  bytes : Int
  deriving DecidableEq, Repr

/-- The turns, `fuel` at most, which no loop that starts runs out of. -/
def rdwtLoop (rwSectMax chunk : Int) : ℕ → Int → Int → Int → Int → List RdwtTurn
  | 0, _, _, _, _ => []
  | fuel + 1, i, off, bytesRw, bytesLeft =>
    if i ≤ rwSectMax then
      let bytes := min bytesLeft (chunk * sectorSize - off)
      ⟨i, off, bytesRw, bytes⟩ ::
        rdwtLoop rwSectMax chunk fuel (i + chunk) 0 (bytesRw + bytes) (bytesLeft - bytes)
    else []

/-- `pos_end`: what the file holds bounds a read, what is allocated a write. -/
def rdwtEnd (x : DiskInode) (isRead : Bool) (pos len : BitVec 32) : BitVec 32 :=
  let bound := if isRead then x.iSize.toNat else (x.iNrSects * sectorSize).toNat
  BitVec.ofNat 32 (min (pos + len).toNat bound)

/-- The sector of a position. -/
def rwSect (x : DiskInode) (pos : BitVec 32) : Int := (x.iStartSect + pos.sshiftRight 9).toInt

/-- The sectors of a turn and the turns of a request for `len` bytes at `pos`. -/
def rdwtTurns (x : DiskInode) (isRead : Bool) (pos len : BitVec 32) : Int × List RdwtTurn :=
  let off := pos.toInt.tmod sectorSize
  let rwSectMin := rwSect x pos
  let rwSectMax := rwSect x (rdwtEnd x isRead pos len)
  let chunk := min (rwSectMax - rwSectMin + 1) (fsbufSize / sectorSize : ℕ)
  (chunk, rdwtLoop rwSectMax chunk (rwSectMax - rwSectMin + 1).toNat rwSectMin off 0 len.toInt)

/-- A turn of a write: its sectors are read, the bytes put in, and the sectors written back. -/
def writeTurn (user : Addr → Byte) (buf : Addr) (chunk : Int) (disk : Bytes) (t : RdwtTurn) :
    Except Fault Bytes :=
  if t.bytes < 0 ∨ t.off < 0 then .error .wild
  else
    let n := (chunk * sectorSize).toNat
    let fsbuf := blit (from_ disk (sectPos t.sect)) t.off.toNat t.bytes.toNat fun i =>
      user (buf + BitVec.ofInt 32 t.bytesRw + BitVec.ofNat 32 i)
    .ok (blit disk (sectPos t.sect) n fsbuf)

/-- A turn of a read, as far as the file system keeps anything of it. -/
def readTurn (t : RdwtTurn) : Except Fault Unit :=
  if t.bytes < 0 ∨ t.off < 0 then .error .wild else .ok ()

/-- The descriptor and the inode of a request, none where it is refused. -/
def rdwtDesc (fs : Fs) (pcaller : Slot) (fd : BitVec 32) :
    Except Fault (Option (Entry × Entry)) := do
  match ← filpAt fs pcaller fd with
  | (_, none) => .error .assertion
  | (_, some d) =>
    if (fs.fDescTable d).fdMode &&& oRdwr = 0 then .ok none
    else
      match (fs.fDescTable d).fdInode with
      | none => .error .assertion
      | some p => .ok (some (d, p))

/-- The disk after the turns of a request. Each turn is taken to move all its sectors, as the driver
does as long as they are at most 256 (`doRdwtHd`). -/
def rdwtDisk (user : Addr → Byte) (buf : Addr) (isRead : Bool) (disk : Bytes) (chunk : Int)
    (turns : List RdwtTurn) : Except Fault Bytes :=
  if isRead then do
    turns.forM readTurn
    .ok disk
  else turns.foldlM (writeTurn user buf chunk) disk

/-- The position moves by what has been moved, and the size follows it. -/
def rdwtAdvance (fs : Fs) (d p : Entry) (bytesRw : Int) : Except Fault (Int × Fs) :=
  let fdPos := (fs.fDescTable d).fdPos + BitVec.ofInt 32 bytesRw
  let fs := fs.setDesc d fun x => { x with fdPos }
  if (fs.inodeTable p).iSize.toNat < fdPos.toNat then do
    let fs ← syncInode (fs.setInode p fun x => { x with iSize := fdPos }) p
    .ok (bytesRw, fs)
  else .ok (bytesRw, fs)

/-- A request for a file or a directory, through descriptor `d` and inode `p`. -/
def rdwtFile (user : Addr → Byte) (fs : Fs) (isRead : Bool) (msg : Message) (d p : Entry) :
    Except Fault (Int × Fs) := do
  let pin := fs.inodeTable p
  assert (pin.iMode = iRegular ∨ pin.iMode = iDirectory)
  let (chunk, turns) := rdwtTurns pin.toDiskInode isRead (fs.fDescTable d).fdPos msg.cnt
  let disk ← rdwtDisk user msg.buf isRead fs.disk chunk turns
  rdwtAdvance { fs with disk } d p (turns.map RdwtTurn.bytes).sum

/-- The request is a `READ` or a `WRITE`. A terminal answers at once as far as the file system is
concerned: with the count, after which the reply may be held back. -/
def doRdwt (user : Addr → Byte) (fs : Fs) (pcaller : Slot) (isRead : Bool) (msg : Message) :
    Except Fault (Int × Fs) := do
  match ← rdwtDesc fs pcaller msg.fd with
  | none => .ok (-1, fs)
  | some (d, p) =>
    if (fs.inodeTable p).iMode &&& iTypeMask = iCharSpecial then do
      assert (major (fs.inodeTable p).iStartSect = devCharTty)
      .ok (msg.cnt.toInt, fs)
    else rdwtFile user fs isRead msg d p

end MyOS
