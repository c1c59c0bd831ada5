import MyOS.Hd
import MyOS.Fs.ReadWrite

/-!
# The transfers of the driver

The loop of `hd_rdwt` behind the command: a sector at a time goes between the controller and the
buffer, and `bytes_left` goes down by a whole sector each time. The controller has no more sectors
than the command has asked it for. And `rw_sector` of `fs/main.c`, with the requests that `do_rdwt`
makes through it.
-/

namespace MyOS

open Memory Block

/-- What the loop has in hand and where it is in the buffer, the memory, what `port_write` has sent,
and how many sectors have been moved. -/
structure HdLoop where
  bytesLeft : BitVec 32
  la : Addr
  mem : Mem
  sent : List Byte
  sects : ℕ

namespace HdLoop

/-- With the buffer of the caller at `la`. -/
def start (p : Message) (la : Addr) (mem : Mem) : HdLoop := ⟨p.cnt, la, mem, [], 0⟩

end HdLoop

/-- A turn of the loop, for a sector that the controller has: it is copied as far as bytes are
left, or as many are sent to it, two at a time. A negative number is that of almost all of
memory. -/
def hdTurn (p : Message) (data : ℕ → Bytes) (s : HdLoop) : Except Fault HdLoop :=
  let bytes := min (sectorSize : Int) s.bytesLeft.toInt
  if bytes < 0 then .error .wild
  else
    let s :=
      if p.type = MsgType.devRead.code then
        { s with mem := poke s.mem s.la bytes.toNat (data s.sects) }
      else
        { s with sent := s.sent ++
          (List.range (2 * (bytes.toNat / 2))).map fun i => s.mem (s.la + BitVec.ofNat 32 i) }
    .ok { s with
      bytesLeft := s.bytesLeft - sectorSize
      la := s.la + sectorSize
      sects := s.sects + 1 }

/-- `while(bytes_left)`, for `fuel` turns at most: none where it has not ended then. The controller
has `given` sectors for the command. Behind them a read waits for an interrupt that does not come,
and a write is told so by `waitfor`. -/
def hdLoop (p : Message) (data : ℕ → Bytes) (given : ℕ) :
    ℕ → HdLoop → Except Fault (Option HdLoop)
  | 0, s => .ok (if s.bytesLeft = 0 then some s else none)
  | fuel + 1, s =>
    if s.bytesLeft = 0 then .ok (some s)
    else if s.sects = given then
      if p.type = MsgType.devRead.code then .ok none else .error .panic
    else do
      let s ← hdTurn p data s
      hdLoop p data given fuel s

/-- How many sectors a count stands for: 0 is one of 256. -/
def countSectors (count : BitVec 8) : ℕ := if count = 0 then 256 else count.toNat

def HdCmd.sectors (c : HdCmd) : ℕ := countSectors c.count

/-- The driver is done with a request where the controller gives the sectors its loop waits for. -/
def Message.Answered (m : Message) : Prop := 512 * countSectors (cmdCount m.cnt) = m.cnt.toNat

instance (m : Message) : Decidable m.Answered := inferInstanceAs (Decidable (_ = _))

/-! ## The requests of the file system -/

def minor (x : BitVec 32) : BitVec 32 := x &&& 0xFF

/-- The message of `rw_sector`, for `TASK_FS` and its buffer. -/
def rwSector (ioType : MsgType) (dev : BitVec 32) (pos : BitVec 64) (bytes : Int) : Message :=
  { Message.reset with
    type := ioType.code
    m3i4 := minor dev
    m3l1 := pos
    m3p2 := 0x600000
    m3i2 := BitVec.ofInt 32 bytes
    m3i3 := BitVec.ofNat 32 taskFs.val }

/-- The sectors of a turn are read, and for a write written back. -/
def RdwtTurn.requests (isRead : Bool) (dev : BitVec 32) (chunk : Int) (t : RdwtTurn) :
    List Message :=
  let request (ioType : MsgType) :=
    rwSector ioType dev (sectPosition true (BitVec.ofInt 32 t.sect)) (chunk * sectorSize)
  if isRead then [request .devRead] else [request .devRead, request .devWrite]

/-- What `do_rdwt` asks the driver for. -/
def rdwtRequests (dev : BitVec 32) (x : DiskInode) (isRead : Bool) (pos len : BitVec 32) :
    List Message :=
  let (chunk, turns) := rdwtTurns x isRead pos len
  turns.flatMap (RdwtTurn.requests isRead dev chunk)

/-- `do_rdwt` with the driver of device `dev` behind it: where one of the requests is not answered,
neither is the caller. -/
def doRdwtHd (user : Addr → Byte) (dev : BitVec 32) (fs : Fs) (pcaller : Slot) (isRead : Bool)
    (msg : Message) : Except Fault (Int × Fs) := do
  match ← rdwtDesc fs pcaller msg.fd with
  | none => .ok (-1, fs)
  | some (d, p) =>
    let pin := fs.inodeTable p
    if (pin.iMode = iRegular ∨ pin.iMode = iDirectory) ∧
        ¬ ∀ m ∈ rdwtRequests dev pin.toDiskInode isRead (fs.fDescTable d).fdPos msg.cnt,
          m.Answered then
      .error .spin
    else doRdwt user fs pcaller isRead msg

end MyOS
