import MyOS.Lib.Block
import MyOS.Const
import MyOS.Message

/-!
# The disk driver

`kernel/hd.c`: the partitions of the drive and the command the controller gets for a request. A
request gives its place as a byte position in a partition; the command has the number of a sector
of the drive, of 28 bits, in four registers. The partitions are found when the drive is opened, in
the tables of its first sector and of the boot records that are linked from there.
-/

namespace MyOS

open Memory Block

def sectorSizeShift : ℕ := 9
def nrPartPerDrive : ℕ := 4
def nrPrimPerDrive : ℕ := nrPartPerDrive + 1
def nrSubPerPart : ℕ := 16
def nrSubPerDrive : ℕ := nrSubPerPart * nrPartPerDrive
def maxPrim : ℕ := 2 * nrPrimPerDrive - 1
def minorHd1a : ℕ := 0x10

structure PartInfo where
  base : BitVec 32
  size : BitVec 32
  deriving DecidableEq, Repr

/-- `hd_info[0]`, the one drive there is, without the count of its users. -/
structure HdInfo where
  primary : Fin 5 → PartInfo
  logical : Fin 64 → PartInfo

/-- `DRV_OF_DEV` -/
def drvOfDev (dev : Int) : Int :=
  if dev ≤ maxPrim then dev.tdiv nrPrimPerDrive else (dev - minorHd1a).tdiv nrSubPerDrive

/-- The entry of `hd_info` for a device, read outside the table for a bad one. -/
def partInfo (hdi : HdInfo) (device : Int) : Except Fault PartInfo :=
  if drvOfDev device ≠ 0 then .error .wild
  else if device < maxPrim then
    if h : 0 ≤ device ∧ device.toNat < 5 then .ok (hdi.primary ⟨device.toNat, h.2⟩)
    else .error .wild
  else
    let logidx := (device - minorHd1a).tmod nrSubPerDrive
    if h : 0 ≤ logidx ∧ logidx.toNat < 64 then .ok (hdi.logical ⟨logidx.toNat, h.2⟩)
    else .error .wild

structure HdCmd where
  features : BitVec 8
  count : BitVec 8
  lbaLow : BitVec 8
  lbaMid : BitVec 8
  lbaHigh : BitVec 8
  device : BitVec 8
  command : BitVec 8
  deriving DecidableEq, Repr

def ataRead : BitVec 8 := 0x20
def ataWrite : BitVec 8 := 0x30

def makeDeviceReg (lba drv lbaHighest : BitVec 32) : BitVec 8 :=
  (lba <<< 6 ||| drv <<< 4 ||| (lbaHighest &&& 0xF) ||| 0xA0).setWidth 8

/-- The sector the controller finds in a command. -/
def HdCmd.lba (c : HdCmd) : BitVec 32 :=
  (c.device &&& 0xF).setWidth 32 <<< 24 ||| c.lbaHigh.setWidth 32 <<< 16 |||
    c.lbaMid.setWidth 32 <<< 8 ||| c.lbaLow.setWidth 32

/-- The asserts of `hd_rdwt`: `1 << 31` is a negative `int`, which the comparison with a `u64`
makes `0xFFFFFFFF80000000`. -/
def PosOk (pos : BitVec 64) : Prop :=
  (pos >>> sectorSizeShift).toNat < ((1 <<< 31 : BitVec 32).signExtend 64).toNat ∧ pos &&& 0x1FF = 0

instance (pos : BitVec 64) : Decidable (PosOk pos) := inferInstanceAs (Decidable (_ ∧ _))

/-- The `count` of a command, of 8 bits. -/
def cmdCount (cnt : BitVec 32) : BitVec 8 :=
  (BitVec.ofInt 32 ((cnt + 512 - 1).toInt.tdiv 512)).setWidth 8

/-- `hd_rdwt` up to the command it sends. -/
def hdRdwtCmd (hdi : HdInfo) (p : Message) : Except Fault HdCmd := do
  let drive := drvOfDev p.device.toInt
  let pos := p.position
  assert (PosOk pos)
  let part ← partInfo hdi p.device.toInt
  let sectNr := (pos >>> sectorSizeShift).setWidth 32 + part.base
  .ok
    { features := 0
      count := cmdCount p.cnt
      lbaLow := (sectNr &&& 0xFF).setWidth 8
      lbaMid := (sectNr >>> 8 &&& 0xFF).setWidth 8
      lbaHigh := (sectNr >>> 16 &&& 0xFF).setWidth 8
      device := makeDeviceReg 1 (BitVec.ofInt 32 drive) (sectNr >>> 24 &&& 0xF)
      command := if p.type = MsgType.devRead.code then ataRead else ataWrite }

/-- The position that `RD_SECT`, `WR_SECT` and `do_rdwt` compute for a sector: a product of 32
bits, made a `u64`. Most sector numbers are `int`s; those `mkfs` computes from the super block have
no sign. -/
def sectPosition (isSigned : Bool) (sect : BitVec 32) : BitVec 64 :=
  if isSigned then (sect * 512).signExtend 64 else (sect * 512).setWidth 64

/-! ## The partition tables -/

def partitionTableOffset : ℕ := 0x1BE
def noPart : BitVec 8 := 0x00
def extPart : BitVec 8 := 0x05
def pPrimary : ℕ := 0
def pExtended : ℕ := 1

/-- What the driver looks at of a `part_ent`, of 16 bytes. -/
structure PartEnt where
  sysId : BitVec 8
  startSect : BitVec 32
  nrSects : BitVec 32
  deriving DecidableEq, Repr

def partEnt (f : Bytes) (a : ℕ) : PartEnt := ⟨f (a + 4), word f (a + 8), word f (a + 12)⟩

/-- The command of `get_part_table`. The sector is an `int`. -/
def partTableCmd (drive : Int) (sectNr : BitVec 32) : HdCmd where
  features := 0
  count := 1
  lbaLow := (sectNr &&& 0xFF).setWidth 8
  lbaMid := (sectNr.sshiftRight 8 &&& 0xFF).setWidth 8
  lbaHigh := (sectNr.sshiftRight 16 &&& 0xFF).setWidth 8
  device := makeDeviceReg 1 (BitVec.ofInt 32 drive) (sectNr.sshiftRight 24 &&& 0xF)
  command := ataRead

/-- `get_part_table`, on a drive with the bytes of `disk`: entry `i` of the table in the sector the
controller reads. Only the first four of `part_tbl` are ever read. -/
def getPartTable (disk : Bytes) (drive : Int) (sectNr : BitVec 32) : ℕ → PartEnt := fun i =>
  let hdbuf := from_ disk (512 * (partTableCmd drive sectNr).lba.toNat)
  partEnt hdbuf (partitionTableOffset + 16 * i)

namespace HdInfo

def setPrimary (hdi : HdInfo) (devNr : ℕ) (p : PartInfo) : Except Fault HdInfo :=
  if h : devNr < 5 then .ok { hdi with primary := Function.update hdi.primary ⟨devNr, h⟩ p }
  else .error .wild

def setLogical (hdi : HdInfo) (devNr : Int) (p : PartInfo) : Except Fault HdInfo :=
  if h : 0 ≤ devNr ∧ devNr.toNat < 64 then
    .ok { hdi with logical := Function.update hdi.logical ⟨devNr.toNat, h.2⟩ p }
  else .error .wild

end HdInfo

/-- The loop over the boot records of an extended partition. -/
def extendedLoop (disk : Bytes) (drive : Int) (extStartSect : BitVec 32) (nr1stSub : Int) :
    List ℕ → BitVec 32 → HdInfo → Except Fault HdInfo
  | [], _, hdi => .ok hdi
  | i :: l, s, hdi => do
    let partTbl := getPartTable disk drive s
    let hdi ← hdi.setLogical (nr1stSub + i) ⟨s + (partTbl 0).startSect, (partTbl 0).nrSects⟩
    let s := extStartSect + (partTbl 1).startSect
    if (partTbl 1).sysId = noPart then .ok hdi
    else extendedLoop disk drive extStartSect nr1stSub l s hdi

/-- `partition(device, P_EXTENDED)` -/
def partitionExtended (disk : Bytes) (device : Int) (hdi : HdInfo) : Except Fault HdInfo :=
  let drive := drvOfDev device
  let j := device.tmod nrPrimPerDrive
  if h : drive = 0 ∧ 0 ≤ j ∧ j.toNat < 5 then
    let extStartSect := (hdi.primary ⟨j.toNat, h.2.2⟩).base
    let nr1stSub := (j - 1) * nrSubPerPart
    extendedLoop disk drive extStartSect nr1stSub (List.range nrSubPerPart) extStartSect hdi
  else .error .wild

/-- A turn over the table of the first sector, with the partitions counted. -/
def primaryTurn (disk : Bytes) (device : Int) (partTbl : ℕ → PartEnt) (s : HdInfo × ℕ) (i : ℕ) :
    Except Fault (HdInfo × ℕ) := do
  let ent := partTbl i
  if ent.sysId = noPart then .ok s
  else do
    let devNr := i + 1
    let hdi ← s.1.setPrimary devNr ⟨ent.startSect, ent.nrSects⟩
    -- the condition is an assignment: `part_tbl[i].sys_id = EXT_PART`
    let ent := { ent with sysId := extPart }
    let hdi ← if ent.sysId ≠ 0 then partitionExtended disk (device + devNr) hdi else .ok hdi
    .ok (hdi, s.2 + 1)

/-- `partition(device, P_PRIMARY)` -/
def partitionPrimary (disk : Bytes) (device : Int) (hdi : HdInfo) : Except Fault HdInfo :=
  let drive := drvOfDev device
  if drive ≠ 0 then .error .wild
  else do
    let partTbl := getPartTable disk drive (BitVec.ofInt 32 drive)
    let (hdi, nrPrimParts) ←
      (List.range nrPartPerDrive).foldlM (primaryTurn disk device partTbl) (hdi, 0)
    assert (nrPrimParts ≠ 0)
    .ok hdi

def partition (disk : Bytes) (device : Int) (style : ℕ) (hdi : HdInfo) : Except Fault HdInfo :=
  if style = pPrimary then partitionPrimary disk device hdi
  else if style = pExtended then partitionExtended disk device hdi
  else .error .assertion

end MyOS
