import MyOS.Fs.Open

/-!
# The sectors of the log

`disklog` of `fs/disklog.c`, the part under `SET_LOG_SECT_SMAP_AT_STARTUP` that its first call runs
before it sets `pos`: the bits that are to keep other files from the last sectors of the device.
-/

namespace MyOS

open Memory Block

/-- `nr_log_blk0_nr`, an `int`. -/
def nrLogBlk0Nr (sb : SuperBlock) : Int :=
  (BitVec.ofNat 32 sb.nrSects - BitVec.ofNat 32 nrSectsForLog).toInt

/-- The turn for byte `byteOff`, with `bit_off` in the second component. The loop over the bits is
that of `alloc_smap_bit`. -/
def logByte (s : SmapAlloc × ℕ) (byteOff : ℕ) : Except Fault (SmapAlloc × ℕ) :=
  if s.1.left = 0 then .ok s
  else do
    let a ← allocBits byteOff ((List.range 8).drop s.2) s.1
    .ok (a, 0)

/-- The loop over the sectors of the map: what is left of `bits_left`, and the device. -/
def logMap (sectNr : Int) : List ℕ → Device → ℕ → ℕ → ℕ → Except Fault (ℕ × Device)
  | [], dev, _, _, bitsLeft => .ok (bitsLeft, dev)
  | i :: l, dev, byteOff, bitOff, bitsLeft => do
    let blk : Int := sectNr + i
    let (a, _) ← ((List.range sectorSize).drop byteOff).foldlM logByte
      (⟨rdSect dev.disk blk, bitsLeft, 0⟩, bitOff)
    let dev := dev.wr blk a.fsbuf
    if a.left = 0 then .ok (0, dev) else logMap sectNr l dev 0 0 a.left

/-- `SET_LOG_SECT_SMAP_AT_STARTUP`. For a device of less than the sectors of the log the bits would
be set before `fsbuf`. -/
def setLogSectSmap (sb : SuperBlock) (dev : Device) : Except Fault Device := do
  let bitsPerSect : ℕ := sectorSize * 8
  let smapBlk0Nr := 1 + 1 + sb.nrImapSects
  let sectNr := smapBlk0Nr + (nrLogBlk0Nr sb).tdiv bitsPerSect
  let byteOff := ((nrLogBlk0Nr sb).tmod bitsPerSect).tdiv 8
  let bitOff := ((nrLogBlk0Nr sb).tmod bitsPerSect).tmod 8
  let sectCnt := nrSectsForLog / bitsPerSect + 2
  if byteOff < 0 ∨ bitOff < 0 then .error .wild
  else do
    let (bitsLeft, dev) ←
      logMap sectNr (List.range sectCnt) dev byteOff.toNat bitOff.toNat nrSectsForLog
    assert (bitsLeft = 0)
    .ok dev

/-- The disk behind it, from boot on. -/
def disklogInit (fs : Fs) : Except Fault Fs := do
  let dev ← setLogSectSmap fs.sb ⟨fs.disk, []⟩
  .ok { fs with disk := dev.disk }

end MyOS
