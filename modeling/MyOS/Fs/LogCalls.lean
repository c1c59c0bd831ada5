import MyOS.Fs.Disklog

/-!
# The calls of `disklog`

`fs/disklog.c`, the whole of a call with the sectors it writes. A string is the list of its bytes up
to the null. `pos` is below `2 ^ 31`: it grows with what is logged.
-/

namespace MyOS

open Memory Block

/-- The device and the static `pos`. -/
structure DiskLog where
  dev : Device
  pos : ℕ

/-- What `sprintf(fsbuf, "%8d\n", pos)` writes before the null. -/
def posLine (pos : ℕ) : List Byte :=
  let inner := (Nat.toDigits 10 pos).map fun c => BitVec.ofNat 8 c.toNat
  List.replicate (8 - inner.length) 0x20 ++ inner ++ [0x0A]

/-- `fsbuf` with the header of the log file. -/
def logHeader (fsbuf : Bytes) (pos : ℕ) : Bytes :=
  let fsbuf := blit fsbuf 0 ((posLine pos).length + 1) fun i => (posLine pos).getD i 0
  let fsbuf := put (blit fsbuf 9 22 fun _ => 0x20) 31 0x0A
  put (blit fsbuf 32 31 fun _ => 0x20) 63 0x0A

/-- Write `pos` into the log file header, and the header with padding into the last sector. -/
def writeHeader (sb : SuperBlock) (dev : Device) (pos : ℕ) : Device :=
  let fsbuf := logHeader (rdSect dev.disk (nrLogBlk0Nr sb)) pos
  let dev := dev.wr (nrLogBlk0Nr sb) fsbuf
  let fsbuf := blit fsbuf 64 (512 - 64) fun _ => fsbuf (32 + 19)
  dev.wr (nrLogBlk0Nr sb + nrSectsForLog - 1) fsbuf

end MyOS
