import MyOS.Vsprintf
import MyOS.Fs.State

/-!
# untar

`untar` of `kernel/main.c`. A file is what has been written to it and where it is read next: `read`
takes the bytes from there on into `buf`, and `write` puts the bytes of `buf` behind those of the
file that was opened last. Of the file system only this is kept, and whether it creates a file; the
messages on the terminal are left out.
-/

namespace MyOS

open Memory

/-- `sizeof(buf)`, as a number of `int`. -/
def chunk : BitVec 32 := 8192

/-- The offset of `size` in `posix_tar_header`. -/
def posixTarHeaderSize : ℕ := 124

structure Tar where
  archive : List Byte
  pos : ℕ
  buf : List Byte
  /-- The files with what is in them, the last one created first. -/
  files : List (List Byte × List Byte)

namespace Tar

variable (t : Tar)

def read (count : BitVec 32) : Tar :=
  let data := (t.archive.drop t.pos).take count.toInt.toNat
  { t with pos := t.pos + data.length, buf := data ++ t.buf.drop data.length }

def write (count : BitVec 32) : Tar :=
  { t with files := t.files.modifyHead fun f => (f.1, f.2 ++ t.buf.take count.toInt.toNat) }

def create (name : List Byte) : Tar := { t with files := (name, []) :: t.files }

end Tar

/-- The string a pointer into a buffer points to. -/
def cString (l : List Byte) : Except Fault (List Byte) :=
  if 0 ∈ l then .ok (untilNull l) else .error .wild

/-- The loop over the octal digits at `p`. -/
def octalLoop (fLen : BitVec 32) : List Byte → Except Fault (BitVec 32)
  | [] => .error .wild
  | c :: p => if c ≠ 0 then octalLoop (fLen * 8 + (c.signExtend 32 - 0x30)) p else .ok fLen

/-- The loop that copies a member, in `n` turns at most. -/
def copyLoop : ℕ → BitVec 32 → Tar → Except Fault Tar
  | 0, _, _ => .error .spin
  | n + 1, bytesLeft, t =>
    if bytesLeft ≠ 0 then
      let iobytes := if chunk.toInt < bytesLeft.toInt then chunk else bytesLeft
      let t := t.read (((iobytes - 1).sdiv 512 + 1) * 512)
      let t := t.write iobytes
      copyLoop n (bytesLeft - iobytes) t
    else .ok t

/-- The loop over the members, in `n` turns at most. It comes back with `false` if a file could not
be created. -/
def untarLoop (opens : List Byte → Bool) : ℕ → Tar → Except Fault (Bool × Tar)
  | 0, _ => .error .spin
  | n + 1, t => do
    let t := t.read (BitVec.ofNat 32 sectorSize)
    if t.buf.headD 0 = 0 then .ok (true, t)
    else do
      let fLen ← octalLoop 0 (t.buf.drop posixTarHeaderSize)
      let name ← cString t.buf
      if opens name = false then .ok (false, t)
      else do
        let t ← copyLoop (fLen.toNat + 1) fLen (t.create name)
        untarLoop opens n t

/-- `archive` is the file, if there is one. -/
def untar (opens : List Byte → Bool) (archive : Option (List Byte)) (buf : List Byte) (n : ℕ) :
    Except Fault (Bool × Tar) :=
  match archive with
  | none => .error .assertion
  | some archive => untarLoop opens n { archive, pos := 0, buf, files := [] }

end MyOS
