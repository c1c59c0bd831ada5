import MyOS.Lib.Block

/-!
# Files as arrays of bytes

A file is a row of bytes and a size. A write replaces bytes, and the size grows with it; what is
read is what the last write over a place has put there.
-/

namespace Block

structure ByteFile where
  data : Bytes
  size : ℕ

namespace ByteFile

@[ext] theorem ext {f g : ByteFile} (hdata : f.data = g.data) (hsize : f.size = g.size) :
    f = g := by
  cases f
  cases g
  simp only at hdata hsize
  rw [hdata, hsize]

/-- The `len` bytes at `pos` replaced. -/
def write (f : ByteFile) (pos len : ℕ) (g : Bytes) : ByteFile :=
  ⟨blit f.data pos len g, max f.size (pos + len)⟩

/-- A write, with its place and its bytes. -/
structure Write where
  pos : ℕ
  len : ℕ
  bytes : Bytes

/-- The file after writes, the last one first. -/
def after (f : ByteFile) : List Write → ByteFile
  | [] => f
  | w :: l => (f.after l).write w.pos w.len w.bytes

@[simp] theorem after_nil (f : ByteFile) : f.after [] = f := rfl

@[simp] theorem after_cons (f : ByteFile) (w : Write) (l : List Write) :
    f.after (w :: l) = (f.after l).write w.pos w.len w.bytes := rfl

end ByteFile

end Block
