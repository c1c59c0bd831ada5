import MyOS.UserCopies

/-!
# exec, from the arguments to the new image

`execv` of `lib/exec.c` and `do_exec` of `mm/exec.c`. The memory manager is a client of the file
system on the way: it asks for the status of the file, opens it and reads it into `mmbuf`, and then
writes the segments and the arguments to its caller's memory. `mmbuf` and `mm_msg` are in the one
memory of the machine; the copies of the path and of the arguments are on the memory manager's
stack, which is not modelled.
-/

namespace MyOS

open Memory Block

/-! ## The caller -/

/-- The loop over the arguments that counts their pointers. -/
def execvCount : List (List Byte) → ℕ → Except Fault ℕ
  | [], stackLen => .ok stackLen
  | _ :: l, stackLen => do
    assert (stackLen + 2 * 4 < procOriginStack)
    execvCount l (stackLen + 4)

/-- The loop that puts the strings behind the pointers, the next of which goes to `q`. -/
def execvStrings (buf : Addr) : List (List Byte) → ℕ → ℕ → Bytes → Except Fault (ℕ × Bytes)
  | [], _, stackLen, argStack => .ok (stackLen, argStack)
  | s :: l, q, stackLen, argStack => do
    let argStack := putWord argStack q (buf + BitVec.ofNat 32 stackLen)
    assert (stackLen + s.length + 1 < procOriginStack)
    let argStack := strcpy argStack stackLen s
    let stackLen := stackLen + s.length
    execvStrings buf l (q + 4) (stackLen + 1) (put argStack stackLen 0)

/-- `execv`, with its `arg_stack` at `buf`: `stack_len` and the contents. -/
def execv (argv : List (List Byte)) (buf : Addr) (argStack : Bytes) : Except Fault (ℕ × Bytes) := do
  let stackLen ← execvCount argv 0
  execvStrings buf argv 0 (stackLen + 4) (putWord argStack stackLen 0)

/-! ## The file -/

def mmbuf : Addr := 0x700000

/-- Memory as bytes, from an address on. -/
def bytesAt (mem : Mem) (a : Addr) : Bytes := fun i => mem (a + BitVec.ofNat 32 i)

/-- The bytes that the turns of a `READ` move to `la`. -/
def readTo (la : Addr) (disk : Bytes) (turns : List RdwtTurn) (mem : Mem) : Mem :=
  turns.foldl (fun mem t => poke mem (la + BitVec.ofInt 32 t.bytesRw) t.bytes.toNat
    (from_ disk (sectPos t.sect + t.off.toNat))) mem

/-- `read(fd, mmbuf, cnt)`. A terminal has no size, and a read of nothing is never answered. -/
def mmRead (fs : Fs) (mem : Mem) (fd cnt : BitVec 32) : Except Fault (Fs × Mem) := do
  match ← rdwtDesc fs taskMm fd with
  | none => .ok (fs, mem)
  | some (d, p) =>
    if (fs.inodeTable p).iMode &&& iTypeMask = iCharSpecial then .error .spin
    else do
      let (_, turns) := rdwtTurns (fs.inodeTable p).toDiskInode true (fs.fDescTable d).fdPos cnt
      let (_, fs') ← rdwtFile mem fs true { nameMsg [] fd with m3i2 := cnt, m3p2 := mmbuf } d p
      .ok (fs', readTo mmbuf fs.disk turns mem)

/-- `stat`, `open` and `read`: the size of the file, none where one of the first two fails. -/
def execRead (fs : Fs) (mem : Mem) (path : List Byte) :
    Except Fault (Option (BitVec 32) × Fs × Mem) := do
  match ← doStat (textAt path) fs (nameMsg path 0) with
  | (none, fs) => .ok (none, fs, mem)
  | (some s, fs) => do
    let (fd, fs) ← doOpen (textAt path) fs taskMm (nameMsg path oRdwr)
    if fd = -1 then .ok (none, fs, mem)
    else do
      assert (s.stSize.toInt < mmbufSize)
      let (fs, mem) ← mmRead fs mem (BitVec.ofInt 32 fd) s.stSize
      .ok (some s.stSize, fs, mem)

/-! ## The image -/

/-- The loop over the program headers, which are read from `mmbuf` as it goes; `e_phnum` has 16
bits. -/
def loadSegments (k : Kernel) (src : Slot) (imageSize : BitVec 32) :
    ℕ → ℕ → Mem → Except Fault Mem
  | 0, _, mem => .ok mem
  | fuel + 1, i, mem =>
    if i < (ePhnum (bytesAt mem mmbuf)).toNat then
      let h := progHdr (bytesAt mem mmbuf) i
      if h.pType = ptLoad then do
        assert (h.Fits imageSize)
        let la ← va2la k src h.pVaddr
        loadSegments k src imageSize fuel (i + 1)
          (memcpy mem la (mmbuf + h.pOffset) h.pFilesz.toNat)
      else loadSegments k src imageSize fuel (i + 1) mem
    else .ok mem

/-- A `phys_copy`, as the processor makes it. -/
structure PhysCopy where
  dst : Addr
  src : Addr
  n : BitVec 32
  deriving DecidableEq, Repr

/-- The copies of `loadSegments` that are executed, those before an assertion that fails too, each
with the program header it is made for. -/
def loadCopies (k : Kernel) (src : Slot) (imageSize : BitVec 32) :
    ℕ → ℕ → Mem → List (ProgHdr × PhysCopy)
  | 0, _, _ => []
  | fuel + 1, i, mem =>
    if i < (ePhnum (bytesAt mem mmbuf)).toNat then
      let h := progHdr (bytesAt mem mmbuf) i
      if h.pType = ptLoad then
        if h.Fits imageSize then
          match va2la k src h.pVaddr with
          | .error _ => []
          | .ok la => (h, ⟨la, mmbuf + h.pOffset, h.pFilesz⟩) ::
            loadCopies k src imageSize fuel (i + 1)
              (memcpy mem la (mmbuf + h.pOffset) h.pFilesz.toNat)
        else []
      else loadCopies k src imageSize fuel (i + 1) mem
    else []

/-- The pointers at the start of a copy of the arguments are moved, up to the null one, and `argc`
counts them: it is where `q` is. `words` words of the copy are left. -/
def relocate (delta : BitVec 32) : ℕ → ℕ → Bytes → Except Fault (ℕ × Bytes)
  | 0, _, _ => .error .wild
  | words + 1, argc, f =>
    if word f (4 * argc) = 0 then .ok (argc, f)
    else relocate delta words (argc + 1) (putWord f (4 * argc) (word f (4 * argc) + delta))

/-- Where the arguments go. -/
def origStack (imageSize : BitVec 32) : BitVec 32 := imageSize - BitVec.ofNat 32 procOriginStack

/-- `argc`, and the copy of the arguments that goes to the new image. -/
def argVector (imageSize : BitVec 32) (msg : Message) (f : Bytes) : Except Fault (ℕ × Bytes) :=
  if msg.bufLen = 0 then .ok (0, f)
  else relocate (origStack imageSize - msg.buf) (msg.bufLen.toNat / 4) 0 f

/-- The copy. -/
def argBlock (imageSize : BitVec 32) (msg : Message) (f : Bytes) : Except Fault Bytes :=
  (argVector imageSize msg f).map Prod.snd

/-- The arguments are fetched, relocated and put at the end of the image. -/
def copyArgs (k : Kernel) (src : Slot) (imageSize : BitVec 32) (msg : Message) (mem : Mem) :
    Except Fault Mem :=
  if procOriginStack < msg.bufLen.toNat then .error .wild
  else do
    let la ← va2la k src msg.buf
    let f ← argBlock imageSize msg (bytesAt mem la)
    let la ← va2la k src (origStack imageSize)
    .ok (poke mem la msg.bufLen.toNat f)

/-! ## The request -/

/-- What `do_exec` returns, and the file system and the kernel after it. -/
def doExec (mm : MmEnv) (fs : Fs) (k : Kernel) (src : Slot) : Except Fault (Int × Fs × Kernel) := do
  let path ← getPath (userMem k src) (Message.load k.mem mm.mmMsg)
  match ← execRead fs k.mem path with
  | (none, fs, mem) => .ok (-1, fs, { k with mem })
  | (some _, fs, mem) => do
    let mem ← loadSegments k src procImageSizeDefault (2 ^ 16) 0 mem
    let mem ← copyArgs k src procImageSizeDefault (Message.load mem mm.mmMsg) mem
    if nameSize ≤ path.length then .error .wild
    else
      .ok (0, fs, { k with mem }.set src fun p =>
        { p with pName := path.map fun c : Byte => Char.ofNat c.toNat })

/-- The memory manager's message lies in the kernel, below the buffers. -/
structure ExecEnv extends MmEnv where
  mmMsg_low : mmMsg.toNat + Message.size ≤ 0x600000

/-- The reply of `task_mm`. -/
def execReply (mm : MmEnv) (k : Kernel) (src : Slot) (retval : Int) : Except Fault Kernel :=
  mmSend k (proc2pid src) mm.mmMsg fun m =>
    { m with type := MsgType.syscallRet.code, m3i1 := BitVec.ofInt 32 retval }

end MyOS
