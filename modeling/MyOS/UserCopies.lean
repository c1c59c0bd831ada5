import MyOS.ForkExit
import MyOS.Fs.Main
import MyOS.Tty
import MyOS.Exec

/-!
# What a request touches of its caller

The physical bytes that the servers read or write on the side of a process that asks for something:
each copy goes through `va2la` of the process. A terminal that is read writes whenever a character
is typed, for as long as it keeps the request.
-/

namespace MyOS

open Memory Block

/-- A process that `do_fork` has made: its segments are still the ones it was given. -/
def Forked (k : Kernel) (p : Slot) : Prop :=
  ∃ mm k₀ parent k₁, forkProc mm k₀ parent = .ok (some p, k₁) ∧
    (k.procTable p).ldts = (k₁.procTable p).ldts

/-- The memory of a process, as it addresses it. -/
def userMem (k : Kernel) (p : Slot) : Addr → Byte := fun va =>
  k.mem (((k.procTable p).ldts 1).linear + va)

/-- A request, with what the servers know when it comes: the tables and the disk, the terminal
behind the descriptor, the file to execute. -/
inductive UserRequest
  | open (msg : Message)
  | unlink (msg : Message)
  | stat (fs : Fs) (msg : Message)
  | rdwt (fs : Fs) (tty : Tty) (isRead : Bool) (msg : Message)
  | exec (file : ExecFile) (msg : Message)

/-- `x` is one of the `n` bytes at `va` of process `p`. -/
def UserByte (k : Kernel) (p : Slot) (va : Addr) (n : BitVec 32) (x : Addr) : Prop :=
  ∃ la, va2la k p va = .ok la ∧ Within x la n.toNat

/-- What a terminal does while characters are typed, up to a stop. -/
def typed : List Byte → Tty → List TtyEvent
  | [], _ => []
  | ch :: l, t =>
    match takeChar t ch with
    | .error _ => []
    | .ok (t, ev) => ev ++ typed l t

/-- The terminal request that the file system forwards. -/
def ttyMsg (p : Slot) (msg : Message) : Message :=
  { msg with m3i3 := BitVec.ofInt 32 (proc2pid p) }

/-- The bytes of memory that are read or written for the buffers of a request: a path, what a file
or a terminal moves turn by turn, the reply of `stat`, the arguments and the segments of `exec`.
Of a file it counts also what a turn of more than 256 sectors, which does not come back, would
move. -/
inductive Touches (k : Kernel) (p : Slot) : UserRequest → Addr → Prop
  | open {msg : Message} {x : Addr} : msg.nameLen.toInt < maxPath →
    UserByte k p msg.pathname msg.nameLen x → Touches k p (.open msg) x
  | unlink {msg : Message} {x : Addr} : msg.nameLen.toInt < maxPath →
    UserByte k p msg.pathname msg.nameLen x → Touches k p (.unlink msg) x
  | statPath {fs : Fs} {msg : Message} {x : Addr} : msg.nameLen.toInt < maxPath →
    UserByte k p msg.pathname msg.nameLen x → Touches k p (.stat fs msg) x
  | statBuf {fs fs' : Fs} {msg : Message} {x : Addr} {s : Stat} :
    doStat (userMem k p) fs msg = .ok (some s, fs') →
    UserByte k p msg.buf (BitVec.ofNat 32 Stat.size) x → Touches k p (.stat fs msg) x
  | file {fs : Fs} {tty : Tty} {isRead : Bool} {msg : Message} {x : Addr} {d i : Entry}
    {t : RdwtTurn} : rdwtDesc fs p msg.fd = .ok (some (d, i)) →
    (fs.inodeTable i).iMode = iRegular ∨ (fs.inodeTable i).iMode = iDirectory →
    t ∈ (rdwtTurns (fs.inodeTable i).toDiskInode isRead (fs.fDescTable d).fdPos msg.cnt).2 →
    UserByte k p (msg.buf + BitVec.ofInt 32 t.bytesRw) (BitVec.ofInt 32 t.bytes) x →
    Touches k p (.rdwt fs tty isRead msg) x
  | ttyRead {fs : Fs} {tty : Tty} {msg : Message} {x la : Addr} {d i : Entry} {chs : List Byte}
    {ch : Byte} : rdwtDesc fs p msg.fd = .ok (some (d, i)) →
    (fs.inodeTable i).iMode &&& iTypeMask = iCharSpecial →
    major (fs.inodeTable i).iStartSect = devCharTty →
    va2la k p msg.buf = .ok la →
    .store x ch ∈ typed chs (ttyDoRead tty (proc2pid taskFs) la (ttyMsg p msg)) →
    Touches k p (.rdwt fs tty true msg) x
  | ttyWrite {fs : Fs} {tty : Tty} {msg : Message} {x la : Addr} {d i : Entry} {c : Addr × Int} :
    rdwtDesc fs p msg.fd = .ok (some (d, i)) →
    (fs.inodeTable i).iMode &&& iTypeMask = iCharSpecial →
    major (fs.inodeTable i).iStartSect = devCharTty →
    va2la k p msg.buf = .ok la → c ∈ ttyDoWrite la (ttyMsg p msg) →
    Within x c.1 (BitVec.ofInt 32 c.2).toNat → Touches k p (.rdwt fs tty false msg) x
  | exec {file : ExecFile} {msg : Message} {x : Addr} {c : UserCopy} :
    c ∈ doExecCopies file procImageSizeDefault msg → UserByte k p c.va c.n x →
    Touches k p (.exec file msg) x

/-- The memory of process `p`, one of those `do_fork` makes. -/
def imageBase (p : Slot) : ℕ :=
  procsBase.toNat + (p.val - (nrTasks + nrNativeProcs)) * procImageSizeDefault.toNat

def InImage (p : Slot) (x : Addr) : Prop :=
  imageBase p ≤ x.toNat ∧ x.toNat < imageBase p + procImageSizeDefault.toNat

end MyOS
