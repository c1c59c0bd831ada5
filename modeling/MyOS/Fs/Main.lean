import MyOS.Fs.ReadWrite
import MyOS.Fs.Link

/-!
# The file system's life

`fs/main.c`: the file system is made on the disk, its tables are set up, and requests are handled
one after the other. A fork reaches the file system after the memory manager has copied the parent's
entry of the process table, `filp` included.
-/

namespace MyOS

open Memory Block

/-! ## Making a file system -/

def mkfsSb (nrSects : ℕ) : SuperBlock :=
  let bitsPerSect := sectorSize * 8
  let nrInodeSects := bitsPerSect * inodeSize / sectorSize
  let nrSmapSects := nrSects / bitsPerSect + 1
  { nrSects, nrImapSects := 1, nrSmapSects, n1stSect := 1 + 1 + 1 + nrSmapSects + nrInodeSects }

/-- The bits of `cmd.tar`, one by one, over the sectors of the map: the disk, `fsbuf` and
`cur_sect` at the end. -/
def markInstall (sb : SuperBlock) : ℕ → ℕ → Device → Bytes → ℕ → Device × Bytes × ℕ
  | 0, _, d, fsbuf, curSect => (d, fsbuf, curSect)
  | bitLeft + 1, bitOff, d, fsbuf, curSect =>
    let fsbuf := setBit fsbuf bitOff
    if bitOff + 1 = sectorSize * 8 then
      let d := d.wr (2 + sb.nrImapSects + curSect : ℕ) fsbuf
      let curSect := curSect + 1
      markInstall sb bitLeft 0 d (rdSect d.disk (2 + sb.nrImapSects + curSect : ℕ)) curSect
    else markInstall sb bitLeft (bitOff + 1) d fsbuf curSect

/-- The string `sprintf(pde->name, "dev_tty%d", i)` writes. -/
def ttyName (i : ℕ) : List Byte :=
  [0x64, 0x65, 0x76, 0x5F, 0x74, 0x74, 0x79, 0x30 + BitVec.ofNat 8 i]

/-- "cmd.tar" -/
def cmdTar : List Byte := [0x63, 0x6D, 0x64, 0x2E, 0x74, 0x61, 0x72]

/-- The inodes of the first sector of the inode array, in order. -/
def mkfsInodes (sb : SuperBlock) : List DiskInode :=
  ⟨iDirectory, BitVec.ofNat 32 (dirEntrySize * 5), BitVec.ofNat 32 sb.n1stSect,
    BitVec.ofNat 32 nrDefaultFileSects⟩ ::
  (List.range nrConsoles).map (fun i =>
    ⟨iCharSpecial, 0, makeDev devCharTty (BitVec.ofNat 32 i), 0⟩) ++
  [⟨iRegular, BitVec.ofNat 32 (installNrSects * sectorSize), BitVec.ofNat 32 installStartSect,
    BitVec.ofNat 32 installNrSects⟩]

/-- The entries of the root directory, in order. -/
def mkfsEntries : List (ℕ × List Byte) :=
  (1, [0x2E]) :: (List.range nrConsoles).map (fun i => (i + 2, ttyName i)) ++
    [(nrConsoles + 2, cmdTar)]

/-- The image of the super block, up to the offsets, which no code reads. -/
def superBlockImage (sb : SuperBlock) (fsbuf : Bytes) : Bytes :=
  let words := [0x111, sectorSize * 8, sb.nrSects, sb.nrImapSects, sb.nrSmapSects, sb.n1stSect,
    sectorSize * 8 * inodeSize / sectorSize, rootInodeNr, inodeSize]
  (words.zipIdx).foldl (fun f x => putWord f (4 * x.2) (BitVec.ofNat 32 x.1)) fsbuf

/-- The writes of `mkfs` up to the maps. -/
def mkfsMaps (sb : SuperBlock) (d : Device) : Device :=
  let d := d.wr 1 (superBlockImage sb fun _ => 0x90)
  -- inode map
  let d := d.wr 2 ((List.range (nrConsoles + 3)).foldl setBit fun _ => 0)
  -- sector map
  let nr := nrDefaultFileSects + 1
  let fsbuf : Bytes := fun i => if i < nr / 8 then 0xFF else 0
  let fsbuf := (List.range (nr % 8)).foldl (fun f j => setBit f (8 * (nr / 8) + j)) fsbuf
  let d := d.wr (2 + sb.nrImapSects : ℕ) fsbuf
  (List.range' 1 (sb.nrSmapSects - 1)).foldl
    (fun d i => d.wr (2 + sb.nrImapSects + i : ℕ) fun _ => 0) d

/-- The writes of `mkfs` after the maps: the inodes and the root directory. -/
def mkfsFiles (sb : SuperBlock) (d : Device) : Device :=
  let fsbuf := (mkfsInodes sb).zipIdx.foldl (fun f x => writeInode f (inodeSize * x.2) x.1)
    fun _ => 0
  let d := d.wr (2 + sb.nrImapSects + sb.nrSmapSects : ℕ) fsbuf
  let fsbuf := mkfsEntries.zipIdx.foldl (fun f x =>
    strcpy (putWord f (dirEntrySize * x.2) (BitVec.ofNat 32 x.1.1)) (dirEntrySize * x.2 + 4) x.1.2)
    fun _ => 0
  d.wr sb.n1stSect fsbuf

/-- The assert of `mkfs` on the room for `cmd.tar`: words are subtracted. -/
def InstallFits (sb : SuperBlock) : Prop :=
  installStartSect + installNrSects <
    (BitVec.ofNat 32 sb.nrSects - BitVec.ofNat 32 nrSectsForLog).toNat

instance (sb : SuperBlock) : Decidable (InstallFits sb) := inferInstanceAs (Decidable (_ < _))

/-- The bits of `cmd.tar` from bit `bitOffset` of the map on. -/
def markCmdTar (sb : SuperBlock) (d : Device) (bitOffset : ℕ) : Device :=
  let curSect := bitOffset / (sectorSize * 8)
  let (d, fsbuf, curSect) := markInstall sb installNrSects (bitOffset % (sectorSize * 8)) d
    (rdSect d.disk (2 + sb.nrImapSects + curSect : ℕ)) curSect
  d.wr (2 + sb.nrImapSects + curSect : ℕ) fsbuf

def installBitOffset (sb : SuperBlock) : Int := installStartSect - sb.n1stSect + 1

/-- `mkfs`, on a partition of `nrSects` sectors: where it stops, with the device as it is then. The
assert on the first byte of the inode map compares two constants; for an offset below 0 the bits
would be set before `fsbuf`. -/
def mkfs (d : Device) (nrSects : ℕ) : Except (Fault × Device) Device :=
  let sb := mkfsSb nrSects
  let d := mkfsMaps sb d
  if ¬ InstallFits sb then .error (.assertion, d)
  else if installBitOffset sb < 0 then .error (.wild, d)
  else .ok (mkfsFiles sb (markCmdTar sb d (installBitOffset sb).toNat))

/-- The byte that the assert on the inode map looks at. -/
example : (List.range (nrConsoles + 3)).foldl setBit (fun _ => 0) 0 = 0x3F := by decide

/-- `init_fs`, with a disk of any contents: the super block is kept as `mkfs` wrote it. -/
def initFs (disk : Bytes) (nrSects : ℕ) : Except Fault Fs := do
  let d ← (mkfs ⟨disk, []⟩ nrSects).mapError Prod.fst
  let fs : Fs :=
    { disk := d.disk
      sb := mkfsSb nrSects
      inodeTable := fun _ => default
      fDescTable := fun _ => default
      filp := fun _ _ => none
      rootInode := 0 }
  match ← getInode fs rootInodeNr with
  | (none, _) => .error .wild
  | (some p, fs) => .ok { fs with rootInode := p }

/-! ## fork and exit -/

/-- A descriptor that is shared once more. -/
def forkFilp (child : Slot) (fs : Fs) (i : Entry) : Except Fault Fs :=
  match fs.filp child i with
  | none => .ok fs
  | some d =>
    match (fs.fDescTable d).fdInode with
    | none => .error .wild
    | some p =>
      .ok ((fs.setDesc d fun x => { x with fdCnt := x.fdCnt + 1 }).setInode p
        fun x => { x with iCnt := x.iCnt + 1 })

def fsFork (fs : Fs) (child : Slot) : Except Fault Fs :=
  (List.finRange 64).foldlM (forkFilp child) fs

def exitFilp (pid : Slot) (fs : Fs) (i : Entry) : Except Fault Fs :=
  match fs.filp pid i with
  | none => .ok fs
  | some d =>
    match (fs.fDescTable d).fdInode with
    | none => .error .wild
    | some p =>
      .ok (((fs.setInode p fun x => { x with iCnt := x.iCnt - 1 }).setDesc d fun x =>
        { x with
          fdCnt := x.fdCnt - 1
          fdInode := if x.fdCnt - 1 = 0 then none else x.fdInode }).setFilp pid i none)

def fsExit (fs : Fs) (pid : Slot) : Except Fault Fs :=
  (List.finRange 64).foldlM (exitFilp pid) fs

/-! ## Requests -/

/-- A request of `caller`, whose memory is `user` as it addresses it. -/
inductive FsRequest
  | open (caller : Slot) (user : Addr → Byte) (msg : Message)
  | close (caller : Slot) (msg : Message)
  | rdwt (caller : Slot) (user : Addr → Byte) (isRead : Bool) (msg : Message)
  | unlink (user : Addr → Byte) (msg : Message)
  | stat (user : Addr → Byte) (msg : Message)
  /-- `do_fork` has made `child` a copy of `parent`. -/
  | fork (parent child : Slot)
  | exit (pid : Slot)

/-- The `switch` of `task_fs`: the return value and the state after the request. -/
def fsCall (fs : Fs) : FsRequest → Except Fault (Int × Fs)
  | .open caller user msg => doOpen user fs caller msg
  | .close caller msg => doClose fs caller msg
  | .rdwt caller user isRead msg => doRdwt user fs caller isRead msg
  | .unlink user msg => doUnlink user fs msg
  | .stat user msg => do
    let (s, fs) ← doStat user fs msg
    .ok (if s.isSome then 0 else -1, fs)
  | .fork parent child => do
    let fs ← fsFork { fs with filp := Function.update fs.filp child (fs.filp parent) } child
    .ok (0, fs)
  | .exit pid => do
    let fs ← fsExit fs pid
    .ok (0, fs)

def fsHandle (fs : Fs) (r : FsRequest) : Except Fault Fs := do
  let (_, fs) ← fsCall fs r
  .ok fs

end MyOS
