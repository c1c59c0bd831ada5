import MyOS.Fs.Misc

/-!
# Opening, creating and closing

`fs/open.c`. A bit of a map is found byte by byte and then bit by bit; the sectors of a file are
taken from the first free bit on, and the assertion that the bits behind it are free is checked bit
by bit.
-/

namespace MyOS

open Memory Block

/-- `for(k = 0; ((fsbuf[j] >> k) & 1) != 0; k++)`, in a byte that is not `0xFF`. -/
def firstClear (fsbuf : Bytes) (j : ℕ) : ℕ :=
  ((List.range 8).find? fun k => bit fsbuf (8 * j + k) = false).getD 8

/-- The inode number, which is 0 where the first sector of the map is full: the `return` stands
within the loop over the sectors. -/
def allocImapBit (fs : Fs) : Except Fault (ℕ × Fs) :=
  let imapBlk0Nr : Int := 1 + 1
  if fs.sb.nrImapSects = 0 then .error .panic
  else
    let fsbuf := rdSect fs.disk imapBlk0Nr
    match (List.range sectorSize).find? fun j => fsbuf j ≠ 0xFF with
    | none => .ok (0, fs)
    | some j =>
      let inodeNr := 8 * j + firstClear fsbuf j
      .ok (inodeNr, { fs with disk := wrSect fs.disk imapBlk0Nr (setBit fsbuf inodeNr) })

/-- What `alloc_smap_bit` has in hand: the sector it is at, how many sectors are left to allocate,
and the first one allocated, or 0. -/
structure SmapAlloc where
  fsbuf : Bytes
  left : ℕ
  freeSectNr : ℕ

/-- `for(; k < 8; k++)`: the bits `8 * j + k` of the list, while sectors are left. -/
def allocBits (j : ℕ) : List ℕ → SmapAlloc → Except Fault SmapAlloc
  | [], a => .ok a
  | k :: l, a => do
    assert (bit a.fsbuf (8 * j + k) = false)
    let a := { a with fsbuf := setBit a.fsbuf (8 * j + k), left := a.left - 1 }
    if a.left = 0 then .ok a else allocBits j l a

/-- The turn of the loop for byte `j` of sector `i` of the map. -/
def allocByte (sb : SuperBlock) (i : ℕ) (a : SmapAlloc) (j : ℕ) : Except Fault SmapAlloc :=
  if a.left = 0 then .ok a
  else if a.freeSectNr = 0 then
    if a.fsbuf j = 0xFF then .ok a
    else
      let k := firstClear a.fsbuf j
      allocBits j ((List.range 8).drop k)
        { a with freeSectNr := (i * sectorSize + j) * 8 + k + sb.n1stSect - 1 }
  else allocBits j (List.range 8) a

/-- The loop over the sectors of the map: the first sector allocated, the sectors left to allocate
and the disk. -/
def allocSmapLoop (sb : SuperBlock) : List ℕ → Bytes → ℕ → ℕ → Except Fault (ℕ × ℕ × Bytes)
  | [], disk, left, free => .ok (free, left, disk)
  | i :: l, disk, left, free => do
    let blk : Int := 1 + 1 + sb.nrImapSects + i
    let a ← (List.range sectorSize).foldlM (allocByte sb i) ⟨rdSect disk blk, left, free⟩
    let disk := if a.freeSectNr ≠ 0 then wrSect disk blk a.fsbuf else disk
    if a.left = 0 then .ok (a.freeSectNr, 0, disk)
    else allocSmapLoop sb l disk a.left a.freeSectNr

def allocSmapBit (fs : Fs) (nrSectsToAlloc : ℕ) : Except Fault (ℕ × Fs) := do
  let (free, left, disk) ←
    allocSmapLoop fs.sb (List.range fs.sb.nrSmapSects) fs.disk nrSectsToAlloc 0
  assert (left = 0)
  .ok (free, { fs with disk })

/-- The inode is got as it is on the disk, changed, and written back. There is none with number 0:
then all that goes to the page of the null pointer, `sync_inode` puts it below `fsbuf`, and the
sector it writes is the one it has read. -/
def newInode (fs : Fs) (inodeNr startSect : ℕ) : Except Fault (Option Entry × Fs) := do
  match ← getInode fs inodeNr with
  | (none, fs) => .ok (none, fs)
  | (some p, fs) => do
    let fs := fs.setInode p fun _ =>
      { iMode := iRegular, iSize := 0, iStartSect := BitVec.ofNat 32 startSect,
        iNrSects := BitVec.ofNat 32 nrDefaultFileSects, iCnt := 1, iNum := inodeNr }
    let fs ← syncInode fs p
    .ok (some p, fs)

/-- Whether the walk for a free entry ends in this sector: at the entry given, which is free or
behind the last one. -/
def freeSect (fsbuf : Bytes) (nrDirEntries : ℕ) : List ℕ → ℕ → Walk (ℕ × Bool)
  | [], m => .next m
  | j :: l, m =>
    if nrDirEntries < m + 1 then .found (j, false)
    else if entryInodeNr fsbuf j = 0 then .found (j, true)
    else freeSect fsbuf nrDirEntries l (m + 1)

/-- The sector and the entry where the walk ends, and whether that was a free entry. The walk is
longer than the directory, so it ends within it; behind its last sector `pde` would be a stray
pointer. -/
def freeLoop (disk : Bytes) (dirBlk0Nr : ℕ) (nrDirEntries : ℕ) :
    List ℕ → ℕ → Except Fault (ℕ × ℕ × Bool)
  | [], _ => .error .wild
  | i :: l, m =>
    match freeSect (rdSect disk (dirBlk0Nr + i)) nrDirEntries (List.range nrDirEntriesPerSect)
        m with
    | .found (j, free) => .ok (i, j, free)
    | .stop => .error .wild
    | .next m => freeLoop disk dirBlk0Nr nrDirEntries l m

/-- `strcpy`, with its null. -/
def strcpy (f : Bytes) (a : ℕ) (s : List Byte) : Bytes :=
  blit f a (s.length + 1) fun i => s.getD i 0

def newDirEntry (fs : Fs) (dir : Entry) (inodeNr : Int) (filename : List Byte) :
    Except Fault Fs := do
  let dirInode := fs.inodeTable dir
  let dirBlk0Nr := dirInode.iStartSect.toNat
  let nrDirBlks := (dirInode.iSize + sectorSize).toNat / sectorSize
  let nrDirEntries := dirInode.iSize.toNat / dirEntrySize
  let (i, j, free) ← freeLoop fs.disk dirBlk0Nr nrDirEntries (List.range nrDirBlks) 0
  let fs := if free then fs else fs.setInode dir fun x => { x with iSize := x.iSize + dirEntrySize }
  let fsbuf := putWord (rdSect fs.disk (dirBlk0Nr + i)) (j * dirEntrySize) (BitVec.ofInt 32 inodeNr)
  let fsbuf := strcpy fsbuf (j * dirEntrySize + 4) filename
  syncInode { fs with disk := wrSect fs.disk (dirBlk0Nr + i) fsbuf } dir

/-- A null pointer where the path is refused, and where no inode is free: there `i_num` is what
`new_inode` has put behind the pointer. -/
def createFile (fs : Fs) (path : List Byte) : Except Fault (Option Entry × Fs) :=
  match stripPath path with
  | none => .ok (none, fs)
  | some filename => do
    let (inodeNr, fs) ← allocImapBit fs
    let (freeSectNr, fs) ← allocSmapBit fs nrDefaultFileSects
    let (newino, fs) ← newInode fs inodeNr freeSectNr
    let iNum := newino.elim (inodeNr : Int) fun p => (fs.inodeTable p).iNum
    let fs ← newDirEntry fs fs.rootInode iNum filename
    .ok (newino, fs)

/-- The inode `do_open` connects; a null pointer where it returns -1. -/
def openInode (fs : Fs) (path : List Byte) (flags : BitVec 32) :
    Except Fault (Option Entry × Fs) :=
  let inodeNr := searchFile fs path
  if flags &&& oCreat ≠ 0 then
    if inodeNr ≠ 0 then .ok (none, fs) else createFile fs path
  else do
    assert (flags &&& oRdwr ≠ 0)
    match stripPath path with
    | none => .ok (none, fs)
    | some _ => getInode fs inodeNr.toInt

/-- What `do_open` asserts of an inode it has connected. -/
def assertKind (pin : Inode) : Except Fault Unit :=
  let imode := pin.iMode &&& iTypeMask
  if imode = iCharSpecial then assert (major pin.iStartSect = devCharTty)
  else if imode = iDirectory then assert (pin.iNum = rootInodeNr)
  else assert (pin.iMode = iRegular)

/-- A free entry of `filp` gets a free descriptor of the inode that is found or created; -1 where
there is none. -/
def doOpen (user : Addr → Byte) (fs : Fs) (pcaller : Slot) (msg : Message) :
    Except Fault (Int × Fs) := do
  let path ← getPath user msg
  match (List.finRange 64).find? fun fd => fs.filp pcaller fd = none with
  | none => .error .panic
  | some fd =>
    match (List.finRange 64).find? fun d => (fs.fDescTable d).fdInode = none with
    | none => .error .panic
    | some d => do
      match ← openInode fs path msg.flags with
      | (none, fs) => .ok (-1, fs)
      | (some pin, fs) => do
        let fs := (fs.setFilp pcaller fd (some d)).setDesc d fun _ =>
          { fdMode := msg.flags, fdPos := 0, fdCnt := 1, fdInode := some pin }
        assertKind (fs.inodeTable pin)
        .ok (fd.val, fs)

/-- `filp[fd]`, read outside the array for a bad `fd`. -/
def filpAt (fs : Fs) (pcaller : Slot) (fd : BitVec 32) : Except Fault (Entry × Option Entry) :=
  if h : fd.toNat < 64 then .ok (⟨fd.toNat, h⟩, fs.filp pcaller ⟨fd.toNat, h⟩) else .error .wild

def doClose (fs : Fs) (pcaller : Slot) (msg : Message) : Except Fault (Int × Fs) := do
  match ← filpAt fs pcaller msg.fd with
  | (_, none) => .error .wild
  | (fd, some d) =>
    match (fs.fDescTable d).fdInode with
    | none => .error .wild
    | some pin => do
      let fs ← putInode fs pin
      let fs := fs.setDesc d fun x =>
        { x with fdCnt := x.fdCnt - 1, fdInode := if x.fdCnt - 1 = 0 then none else x.fdInode }
      .ok (0, fs.setFilp pcaller fd none)

end MyOS
