import MyOS.Fs.Open

/-!
# Unlinking

`do_unlink` of `fs/link.c`. The bits of the sectors of a file are cleared in three parts: those in
the first byte, whole bytes, those in the last one; the middle part goes from one sector of the map
to the next.
-/

namespace MyOS

open Memory Block

/-- The sector of the map in hand, and the disk without it. -/
structure SmapFree where
  disk : Bytes
  s : Int
  fsbuf : Bytes

/-- `fsbuf[j] >> i & 1` is asserted and cleared, for the bits of the list. -/
def clearBits (j : ℕ) : List ℕ → Bytes → Except Fault Bytes
  | [], fsbuf => .ok fsbuf
  | i :: l, fsbuf => do
    assert (bit fsbuf (8 * j + i) = true)
    clearBits j l (clearBit fsbuf (8 * j + i))

/-- At the end of a sector it is written, and the next one is read. -/
def nextByte (st : SmapFree) (i : ℕ) : SmapFree × ℕ :=
  if i = sectorSize then
    let disk := wrSect st.disk st.s st.fsbuf
    (⟨disk, st.s + 1, rdSect disk (st.s + 1)⟩, 0)
  else (st, i)

/-- The loop over `k` whole bytes, with the first of them at `i`. -/
def clearBytes : ℕ → SmapFree → ℕ → Except Fault (SmapFree × ℕ)
  | 0, st, i => .ok (st, i)
  | k + 1, st, i => do
    let (st, i) := nextByte st i
    assert (st.fsbuf i = 0xFF)
    clearBytes k { st with fsbuf := put st.fsbuf i 0 } (i + 1)

/-- The bits of the sectors `startSect ..` of a file are cleared in the map. What the byte before
the map is taken for, where the file begins before the file area, is not followed. -/
def freeSmap (sb : SuperBlock) (disk : Bytes) (startSect nrSects : BitVec 32) :
    Except Fault Bytes := do
  let bitIdx := (startSect - sb.n1stSect + 1).toInt
  if bitIdx < 0 then .error .wild
  else
    let bitIdx := bitIdx.toNat
    let byteIdx := bitIdx / 8
    let bitsLeft := nrSects.toNat
    let first := min (8 - bitIdx % 8) bitsLeft
    let byteCnt := (((bitsLeft : Int) - (8 - bitIdx % 8 : ℕ)).tdiv 8).toNat
    let s : Int := 2 + sb.nrImapSects + byteIdx / sectorSize
    let fsbuf ← clearBits (byteIdx % sectorSize) ((List.range first).map (bitIdx % 8 + ·))
      (rdSect disk s)
    let (st, i) ← clearBytes byteCnt ⟨disk, s, fsbuf⟩ (byteIdx % sectorSize + 1)
    let (st, i) := nextByte st i
    let bitsLeft := bitsLeft - first - 8 * byteCnt
    -- the last byte: its bits below `bits_left` are set, and are cleared
    let mask : Byte := ~~~(0xFF <<< bitsLeft)
    assert (st.fsbuf i &&& mask = mask)
    .ok (wrSect st.disk st.s (put st.fsbuf i (st.fsbuf i &&& 0xFF <<< bitsLeft)))

/-- The walk for the entry of an inode: `dirSize` counts the bytes of the entries in use. -/
def findSect (fsbuf : Bytes) (nrDirEntries : ℕ) (inodeNr : BitVec 32) :
    List ℕ → ℕ → ℕ → Walk (ℕ × ℕ × ℕ) × ℕ
  | [], m, dirSize => (.next m, dirSize)
  | j :: l, m, dirSize =>
    if nrDirEntries < m + 1 then (.stop, dirSize)
    else if entryInodeNr fsbuf j = inodeNr then (.found (j, m + 1, dirSize), dirSize)
    else findSect fsbuf nrDirEntries inodeNr l (m + 1)
      (if entryInodeNr fsbuf j ≠ invalidInode then dirSize + dirEntrySize else dirSize)

/-- The sector and the entry found, `m` and `dirSize` there. -/
def findLoop (disk : Bytes) (dirBlk0Nr nrDirEntries : ℕ) (inodeNr : BitVec 32) :
    List ℕ → ℕ → ℕ → Option (ℕ × ℕ × ℕ × ℕ)
  | [], _, _ => none
  | i :: l, m, dirSize =>
    match findSect (rdSect disk (dirBlk0Nr + i)) nrDirEntries inodeNr
      (List.range nrDirEntriesPerSect) m dirSize with
    | (.found (j, m, dirSize), _) => some (i, j, m, dirSize)
    | (.stop, _) => none
    | (.next m, dirSize) => findLoop disk dirBlk0Nr nrDirEntries inodeNr l m dirSize

/-- The entry of the inode is zeroed. Where it is the last one the directory shrinks, to the size
the entries in use would have. -/
def removeEntry (fs : Fs) (dir : Entry) (inodeNr : BitVec 32) : Except Fault Fs := do
  let dirInode := fs.inodeTable dir
  let dirBlk0Nr := dirInode.iStartSect.toNat
  let nrDirBlks := (dirInode.iSize + sectorSize).toNat / sectorSize
  let nrDirEntries := dirInode.iSize.toNat / dirEntrySize
  match findLoop fs.disk dirBlk0Nr nrDirEntries inodeNr (List.range nrDirBlks) 0 0 with
  | none => .error .assertion
  | some (i, j, m, dirSize) =>
    let fsbuf := blit (rdSect fs.disk (dirBlk0Nr + i)) (j * dirEntrySize) dirEntrySize fun _ => 0
    let fs := { fs with disk := wrSect fs.disk (dirBlk0Nr + i) fsbuf }
    if m = nrDirEntries then
      syncInode (fs.setInode dir fun x => { x with iSize := BitVec.ofNat 32 dirSize }) dir
    else .ok fs

/-- A file that may be removed: its bits and its inode are cleared, and its entry is removed. -/
def removeFile (fs : Fs) (pin : Entry) (inodeNr : BitVec 32) : Except Fault Fs :=
  let x := fs.inodeTable pin
  if inodeNr.toInt < 0 then .error .wild
  else do
    assert (inodeNr.toNat / 8 < sectorSize)
    let fsbuf := rdSect fs.disk 2
    assert (bit fsbuf inodeNr.toNat = true)
    let disk := wrSect fs.disk 2 (clearBit fsbuf inodeNr.toNat)
    let disk ← freeSmap fs.sb disk x.iStartSect x.iNrSects
    let fs := { fs with disk }.setInode pin fun x =>
      { x with iMode := 0, iSize := 0, iStartSect := 0, iNrSects := 0 }
    let fs ← syncInode fs pin
    let fs ← putInode fs pin
    removeEntry fs fs.rootInode inodeNr

/-- A regular file that nobody else has open is removed; what is refused after `get_inode` stays
counted. -/
def doUnlink (user : Addr → Byte) (fs : Fs) (msg : Message) : Except Fault (Int × Fs) := do
  let path ← getPath user msg
  if path = [slash] then .ok (-1, fs)
  else
    let inodeNr := searchFile fs path
    if inodeNr = invalidInode then .ok (-1, fs)
    else
      match stripPath path with
      | none => .ok (-1, fs)
      | some _ => do
        match ← getInode fs inodeNr.toInt with
        | (none, _) => .error .wild
        | (some pin, fs) =>
          if (fs.inodeTable pin).iMode ≠ iRegular then .ok (-1, fs)
          else if 1 < (fs.inodeTable pin).iCnt then .ok (-1, fs)
          else do
            let fs ← removeFile fs pin inodeNr
            .ok (0, fs)

end MyOS
