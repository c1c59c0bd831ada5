import MyOS.Fs.State

/-!
# Paths and lookup

`strip_path`, `search_file` and `do_stat` of `fs/misc.c`. A directory is read sector by sector and
entry by entry; `m` counts the entries that have been looked at.
-/

namespace MyOS

open Memory Block

/-- What is copied of a path, up to its first null; a negative length would copy over everything. -/
def getPath (user : Addr → Byte) (msg : Message) : Except Fault (List Byte) := do
  assert (msg.nameLen.toInt < maxPath)
  if msg.nameLen.toInt < 0 then .error .wild
  else
    .ok (((List.range msg.nameLen.toNat).map fun i =>
      user (msg.pathname + BitVec.ofNat 32 i)).takeWhile (· ≠ 0))

/-- A text at address 0 of whoever names it, -/
def textAt (path : List Byte) : Addr → Byte := fun a => path.getD a.toNat 0

/-- and the fields of the message that names it. -/
def nameMsg (path : List Byte) (flags : BitVec 32) : Message :=
  ⟨0, 0, flags, BitVec.ofNat 32 path.length, 0, 0, 0, 0, 0, 0⟩

def slash : Byte := 0x2F

/-- The loop of `strip_path`, with `n` characters of the name found. -/
def stripLoop : ℕ → List Byte → Option (List Byte)
  | _, [] => some []
  | n, c :: s =>
    if c = slash then none
    else if maxFilenameLen ≤ n + 1 then some [c]
    else (stripLoop (n + 1) s).map (c :: ·)

/-- The name in a path, none where `strip_path` refuses it; the directory is always the root. -/
def stripPath : List Byte → Option (List Byte)
  | [] => stripLoop 0 []
  | c :: s => if c = slash then stripLoop 0 s else stripLoop 0 (c :: s)

/-! ## Directory entries -/

def nrDirEntriesPerSect : ℕ := sectorSize / dirEntrySize

def entryInodeNr (fsbuf : Bytes) (j : ℕ) : BitVec 32 := word fsbuf (j * dirEntrySize)

def entryName (fsbuf : Bytes) (j : ℕ) : ℕ → Byte := fun i => fsbuf (j * dirEntrySize + 4 + i)

/-- `memcmp` of a name, padded with nulls, and that of an entry. -/
def SameName (filename : List Byte) (name : ℕ → Byte) : Prop :=
  ∀ i < maxFilenameLen, filename.getD i 0 = name i

instance (filename : List Byte) (name : ℕ → Byte) : Decidable (SameName filename name) :=
  inferInstanceAs (Decidable (∀ i < maxFilenameLen, _))

/-- How a walk over the entries of a sector ends: at an entry it looks for, after the last entry of
the directory, or at the end of the sector with the entries counted. -/
inductive Walk (α : Type)
  | found (x : α)
  | stop
  | next (m : ℕ)

def searchSect (fsbuf : Bytes) (filename : List Byte) (nrDirEntries : ℕ) :
    List ℕ → ℕ → Walk (BitVec 32)
  | [], m => .next m
  | j :: l, m =>
    if SameName filename (entryName fsbuf j) then .found (entryInodeNr fsbuf j)
    else if nrDirEntries < m + 1 then .stop
    else searchSect fsbuf filename nrDirEntries l (m + 1)

def searchLoop (disk : Bytes) (dirBlk0Nr : ℕ) (filename : List Byte) (nrDirEntries : ℕ) :
    List ℕ → ℕ → BitVec 32
  | [], _ => 0
  | i :: l, m =>
    match searchSect (rdSect disk (dirBlk0Nr + i)) filename nrDirEntries
      (List.range nrDirEntriesPerSect) m with
    | .found nr => nr
    | .stop => 0
    | .next m => searchLoop disk dirBlk0Nr filename nrDirEntries l m

def searchFile (fs : Fs) (path : List Byte) : BitVec 32 :=
  match stripPath path with
  | none => 0
  | some [] => BitVec.ofInt 32 (fs.inodeTable fs.rootInode).iNum
  | some (c :: s) =>
    let dirInode := fs.inodeTable fs.rootInode
    let nrDirBlks := (dirInode.iSize + sectorSize - 1).toNat / sectorSize
    let nrDirEntries := dirInode.iSize.toNat / dirEntrySize
    searchLoop fs.disk dirInode.iStartSect.toNat (c :: s) nrDirEntries (List.range nrDirBlks) 0

/-- `struct stat`, without the device. -/
structure Stat where
  stIno : Int
  stMode : BitVec 32
  stRdev : BitVec 32
  stSize : BitVec 32
  deriving DecidableEq, Repr

def isSpecial (m : BitVec 32) : Prop :=
  m &&& iTypeMask = iBlockSpecial ∨ m &&& iTypeMask = iCharSpecial

instance (m : BitVec 32) : Decidable (isSpecial m) := inferInstanceAs (Decidable (_ ∨ _))

/-- `sizeof(struct stat)` -/
def Stat.size : ℕ := 20

def Inode.stat (x : Inode) : Stat where
  stIno := x.iNum
  stMode := x.iMode
  stRdev := if isSpecial x.iMode then x.iStartSect else noDev
  stSize := x.iSize

/-- What is copied to the caller, none where it gets -1. -/
def doStat (user : Addr → Byte) (fs : Fs) (msg : Message) : Except Fault (Option Stat × Fs) := do
  let path ← getPath user msg
  let inodeNr := searchFile fs path
  if inodeNr = invalidInode then .ok (none, fs)
  else
    match stripPath path with
    | none => .error .assertion
    | some _ => do
      match ← getInode fs inodeNr.toInt with
      | (none, _) => .error .wild
      | (some pin, fs) => do
        let s := (fs.inodeTable pin).stat
        let fs ← putInode fs pin
        .ok (some s, fs)

end MyOS
